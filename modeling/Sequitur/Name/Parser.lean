import Sequitur.Error
import Sequitur.Text.Blank

/-! Reading a qualified name. -/

namespace Sequitur

/-- The last segment is what is shown; it must not be blank. -/
def Name.parse (full : String) : Except Error Name :=
  let display := lastSegment full
  if (Text.trim display.toList).isEmpty then .error (.invalidName full) else .ok ⟨display, full⟩

end Sequitur
