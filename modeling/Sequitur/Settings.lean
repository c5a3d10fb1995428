import Sequitur.Rule.Catalogue
import Sequitur.Text.Blank
import Sequitur.Text.Numeral

/-! Settings of a session. They can be given as text; text that says nothing sensible leaves
the default in place. -/

namespace Sequitur

structure Settings where
  /-- The depth of every search. -/
  searchDepth : Nat := Catalogue.defaultDepth
  /-- Whether a new definition is added to the searches. -/
  extendOnDefine : Bool := true
  deriving DecidableEq, Inhabited

namespace Settings

/-- A 64-bit number, which may have a plus sign in front. -/
def readDepth (s : String) : Option Nat :=
  match Text.trim s.toList with
  | '+' :: digits => Text.readIndex digits
  | digits => Text.readIndex digits

def readFlag (s : String) : Option Bool :=
  match String.ofList (Text.trim s.toList) with
  | "true" => some true
  | "false" => some false
  | _ => none

def read (depth extend : Option String) : Settings where
  searchDepth := (depth.bind readDepth).getD Catalogue.defaultDepth
  extendOnDefine := (extend.bind readFlag).getD true

end Settings

end Sequitur
