/-! Names of symbols and rules. A name is known by its full text, such as `logic.DefImply`,
and shown by a shorter one. Two names are the same when their full texts are: what is shown
never distinguishes them. -/

namespace Sequitur

structure Name where
  display : String
  full : String
  deriving DecidableEq, Inhabited

namespace Name

def plain (s : String) : Name := ⟨s, s⟩

/-- `qualified ["sets"] "in"` is the name `sets.in`, shown as `in`. -/
def qualified (qualifiers : List String) (s : String) : Name :=
  ⟨s, String.join (qualifiers.map (· ++ ".")) ++ s⟩

/-- What follows the last dot, or everything when there is none. -/
def lastSegment (s : String) : String :=
  String.ofList (s.toList.reverse.takeWhile (· ≠ '.')).reverse

def same (a b : Name) : Bool := a.full == b.full

def compare (a b : Name) : Ordering := Ord.compare a.full b.full

def describe (a : Name) : String := "Name(" ++ a.full ++ ")"

@[simp] theorem same_iff {a b : Name} : a.same b = true ↔ a.full = b.full := by
  simp [same]

end Name

end Sequitur
