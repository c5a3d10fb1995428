import Sequitur.RegularForm
import Std.Data.TreeMap
import Std.Data.TreeSet

/-! Known formulas, in the order in which they were added. Of identical formulas only the
first is kept: each is filed under its regular form. -/

namespace Sequitur

abbrev FormulaSet := Std.TreeSet Formula Formula.compare

/-- The set of these formulas. Of formulas that compare equal, and so differ only in what is
shown of their names and in what is recorded of their symbols, the last is kept. -/
def FormulaSet.ofList (fs : List Formula) : FormulaSet :=
  fs.foldr (fun f others => others.insert f) {}

structure Facts where
  formulas : List Formula := []
  /-- The known formulas by their regular forms. -/
  forms : Std.TreeMap Formula Formula Formula.compare := {}
  deriving Inhabited

namespace Facts

def empty : Facts := {}

/-- Adds a formula, and says whether it was new. -/
def add (facts : Facts) (f : Formula) : Except Error (Facts × Bool) := do
  let form ← f.regularForm
  if facts.forms.contains form then return (facts, false)
  return (⟨facts.formulas ++ [f], facts.forms.insert form f⟩, true)

def addAll (facts : Facts) : List Formula → Except Error (Facts × Nat)
  | [] => .ok (facts, 0)
  | f :: fs => do
    let (facts, isNew) ← facts.add f
    let (facts, count) ← facts.addAll fs
    return (facts, if isNew then count + 1 else count)

def ofList (fs : List Formula) : Except Error Facts := return (← empty.addAll fs).1

/-- The known formula with this regular form. -/
def find? (facts : Facts) (form : Formula) : Option Formula := facts.forms[form]?

/-- The known formula identical to this one. -/
def findIdentical? (facts : Facts) (f : Formula) : Except Error (Option Formula) :=
  return facts.find? (← f.regularForm)

def contains (facts : Facts) (f : Formula) : Except Error Bool :=
  return facts.forms.contains (← f.regularForm)

def regularForms (facts : Facts) : FormulaSet := FormulaSet.ofList facts.forms.keys

end Facts

end Sequitur
