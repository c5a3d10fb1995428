import Sequitur.Deduction
import Sequitur.Facts

/-! Joining known formulas into a conjunction. -/

namespace Sequitur.Conjunction

def name : Name := .qualified ["logic"] "AndConstruct"

def description : String := "P,Q ⇒ P∧Q"

/-- The known formulas identical to the given ones, if all are known. -/
def known (facts : Facts) : List Formula → Except Error (Option (List Formula))
  | [] => .ok (some [])
  | f :: fs => do
    match ← facts.findIdentical? f with
    | none => return none
    | some g => return (← known facts fs).map (g :: ·)

def apply (facts : Facts) (hints : Hints) : Except Error (List Deduction) := do
  if hints.formulas.length < 2 then return []
  match ← known facts hints.formulas with
  | none => return []
  | some sources =>
    return [{ rule := name, formula := .and hints.formulas, dependencies := sources }]

/-- Where the members of a goal come from: a known formula if there is one, or else the
frontier. -/
def sources (facts : Facts) (frontier : FormulaSet) :
    List Formula → Except Error (Option (List Formula))
  | [] => .ok (some [])
  | f :: fs => do
    let form ← f.regularForm
    match facts.find? form with
    | some g => return (← sources facts frontier fs).map (g :: ·)
    | none =>
      if frontier.contains form then return (← sources facts frontier fs).map (form :: ·)
      return none

def advance (facts : Facts) (frontier : FormulaSet) (goal : Formula) : Except Error Outcome := do
  match goal with
  | .multi .and fs =>
    match ← sources facts frontier fs with
    | some gs => return .reached { rule := name, formula := goal, dependencies := gs }
    | none => return .candidates []
  | _ => return .candidates []

end Sequitur.Conjunction
