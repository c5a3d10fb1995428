import Sequitur.Deduction
import Sequitur.Facts

/-! Removing nested conjunctions and disjunctions. The goal is reached from a formula that
flattens to the same, up to identity. -/

namespace Sequitur.Flattening

def name : Name := .qualified ["logic"] "Flatten"

def description : String := "(A∧B)∧C ⇒ A∧B∧C, (A∨B)∨C ⇒ A∨B∨C"

def deduction (source g : Formula) : Deduction :=
  { rule := name, formula := g, dependencies := [source] }

def seek (goal target : Formula) : List (Formula × Formula) → Except Error Outcome
  | [] => .ok (.candidates [])
  | (form, source) :: rest => do
    let g := form.flatten
    let flat ← g.regularForm
    if flat.same target then return .reached (deduction source goal)
    let later ← seek goal target rest
    return if g.same form then later else later.after [deduction source g]

def apply (facts : Facts) : List Deduction :=
  (facts.formulas.filter fun f => !f.same f.flatten).map fun f => deduction f f.flatten

def towards (facts : Facts) (goal : Formula) : Except Error Outcome := do
  seek goal (← goal.flatten.regularForm) facts.forms.toList

def advance (frontier : FormulaSet) (goal : Formula) : Except Error Outcome := do
  seek goal (← goal.flatten.regularForm) (frontier.toList.map fun f => (f, f))

end Sequitur.Flattening
