import Sequitur.Deduction
import Sequitur.Facts

/-! From a statement about a constant, that there is something of which it holds. -/

namespace Sequitur.Existential

def name : Name := .qualified ["logic"] "ExistConstant"

def description : String := "φ(c) ⇒ ∃x φ(x)"

def hinted (hints : Hints) : List Term :=
  hints.terms.filter fun
    | .const _ => true
    | _ => false

/-- For each constant, the statement with that constant replaced by a bound variable. Without
given constants those of the formula are taken. -/
def abstractions (given : List Term) (f : Formula) : List (Formula × Term) :=
  let x := f.freshVar
  let constants := if given.isEmpty then f.constants.map .const else given
  constants.map fun c => (.ex x (f.replace c (.var x)), c)

def deduction (source g : Formula) (c : Term) : Deduction :=
  { rule := name, formula := g, dependencies := [source], info := [("constant", c)] }

def apply (facts : Facts) (hints : Hints) : List Deduction :=
  facts.formulas.flatMap fun f =>
    (abstractions (hinted hints) f).map fun (g, c) => deduction f g c

/-- Goes through abstractions, each with its source, up to the first that is identical to
the goal. What is on the frontier already is no candidate. -/
def seek (frontier : FormulaSet) (goal target : Formula) : List Deduction → Except Error Outcome
  | [] => .ok (.candidates [])
  | d :: ds => do
    let form ← d.formula.regularForm
    if form.same target then return .reached { d with formula := goal }
    let later ← seek frontier goal target ds
    return if frontier.contains form then later else later.after [d]

def advance (facts : Facts) (frontier : FormulaSet) (hints : Hints) (goal : Formula) :
    Except Error Outcome := do
  let target ← goal.regularForm
  let sources := facts.formulas ++ frontier.toList
  seek frontier goal target (sources.flatMap fun f =>
    (abstractions (hinted hints) f).map fun (g, c) => deduction f g c)

end Sequitur.Existential
