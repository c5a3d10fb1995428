import Sequitur.Deduction
import Sequitur.Facts

/-! From an implication and its premise, the conclusion. In a search either of the two may
be the one that was just obtained. -/

namespace Sequitur.ModusPonens

def name : Name := .qualified ["logic"] "Imply"

def description : String := "P, P→Q ⇒ Q"

def deduction (implication premise g : Formula) : Deduction :=
  { rule := name, formula := g, dependencies := [implication, premise] }

/-- The conclusions of implications among the given formulas whose premises are known. -/
def ofImplications (facts : Facts) : List Formula → Except Error (List Deduction)
  | [] => .ok []
  | .link .imply a b :: fs => do
    let premise ← facts.findIdentical? a
    let later ← ofImplications facts fs
    match premise with
    | some p => return deduction (.link .imply a b) p b :: later
    | none => return later
  | _ :: fs => ofImplications facts fs

/-- The conclusions of known implications, given with their regular forms, whose premises
were just obtained. An implication that was itself just obtained is passed over. -/
def ofPremises (frontier : FormulaSet) :
    List (Formula × Formula) → Except Error (List Deduction)
  | [] => .ok []
  | (form, .link .imply a b) :: rest => do
    if frontier.contains form then ofPremises frontier rest
    else
      let premise ← a.regularForm
      let later ← ofPremises frontier rest
      if frontier.contains premise then
        return deduction (.link .imply a b) premise b :: later
      return later
  | _ :: rest => ofPremises frontier rest

def apply (facts : Facts) : Except Error (List Deduction) := ofImplications facts facts.formulas

def seek (goal target : Formula) : List Deduction → Except Error Outcome
  | [] => .ok (.candidates [])
  | d :: ds => do
    let form ← d.formula.regularForm
    if form.same target then return .reached { d with formula := goal }
    let later ← seek goal target ds
    return later.after [d]

def advance (facts : Facts) (frontier : FormulaSet) (goal : Formula) : Except Error Outcome := do
  let target ← goal.regularForm
  let fresh ← ofImplications facts frontier.toList
  let older ← ofPremises frontier facts.forms.toList
  seek goal target (fresh ++ older)

end Sequitur.ModusPonens
