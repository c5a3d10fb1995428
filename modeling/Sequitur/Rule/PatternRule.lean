import Sequitur.Deduction
import Sequitur.Facts
import Sequitur.Transformation

/-! Rules that transform a known formula by a pattern. A definition works both ways: its two
sides have the same free variables and the same bare names, so that a match of either side
fills in the other. -/

namespace Sequitur

inductive Directions where
  | oneWay (w : Transformation)
  | twoWay (forward backward : Transformation)

structure PatternRule where
  name : Name
  description : String
  directions : Directions

namespace Definition

mutual

/-- The bare names of a formula, whose arguments have to be variables. -/
def references : Formula → Except Error (List String)
  | .atom (.named n) ts =>
    match ts.find? (·.asVar.isNone) with
    | some t => .error (.parameterNotVariable t n)
    | none => .ok [n.full]
  | .atom (.pred _) _ => .ok []
  | .not f => references f
  | .multi _ fs => allReferences fs
  | .link _ a b => do
    let left ← references a
    let right ← references b
    return left ++ right
  | .bind _ _ f => references f

def allReferences : List Formula → Except Error (List String)
  | [] => .ok []
  | f :: fs => do
    let first ← references f
    let later ← allReferences fs
    return first ++ later

end

/-- Both sides use the same bare names and have the same free variables. -/
def check (lhs rhs : Formula) : Except Error Unit := do
  let left ← references lhs
  let right ← references rhs
  match left.filter (· ∉ right) ++ right.filter (· ∉ left) with
  | name :: _ => throw (.formulaOnOneSide name)
  | [] => pure ()
  let onlyLeft := lhs.freeVars.filter (· ∉ rhs.freeVars)
  let onlyRight := rhs.freeVars.filter (· ∉ lhs.freeVars)
  match VarSet.union onlyLeft onlyRight with
  | v :: _ => throw (.variableOnOneSide v)
  | [] => pure ()

end Definition

namespace PatternRule

/-- Turns instances of either formula into instances of the other. -/
def exchange (name : Name) (description : String) (lhs rhs : Formula) : PatternRule :=
  ⟨name, description, .twoWay (.ofTemplates lhs rhs) (.ofTemplates rhs lhs)⟩

/-- The definition of one side by the other. -/
def define (name : Name) (description : String) (lhs rhs : Formula) : Except Error PatternRule := do
  Definition.check lhs rhs
  return exchange name description lhs rhs

/-- The results for a formula, no two of them identical. -/
def results (rule : PatternRule) (f : Formula) : Except Error (List Formula) :=
  match rule.directions with
  | .oneWay w => w.addResults [] f
  | .twoWay forward backward => do backward.addResults (← forward.addResults [] f) f

def deduction (rule : PatternRule) (f g : Formula) : Deduction :=
  { rule := rule.name, formula := g, dependencies := [f] }

def seek (rule : PatternRule) (goal : Formula) : List Formula → Except Error Outcome
  | [] => .ok (.candidates [])
  | f :: fs => do
    let gs ← rule.results f
    if gs.any (·.identical goal) then return .reached (rule.deduction f goal)
    let later ← seek rule goal fs
    return later.after (gs.map (rule.deduction f))

def applyAll (rule : PatternRule) : List Formula → Except Error (List Deduction)
  | [] => .ok []
  | f :: fs => do
    let gs ← rule.results f
    let later ← applyAll rule fs
    return gs.map (rule.deduction f) ++ later

def apply (rule : PatternRule) (facts : Facts) : Except Error (List Deduction) :=
  rule.applyAll facts.formulas

/-- The formula added last is tried first. -/
def towards (rule : PatternRule) (facts : Facts) (goal : Formula) : Except Error Outcome :=
  rule.seek goal facts.formulas.reverse

def advance (rule : PatternRule) (frontier : FormulaSet) (goal : Formula) : Except Error Outcome :=
  rule.seek goal frontier.toList

def describe (rule : PatternRule) : String :=
  match rule.directions with
  | .oneWay w => "MatcherRule(" ++ rule.name.full ++ ", " ++ w.pattern.describe ++ ")"
  | .twoWay _ _ => "MatcherEquivRule(" ++ rule.name.full ++ ")"

end PatternRule

end Sequitur
