import Sequitur.Formula.Printer

/-! Deductions, and derivations that tell how a formula came from known ones. -/

namespace Sequitur

/-- A formula with the rule that gave it and the derivations of its premises. A formula that
was known from the start has no rule. -/
inductive Derivation where
  | node (rule : Option Name) (formula : Formula) (premises : List Derivation)
  deriving Inhabited

namespace Derivation

def leaf (f : Formula) : Derivation := .node none f []

def formula : Derivation → Formula
  | .node _ f _ => f

/-- The number of rule applications. -/
def steps : Derivation → Nat
  | .node rule _ ds => (if rule.isSome then 1 else 0) + ds.foldr (fun d n => d.steps + n) 0

/-- One line a formula, premises below and further in. -/
def renderAt (depth : Nat) : Derivation → String
  | .node rule f ds =>
    let label := match rule with
      | some name => "  [" ++ name.display ++ "]"
      | none => ""
    String.ofList (List.replicate (2 * depth) ' ') ++ f.render ++ label ++ "\n" ++
      String.join (ds.map fun d => d.renderAt (depth + 1))

def render (d : Derivation) : String := d.renderAt 0

end Derivation

structure Deduction where
  rule : Name
  formula : Formula
  /-- The formulas it was obtained from. -/
  dependencies : List Formula
  /-- Further facts about the step, by name. -/
  info : List (String × Term) := []
  /-- How a search found it. -/
  derivation : Option Derivation := none
  deriving Inhabited

namespace Deduction

/-- Without a search, a deduction is one step from its dependencies. -/
def tree (d : Deduction) : Derivation :=
  d.derivation.getD (.node (some d.rule) d.formula (d.dependencies.map .leaf))

def render (d : Deduction) : String :=
  d.formula.render ++ "; by '" ++ d.rule.display ++ "' with " ++
    Text.bracketed (d.dependencies.map Formula.render)

end Deduction

structure Hints where
  formulas : List Formula := []
  terms : List Term := []
  deriving Inhabited

inductive Outcome where
  | reached (d : Deduction)
  /-- Not reached; these were found on the way. -/
  | candidates (ds : List Deduction)
  deriving Inhabited

namespace Outcome

def after (ds : List Deduction) : Outcome → Outcome
  | .reached d => .reached d
  | .candidates later => .candidates (ds ++ later)

end Outcome

end Sequitur
