import Sequitur.Rule.Conjunction
import Sequitur.Rule.ExcludedMiddle
import Sequitur.Rule.Existential
import Sequitur.Rule.Flattening
import Sequitur.Rule.ModusPonens
import Sequitur.Rule.PatternRule

/-! Single inference steps. Each can be applied to all known formulas, aimed at a goal, or
aimed at a goal from a frontier of formulas that were just obtained. -/

namespace Sequitur

inductive Inference where
  | pattern (rule : PatternRule)
  | flattening
  | conjunction
  | modusPonens
  | excludedMiddle
  | existential

namespace Inference

def name : Inference → Name
  | .pattern rule => rule.name
  | .flattening => Flattening.name
  | .conjunction => Conjunction.name
  | .modusPonens => ModusPonens.name
  | .excludedMiddle => ExcludedMiddle.name
  | .existential => Existential.name

def description : Inference → String
  | .pattern rule => rule.description
  | .flattening => Flattening.description
  | .conjunction => Conjunction.description
  | .modusPonens => ModusPonens.description
  | .excludedMiddle => ExcludedMiddle.description
  | .existential => Existential.description

def apply (facts : Facts) (hints : Hints) : Inference → Except Error (List Deduction)
  | .pattern rule => rule.apply facts
  | .flattening => .ok (Flattening.apply facts)
  | .conjunction => Conjunction.apply facts hints
  | .modusPonens => ModusPonens.apply facts
  | .excludedMiddle => .ok (ExcludedMiddle.apply hints)
  | .existential => .ok (Existential.apply facts hints)

/-- An attempt at a goal from a frontier of regular forms. -/
def advance (facts : Facts) (frontier : FormulaSet) (hints : Hints) (goal : Formula) :
    Inference → Except Error Outcome
  | .pattern rule => rule.advance frontier goal
  | .flattening => Flattening.advance frontier goal
  | .conjunction => Conjunction.advance facts frontier goal
  | .modusPonens => ModusPonens.advance facts frontier goal
  | .excludedMiddle => .ok (ExcludedMiddle.advance goal)
  | .existential => Existential.advance facts frontier hints goal

def towards (facts : Facts) (hints : Hints) (goal : Formula) (rule : Inference) :
    Except Error Outcome :=
  match rule with
  | .pattern r => r.towards facts goal
  | .flattening => Flattening.towards facts goal
  | _ => rule.advance facts facts.regularForms hints goal

def describe : Inference → String
  | .pattern rule => rule.describe
  | .flattening => "Flatten" ++ named Flattening.name
  | .conjunction => "AndConstruct" ++ named Conjunction.name
  | .modusPonens => "Imply" ++ named ModusPonens.name
  | .excludedMiddle =>
    "ExcludeMiddle \x7b name: " ++ ExcludedMiddle.name.describe ++ ", matcher: " ++
      ExcludedMiddle.pattern.describe ++ " \x7d"
  | .existential => "ExistConstant" ++ named Existential.name
where
  named (n : Name) : String := " \x7b name: " ++ n.describe ++ " \x7d"

end Inference

end Sequitur
