import Sequitur.Search

/-! A rule is a single inference step or a search. A search cannot be part of a search. -/

namespace Sequitur

inductive Rule where
  | inference (step : Inference)
  | search (s : Search)

namespace Rule

def name : Rule → Name
  | .inference step => step.name
  | .search _ => Search.name

def description : Rule → String
  | .inference step => step.description
  | .search _ => Search.description

def isInference : Rule → Bool
  | .inference _ => true
  | .search _ => false

def asSearch : Rule → Option Search
  | .inference _ => none
  | .search s => some s

/-- All consequences in one step; a search is only ever aimed at a goal. -/
def apply (facts : Facts) (hints : Hints) : Rule → Except Error (List Deduction)
  | .inference step => step.apply facts hints
  | .search _ => .ok []

def towards (facts : Facts) (hints : Hints) (goal : Formula) : Rule → Except Error Outcome
  | .inference step => step.towards facts hints goal
  | .search s => s.towards facts hints goal

def withDepth (depth : Nat) : Rule → Rule
  | .inference step => .inference step
  | .search s => .search { s with depth }

def describe : Rule → String
  | .inference step => step.describe
  | .search s => s.describe

end Rule

namespace Search

/-- Adds a rule that has to be a single step under a new name. -/
def extend (s : Search) : Rule → Except Error Search
  | .inference step => s.addRule step
  | .search _ => .error (.notSearchable name)

def ofRules (rules : List Rule) (depth : Nat) : Except Error Search :=
  rules.foldlM extend ⟨[], depth⟩

end Search

def Rule.extendBy (addition : Rule) : Rule → Except Error Rule
  | .inference step => .ok (.inference step)
  | .search s => return .search (← s.extend addition)

end Sequitur
