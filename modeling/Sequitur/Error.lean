import Sequitur.Formula.Printer

/-! What can go wrong. A pattern that does not match and a goal that is not reached are no
errors: they are empty results. Errors come from malformed definitions, names declared twice,
references that nothing binds, a scope closed when none is open, and from a regular form that
needs an index beyond 64 bits. -/

namespace Sequitur

inductive Declared where
  | predicate
  | function
  | constant
  | rule
  deriving DecidableEq, Inhabited

inductive Error where
  | indexOverflow
  | invalidName (text : String)
  | argumentCount (body : Formula) (expected given : Nat)
  | unboundFormula (name : String)
  | unboundTerm (name : String)
  | unboundTemplateFormula (name : Name)
  | unboundTemplateVariable (v : Variable)
  | parameterNotVariable (parameter : Term) (name : Name)
  | formulaOnOneSide (name : String)
  | variableOnOneSide (v : Variable)
  | notSearchable (rule : Name)
  | alreadyInSearch (rule : Name)
  | alreadyDeclared (kind : Declared) (name : Name)
  | noOpenScope
  | cannotDefine (name : String) (cause : Error)
  deriving Inhabited

structure Report where
  message : String
  sources : List String := []
  deriving DecidableEq, Inhabited

namespace Report

/-- A further source goes to the end of the chain, with its own sources behind it. -/
def withSource (r source : Report) : Report :=
  ⟨r.message, r.sources ++ source.message :: source.sources⟩

def full (r : Report) : String := "\nin ".intercalate (r.message :: r.sources)

end Report

def Declared.word : Declared → String
  | .predicate => "predicate"
  | .function => "function"
  | .constant => "constant"
  | .rule => "rule"

namespace Error

def ticked (s : String) : String := "`" ++ s ++ "`"

/-- The message of an error, without those of its sources. -/
def message : Error → String
  | .indexOverflow => "attempt to add with overflow"
  | .invalidName text => "invalid qualified name " ++ ticked text
  | .argumentCount body expected given =>
    "reference " ++ ticked body.render ++ " expects " ++ toString expected ++
      " arguments, got " ++ toString given
  | .unboundFormula name => "unbound formula reference " ++ ticked name
  | .unboundTerm name => "unbound term reference " ++ ticked name
  | .unboundTemplateFormula name =>
    "unbound formula reference " ++ ticked name.full ++ " in template"
  | .unboundTemplateVariable v => "unbound variable " ++ ticked v.name ++ " in template"
  | .parameterNotVariable parameter name =>
    "parameter " ++ ticked parameter.render ++ " of " ++ ticked name.full ++
      " must be a variable"
  | .formulaOnOneSide name =>
    "formula " ++ ticked name ++ " must occur on both sides of a definition"
  | .variableOnOneSide v =>
    "variable " ++ ticked v.name ++ " must be free on both sides of a definition"
  | .notSearchable rule => "rule " ++ ticked rule.full ++ " cannot be used in a search"
  | .alreadyInSearch rule => "rule " ++ ticked rule.full ++ " is already part of the search"
  | .alreadyDeclared kind name => kind.word ++ " " ++ ticked name.full ++ " is already declared"
  | .noOpenScope => "cannot yield in the base context"
  | .cannotDefine name _ => "cannot define " ++ ticked name

def report : Error → Report
  | .cannotDefine name cause =>
    (Report.mk (message (.cannotDefine name cause)) []).withSource cause.report
  | e => ⟨e.message, []⟩

end Error

end Sequitur
