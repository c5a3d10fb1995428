import Sequitur.Rule
import Sequitur.Rule.Catalogue

/-! A theory declares symbols and rules by name, and lists the rules to fall back on when no
rule is named. -/

namespace Sequitur

structure Theory where
  name : String
  predicates : Std.TreeMap String Predicate := {}
  functions : Std.TreeMap String FunctionSymbol := {}
  constants : Std.TreeMap String Constant := {}
  rules : Std.TreeMap String Rule := {}
  defaults : List Rule := []

namespace Theory

def named (name : String) : Theory := { name }

def addPredicate (t : Theory) (p : Predicate) : Except Error Theory :=
  if t.predicates.contains p.name.full then .error (.alreadyDeclared .predicate p.name)
  else .ok { t with predicates := t.predicates.insert p.name.full p }

def addFunction (t : Theory) (f : FunctionSymbol) : Except Error Theory :=
  if t.functions.contains f.name.full then .error (.alreadyDeclared .function f.name)
  else .ok { t with functions := t.functions.insert f.name.full f }

def addConstant (t : Theory) (c : Constant) : Except Error Theory :=
  if t.constants.contains c.name.full then .error (.alreadyDeclared .constant c.name)
  else .ok { t with constants := t.constants.insert c.name.full c }

def addRule (t : Theory) (rule : Rule) : Except Error Theory :=
  if t.rules.contains rule.name.full then .error (.alreadyDeclared .rule rule.name)
  else .ok { t with rules := t.rules.insert rule.name.full rule }

def addDefault (t : Theory) (rule : Rule) : Theory :=
  { t with defaults := t.defaults ++ [rule] }

/-- The rule with this full name, or else the only one that is shown so. -/
def rule? (t : Theory) (name : String) : Option Rule :=
  match t.rules[name]? with
  | some rule => some rule
  | none =>
    match t.rules.values.filter fun rule => rule.name.display == name with
    | [rule] => some rule
    | _ => none

/-- Gives every search this depth. -/
def withSearchDepth (t : Theory) (depth : Nat) : Theory :=
  { t with
    rules := t.rules.map fun _ rule => rule.withDepth depth
    defaults := t.defaults.map (·.withDepth depth) }

/-- Adds a rule to every search, the default ones first; if one refuses it, none gets it. -/
def addToSearches (t : Theory) (addition : Rule) : Except Error Theory := do
  let defaults ← t.defaults.mapM addition.extendBy
  let rules ← t.rules.foldlM
    (fun rules name rule => return rules.insert name (← addition.extendBy rule)) t.rules
  return { t with rules, defaults }

/-- The catalogue with further inference steps, all combined in one default search. -/
def logicWith (name : String) (predicates : List Predicate) (constants : List Constant)
    (steps : List Inference) : Theory :=
  let search : Search := ⟨Catalogue.combined ++ steps, Catalogue.defaultDepth⟩
  let rules := (Catalogue.rules ++ steps).map Rule.inference ++ [.search search]
  { name
    predicates := .ofList (predicates.map fun p => (p.name.full, p)) _
    constants := .ofList (constants.map fun c => (c.name.full, c)) _
    rules := .ofList (rules.map fun rule => (rule.name.full, rule)) _
    defaults := [.search search] }

def logic : Theory := logicWith "logic" [.equality] [] []

def membership : Predicate := ⟨.qualified ["sets"] "in", 2, true⟩

/-- Inclusion, `A ⊇ B`. -/
def inclusion : Predicate := ⟨.qualified ["sets"] "contains", 2, true⟩

def emptySet : Constant := ⟨.qualified ["sets"] "empty"⟩

def extensionality : Inference :=
  let element (set : String) : Formula := .atom (.pred membership) [.var ⟨"x"⟩, .var ⟨set⟩]
  .pattern (.exchange (.qualified ["sets"] "Extension") "A=B ⇔ ∀x(x∈A ↔ x∈B)"
    (.equal (.var ⟨"A"⟩) (.var ⟨"B"⟩)) (.all ⟨"x"⟩ (.equiv (element "A") (element "B"))))

def sets : Theory :=
  logicWith "sets" [.equality, membership, inclusion] [emptySet] [extensionality]

end Theory

end Sequitur
