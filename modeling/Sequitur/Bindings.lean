import Sequitur.Error
import Sequitur.Substitution
import Std.Data.TreeMap

/-! What a match has found: the formulas that formula references stand for, and the terms
that term references stand for. -/

namespace Sequitur

/-- A formula with the variables of it that stand for the arguments of a reference. A plain
reference has none. -/
structure Abstraction where
  params : List Variable
  body : Formula
  deriving Inhabited

/-- Puts arguments in the place of the parameters. -/
def Abstraction.instantiate (a : Abstraction) (args : List Term) : Except Error Formula :=
  if args.length = a.params.length then
    .ok (a.body.subst (.ofList (a.params.zip args)))
  else .error (.argumentCount a.body a.params.length args.length)

structure Bindings where
  formulas : Std.TreeMap String Abstraction := {}
  terms : Std.TreeMap String Term := {}
  deriving Inhabited

namespace Bindings

def empty : Bindings := {}

def isEmpty (r : Bindings) : Bool := r.formulas.isEmpty && r.terms.isEmpty

def formula? (r : Bindings) (name : String) : Option Abstraction := r.formulas[name]?

def term? (r : Bindings) (name : String) : Option Term := r.terms[name]?

def insertFormula (r : Bindings) (name : String) (a : Abstraction) : Bindings :=
  { r with formulas := r.formulas.insert name a }

def insertTerm (r : Bindings) (name : String) (t : Term) : Bindings :=
  { r with terms := r.terms.insert name t }

def eraseTerm (r : Bindings) (name : String) : Bindings :=
  { r with terms := r.terms.erase name }

@[simp] theorem formula?_empty (name : String) : empty.formula? name = none := by
  simp [empty, formula?]

@[simp] theorem term?_empty (name : String) : empty.term? name = none := by
  simp [empty, term?]

theorem formula?_insertFormula (r : Bindings) (name other : String) (a : Abstraction) :
    (r.insertFormula name a).formula? other = if name = other then some a else r.formula? other := by
  simp [insertFormula, formula?, Std.TreeMap.getElem?_insert]

@[simp] theorem term?_insertFormula (r : Bindings) (name other : String) (a : Abstraction) :
    (r.insertFormula name a).term? other = r.term? other := rfl

theorem term?_insertTerm (r : Bindings) (name other : String) (t : Term) :
    (r.insertTerm name t).term? other = if name = other then some t else r.term? other := by
  simp [insertTerm, term?, Std.TreeMap.getElem?_insert]

@[simp] theorem formula?_insertTerm (r : Bindings) (name other : String) (t : Term) :
    (r.insertTerm name t).formula? other = r.formula? other := rfl

theorem term?_eraseTerm (r : Bindings) (name other : String) :
    (r.eraseTerm name).term? other = if name = other then none else r.term? other := by
  simp [eraseTerm, term?, Std.TreeMap.getElem?_erase]

@[simp] theorem formula?_eraseTerm (r : Bindings) (name other : String) :
    (r.eraseTerm name).formula? other = r.formula? other := rfl

def formula (r : Bindings) (name : String) : Except Error Formula :=
  match r.formula? name with
  | some a => .ok a.body
  | none => .error (.unboundFormula name)

def term (r : Bindings) (name : String) : Except Error Term :=
  match r.term? name with
  | some t => .ok t
  | none => .error (.unboundTerm name)

/-- A reference applied to arguments. -/
def apply (r : Bindings) (name : String) (args : List Term) : Except Error Formula :=
  match r.formula? name with
  | some a => a.instantiate args
  | none => .error (.unboundFormula name)

/-- Every variable of what is bound, parameters and bound variables included. -/
def vars (r : Bindings) : VarSet :=
  .union
    (.unions (r.formulas.toList.map fun p => .union p.2.params p.2.body.allVars))
    (.unions (r.terms.toList.map fun p => p.2.vars))

/-- The first of `x1`, `x2`, … that occurs in nothing bound. -/
def freshVar (r : Bindings) : Variable := .fresh "x" r.vars

def formulaNames (r : Bindings) : List String := r.formulas.keys

def describe (r : Bindings) : String :=
  let formulas := r.formulas.toList.map fun p =>
    let params := if p.2.params.isEmpty then "" else Text.bracketed (p.2.params.map (·.name))
    " " ++ p.1 ++ params ++ " := " ++ p.2.body.render ++ ";"
  let terms := r.terms.toList.map fun p => " " ++ p.1 ++ " := " ++ p.2.render ++ ";"
  "\x7b" ++ String.join formulas ++ String.join terms ++ " \x7d"

end Bindings

end Sequitur
