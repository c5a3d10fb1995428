import Sequitur.Bindings

/-! A template is a formula in which bare names and free variables are to be filled in from
bindings. Its own binders are renamed where they would catch a variable of what is filled
in. -/

namespace Sequitur

/-- The new names of the template's binders, innermost first. -/
abbrev TemplateScope := List (Variable × Variable)

namespace Term

mutual

def fill (r : Bindings) (scope : TemplateScope) : Term → Except Error Term
  | .var v =>
    match scope.lookup v with
    | some w => .ok (.var w)
    | none =>
      match r.term? v.name with
      | some t => .ok t
      | none => .error (.unboundTemplateVariable v)
  | .const c => .ok (.const c)
  | .app op ts => do return .app op (← fillAll r scope ts)

def fillAll (r : Bindings) (scope : TemplateScope) : List Term → Except Error (List Term)
  | [] => .ok []
  | t :: ts => do
    let u ← fill r scope t
    let us ← fillAll r scope ts
    return u :: us

end

end Term

namespace Formula

/-- The name of a template's binder, kept unless a bound value uses it. -/
def templateBinder (taken : VarSet) (v : Variable) : Variable :=
  if taken.contains v then .fresh v.name taken else v

mutual

def fillUnder (r : Bindings) (taken : VarSet) (scope : TemplateScope) :
    Formula → Except Error Formula
  | .atom (.pred p) ts => do return .atom (.pred p) (← Term.fillAll r scope ts)
  | .atom (.named n) ts => do
    let args ← Term.fillAll r scope ts
    match r.formula? n.full with
    | some a => a.instantiate args
    | none => .error (.unboundTemplateFormula n)
  | .not f => do return .not (← fillUnder r taken scope f)
  | .multi c fs => do return .multi c (← fillAllUnder r taken scope fs)
  | .link c a b => do
    let a' ← fillUnder r taken scope a
    let b' ← fillUnder r taken scope b
    return .link c a' b'
  | .bind q v f => do
    let w := templateBinder taken v
    return .bind q w (← fillUnder r taken ((v, w) :: scope) f)

def fillAllUnder (r : Bindings) (taken : VarSet) (scope : TemplateScope) :
    List Formula → Except Error (List Formula)
  | [] => .ok []
  | f :: fs => do
    let g ← fillUnder r taken scope f
    let gs ← fillAllUnder r taken scope fs
    return g :: gs

end

/-- Fills in a template. -/
def fill (template : Formula) (r : Bindings) : Except Error Formula :=
  template.fillUnder r r.vars []

end Formula

end Sequitur
