import Sequitur.Substitution

/-! Three further replacements: of every variable by another, binders included; of a term by
a term; of a proposition by a formula. The last two rename binders as substitution does. -/

namespace Sequitur

namespace Term

def renameAll (image : Variable → Variable) : Term → Term
  | .var v => .var (image v)
  | .const c => .const c
  | .app op ts => .app op (ts.map fun t => t.renameAll image)

def replace (t target new : Term) : Term :=
  if t.same target then new
  else match t with
    | .var v => .var v
    | .const c => .const c
    | .app op ts => .app op (ts.map fun t => t.replace target new)
termination_by t

end Term

namespace Formula

/-- Renames every occurrence of a variable, free, bound or at a binder. Different variables
may fall together, so the meaning can change. -/
def renameAll (image : Variable → Variable) : Formula → Formula
  | .atom r ts => .atom r (ts.map (Term.renameAll image))
  | .not f => .not (f.renameAll image)
  | .multi c fs => .multi c (fs.map fun f => f.renameAll image)
  | .link c a b => .link c (a.renameAll image) (b.renameAll image)
  | .bind q v f => .bind q (image v) (f.renameAll image)

/-- Replaces `target` where none of its variables is bound. -/
def replace (target new : Term) : Formula → Formula
  | .atom r ts => .atom r (ts.map fun t => t.replace target new)
  | .not f => .not (f.replace target new)
  | .multi c fs => .multi c (fs.map fun f => f.replace target new)
  | .link c a b => .link c (a.replace target new) (b.replace target new)
  | .bind q v f =>
    if target.vars.contains v then .bind q v f
    else if new.vars.contains v then
      let w := Variable.fresh v.name (VarSet.union f.allVars (VarSet.union new.vars target.vars))
      .bind q w ((f.renameFree v w).replace target new)
    else .bind q v (f.replace target new)
termination_by f => f.size
decreasing_by
  · simp only [size]; omega
  · exact size_lt_of_mem _ ‹_›
  · simp only [size]; omega
  · simp only [size]; omega
  · simp only [size, size_renameFree]; omega
  · simp only [size]; omega

/-- Replaces the proposition `name`, a bare name without arguments, by a formula whose free
variables stay free. -/
def replaceProp (f : Formula) (name : Name) (new : Formula) : Formula :=
  match f with
  | .atom (.named n) [] => if n.same name then new else .atom (.named n) []
  | .atom r ts => .atom r ts
  | .not f => .not (f.replaceProp name new)
  | .multi c fs => .multi c (fs.map fun f => f.replaceProp name new)
  | .link c a b => .link c (a.replaceProp name new) (b.replaceProp name new)
  | .bind q v f =>
    if new.freeVars.contains v then
      let w := Variable.fresh v.name (VarSet.union f.allVars new.freeVars)
      .bind q w ((f.renameFree v w).replaceProp name new)
    else .bind q v (f.replaceProp name new)
termination_by f.size
decreasing_by
  · simp only [size]; omega
  · exact size_lt_of_mem _ ‹_›
  · simp only [size]; omega
  · simp only [size]; omega
  · simp only [size, size_renameFree]; omega
  · simp only [size]; omega

end Formula

end Sequitur
