import Sequitur.Formula

/-! Substitution of terms for the free variables of a formula. A binder that would catch a
variable of a substituted term is renamed first. -/

namespace Sequitur

/-- A finite map from variables to terms, each variable bound at most once, in the order in
which the bindings were made. -/
abbrev Subst := List (Variable × Term)

namespace Subst

/-- A new binding replaces an earlier one of the same variable and goes to the end. -/
def bind (s : Subst) (v : Variable) (t : Term) : Subst :=
  s.filter (·.1 ≠ v) ++ [(v, t)]

def ofList (pairs : List (Variable × Term)) : Subst :=
  pairs.foldl (fun s p => s.bind p.1 p.2) []

def without (s : Subst) (v : Variable) : Subst := s.filter (·.1 ≠ v)

def vars (s : Subst) : VarSet :=
  .unions (s.map fun p => .insert p.1 p.2.vars)

/-- Some term substituted for a free variable of the body mentions `v`. -/
def captures (s : Subst) (v : Variable) (body : Formula) : Bool :=
  s.any fun p => body.freeVars.contains p.1 && p.2.vars.contains v

def describe (s : Subst) : String :=
  "(subst" ++ String.join (s.map fun p => " (" ++ p.1.name ++ " := " ++ p.2.render ++ ")") ++ ")"

end Subst

def Term.subst (s : Subst) : Term → Term
  | .var v => (s.lookup v).getD (.var v)
  | .const c => .const c
  | .app op ts => .app op (ts.map fun t => t.subst s)

namespace Formula

/-- Puts `w` in the place of the free occurrences of `v`. The variable `w` has to be one
that does not occur in the formula, so that no binder can catch it. -/
def renameFree (v w : Variable) : Formula → Formula
  | .atom r ts => .atom r (ts.map (Term.subst [(v, .var w)]))
  | .not f => .not (f.renameFree v w)
  | .multi c fs => .multi c (fs.map fun f => f.renameFree v w)
  | .link c a b => .link c (a.renameFree v w) (b.renameFree v w)
  | .bind q u f => if u = v then .bind q u f else .bind q u (f.renameFree v w)

@[simp] theorem size_renameFree (v w : Variable) (f : Formula) :
    (f.renameFree v w).size = f.size := by
  fun_induction renameFree v w f with
  | case1 r ts => simp only [size]
  | case2 f ih => simp only [size, ih]
  | case3 c fs ih =>
    simp only [size, List.foldr_map]
    congr 1
    induction fs with
    | nil => rfl
    | cons g gs rest =>
      rw [List.foldr_cons, List.foldr_cons, ih g (by simp),
        rest fun f member => ih f (by simp [member])]
  | case4 c a b iha ihb => simp only [size, iha, ihb]
  | case5 q f => rfl
  | case6 q u f _ ih => simp only [size, ih]

/-- Replaces free variables by terms. Under a binder of `v` the substitution leaves `v`
alone; if it would bring in another `v` there, the binder gets a fresh name. -/
def subst (s : Subst) : Formula → Formula
  | .atom r ts => .atom r (ts.map (Term.subst s))
  | .not f => .not (f.subst s)
  | .multi c fs => .multi c (fs.map fun f => f.subst s)
  | .link c a b => .link c (a.subst s) (b.subst s)
  | .bind q v f =>
    let inner := s.without v
    if inner.captures v f then
      let w := Variable.fresh v.name (VarSet.union f.allVars inner.vars)
      .bind q w ((f.renameFree v w).subst inner)
    else .bind q v (f.subst inner)
termination_by f => f.size
decreasing_by
  · simp only [size]; omega
  · exact size_lt_of_mem _ ‹_›
  · simp only [size]; omega
  · simp only [size]; omega
  · simp only [size, size_renameFree]; omega
  · simp only [size]; omega

@[simp] theorem size_subst (s : Subst) (f : Formula) : (f.subst s).size = f.size := by
  fun_induction subst s f with
  | case1 s r ts => simp only [size]
  | case2 s f ih => simp only [size, ih]
  | case3 s c fs ih =>
    simp only [size, List.foldr_map]
    congr 1
    induction fs with
    | nil => rfl
    | cons g gs rest =>
      rw [List.foldr_cons, List.foldr_cons, ih g (by simp),
        rest fun f member => ih f (by simp [member])]
  | case4 s c a b iha ihb => simp only [size, iha, ihb]
  | case5 s q v f inner _ w ih => simp only [size, ih, size_renameFree]
  | case6 s q v f inner _ ih => simp only [size, ih]

def rename (pairs : List (Variable × Variable)) (f : Formula) : Formula :=
  f.subst (.ofList (pairs.map fun p => (p.1, .var p.2)))

@[simp] theorem size_rename (pairs : List (Variable × Variable)) (f : Formula) :
    (f.rename pairs).size = f.size := size_subst _ f

end Formula

end Sequitur
