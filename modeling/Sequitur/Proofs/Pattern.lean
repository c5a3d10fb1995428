import Sequitur.Pattern.Match
import Sequitur.Proofs.Replacement

/-! What a pattern says about a formula. Read with given bindings, a pattern describes the
formulas that fit it, and what fits goes on fitting when more is bound. -/

namespace Sequitur

open Arrangement

@[elab_as_elim, induction_eliminator]
theorem TermPattern.induction {motive : TermPattern → Prop} (ref : ∀ name, motive (.ref name))
    (var : ∀ v, motive (.var v)) (const : ∀ c, motive (.const c))
    (app : ∀ op ps, (∀ p ∈ ps, motive p) → motive (.app op ps)) : ∀ p, motive p
  | .ref name => ref name
  | .var v => var v
  | .const c => const c
  | .app op ps => app op ps fun p _ => TermPattern.induction ref var const app p

@[elab_as_elim, induction_eliminator]
theorem Pattern.induction {motive : Pattern → Prop} (nothing : motive .nothing)
    (ref : ∀ name, motive (.ref name)) (refAt : ∀ name args, motive (.refAt name args))
    (atom : ∀ r args, motive (.atom r args)) (not : ∀ p, motive p → motive (.not p))
    (multi : ∀ c ps others, (∀ p ∈ ps, motive p) → motive others → motive (.multi c ps others))
    (link : ∀ c p q, motive p → motive q → motive (.link c p q))
    (bind : ∀ q name p, motive p → motive (.bind q name p)) : ∀ p, motive p
  | .nothing => nothing
  | .ref name => ref name
  | .refAt name args => refAt name args
  | .atom r args => atom r args
  | .not p => not p (Pattern.induction nothing ref refAt atom not multi link bind p)
  | .multi c ps others => multi c ps others
      (fun p _ => Pattern.induction nothing ref refAt atom not multi link bind p)
      (Pattern.induction nothing ref refAt atom not multi link bind others)
  | .link c p q => link c p q (Pattern.induction nothing ref refAt atom not multi link bind p)
      (Pattern.induction nothing ref refAt atom not multi link bind q)
  | .bind q name p =>
    bind q name p (Pattern.induction nothing ref refAt atom not multi link bind p)

theorem Bindings.mem_vars_of_formula {r : Bindings} {name : String} {a : Abstraction} {x : Variable}
    (bound : r.formula? name = some a) (occurs : x ∈ a.params ∨ x ∈ a.body.allVars) :
    x ∈ r.vars := by
  have member : (name, a) ∈ r.formulas.toList :=
    Std.TreeMap.mem_toList_iff_getElem?_eq_some.mpr bound
  simp only [vars, VarSet.mem_union, VarSet.mem_unions_map]
  exact .inl ⟨(name, a), member, occurs⟩

theorem Bindings.mem_vars_of_term {r : Bindings} {name : String} {t : Term} {x : Variable}
    (bound : r.term? name = some t) (occurs : x ∈ t.vars) : x ∈ r.vars := by
  have member : (name, t) ∈ r.terms.toList :=
    Std.TreeMap.mem_toList_iff_getElem?_eq_some.mpr bound
  simp only [vars, VarSet.mem_union, VarSet.mem_unions_map]
  exact .inr ⟨(name, t), member, occurs⟩

structure Bindings.Extends (r r' : Bindings) : Prop where
  formula : ∀ {name a}, r.formula? name = some a → r'.formula? name = some a
  term : ∀ {name t}, r.term? name = some t → r'.term? name = some t

namespace Bindings.Extends

variable {r r' r'' : Bindings} {name : String}

theorem refl (r : Bindings) : r.Extends r := ⟨id, id⟩

theorem trans (first : r.Extends r') (second : r'.Extends r'') : r.Extends r'' :=
  ⟨fun bound => second.formula (first.formula bound), fun bound => second.term (first.term bound)⟩

theorem insertFormula {a : Abstraction} (unbound : r.formula? name = none) :
    r.Extends (r.insertFormula name a) := by
  refine ⟨fun {other b} bound => ?_, fun bound => bound⟩
  rw [formula?_insertFormula, if_neg]
  · exact bound
  · rintro rfl
    rw [unbound] at bound
    cases bound

theorem insertTerm {t : Term} (unbound : r.term? name = none) :
    r.Extends (r.insertTerm name t) := by
  refine ⟨fun bound => bound, fun {other u} bound => ?_⟩
  rw [term?_insertTerm, if_neg]
  · exact bound
  · rintro rfl
    rw [unbound] at bound
    cases bound

/-- Under a binder of the same variable. -/
theorem under (grows : r.Extends r') (v : Variable) :
    (r.insertTerm name (.var v)).Extends (r'.insertTerm name (.var v)) := by
  refine ⟨grows.formula, fun {other t} bound => ?_⟩
  rw [term?_insertTerm] at bound ⊢
  split at bound
  · rwa [if_pos ‹_›]
  · rw [if_neg ‹_›]
    exact grows.term bound

end Bindings.Extends

/-- Read with these bindings, the pattern describes the term. -/
inductive TermPattern.Fits (r : Bindings) : TermPattern → Term → Prop
  | ref {name : String} {t u : Term} : r.term? name = some u → u.identical t = true →
      Fits r (.ref name) t
  | var {v : Variable} : Fits r (.var v) (.var v)
  | const {c d : Constant} : c.same d = true → Fits r (.const c) (.const d)
  | app {f g : Operator} {ps : List TermPattern} {ts : List Term}
      {pairs : List (TermPattern × Term)} : f.same g = true → Pairing f.ordered pairs ps ts →
      (∀ q ∈ pairs, Fits r q.1 q.2) → Fits r (.app f ps) (.app g ts)

namespace Pattern

/-- Every use of a formula reference, with the number of its arguments. -/
def uses : Pattern → List (String × Nat)
  | .nothing => []
  | .ref name => [(name, 0)]
  | .refAt name args => [(name, args.length)]
  | .atom _ _ => []
  | .not p => p.uses
  | .multi _ ps others => (ps.flatMap fun p => p.uses) ++ others.uses
  | .link _ p q => p.uses ++ q.uses
  | .bind _ _ p => p.uses

theorem uses_ofInstance (scope : TermPattern.Scope) (f : Formula) :
    (ofInstance scope f).uses = [] := by
  induction f generalizing scope with
  | atom r ts => simp [ofInstance, uses]
  | not f ih => simp [ofInstance, uses, ih]
  | multi c fs ih =>
    simp only [ofInstance, exactly, uses, List.append_nil, List.flatMap_eq_nil_iff, List.mem_map]
    rintro _ ⟨f, member, rfl⟩
    exact ih f member scope
  | link c a b iha ihb => simp [ofInstance, uses, iha, ihb]
  | bind q v f ih => simp [ofInstance, uses, ih]

/-- The formula `f` seen as depending on arguments: one after the other they become
parameters, and terms that are no variables are replaced by new ones. -/
inductive Abstracts (r : Bindings) (f : Formula) :
    List TermPattern → Formula → List Variable → Prop
  | nil : Abstracts r f [] f []
  | var {args : List TermPattern} {arg : TermPattern} {body : Formula} {params : List Variable}
      {v : Variable} : Abstracts r f args body params → arg.resolve r = some (.var v) →
      Abstracts r f (args ++ [arg]) body (params ++ [v])
  | term {args : List TermPattern} {arg : TermPattern} {body : Formula} {params : List Variable}
      {t : Term} {i : Nat} : Abstracts r f args body params → arg.resolve r = some t →
      (∀ v, t ≠ .var v) → Variable.numbered "p" i ∉ params → Variable.numbered "p" i ∉ body.allVars →
      Variable.numbered "p" i ∉ t.vars →
      Abstracts r f (args ++ [arg]) (body.replace t (.var (.numbered "p" i)))
        (params ++ [.numbered "p" i])

inductive Fits : Bindings → Pattern → Formula → Prop
  | ref {r : Bindings} {name : String} {a : Abstraction} {f : Formula} :
      r.formula? name = some a → a.body.identical f = true → Fits r (.ref name) f
  | first {r : Bindings} {name : String} {args : List TermPattern} {f body : Formula}
      {params : List Variable} : r.formula? name = some ⟨params, body⟩ →
      Abstracts r f args body params → Fits r (.refAt name args) f
  | later {r : Bindings} {name : String} {args : List TermPattern} {f : Formula}
      {a : Abstraction} : r.formula? name = some a → a.params.length = args.length →
      Fits r (ofInstance (a.params.zip args).reverse a.body) f → Fits r (.refAt name args) f
  | atom {r : Bindings} {s s' : Relation} {ps : List TermPattern} {ts : List Term}
      {pairs : List (TermPattern × Term)} : s.same s' = true → Pairing s.ordered pairs ps ts →
      (∀ q ∈ pairs, TermPattern.Fits r q.1 q.2) → Fits r (.atom s ps) (.atom s' ts)
  | not {r : Bindings} {p : Pattern} {f : Formula} : Fits r p f → Fits r (.not p) (.not f)
  | exactly {r : Bindings} {c : Junction} {ps : List Pattern} {others : Pattern}
      {fs : List Formula} {pairs : List (Pattern × Formula)} : Pairing false pairs ps fs →
      (∀ q ∈ pairs, Fits r q.1 q.2) → Fits r (.multi c ps others) (.multi c fs)
  | others {r : Bindings} {c : Junction} {ps : List Pattern} {others : Pattern}
      {fs left : List Formula} {pairs : List (Pattern × Formula)} : pairs.map Prod.fst = ps →
      (pairs.map Prod.snd ++ left).Perm fs → left ≠ [] → (∀ q ∈ pairs, Fits r q.1 q.2) →
      Fits r others (.junctionOf c left) → Fits r (.multi c ps others) (.multi c fs)
  | imply {r : Bindings} {p q : Pattern} {a b : Formula} : Fits r p a → Fits r q b →
      Fits r (.link .imply p q) (.link .imply a b)
  | equiv {r : Bindings} {p q : Pattern} {a b : Formula} {pairs : List (Pattern × Formula)} :
      Pairing false pairs [p, q] [a, b] → (∀ q ∈ pairs, Fits r q.1 q.2) →
      Fits r (.link .equiv p q) (.link .equiv a b)
  | bind {r : Bindings} {q : Quantifier} {name : String} {p : Pattern} {v : Variable}
      {f : Formula} : Fits (r.insertTerm name (.var v)) p f →
      Fits r (.bind q name p) (.bind q v f)

end Pattern

theorem TermPattern.Fits.mono {r r' : Bindings} {p : TermPattern} {t : Term} (fits : p.Fits r t)
    (grows : r.Extends r') : p.Fits r' t := by
  induction fits with
  | ref bound identical => exact .ref (grows.term bound) identical
  | var => exact .var
  | const same => exact .const same
  | app same pairing _ ih => exact .app same pairing ih

theorem TermPattern.resolve_mono {r r' : Bindings} {p : TermPattern} {t : Term}
    (resolved : p.resolve r = some t) (grows : r.Extends r') : p.resolve r' = some t := by
  have all {ps : List TermPattern} (ih : ∀ p ∈ ps, ∀ t, p.resolve r = some t →
      p.resolve r' = some t) {ts : List Term} (resolved : resolveAll r ps = some ts) :
      resolveAll r' ps = some ts := by
    induction ps generalizing ts with
    | nil => simpa [resolveAll] using resolved
    | cons p ps rest =>
      simp only [resolveAll, Option.pure_def, Option.bind_eq_bind, Option.bind_eq_some_iff,
        Option.some.injEq] at resolved ⊢
      obtain ⟨u, first, us, later, rfl⟩ := resolved
      exact ⟨u, ih p (by simp) u first, us,
        rest (fun p member => ih p (by simp [member])) later, rfl⟩
  induction p generalizing t with
  | ref name =>
    rw [resolve] at resolved ⊢
    exact grows.term resolved
  | var v => simpa [resolve] using resolved
  | const c => simpa [resolve] using resolved
  | app op ps ih =>
    rw [resolve, Option.map_eq_some_iff] at resolved ⊢
    obtain ⟨ts, resolved, rfl⟩ := resolved
    exact ⟨ts, all (fun p member t => ih p member) resolved, rfl⟩

theorem Pattern.Abstracts.mono {r r' : Bindings} {f body : Formula} {args : List TermPattern}
    {params : List Variable} (abstracts : Abstracts r f args body params)
    (grows : r.Extends r') : Abstracts r' f args body params := by
  induction abstracts with
  | nil => exact .nil
  | var _ resolved ih => exact .var ih (TermPattern.resolve_mono resolved grows)
  | term _ resolved compound new fresh clear ih =>
    exact .term ih (TermPattern.resolve_mono resolved grows) compound new fresh clear

theorem Pattern.Fits.mono {r r' : Bindings} {p : Pattern} {f : Formula} (fits : p.Fits r f)
    (grows : r.Extends r') : p.Fits r' f := by
  induction fits generalizing r' with
  | ref bound identical => exact .ref (grows.formula bound) identical
  | first bound abstracts => exact .first (grows.formula bound) (abstracts.mono grows)
  | later bound length _ ih => exact .later (grows.formula bound) length (ih grows)
  | atom same pairing all => exact .atom same pairing fun q pair => (all q pair).mono grows
  | not _ ih => exact .not (ih grows)
  | exactly pairing _ ih => exact .exactly pairing fun q pair => ih q pair grows
  | others first perm nonempty _ _ ih rest =>
    exact .others first perm nonempty (fun q pair => ih q pair grows) (rest grows)
  | imply _ _ ihp ihq => exact .imply (ihp grows) (ihq grows)
  | equiv pairing _ ih => exact .equiv pairing fun q pair => ih q pair grows
  | bind _ ih => exact .bind (ih (grows.under _))

theorem Pattern.Fits.exists_exactly {r : Bindings} {c : Junction} {ps : List Pattern}
    {f : Formula} (fits : (Pattern.exactly c ps).Fits r f) :
    ∃ fs pairs, f = .multi c fs ∧ Pairing false pairs ps fs ∧ ∀ q ∈ pairs, Fits r q.1 q.2 := by
  cases fits with
  | @exactly _ _ _ _ fs pairs pairing all => exact ⟨fs, pairs, rfl, pairing, all⟩
  | others _ _ _ _ rest => cases rest

end Sequitur
