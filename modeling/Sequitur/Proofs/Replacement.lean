import Sequitur.Replacement
import Sequitur.Proofs.Substitution

/-! Replacing a term by one of the same value changes no truth value. If a new variable takes the
place of a term, putting the term back gives the old formula, part by part. -/

namespace Sequitur

open Arrangement

universe u

variable {D : Type u} {I : Interpretation D} {target new : Term}

namespace Term

theorem value_of_same {t u : Term} (same : t.same u = true) (ρ : Variable → D) :
    t.value I ρ = u.value I ρ := by
  rw [← t.value_bare, same_iff.mp same, value_bare]

theorem replace_of_same {t : Term} (same : t.same target = true) :
    t.replace target new = new := by
  unfold replace
  rw [if_pos same]

theorem replace_var {v : Variable} (other : ¬ (var v).same target = true) :
    (var v).replace target new = .var v := by
  unfold replace
  rw [if_neg other]

theorem replace_const {c : Constant} (other : ¬ (const c).same target = true) :
    (const c).replace target new = .const c := by
  unfold replace
  rw [if_neg other]

theorem replace_app {op : Operator} {ts : List Term} (other : ¬ (app op ts).same target = true) :
    (app op ts).replace target new = .app op (ts.map fun t => t.replace target new) := by
  conv => lhs; unfold replace
  rw [if_neg other]

/-- The term at some values is the replaced term at others, if the replacement has there the value
that the target has here and nothing else changes. -/
theorem value_replace {ρ σ : Variable → D} (values : target.value I ρ = new.value I σ) {t : Term}
    (others : ∀ x ∈ t.vars, .var x ≠ target → ρ x = σ x) :
    (t.replace target new).value I σ = t.value I ρ := by
  have whole {t : Term} (same : t.same target = true) :
      (t.replace target new).value I σ = t.value I ρ := by
    rw [replace_of_same same, value_of_same same, values]
  induction t with
  | var v =>
    by_cases same : (Term.var v).same target = true
    · exact whole same
    · have apart : .var v ≠ target := by
        rintro rfl
        exact same (same_iff.mpr rfl)
      rw [replace_var same, value, value, others v (by simp) apart]
  | const c =>
    by_cases same : (Term.const c).same target = true
    · exact whole same
    · rw [replace_const same, value, value]
  | app op ts ih =>
    by_cases same : (Term.app op ts).same target = true
    · exact whole same
    · rw [replace_app same, value, value, List.map_map]
      congr 1
      refine List.map_congr_left fun t member => ih t member fun x occurs => ?_
      exact others x (mem_vars_app.mpr ⟨t, member, occurs⟩)

theorem mem_symbols_replace {t : Term} {n : Symbol} (occurs : n ∈ (t.replace target new).symbols) :
    n ∈ t.symbols ∨ n ∈ new.symbols := by
  by_cases same : t.same target = true
  · rw [replace_of_same same] at occurs
    exact .inr occurs
  · induction t with
    | var v =>
      rw [replace_var same] at occurs
      exact .inl occurs
    | const c =>
      rw [replace_const same] at occurs
      exact .inl occurs
    | app op ts ih =>
      rw [replace_app same] at occurs
      rcases mem_symbols_app.mp occurs with rfl | ⟨u, member, occurs⟩
      · exact .inl (by simp)
      · obtain ⟨t, source, rfl⟩ := List.mem_map.mp member
        by_cases same : t.same target = true
        · rw [replace_of_same same] at occurs
          exact .inr occurs
        · refine (ih t source occurs same).imp_left fun inside => ?_
          exact mem_symbols_app.mpr (.inr ⟨t, source, inside⟩)

end Term

namespace Formula

/-- A formula says of the value of a term what it says, with another term in its place, of the value
of that one. The variables that stand free beside the replaced term have the same values. -/
theorem holds_replace {ρ σ : Variable → D} (values : target.value I ρ = new.value I σ) {f : Formula}
    (others : ∀ x ∈ f.freeVars, .var x ≠ target → ρ x = σ x) :
    (f.replace target new).holds I σ ↔ f.holds I ρ := by
  fun_induction replace target new f generalizing ρ σ with
  | case1 r ts =>
    have same : (ts.map fun t => t.replace target new).map (Term.value I σ) =
        ts.map (Term.value I ρ) := by
      rw [List.map_map]
      refine List.map_congr_left fun t member => Term.value_replace values fun x occurs => ?_
      exact others x (mem_freeVars_atom.mpr ⟨t, member, occurs⟩)
    rw [holds_atom, holds_atom, same]
  | case2 f ih => rw [holds_not, holds_not, ih values (by simpa using others)]
  | case3 c fs ih =>
    refine (holds_multi_congr (.map_right _ fs _) fun p pair => ?_).symm
    obtain ⟨f, member, rfl⟩ := List.mem_map.mp pair
    refine (ih f member values fun x free => ?_).symm
    exact others x (mem_freeVars_multi.mpr ⟨f, member, free⟩)
  | case4 c a b iha ihb =>
    have left := iha values fun x free => others x (mem_freeVars_link.mpr (.inl free))
    have right := ihb values fun x free => others x (mem_freeVars_link.mpr (.inr free))
    cases c with
    | imply => rw [holds_imply, holds_imply, left, right]
    | equiv => rw [holds_equiv, holds_equiv, left, right]
  | case5 q v f bound =>
    -- the target mentions the bound variable, so it is not one of the free ones
    refine holds_congr fun x free => (others x free ?_).symm
    rintro rfl
    have same : v = x := by simpa using bound
    exact (mem_freeVars_bind.mp free).2 same.symm
  | case6 q v f _ _ w =>
    rename_i ih
    have fresh : w ∉ VarSet.union f.allVars (VarSet.union new.vars target.vars) :=
      Variable.fresh_not_mem _ _
    simp only [VarSet.mem_union, not_or] at fresh
    obtain ⟨clear, outside, beyond⟩ := fresh
    refine holds_bind_congr fun d => ?_
    have inner : target.value I (Function.update ρ w d) = new.value I (Function.update σ w d) := by
      rw [Term.value_update beyond, Term.value_update outside, values]
    have renamed : ∀ x ∈ (f.renameFree v w).freeVars, .var x ≠ target →
        Function.update ρ w d x = Function.update σ w d x := by
      intro x free other
      by_cases here : x = w
      · rw [here, Function.update_self, Function.update_self]
      · have kept := (mem_freeVars_renameFree clear free).resolve_left here
        rw [Function.update_of_ne here, Function.update_of_ne here]
        exact others x (mem_freeVars_bind.mpr kept) other
    exact (ih inner renamed).trans (holds_renameFree_update clear ρ d)
  | case7 q v f bound unbound ih =>
    refine holds_bind_congr fun d => ih ?_ fun x free other => ?_
    · rw [Term.value_update (by simpa using bound), Term.value_update (by simpa using unbound), values]
    · by_cases here : x = v
      · rw [here, Function.update_self, Function.update_self]
      · rw [Function.update_of_ne here, Function.update_of_ne here]
        exact others x (mem_freeVars_bind.mpr ⟨free, here⟩) other

/-- A variable that is not free may take the place of a term if it takes its value. -/
theorem holds_replace_var {f : Formula} {p : Variable} (outside : p ∉ f.freeVars) (t : Term)
    (ρ : Variable → D) :
    (f.replace t (.var p)).holds I (Function.update ρ p (t.value I ρ)) ↔ f.holds I ρ := by
  apply holds_replace
  · rw [Term.value, Function.update_self]
  · intro x free _
    refine (Function.update_of_ne ?_ _ _).symm
    rintro rfl
    exact outside free

theorem mem_symbols_replace {f : Formula} {n : Symbol}
    (occurs : n ∈ (f.replace target new).symbols) : n ∈ f.symbols ∨ n ∈ new.symbols := by
  fun_induction replace target new f with
  | case1 r ts =>
    rcases mem_symbols_atom.mp occurs with rfl | ⟨u, member, occurs⟩
    · exact .inl (by simp)
    · obtain ⟨t, source, rfl⟩ := List.mem_map.mp member
      refine (Term.mem_symbols_replace occurs).imp_left fun inside => ?_
      exact mem_symbols_atom.mpr (.inr ⟨t, source, inside⟩)
  | case2 f ih => simpa using ih (by simpa using occurs)
  | case3 c fs ih =>
    obtain ⟨g, member, occurs⟩ := mem_symbols_multi.mp occurs
    obtain ⟨f, source, rfl⟩ := List.mem_map.mp member
    refine (ih f source occurs).imp_left fun inside => ?_
    exact mem_symbols_multi.mpr ⟨f, source, inside⟩
  | case4 c a b iha ihb =>
    rcases mem_symbols_link.mp occurs with occurs | occurs
    · exact (iha occurs).imp_left fun inside => mem_symbols_link.mpr (.inl inside)
    · exact (ihb occurs).imp_left fun inside => mem_symbols_link.mpr (.inr inside)
  | case5 q v f _ => exact .inl occurs
  | case6 q v f _ _ w ih =>
    have fresh : w ∉ VarSet.union f.allVars (VarSet.union new.vars target.vars) :=
      Variable.fresh_not_mem _ _
    refine (ih (mem_symbols_bind.mp occurs)).imp_left fun inside => ?_
    have clear : w ∉ f.allVars := fun inside => fresh (VarSet.mem_union.mpr (.inl inside))
    exact mem_symbols_bind.mpr (mem_symbols_renameFree clear inside)
  | case7 q v f _ _ ih =>
    exact (ih (mem_symbols_bind.mp occurs)).imp_left mem_symbols_bind.mpr

theorem respected_replace {f : Formula} (respected : f.Respected I) (kept : new.Respected I) :
    (f.replace target new).Respected I := by
  intro n occurs
  rcases mem_symbols_replace occurs with inside | inside
  · exact respected n inside
  · exact kept n inside

end Formula

/-- An instance in which nothing but the free variables has changed: every part stands where it
stood, and every binder has kept its name. -/
inductive Term.Expands (E : Change) : Term → Term → Prop
  | var {x : Variable} {t : Term} : E x t → Expands E (.var x) t
  | const {c : Constant} : Expands E (.const c) (.const c)
  | app {op : Operator} {ts us : List Term} {pairs : List (Term × Term)} :
      Pairing true pairs ts us → (∀ p ∈ pairs, Expands E p.1 p.2) →
      Expands E (.app op ts) (.app op us)

inductive Formula.Expands : Change → Formula → Formula → Prop
  | atom {E : Change} {r : Relation} {ts us : List Term} {pairs : List (Term × Term)} :
      Pairing true pairs ts us → (∀ p ∈ pairs, Term.Expands E p.1 p.2) →
      Expands E (.atom r ts) (.atom r us)
  | not {E : Change} {f g : Formula} : Expands E f g → Expands E (.not f) (.not g)
  | multi {E : Change} {c : Junction} {fs gs : List Formula} {pairs : List (Formula × Formula)} :
      Pairing true pairs fs gs → (∀ p ∈ pairs, Expands E p.1 p.2) →
      Expands E (.multi c fs) (.multi c gs)
  | link {E : Change} {c : Arrow} {a b a' b' : Formula} : Expands E a a' → Expands E b b' →
      Expands E (.link c a b) (.link c a' b')
  | bind {E : Change} {q : Quantifier} {v : Variable} {f g : Formula} :
      Expands (E.under v v) f g → Expands E (.bind q v f) (.bind q v g)

def Change.putBack (E : Change) (p : Variable) (t : Term) : Change := fun x s =>
  (x = p ∧ s.bare = t.bare) ∨ (x ≠ p ∧ E x s)

theorem Term.mem_vars_of_bare {t u : Term} (same : t.bare = u.bare) {x : Variable}
    (occurs : x ∈ t.vars) : x ∈ u.vars := by
  obtain ⟨_, rfl, kept⟩ := (instance_of_bare same).exists_target occurs
  exact kept x (by simp)

namespace Term.Expands

variable {E E' : Change} {t u : Term}

theorem mono (expands : Expands E t u) (change : ∀ x ∈ t.vars, ∀ s, E x s → E' x s) :
    Expands E' t u := by
  induction expands with
  | var becomes => exact .var (change _ (by simp) _ becomes)
  | const => exact .const
  | app pairing _ ih =>
    refine .app pairing fun p pair => ih p pair fun x occurs => ?_
    exact change x (mem_vars_app.mpr ⟨p.1, (pairing.mem pair).1, occurs⟩)

theorem refl (keeps : ∀ x ∈ t.vars, E x (.var x)) : Expands E t t := by
  induction t with
  | var v => exact .var (keeps v (by simp))
  | const c => exact .const
  | app op ts ih =>
    refine .app (.refl _ ts) fun p pair => ?_
    obtain ⟨t, member, rfl⟩ := List.mem_map.mp pair
    exact ih t member fun x occurs => keeps x (mem_vars_app.mpr ⟨t, member, occurs⟩)

/-- Where no variable changes, nothing does. -/
theorem eq_of_fixed (expands : Expands E t u) (fixed : ∀ x ∈ t.vars, ∀ s, E x s → s = .var x) :
    u = t := by
  induction expands with
  | var becomes => exact fixed _ (by simp) _ becomes
  | const => rfl
  | @app op ts us pairs pairing _ ih =>
    have same : ∀ p ∈ pairs, id p.1 = id p.2 := fun p pair =>
      (ih p pair fun x occurs =>
        fixed x (mem_vars_app.mpr ⟨p.1, (pairing.mem pair).1, occurs⟩)).symm
    simpa using (pairing.map_eq same).symm

theorem inst (expands : Expands E t u) : Instance Eq E t u := by
  induction expands with
  | var becomes => exact .var becomes
  | const => exact .const rfl
  | app pairing _ ih => exact .app rfl (pairing.ofOrdered _) ih

theorem replace {p : Variable} (expands : Expands E t u) (fresh : p ∉ t.vars)
    (fixed : ∀ x ∈ target.vars, ∀ s, E x s → s = .var x) :
    Expands (E.putBack p target) (t.replace target (.var p)) u := by
  have whole {t u : Term} (expands : Expands E t u) (same : t.same target = true) :
      Expands (E.putBack p target) (t.replace target (.var p)) u := by
    have equal : u = t := expands.eq_of_fixed fun x occurs =>
      fixed x (mem_vars_of_bare (same_iff.mp same) occurs)
    rw [replace_of_same same, equal]
    exact .var (.inl ⟨rfl, same_iff.mp same⟩)
  induction expands with
  | @var x s becomes =>
    by_cases same : (Term.var x).same target = true
    · exact whole (.var becomes) same
    · rw [replace_var same]
      refine .var (.inr ⟨?_, becomes⟩)
      rintro rfl
      exact fresh (by simp)
  | @const c =>
    by_cases same : (Term.const c).same target = true
    · exact whole .const same
    · rw [replace_const same]
      exact .const
  | @app op ts us pairs pairing all ih =>
    by_cases same : (Term.app op ts).same target = true
    · exact whole (.app pairing all) same
    · rw [replace_app same]
      refine .app (by simpa using pairing.map (fun t => t.replace target (.var p)) id) fun q pair => ?_
      obtain ⟨q, source, rfl⟩ := List.mem_map.mp pair
      exact ih q source fun inside => fresh (mem_vars_app.mpr ⟨q.1, (pairing.mem source).1, inside⟩)

end Term.Expands

namespace Formula.Expands

variable {E E' : Change} {f g : Formula}

theorem mono (expands : Expands E f g) (change : ∀ x ∈ f.freeVars, ∀ s, E x s → E' x s) :
    Expands E' f g := by
  induction expands generalizing E' with
  | atom pairing all =>
    refine .atom pairing fun p pair => (all p pair).mono fun x occurs => ?_
    exact change x (mem_freeVars_atom.mpr ⟨p.1, (pairing.mem pair).1, occurs⟩)
  | not _ ih => exact .not (ih (by simpa using change))
  | multi pairing _ ih =>
    refine .multi pairing fun p pair => ih p pair fun x free => ?_
    exact change x (mem_freeVars_multi.mpr ⟨p.1, (pairing.mem pair).1, free⟩)
  | link _ _ iha ihb =>
    exact .link (iha fun x free => change x (mem_freeVars_link.mpr (.inl free)))
      (ihb fun x free => change x (mem_freeVars_link.mpr (.inr free)))
  | bind _ ih =>
    refine .bind (ih fun x free s becomes => ?_)
    rcases becomes with here | ⟨apart, clear, becomes⟩
    · exact .inl here
    · exact .inr ⟨apart, clear, change x (mem_freeVars_bind.mpr ⟨free, apart⟩) s becomes⟩

theorem refl (keeps : ∀ x ∈ f.freeVars, E x (.var x)) : Expands E f f := by
  induction f generalizing E with
  | atom r ts =>
    refine .atom (.refl _ ts) fun p pair => ?_
    obtain ⟨t, member, rfl⟩ := List.mem_map.mp pair
    exact .refl fun x occurs => keeps x (mem_freeVars_atom.mpr ⟨t, member, occurs⟩)
  | not f ih => exact .not (ih (by simpa using keeps))
  | multi c fs ih =>
    refine .multi (.refl _ fs) fun p pair => ?_
    obtain ⟨f, member, rfl⟩ := List.mem_map.mp pair
    exact ih f member fun x free => keeps x (mem_freeVars_multi.mpr ⟨f, member, free⟩)
  | link c a b iha ihb =>
    exact .link (iha fun x free => keeps x (mem_freeVars_link.mpr (.inl free)))
      (ihb fun x free => keeps x (mem_freeVars_link.mpr (.inr free)))
  | bind q v f ih =>
    refine .bind (ih fun x free => ?_)
    by_cases here : x = v
    · exact .inl ⟨here, by rw [here]⟩
    · refine .inr ⟨here, ?_, keeps x (mem_freeVars_bind.mpr ⟨free, here⟩)⟩
      simpa using Ne.symm here

theorem inst (expands : Expands E f g) : Instance Eq E f g := by
  induction expands with
  | atom pairing all => exact .atom rfl (pairing.ofOrdered _) fun p pair => (all p pair).inst
  | not _ ih => exact .not ih
  | multi pairing _ ih => exact .multi (pairing.ofOrdered _) ih
  | @link E c a b a' b' _ _ iha ihb =>
    cases c with
    | imply => exact .imply iha ihb
    | equiv =>
      obtain ⟨pairs, pairing, all⟩ : ∃ pairs, Pairing false pairs [a, b] [a', b'] ∧
          ∀ p ∈ pairs, Instance Eq E p.1 p.2 := Pairing.exists_two.mpr (.inl ⟨iha, ihb⟩)
      exact .equiv pairing all
  | bind _ ih => exact .bind ih

/-- If a new variable takes the place of a term whose variables stay as they are, putting the
term back gives the same as before. -/
theorem replace {p : Variable} (expands : Expands E f g) (fresh : p ∉ f.allVars)
    (fixed : ∀ x ∈ target.vars, ∀ s, E x s → s = .var x) :
    Expands (E.putBack p target) (f.replace target (.var p)) g := by
  generalize new_eq : Term.var p = new
  fun_induction Formula.replace target new f generalizing E g with
  | case1 r ts =>
    subst new_eq
    cases expands with
    | @atom _ _ _ us pairs pairing all =>
      refine .atom (by simpa using pairing.map (fun t => t.replace target (.var p)) id) fun q pair => ?_
      obtain ⟨q, source, rfl⟩ := List.mem_map.mp pair
      refine (all q source).replace (fun inside => fresh ?_) fixed
      exact mem_allVars_atom.mpr ⟨q.1, (pairing.mem source).1, inside⟩
  | case2 f ih =>
    cases expands with
    | not expands => exact .not (ih expands (by simpa using fresh) fixed)
  | case3 c fs ih =>
    cases expands with
    | @multi _ _ _ gs pairs pairing all =>
      refine .multi (by simpa using pairing.map (fun f => f.replace target new) id) fun q pair => ?_
      obtain ⟨q, source, rfl⟩ := List.mem_map.mp pair
      refine ih q.1 (pairing.mem source).1 (all q source) (fun inside => fresh ?_) fixed
      exact mem_allVars_multi.mpr ⟨q.1, (pairing.mem source).1, inside⟩
  | case4 c a b iha ihb =>
    cases expands with
    | link left right =>
      exact .link (iha left (fun inside => fresh (mem_allVars_link.mpr (.inl inside))) fixed)
        (ihb right (fun inside => fresh (mem_allVars_link.mpr (.inr inside))) fixed)
  | case5 q v f _ =>
    refine expands.mono fun x free s becomes => .inr ⟨?_, becomes⟩
    rintro rfl
    exact fresh (mem_allVars_of_free free)
  | case6 q v f _ catches =>
    subst new_eq
    have here : v = p := by simpa using catches
    exact absurd (mem_allVars_bind.mpr (.inl here.symm)) fresh
  | case7 q v f bound _ ih =>
    cases expands with
    | bind expands =>
      have outside : v ∉ target.vars := by simpa using bound
      have apart : p ≠ v := fun here => fresh (mem_allVars_bind.mpr (.inl here))
      have still : ∀ x ∈ target.vars, ∀ s, E.under v v x s → s = .var x := by
        rintro x occurs s (⟨rfl, -⟩ | ⟨-, -, becomes⟩)
        · exact absurd occurs outside
        · exact fixed x occurs s becomes
      refine .bind ((ih expands (fun inside => fresh (mem_allVars_bind.mpr (.inr inside)))
        still).mono fun x free s becomes => ?_)
      rcases becomes with ⟨rfl, same⟩ | ⟨other, here | ⟨beyond, clear, becomes⟩⟩
      · exact .inr ⟨apart, fun occurs => outside (Term.mem_vars_of_bare same occurs), .inl ⟨rfl, same⟩⟩
      · exact .inl here
      · exact .inr ⟨beyond, clear, .inr ⟨other, becomes⟩⟩

end Formula.Expands

theorem Formula.expands_replace {p : Variable} {f : Formula} (fresh : p ∉ f.allVars) :
    Expands (Change.keep.putBack p target) (f.replace target (.var p)) f :=
  Expands.replace (.refl fun _ _ => rfl) fresh fun _ _ _ kept => kept

end Sequitur
