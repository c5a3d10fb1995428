import Sequitur.Substitution
import Sequitur.Proofs.Truth

/-! Substitution gives an instance: every free variable becomes the term substituted for it,
and no binder catches a variable of that term. Made in an instance, it gives an instance of the same
formula. What is free in the result and when it is true can be read off the substituted terms. -/

namespace Sequitur

open Arrangement

universe u

namespace Subst

variable {s : Subst} {v x : Variable} {t : Term}

def image (s : Subst) (x : Variable) : Term := (s.lookup x).getD (.var x)

def change (s : Subst) : Change := fun x t => t = s.image x

theorem lookup_cons {α : Type u} (y : Variable) (a : α) (s : List (Variable × α)) (x : Variable) :
    ((y, a) :: s).lookup x = if x = y then some a else s.lookup x := by
  by_cases here : x = y
  · simp [here]
  · simp [List.lookup_cons, here, beq_eq_false_iff_ne.mpr here]

theorem mem_of_lookup {α : Type} {s : List (Variable × α)} {a : α} (found : s.lookup x = some a) :
    (x, a) ∈ s := by
  induction s with
  | nil => cases found
  | cons p s ih =>
    obtain ⟨y, b⟩ := p
    rw [lookup_cons] at found
    by_cases here : x = y
    · rw [if_pos here, Option.some.injEq] at found
      simp [here, found]
    · rw [if_neg here] at found
      exact List.mem_cons_of_mem _ (ih found)

theorem not_mem_of_lookup {α : Type} {s : List (Variable × α)} (absent : s.lookup x = none) :
    x ∉ s.map Prod.fst := by
  intro member
  obtain ⟨p, inside, rfl⟩ := List.mem_map.mp member
  simpa using List.lookup_eq_none_iff.mp absent p inside

theorem lookup_without (s : Subst) (v x : Variable) :
    (s.without v).lookup x = if x = v then none else s.lookup x := by
  induction s with
  | nil => simp [without]
  | cons p s ih =>
    obtain ⟨y, u⟩ := p
    by_cases here : y = v
    · have dropped : without ((y, u) :: s) v = without s v := by simp [without, here]
      rw [dropped, ih, lookup_cons, here]
      split <;> rfl
    · have kept : without ((y, u) :: s) v = (y, u) :: without s v := by simp [without, here]
      rw [kept, lookup_cons, lookup_cons, ih]
      by_cases same : x = y
      · rw [if_pos same, if_pos same, if_neg (same ▸ here)]
      · rw [if_neg same, if_neg same]

theorem lookup_bind (s : Subst) (v x : Variable) (t : Term) :
    (s.bind v t).lookup x = if x = v then some t else s.lookup x := by
  have kept : (s.bind v t).lookup x = ((s.without v).lookup x).or ([(v, t)].lookup x) :=
    List.lookup_append
  rw [kept, lookup_without, lookup_cons]
  by_cases here : x = v
  · simp [here]
  · simp [here]

/-- The last binding of a variable counts. -/
theorem lookup_ofList (pairs : List (Variable × Term)) (x : Variable) :
    (ofList pairs).lookup x = pairs.reverse.lookup x := by
  have from_earlier (s : Subst) : (pairs.foldl (fun s p => s.bind p.1 p.2) s).lookup x =
      (pairs.reverse.lookup x).or (s.lookup x) := by
    induction pairs generalizing s with
    | nil => rfl
    | cons p pairs ih =>
      obtain ⟨v, t⟩ := p
      rw [List.foldl_cons, ih, lookup_bind, List.reverse_cons, List.lookup_append, Option.or_assoc,
        lookup_cons]
      split <;> rfl
  rw [ofList, from_earlier]
  exact Option.or_none

theorem lookup_map {α : Type} {β : Type u} (g : α → β) (pairs : List (Variable × α)) (x : Variable) :
    (pairs.map (Prod.map id g)).lookup x = (pairs.lookup x).map g := by
  induction pairs with
  | nil => rfl
  | cons p pairs ih =>
    obtain ⟨v, a⟩ := p
    rw [List.map_cons, lookup_cons]
    simp only [Prod.map_apply, id_eq, lookup_cons, ih]
    split <;> rfl

theorem image_single (v w x : Variable) :
    image [(v, .var w)] x = .var (if x = v then w else x) := by
  rw [image, lookup_cons]
  split <;> rfl

theorem image_without_self (s : Subst) (v : Variable) : (s.without v).image v = .var v := by
  simp [image, lookup_without]

theorem image_without (apart : x ≠ v) : (s.without v).image x = s.image x := by
  simp [image, lookup_without, apart]

/-- A variable that the substitution does not mention stays, and nothing else becomes it. -/
theorem image_of_not_mem_vars (outside : v ∉ s.vars) : s.image v = .var v := by
  cases found : s.lookup v with
  | none => simp [image, found]
  | some t =>
    have member := mem_of_lookup found
    refine absurd (VarSet.mem_unions.mpr ⟨_, List.mem_map_of_mem member, ?_⟩) outside
    exact VarSet.mem_insert.mpr (.inl rfl)

theorem not_mem_vars_image (outside : v ∉ s.vars) (apart : v ≠ x) : v ∉ (s.image x).vars := by
  cases found : s.lookup x with
  | none => simpa [image, found] using apart
  | some t =>
    intro caught
    simp only [image, found, Option.getD_some] at caught
    refine outside (VarSet.mem_unions.mpr ⟨_, List.mem_map_of_mem (mem_of_lookup found), ?_⟩)
    exact VarSet.mem_insert.mpr (.inr caught)

theorem not_mem_vars_of_not_captures {f : Formula} (free : ¬ s.captures v f = true)
    (occurs : x ∈ f.freeVars) (apart : v ≠ x) : v ∉ (s.image x).vars := by
  cases found : s.lookup x with
  | none => simpa [image, found] using apart
  | some t =>
    intro caught
    simp only [image, found, Option.getD_some] at caught
    refine free (List.any_eq_true.mpr ⟨(x, t), mem_of_lookup found, ?_⟩)
    simp [occurs, caught]

end Subst

namespace Term

theorem subst_var (s : Subst) (x : Variable) : (var x).subst s = s.image x := by
  rw [subst, Subst.image]

theorem subst_variable (v w x : Variable) :
    (var x).subst [(v, .var w)] = .var (if x = v then w else x) := by
  rw [subst_var, Subst.image_single]

@[simp] theorem subst_nil (t : Term) : t.subst [] = t := by
  induction t with
  | var v => rw [subst, List.lookup_nil, Option.getD_none]
  | const c => rw [subst]
  | app op ts ih => rw [subst, List.map_congr_left (g := id) ih, List.map_id]

/-- Only what becomes of the variables of the term counts. -/
theorem subst_congr {s s' : Subst} {t : Term} (same : ∀ x ∈ t.vars, s.image x = s'.image x) :
    t.subst s = t.subst s' := by
  induction t with
  | var v =>
    rw [subst_var, subst_var]
    exact same v (by simp)
  | const c => rw [subst, subst]
  | app op ts ih =>
    rw [subst, subst]
    congr 1
    refine List.map_congr_left fun t member => ih t member fun x occurs => ?_
    exact same x (mem_vars_app.mpr ⟨t, member, occurs⟩)

theorem subst_without {s : Subst} {t : Term} {v : Variable} (clear : v ∉ t.vars) :
    t.subst (s.without v) = t.subst s := by
  refine subst_congr fun x occurs => Subst.image_without ?_
  rintro rfl
  exact clear occurs

theorem subst_single_of_not_mem {t : Term} {v w : Variable} (clear : v ∉ t.vars) :
    t.subst [(v, .var w)] = t := by
  refine (subst_congr fun x occurs => ?_).trans t.subst_nil
  rw [Subst.image_single, if_neg]
  · rfl
  · rintro rfl
    exact clear occurs

theorem mem_vars_subst {s : Subst} {t : Term} {y : Variable} :
    y ∈ (t.subst s).vars ↔ ∃ x ∈ t.vars, y ∈ (s.image x).vars := by
  induction t with
  | var v => simp [subst_var]
  | const c => simp [subst]
  | app op ts ih =>
    rw [subst]
    simp only [mem_vars_app, List.mem_map, exists_exists_and_eq_and]
    constructor
    · rintro ⟨t, member, occurs⟩
      obtain ⟨x, inside, within⟩ := (ih t member).mp occurs
      exact ⟨x, ⟨t, member, inside⟩, within⟩
    · rintro ⟨x, ⟨t, member, inside⟩, within⟩
      exact ⟨t, member, (ih t member).mpr ⟨x, inside, within⟩⟩

end Term

/-- What becomes of a variable, and then of that under a substitution. -/
def Change.subst (E : Change) (s : Subst) : Change := fun x t => ∃ m, E x m ∧ t = m.subst s

section Instances

variable {R : Symbol → Symbol → Prop} {E : Change}

theorem Term.Instance.subst {t u : Term} (inst : Instance R E t u) (s : Subst) :
    Instance R (E.subst s) t (u.subst s) := by
  induction inst with
  | var becomes => exact .var ⟨_, becomes, rfl⟩
  | const same =>
    rw [Term.subst]
    exact .const same
  | app same pairing _ ih =>
    rw [Term.subst]
    refine .app same (by simpa using pairing.map id (Term.subst s)) fun p pair => ?_
    obtain ⟨p, source, rfl⟩ := List.mem_map.mp pair
    exact ih p source

namespace Formula.Instance

variable {f g : Formula} {v w : Variable}

theorem renameFree (inst : Instance R E f g) (fresh : w ∉ g.allVars) :
    Instance R (E.subst [(v, .var w)]) f (g.renameFree v w) := by
  induction inst with
  | atom same pairing all =>
    rw [Formula.renameFree]
    refine .atom same (by simpa using pairing.map id (Term.subst [(v, .var w)])) fun p pair => ?_
    obtain ⟨p, source, rfl⟩ := List.mem_map.mp pair
    exact (all p source).subst _
  | not _ ih =>
    rw [Formula.renameFree]
    exact .not (ih (by simpa using fresh))
  | multi pairing _ ih =>
    rw [Formula.renameFree]
    refine .multi (by simpa using pairing.map id (Formula.renameFree v w)) fun p pair => ?_
    obtain ⟨p, source, rfl⟩ := List.mem_map.mp pair
    exact ih p source fun inside => fresh (mem_allVars_multi.mpr ⟨_, (pairing.mem source).2, inside⟩)
  | imply _ _ iha ihb =>
    rw [Formula.renameFree]
    exact .imply (iha fun inside => fresh (mem_allVars_link.mpr (.inl inside)))
      (ihb fun inside => fresh (mem_allVars_link.mpr (.inr inside)))
  | equiv pairing _ ih =>
    rw [Formula.renameFree]
    refine .equiv (by simpa using pairing.map id (Formula.renameFree v w)) fun p pair => ?_
    obtain ⟨p, source, rfl⟩ := List.mem_map.mp pair
    exact ih p source fun inside => fresh (mem_allVars_sides.mpr ⟨_, (pairing.mem source).2, inside⟩)
  | @bind E q v' u f g inst ih =>
    obtain ⟨other, inside⟩ := not_or.mp (mt mem_allVars_bind.mpr fresh)
    rw [Formula.renameFree]
    by_cases here : u = v
    · rw [if_pos here]
      refine .bind (inst.mono (fun _ _ _ _ same => same) ?_)
      rintro x - t - (bound | ⟨apart, clear, becomes⟩)
      · exact .inl bound
      · exact .inr ⟨apart, clear, t, becomes, (Term.subst_single_of_not_mem (here ▸ clear)).symm⟩
    · rw [if_neg here]
      refine .bind ((ih inside).mono (fun _ _ _ _ same => same) ?_)
      rintro x - t - ⟨m, ⟨rfl, rfl⟩ | ⟨apart, clear, becomes⟩, rfl⟩
      · exact .inl ⟨rfl, Term.subst_single_of_not_mem (by simpa using Ne.symm here)⟩
      · refine .inr ⟨apart, fun caught => ?_, m, becomes, rfl⟩
        obtain ⟨y, occurs, within⟩ := Term.mem_vars_subst.mp caught
        rw [Subst.image_single, Term.mem_vars_var] at within
        split at within
        · exact other within.symm
        · exact clear (within ▸ occurs)

/-- Substituting in an instance substitutes in what became of the free variables. The order in
which parts stand and the symbols at their heads are those of the instance, so nothing is asked
of flags. -/
theorem subst (inst : Instance R E f g) (s : Subst) : Instance R (E.subst s) f (g.subst s) := by
  fun_induction Formula.subst s g generalizing E f with
  | case1 s r ts =>
    cases inst with
    | atom same pairing all =>
      refine .atom same (by simpa using pairing.map id (Term.subst s)) fun p pair => ?_
      obtain ⟨p, source, rfl⟩ := List.mem_map.mp pair
      exact (all p source).subst s
  | case2 s g ih =>
    cases inst with
    | not inst => exact .not (ih inst)
  | case3 s c gs ih =>
    cases inst with
    | multi pairing all =>
      refine .multi (by simpa using pairing.map id (Formula.subst s)) fun p pair => ?_
      obtain ⟨p, source, rfl⟩ := List.mem_map.mp pair
      exact ih p.2 (pairing.mem source).2 (all p source)
  | case4 s c a b iha ihb =>
    cases inst with
    | imply left right => exact .imply (iha left) (ihb right)
    | equiv pairing all =>
      refine .equiv (by simpa using pairing.map id (Formula.subst s)) fun p pair => ?_
      obtain ⟨p, source, rfl⟩ := List.mem_map.mp pair
      have sides : ∀ h ∈ [a, b], Instance R E p.1 h → Instance R (E.subst s) p.1 (h.subst s) := by
        simpa using ⟨iha, ihb⟩
      exact sides p.2 (pairing.mem source).2 (all p source)
  | case5 s q v g inner _ =>
    rename_i w ih
    have fresh : w ∉ VarSet.union g.allVars inner.vars := Variable.fresh_not_mem _ _
    obtain ⟨clear, outside⟩ := not_or.mp (mt VarSet.mem_union.mpr fresh)
    cases inst with
    | @bind _ _ v' _ f _ inst =>
      refine .bind ((ih (inst.contained.renameFree clear)).mono (fun _ _ _ _ same => same) ?_)
      rintro x - t - ⟨_, ⟨m, ⟨⟨rfl, rfl⟩ | ⟨apart, free, becomes⟩, inside⟩, rfl⟩, rfl⟩
      · refine .inl ⟨rfl, ?_⟩
        rw [Term.subst_var, Subst.image_single, if_pos rfl, Term.subst_var]
        exact Subst.image_of_not_mem_vars outside
      · rw [Term.subst_single_of_not_mem free]
        refine .inr ⟨apart, fun caught => ?_, m, becomes, Term.subst_without free⟩
        obtain ⟨y, occurs, within⟩ := Term.mem_vars_subst.mp caught
        refine Subst.not_mem_vars_image outside ?_ within
        rintro rfl
        exact clear (mem_allVars_of_free (inside _ occurs))
  | case6 s q v g inner free =>
    rename_i ih
    cases inst with
    | @bind _ _ v' _ f _ inst =>
      refine .bind ((ih inst.contained).mono (fun _ _ _ _ same => same) ?_)
      rintro x - t - ⟨m, ⟨⟨rfl, rfl⟩ | ⟨apart, clear, becomes⟩, inside⟩, rfl⟩
      · exact .inl ⟨rfl, (Term.subst_var _ _).trans (s.image_without_self v)⟩
      · refine .inr ⟨apart, fun caught => ?_, m, becomes, Term.subst_without clear⟩
        obtain ⟨y, occurs, within⟩ := Term.mem_vars_subst.mp caught
        refine Subst.not_mem_vars_of_not_captures free (inside y occurs) ?_ within
        rintro rfl
        exact clear occurs

end Formula.Instance

end Instances

namespace Formula

@[simp] theorem subst_nil (f : Formula) : f.subst [] = f := by
  induction f with
  | atom r ts => rw [subst, List.map_congr_left (g := id) fun t _ => t.subst_nil, List.map_id]
  | not f ih => rw [subst, ih]
  | multi c fs ih => rw [subst, List.map_congr_left (g := id) ih, List.map_id]
  | link c a b iha ihb => rw [subst, iha, ihb]
  | bind q v f ih => simp [subst, Subst.without, Subst.captures, ih]

theorem instance_self (f : Formula) : Instance Eq .keep f f := .refl (fun _ => rfl) fun _ _ => rfl

theorem instance_renameFree {f : Formula} {v w : Variable} (fresh : w ∉ f.allVars) :
    Instance Eq (Change.keep.subst [(v, .var w)]) f (f.renameFree v w) :=
  f.instance_self.renameFree fresh

theorem instance_subst (s : Subst) (f : Formula) : Instance Eq s.change f (f.subst s) := by
  refine (f.instance_self.subst s).mono (fun _ _ _ _ same => same) ?_
  rintro x - t - ⟨_, rfl, rfl⟩
  exact Term.subst_var s x

end Formula

variable {D : Type u} {I : Interpretation D}

theorem Term.value_subst (s : Subst) (ρ : Variable → D) (t : Term) :
    (t.subst s).value I ρ = t.value I fun x => (s.image x).value I ρ := by
  induction t with
  | var v => simp [subst, value, Subst.image]
  | const c => simp [subst, value]
  | app op ts ih =>
    rw [subst, value, value, List.map_map]
    congr 1
    exact List.map_congr_left ih

namespace Formula

theorem holds_renameFree {f : Formula} {v w : Variable} (fresh : w ∉ f.allVars)
    (ρ : Variable → D) :
    (f.renameFree v w).holds I ρ ↔ f.holds I (Function.update ρ v (ρ w)) := by
  induction f generalizing ρ with
  | atom r ts =>
    have values : (ts.map (Term.subst [(v, .var w)])).map (Term.value I ρ) =
        ts.map (Term.value I (Function.update ρ v (ρ w))) := by
      rw [List.map_map]
      refine List.map_congr_left fun t _ => (t.value_subst _ ρ).trans (Term.value_congr ?_)
      intro x _
      by_cases here : x = v
      · simp [Subst.image, here, Term.value]
      · simp [Subst.image, Subst.lookup_cons, here, Term.value]
    rw [renameFree, holds_atom, holds_atom, values]
  | not f ih => rw [renameFree, holds_not, holds_not, ih (by simpa using fresh)]
  | multi c fs ih =>
    rw [renameFree]
    refine (holds_multi_congr (.map_right _ fs _) fun p pair => ?_).symm
    obtain ⟨f, member, rfl⟩ := List.mem_map.mp pair
    exact (ih f member (fun inside => fresh (mem_allVars_multi.mpr ⟨f, member, inside⟩)) ρ).symm
  | link c a b iha ihb =>
    have left := iha fun inside => fresh (mem_allVars_link.mpr (.inl inside))
    have right := ihb fun inside => fresh (mem_allVars_link.mpr (.inr inside))
    cases c with
    | imply => rw [renameFree, holds_imply, holds_imply, left, right]
    | equiv => rw [renameFree, holds_equiv, holds_equiv, left, right]
  | bind q u f ih =>
    obtain ⟨other, inside⟩ := not_or.mp (mt mem_allVars_bind.mpr fresh)
    rw [renameFree]
    by_cases here : u = v
    · rw [if_pos here, here]
      exact holds_bind_congr fun d => by rw [Function.update_idem]
    · rw [if_neg here]
      refine holds_bind_congr fun d => (ih inside _).trans ?_
      rw [Function.update_of_ne other, Function.update_comm (Ne.symm here)]

/-- A bound variable may be given a fresh name. -/
theorem holds_renameFree_update {f : Formula} {v w : Variable} (fresh : w ∉ f.allVars)
    (ρ : Variable → D) (d : D) :
    (f.renameFree v w).holds I (Function.update ρ w d) ↔ f.holds I (Function.update ρ v d) := by
  rw [holds_renameFree fresh, Function.update_self]
  refine holds_congr fun x free => ?_
  have apart : x ≠ w := by
    rintro rfl
    exact fresh (mem_allVars_of_free free)
  by_cases here : x = v
  · rw [here, Function.update_self, Function.update_self]
  · rw [Function.update_of_ne here, Function.update_of_ne here, Function.update_of_ne apart]

/-- A substituted formula says of the substituted values what the formula says of its
variables. -/
theorem holds_subst (s : Subst) (f : Formula) (ρ : Variable → D) :
    (f.subst s).holds I ρ ↔ f.holds I fun x => (s.image x).value I ρ := by
  fun_induction subst s f generalizing ρ with
  | case1 s r ts =>
    have values : (ts.map (Term.subst s)).map (Term.value I ρ) =
        ts.map (Term.value I fun x => (s.image x).value I ρ) := by
      rw [List.map_map]
      exact List.map_congr_left fun t _ => t.value_subst s ρ
    rw [holds_atom, holds_atom, values]
  | case2 s f ih => rw [holds_not, holds_not, ih]
  | case3 s c fs ih =>
    refine (holds_multi_congr (.map_right _ fs _) fun p pair => ?_).symm
    obtain ⟨f, member, rfl⟩ := List.mem_map.mp pair
    exact (ih f member ρ).symm
  | case4 s c a b iha ihb =>
    cases c with
    | imply => rw [holds_imply, holds_imply, iha, ihb]
    | equiv => rw [holds_equiv, holds_equiv, iha, ihb]
  | case5 s q v f inner _ w ih =>
    have fresh : w ∉ VarSet.union f.allVars inner.vars := Variable.fresh_not_mem _ _
    obtain ⟨clear, outside⟩ := not_or.mp (mt VarSet.mem_union.mpr fresh)
    refine holds_bind_congr fun d => (ih _).trans ((holds_renameFree clear _).trans ?_)
    refine holds_congr fun x free => ?_
    by_cases here : x = v
    · subst here
      simp [Subst.image_of_not_mem_vars outside, Term.value]
    · have apart : w ≠ x := by
        rintro rfl
        exact clear (mem_allVars_of_free free)
      have image : inner.image x = s.image x := Subst.image_without here
      rw [Function.update_of_ne here, Function.update_of_ne here, ← image,
        Term.value_update (Subst.not_mem_vars_image outside apart)]
  | case6 s q v f inner free ih =>
    refine holds_bind_congr fun d => (ih _).trans (holds_congr fun x occurs => ?_)
    by_cases here : x = v
    · subst here
      have image : inner.image x = .var x := s.image_without_self x
      simp [image, Term.value]
    · have image : inner.image x = s.image x := Subst.image_without here
      have clear := Subst.not_mem_vars_of_not_captures free occurs (Ne.symm here)
      rw [Function.update_of_ne here, Term.value_update clear, image]

theorem mem_symbols_renameFree {f : Formula} {v w : Variable} {n : Symbol} (fresh : w ∉ f.allVars)
    (occurs : n ∈ (f.renameFree v w).symbols) : n ∈ f.symbols := by
  rcases (instance_renameFree fresh).exists_symbol occurs with
    ⟨m, inside, rfl⟩ | ⟨x, -, _, ⟨_, rfl, rfl⟩, within⟩
  · exact inside
  · rw [Term.subst_var, Subst.image_single] at within
    simp [Term.symbols] at within

theorem mem_freeVars_renameFree {f : Formula} {v w x : Variable} (fresh : w ∉ f.allVars)
    (free : x ∈ (f.renameFree v w).freeVars) : x = w ∨ (x ∈ f.freeVars ∧ x ≠ v) := by
  obtain ⟨y, source, _, ⟨_, rfl, rfl⟩, inside⟩ := (instance_renameFree fresh).exists_source free
  rw [Term.subst_var, Subst.image_single, Term.mem_vars_var] at inside
  split at inside
  · exact .inl inside
  · rename_i apart
    exact .inr (inside ▸ ⟨source, apart⟩)

theorem respected_subst {s : Subst} {f : Formula} (respected : f.Respected I)
    (images : ∀ x ∈ f.freeVars, (s.image x).Respected I) : (f.subst s).Respected I := by
  intro n occurs
  rcases (instance_subst s f).exists_symbol occurs with ⟨m, inside, rfl⟩ | ⟨x, free, t, rfl, within⟩
  · exact respected m inside
  · exact images x free n within

/-- A variable stands free after substitution if it stood free and is kept, or if a term that
replaced a free variable brought it in. -/
theorem mem_freeVars_subst {s : Subst} {f : Formula} {x : Variable} :
    x ∈ (f.subst s).freeVars ↔ (x ∈ f.freeVars ∧ s.lookup x = none) ∨
      ∃ y ∈ f.freeVars, ∃ t, s.lookup y = some t ∧ x ∈ t.vars := by
  have image : x ∈ (f.subst s).freeVars ↔ ∃ y ∈ f.freeVars, x ∈ (s.image y).vars := by
    constructor
    · intro free
      obtain ⟨y, source, t, rfl, inside⟩ := (instance_subst s f).exists_source free
      exact ⟨y, source, inside⟩
    · rintro ⟨y, source, inside⟩
      obtain ⟨t, rfl, kept⟩ := (instance_subst s f).exists_target source
      exact kept x inside
  rw [image]
  constructor
  · rintro ⟨y, source, inside⟩
    cases found : s.lookup y with
    | none =>
      obtain rfl : x = y := by simpa [Subst.image, found] using inside
      exact .inl ⟨source, found⟩
    | some t => exact .inr ⟨y, source, t, found, by simpa [Subst.image, found] using inside⟩
  · rintro (⟨source, found⟩ | ⟨y, source, t, found, inside⟩)
    · exact ⟨x, source, by simp [Subst.image, found]⟩
    · exact ⟨y, source, by simpa [Subst.image, found] using inside⟩

/-- Substitution lemma. The free variables are those that are not replaced and those of the terms
that replace free variables, and the result is true if the formula is true for the values of
these terms. -/
theorem substitution_lemma (s : Subst) (f : Formula) :
    (∀ x, x ∈ (f.subst s).freeVars ↔ (x ∈ f.freeVars ∧ s.lookup x = none) ∨
      ∃ y ∈ f.freeVars, ∃ t, s.lookup y = some t ∧ x ∈ t.vars) ∧
    ∀ (D : Type u) (I : Interpretation D) (ρ : Variable → D), (f.subst s).holds I ρ ↔
      f.holds I fun x => (s.lookup x).elim (ρ x) (Term.value I ρ) := by
  refine ⟨fun x => mem_freeVars_subst, fun D I ρ => ?_⟩
  have values : (fun x => (s.image x).value I ρ) =
      fun x => (s.lookup x).elim (ρ x) (Term.value I ρ) := by
    funext x
    cases found : s.lookup x <;> simp [Subst.image, found, Term.value]
  rw [holds_subst, values]

end Formula

end Sequitur
