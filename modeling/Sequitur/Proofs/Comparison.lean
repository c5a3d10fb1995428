import Sequitur.Proofs.Backtracking
import Sequitur.Proofs.Indices

/-! Comparison by renaming. Instead of remembering the binders passed, one can rename both bodies to a
variable that occurs in neither formula and compare the results; and two formulas that are written alike
need not be taken apart. The answer is the same. -/

namespace Sequitur

open Arrangement

def Arrangement.byOrder {α β : Type} (ordered : Bool) (related : α → β → Bool) (xs : List α)
    (ys : List β) : Bool :=
  if ordered then inOrder related xs ys else inAnyOrderFlagged related xs ys

def Term.coincides (t u : Term) : Bool :=
  t.same u ||
    match t, u with
    | .var x, .var y => x == y
    | .const c, .const d => c.same d
    | .app f ts, .app g us =>
      f.same g && byOrder f.ordered (fun t u => t.1.coincides u) ts.attach us
    | _, _ => false
termination_by sizeOf t
decreasing_by
  have := List.sizeOf_lt_of_mem t.2
  simp only [Term.app.sizeOf_spec]
  omega

def Formula.coincides (f g : Formula) : Bool :=
  f.same g ||
    match f, g with
    | .atom r ts, .atom s us => r.same s && byOrder r.ordered Term.coincides ts us
    | .not f, .not g => f.coincides g
    | .multi c fs, .multi d gs =>
      c == d && inAnyOrderFlagged (fun f g => f.1.coincides g) fs.attach gs
    | .link .imply a b, .link .imply a' b' => a.coincides a' && b.coincides b'
    | .link .equiv a b, .link .equiv a' b' =>
      (a.coincides a' && b.coincides b') || (a.coincides b' && b.coincides a')
    | .bind q v f, .bind q' w g =>
      q == q' &&
        if v = w then f.coincides g
        else
          let z := Variable.fresh "v" ((bind q v f).allVars ++ (bind q' w g).allVars)
          (f.rename [(v, z)]).coincides (g.rename [(w, z)])
    | _, _ => false
termination_by f.size
decreasing_by
  · simp only [size]; omega
  · exact size_lt_of_mem _ f.2
  all_goals simp only [size, size_rename]; omega

section Renaming

variable {bound bound' : BinderPairs} {v w z z' : Variable}

namespace Term

theorem identicalUnder_subst {t u : Term}
    (meets : ∀ x ∈ t.vars, ∀ y ∈ u.vars,
      bound'.agree (if x = v then z else x) (if y = w then z' else y) = bound.agree x y) :
    (t.subst [(v, .var z)]).identicalUnder bound' (u.subst [(w, .var z')]) =
      t.identicalUnder bound u := by
  induction t generalizing u with
  | var x =>
    cases u with
    | var y => simpa [subst_variable, identicalUnder] using meets x (by simp) y (by simp)
    | const d => simp [subst_variable, subst, identicalUnder]
    | app g us => simp [subst_variable, subst, identicalUnder]
  | const c =>
    cases u with
    | var y => simp [subst_variable, subst, identicalUnder]
    | const d => simp [subst, identicalUnder]
    | app g us => simp [subst, identicalUnder]
  | app f ts ih =>
    cases u with
    | var y => simp [subst_variable, subst, identicalUnder]
    | const d => simp [subst, identicalUnder]
    | app g us =>
      have each : ∀ t ∈ ts, ∀ u ∈ us, (t.subst [(v, .var z)]).identicalUnder bound'
          (u.subst [(w, .var z')]) = t.identicalUnder bound u := by
        intro t member u member'
        apply ih t member
        intro x occurs y occurs'
        exact meets x (mem_vars_app.mpr ⟨t, member, occurs⟩) y (mem_vars_app.mpr ⟨u, member', occurs'⟩)
      simp only [subst, identicalUnder, identicalInOrder_eq, identicalAssignable_eq, List.length_map,
        inOrder_map, assignable_map, inOrder_congr each, assignable_congr each]

theorem identicalArgs_subst {ordered : Bool} {ts us : List Term}
    (meets : ∀ t ∈ ts, ∀ x ∈ t.vars, ∀ u ∈ us, ∀ y ∈ u.vars,
      bound'.agree (if x = v then z else x) (if y = w then z' else y) = bound.agree x y) :
    identicalArgs bound' ordered (ts.map (subst [(v, .var z)])) (us.map (subst [(w, .var z')])) =
      identicalArgs bound ordered ts us := by
  have each : ∀ t ∈ ts, ∀ u ∈ us, (t.subst [(v, .var z)]).identicalUnder bound'
      (u.subst [(w, .var z')]) = t.identicalUnder bound u := fun t member u member' =>
    identicalUnder_subst fun x occurs y occurs' => meets t member x occurs u member' y occurs'
  simp only [identicalArgs, identicalInOrder_eq, identicalAssignable_eq, List.length_map, inOrder_map,
    assignable_map, inOrder_congr each, assignable_congr each]

end Term

namespace Formula

theorem renameFree_self (v : Variable) (f : Formula) : f.renameFree v v = f := by
  have same (t : Term) : t.subst [(v, .var v)] = t := by
    refine (Term.subst_congr fun x _ => ?_).trans t.subst_nil
    rw [Subst.image_single]
    by_cases here : x = v
    · rw [if_pos here, here]
      rfl
    · rw [if_neg here]
      rfl
  induction f with
  | atom r ts => rw [renameFree, List.map_congr_left fun t _ => same t, List.map_id']
  | not f ih => rw [renameFree, ih]
  | multi c fs ih => rw [renameFree, List.map_congr_left ih, List.map_id']
  | link c a b iha ihb => rw [renameFree, iha, ihb]
  | bind q u f ih => rw [renameFree, ih, ite_self]

theorem renameFree_bind (q : Quantifier) (v w u : Variable) (f : Formula) :
    (bind q u f).renameFree v w = bind q u (f.renameFree v (if u = v then v else w)) := by
  by_cases here : u = v
  · rw [renameFree, if_pos here, if_pos here, renameFree_self]
  · rw [renameFree, if_neg here, if_neg here]

theorem clear_under {u : Variable} {f : Formula} (clear : z = v ∨ z ≠ u ∧ z ∉ f.allVars) :
    (if u = v then v else z) = v ∨ (if u = v then v else z) ∉ f.allVars := by
  by_cases here : u = v
  · exact .inl (if_pos here)
  · rw [if_neg here]
    exact clear.imp_right And.right

/-- Below a binder of `u`: the variable bound is not renamed, and no other becomes it. -/
theorem image_under {u : Variable} (clear : z = v ∨ z ≠ u) (x : Variable) :
    ((if x = v then if u = v then v else z else x) = u ↔ x = u) ∧
      (x ≠ u → (if x = v then if u = v then v else z else x) = if x = v then z else x) := by
  grind

theorem agree_under {u u' x y : Variable} (clear : z = v ∨ z ≠ u) (clear' : z' = w ∨ z' ≠ u')
    (meets : x ≠ u → y ≠ u' →
      bound'.agree (if x = v then z else x) (if y = w then z' else y) = bound.agree x y) :
    BinderPairs.agree ((u, u') :: bound') (if x = v then if u = v then v else z else x)
        (if y = w then if u' = w then w else z' else y) =
      BinderPairs.agree ((u, u') :: bound) x y := by
  obtain ⟨caught, kept⟩ := image_under clear x
  obtain ⟨caught', kept'⟩ := image_under clear' y
  simp only [BinderPairs.agree, caught, caught']
  by_cases inner : x = u ∨ y = u'
  · rw [if_pos inner, if_pos inner]
    congr 1
    · rw [Bool.eq_iff_iff, beq_iff_eq, beq_iff_eq, caught]
    · rw [Bool.eq_iff_iff, beq_iff_eq, beq_iff_eq, caught']
  · obtain ⟨apart, apart'⟩ := not_or.mp inner
    rw [if_neg inner, if_neg inner, kept apart, kept' apart']
    exact meets apart apart'

/-- Renaming each side to a variable that does not occur there, or not at all. -/
theorem identicalUnder_renameFree {f g : Formula} (clear : z = v ∨ z ∉ f.allVars)
    (clear' : z' = w ∨ z' ∉ g.allVars)
    (meets : ∀ x ∈ f.freeVars, ∀ y ∈ g.freeVars,
      bound'.agree (if x = v then z else x) (if y = w then z' else y) = bound.agree x y) :
    (f.renameFree v z).identicalUnder bound' (g.renameFree w z') = f.identicalUnder bound g := by
  induction f generalizing g bound bound' z z' with
  | atom r ts =>
    cases g with
    | atom s us =>
      have args : Term.identicalArgs bound' r.ordered (ts.map (Term.subst [(v, .var z)]))
          (us.map (Term.subst [(w, .var z')])) = Term.identicalArgs bound r.ordered ts us := by
        apply Term.identicalArgs_subst
        intro t member x occurs u member' y occurs'
        exact meets x (mem_freeVars_atom.mpr ⟨t, member, occurs⟩) y
          (mem_freeVars_atom.mpr ⟨u, member', occurs'⟩)
      simp only [renameFree, identicalUnder, args]
    | bind q' u' g => rw [renameFree_bind]; simp only [renameFree, identicalUnder]
    | _ => simp only [renameFree, identicalUnder]
  | not f ih =>
    cases g with
    | not g =>
      simp only [renameFree, identicalUnder]
      exact ih (by simpa using clear) (by simpa using clear') (by simpa using meets)
    | bind q' u' g => rw [renameFree_bind]; simp only [renameFree, identicalUnder]
    | _ => simp only [renameFree, identicalUnder]
  | multi c fs ih =>
    cases g with
    | multi d gs =>
      have each : ∀ f ∈ fs, ∀ g ∈ gs, (f.renameFree v z).identicalUnder bound' (g.renameFree w z') =
          f.identicalUnder bound g := by
        intro f member g member'
        apply ih f member
        · exact clear.imp_right fun apart inside => apart (mem_allVars_multi.mpr ⟨f, member, inside⟩)
        · exact clear'.imp_right fun apart inside => apart (mem_allVars_multi.mpr ⟨g, member', inside⟩)
        · intro x free y free'
          exact meets x (mem_freeVars_multi.mpr ⟨f, member, free⟩) y
            (mem_freeVars_multi.mpr ⟨g, member', free'⟩)
      simp only [renameFree, identicalUnder, identicalAssignable_eq, List.length_map, assignable_map,
        assignable_congr each]
    | bind q' u' g => rw [renameFree_bind]; simp only [renameFree, identicalUnder]
    | _ => simp only [renameFree, identicalUnder]
  | link c a b iha ihb =>
    cases g with
    | link d a' b' =>
      simp only [mem_allVars_link, not_or] at clear clear'
      simp only [mem_freeVars_link] at meets
      have straight := iha (clear.imp_right And.left) (clear'.imp_right And.left)
        fun x free y free' => meets x (.inl free) y (.inl free')
      have straight' := ihb (clear.imp_right And.right) (clear'.imp_right And.right)
        fun x free y free' => meets x (.inr free) y (.inr free')
      have crossed := iha (clear.imp_right And.left) (clear'.imp_right And.right)
        fun x free y free' => meets x (.inl free) y (.inr free')
      have crossed' := ihb (clear.imp_right And.right) (clear'.imp_right And.left)
        fun x free y free' => meets x (.inr free) y (.inl free')
      cases c <;> cases d <;>
        simp only [renameFree, identicalUnder, straight, straight', crossed, crossed']
    | bind q' u' g => cases c <;> rw [renameFree_bind] <;> simp only [renameFree, identicalUnder]
    | _ => cases c <;> simp only [renameFree, identicalUnder]
  | bind q u f ih =>
    cases g with
    | bind q' u' g =>
      simp only [mem_allVars_bind, not_or] at clear clear'
      simp only [mem_freeVars_bind] at meets
      have body : (f.renameFree v (if u = v then v else z)).identicalUnder ((u, u') :: bound')
          (g.renameFree w (if u' = w then w else z')) = f.identicalUnder ((u, u') :: bound) g := by
        apply ih (clear_under clear) (clear_under clear')
        intro x free y free'
        apply agree_under (clear.imp_right And.left) (clear'.imp_right And.left)
        exact fun apart apart' => meets x ⟨free, apart⟩ y ⟨free', apart'⟩
      rw [renameFree_bind, renameFree_bind, identicalUnder, identicalUnder, body]
    | _ => rw [renameFree_bind]; simp only [renameFree, identicalUnder]

end Formula

end Renaming

namespace Arrangement

variable {α β : Type} {related : α → β → Bool} {xs : List α} {ys : List β}

theorem inAnyOrderFlagged_attach :
    inAnyOrderFlagged (fun x y => related x.1 y) xs.attach ys = inAnyOrderFlagged related xs ys := by
  have found := assignable_map related Subtype.val id xs.attach ys
  rw [inAnyOrderFlagged_eq, inAnyOrderFlagged_eq, inAnyOrder, inAnyOrder, List.length_attach]
  simpa using congrArg _ found.symm

theorem byOrder_attach {ordered : Bool} :
    byOrder ordered (fun x y => related x.1 y) xs.attach ys = byOrder ordered related xs ys := by
  have found := inOrder_map related Subtype.val id xs.attach ys
  rw [List.attach_map_subtype_val, List.map_id] at found
  rw [byOrder, byOrder, inAnyOrderFlagged_attach, found]
  rfl

end Arrangement

/-- An early exit changes nothing where the long way gives the same answer. -/
theorem or_eq_right_of_imp {a b c : Bool} (long : b = c) (early : a = true → c = true) :
    (a || b) = c := by
  cases a with
  | false => exact long
  | true => exact (early rfl).symm

namespace Term

theorem identical_of_same {t u : Term} (same : t.same u = true) : t.identical u = true :=
  identical_iff.mpr (instance_of_bare (same_iff.mp same))

theorem byOrder_eq_identicalArgs {ordered : Bool} {ts us : List Term}
    (each : ∀ t ∈ ts, ∀ u ∈ us, t.coincides u = t.identical u) :
    byOrder ordered coincides ts us = identicalArgs [] ordered ts us := by
  rw [byOrder, inAnyOrderFlagged_eq, inAnyOrder, inOrder_congr each, assignable_congr each,
    identicalArgs, identicalInOrder_eq, identicalAssignable_eq]
  rfl

theorem coincides_eq_identical (t u : Term) : t.coincides u = t.identical u := by
  induction t generalizing u with
  | var x => cases u <;> simp [coincides, same, identical, identicalUnder, BinderPairs.agree]
  | const c => cases u <;> simp [coincides, same, identical, identicalUnder]
  | app f ts ih =>
    cases u with
    | app g us =>
      rw [coincides]
      refine or_eq_right_of_imp ?_ identical_of_same
      rw [byOrder_attach, byOrder_eq_identicalArgs fun t member u _ => ih t member u]
      rfl
    | _ => simp [coincides, same, identical, identicalUnder]

end Term

namespace Formula

theorem identical_of_same {f g : Formula} (same : f.same g = true) : f.identical g = true :=
  identical_iff.mpr (instance_of_bare (same_iff.mp same))

/-- The bodies of two binders, renamed to one variable that occurs in neither. -/
theorem identicalUnder_eq_rename {f g : Formula} {v w z : Variable} (clear : z ∉ f.allVars)
    (clear' : z ∉ g.allVars) :
    f.identicalUnder [(v, w)] g = (f.rename [(v, z)]).identical (g.rename [(w, z)]) := by
  rw [rename_eq clear, rename_eq clear', identical]
  symm
  apply identicalUnder_renameFree (.inr clear) (.inr clear')
  intro x free y free'
  have apart : x ≠ z := fun same => clear (same ▸ mem_allVars_of_free free)
  have apart' : y ≠ z := fun same => clear' (same ▸ mem_allVars_of_free free')
  simp only [BinderPairs.agree]
  grind

theorem identicalUnder_eq_identical (v : Variable) (f g : Formula) :
    f.identicalUnder [(v, v)] g = f.identical g := by
  have meets : ∀ x ∈ f.freeVars, ∀ y ∈ g.freeVars,
      BinderPairs.agree [] (if x = v then v else x) (if y = v then v else y) =
        BinderPairs.agree [(v, v)] x y := by
    intro x _ y _
    simp only [BinderPairs.agree]
    grind
  have none := identicalUnder_renameFree (.inl rfl) (.inl rfl) meets
  rw [renameFree_self, renameFree_self] at none
  exact none.symm

/-- Comparison by renaming gives the answer of the comparison that remembers the binders passed. -/
theorem coincides_eq_identical (f g : Formula) : f.coincides g = f.identical g := by
  induction n : f.size using Nat.strong_induction_on generalizing f g with
  | _ n ih =>
    subst n
    cases f with
    | atom r ts =>
      cases g with
      | atom s us =>
        rw [coincides]
        refine or_eq_right_of_imp ?_ identical_of_same
        rw [Term.byOrder_eq_identicalArgs fun t _ u _ => t.coincides_eq_identical u]
        rfl
      | _ => simp [coincides, same, identical, identicalUnder]
    | not f =>
      cases g with
      | not g =>
        rw [coincides]
        refine or_eq_right_of_imp ?_ identical_of_same
        exact ih f.size (by simp only [size]; omega) f g rfl
      | _ => simp [coincides, same, identical, identicalUnder]
    | multi c fs =>
      cases g with
      | multi d gs =>
        have each : ∀ f ∈ fs, ∀ g ∈ gs, f.coincides g = f.identical g :=
          fun f member g _ => ih f.size (size_lt_of_mem c member) f g rfl
        rw [coincides]
        refine or_eq_right_of_imp ?_ identical_of_same
        rw [inAnyOrderFlagged_attach, inAnyOrderFlagged_eq, inAnyOrder, assignable_congr each,
          identical, identicalUnder, identicalAssignable_eq]
        rfl
      | _ => simp [coincides, same, identical, identicalUnder]
    | link c a b =>
      have left (g : Formula) : a.coincides g = a.identical g :=
        ih a.size (by simp only [size]; omega) a g rfl
      have right (g : Formula) : b.coincides g = b.identical g :=
        ih b.size (by simp only [size]; omega) b g rfl
      cases g with
      | link d a' b' =>
        cases c with
        | imply =>
          cases d with
          | imply =>
            rw [coincides, left, right]
            exact or_eq_right_of_imp rfl identical_of_same
          | equiv => simp [coincides, same, identical, identicalUnder]
        | equiv =>
          cases d with
          | imply => simp [coincides, same, identical, identicalUnder]
          | equiv =>
            rw [coincides, left, left, right, right]
            exact or_eq_right_of_imp rfl identical_of_same
      | _ => cases c <;> simp [coincides, same, identical, identicalUnder]
    | bind q v f =>
      cases g with
      | bind q' w g =>
        rw [coincides]
        refine or_eq_right_of_imp ?_ identical_of_same
        rw [identical, identicalUnder]
        congr 1
        by_cases same : v = w
        · rw [if_pos same, ← same, identicalUnder_eq_identical]
          exact ih f.size (by simp only [size]; omega) f g rfl
        · have fresh := Variable.fresh_not_mem "v" ((bind q v f).allVars ++ (bind q' w g).allVars)
          simp only [List.mem_append, mem_allVars_bind, not_or] at fresh
          rw [if_neg same, identicalUnder_eq_rename fresh.1.2 fresh.2.2]
          exact ih f.size (by simp only [size]; omega) _ _ (size_rename _ f)
      | _ => simp [coincides, same, identical, identicalUnder]

end Formula

end Sequitur
