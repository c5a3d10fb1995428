import Sequitur.Replacement
import Sequitur.Proofs.Instance
import Sequitur.Proofs.Order

/-! Renaming every variable, binders included, gives an instance as long as no two variables of
the formula fall together. -/

namespace Sequitur

open Arrangement

def Change.rename (image : Variable → Variable) : Change := fun x t => t = .var (image x)

variable {image : Variable → Variable}

namespace Term

theorem instance_renameAll (t : Term) : Instance Eq (.rename image) t (t.renameAll image) := by
  induction t with
  | var v => rw [renameAll]; exact .var rfl
  | const c => rw [renameAll]; exact .const rfl
  | app op ts ih =>
    rw [renameAll]
    refine .app rfl (.map_right _ ts _) ?_
    intro p pair
    obtain ⟨t, member, rfl⟩ := List.mem_map.mp pair
    exact ih t member

theorem renameAll_congr {image' : Variable → Variable} {t : Term}
    (agree : ∀ x ∈ t.vars, image x = image' x) : t.renameAll image = t.renameAll image' := by
  induction t with
  | var v => rw [renameAll, renameAll, agree v (by simp)]
  | const c => rw [renameAll, renameAll]
  | app op ts ih =>
    rw [renameAll, renameAll]
    congr 1
    apply List.map_congr_left
    intro t member
    exact ih t member fun x occurs => agree x (mem_vars_app.mpr ⟨t, member, occurs⟩)

@[simp] theorem renameAll_id (t : Term) : t.renameAll id = t := by
  induction t with
  | var v => rw [renameAll, id]
  | const c => rw [renameAll]
  | app op ts ih => rw [renameAll, List.map_congr_left ih, List.map_id']

theorem bare_renameAll (t : Term) : (t.renameAll image).bare = t.bare.renameAll image := by
  induction t with
  | var v => simp [renameAll, bare]
  | const c => simp [renameAll, bare]
  | app op ts ih =>
    simp only [renameAll, bare, List.map_map, app.injEq, true_and]
    exact List.map_congr_left ih

theorem mem_vars_renameAll {t : Term} {y : Variable} :
    y ∈ (t.renameAll image).vars ↔ ∃ x ∈ t.vars, y = image x := by
  constructor
  · intro occurs
    obtain ⟨x, inside, s, rfl, occurs⟩ := t.instance_renameAll.exists_source occurs
    exact ⟨x, inside, by simpa using occurs⟩
  · rintro ⟨x, inside, rfl⟩
    obtain ⟨s, rfl, occurs⟩ := t.instance_renameAll.exists_target inside
    exact occurs _ (by simp)

end Term

namespace Formula

theorem renameAll_congr {image' : Variable → Variable} {f : Formula}
    (agree : ∀ x ∈ f.allVars, image x = image' x) : f.renameAll image = f.renameAll image' := by
  induction f with
  | atom r ts =>
    rw [renameAll, renameAll]
    congr 1
    apply List.map_congr_left
    intro t member
    exact Term.renameAll_congr fun x occurs => agree x (mem_allVars_atom.mpr ⟨t, member, occurs⟩)
  | not f ih => rw [renameAll, renameAll, ih (by simpa using agree)]
  | multi c fs ih =>
    rw [renameAll, renameAll]
    congr 1
    apply List.map_congr_left
    intro f member
    exact ih f member fun x inside => agree x (mem_allVars_multi.mpr ⟨f, member, inside⟩)
  | link c a b iha ihb =>
    simp only [mem_allVars_link] at agree
    rw [renameAll, renameAll, iha fun x inside => agree x (.inl inside),
      ihb fun x inside => agree x (.inr inside)]
  | bind q v f ih =>
    simp only [mem_allVars_bind] at agree
    rw [renameAll, renameAll, agree v (.inl rfl), ih fun x inside => agree x (.inr inside)]

@[simp] theorem renameAll_id (f : Formula) : f.renameAll id = f := by
  induction f with
  | atom r ts => rw [renameAll, List.map_congr_left fun t _ => t.renameAll_id, List.map_id']
  | not f ih => rw [renameAll, ih]
  | multi c fs ih => rw [renameAll, List.map_congr_left ih, List.map_id']
  | link c a b iha ihb => rw [renameAll, iha, ihb]
  | bind q v f ih => rw [renameAll, ih, id]

theorem instance_renameAll {f : Formula}
    (injective : ∀ x ∈ f.allVars, ∀ y ∈ f.allVars, image x = image y → x = y) :
    Instance Eq (.rename image) f (f.renameAll image) := by
  induction f with
  | atom r ts =>
    rw [renameAll]
    refine .atom rfl (.map_right _ ts _) ?_
    intro p pair
    obtain ⟨t, _, rfl⟩ := List.mem_map.mp pair
    exact t.instance_renameAll
  | not f ih =>
    rw [renameAll]
    exact .not (ih (by simpa using injective))
  | multi c fs ih =>
    rw [renameAll]
    refine .multi (.map_right _ fs _) ?_
    intro p pair
    obtain ⟨f, member, rfl⟩ := List.mem_map.mp pair
    refine ih f member fun x left y right => ?_
    exact injective x (mem_allVars_multi.mpr ⟨f, member, left⟩)
      y (mem_allVars_multi.mpr ⟨f, member, right⟩)
  | link c a b iha ihb =>
    rw [renameAll]
    simp only [mem_allVars_link] at injective
    have left := iha fun x left y right => injective x (.inl left) y (.inl right)
    have right := ihb fun x left y right => injective x (.inr left) y (.inr right)
    cases c with
    | imply => exact .imply left right
    | equiv => exact .equiv (.map_right _ [a, b] _) (by simpa using ⟨left, right⟩)
  | bind q v f ih =>
    rw [renameAll]
    simp only [mem_allVars_bind] at injective
    have inner := ih fun x left y right => injective x (.inr left) y (.inr right)
    refine .bind (inner.mono (fun _ _ _ _ same => same) ?_)
    rintro x free s - rfl
    by_cases here : x = v
    · exact .inl ⟨here, by rw [here]⟩
    · refine .inr ⟨here, fun caught => here ?_, rfl⟩
      exact injective x (.inr (mem_allVars_of_free free)) v (.inl rfl)
        (by simpa using Eq.symm (Term.mem_vars_var.mp caught))

theorem bare_renameAll (f : Formula) : (f.renameAll image).bare = f.bare.renameAll image := by
  induction f with
  | atom r ts =>
    simp only [renameAll, bare, List.map_map, atom.injEq, true_and]
    exact List.map_congr_left fun t _ => t.bare_renameAll
  | not f ih => simp [renameAll, bare, ih]
  | multi c fs ih =>
    simp only [renameAll, bare, List.map_map, multi.injEq, true_and]
    exact List.map_congr_left ih
  | link c a b iha ihb => simp [renameAll, bare, iha, ihb]
  | bind q v f ih => simp [renameAll, bare, ih]

theorem mem_allVars_renameAll {f : Formula} {y : Variable} :
    y ∈ (f.renameAll image).allVars ↔ ∃ x ∈ f.allVars, y = image x := by
  induction f with
  | atom r ts =>
    simp only [renameAll, mem_allVars_atom, List.mem_map, exists_exists_and_eq_and,
      Term.mem_vars_renameAll]
    grind
  | not f ih => simpa [renameAll] using ih
  | multi c fs ih =>
    simp only [renameAll, mem_allVars_multi, List.mem_map, exists_exists_and_eq_and]
    grind
  | link c a b iha ihb => simp only [renameAll, mem_allVars_link]; grind
  | bind q v f ih => simp only [renameAll, mem_allVars_bind]; grind

@[simp] theorem quantifiers_renameAll (f : Formula) :
    (f.renameAll image).quantifiers = f.quantifiers := by
  induction f with
  | atom r ts => simp [renameAll, quantifiers]
  | not f ih => simpa [renameAll, quantifiers] using ih
  | multi c fs ih =>
    simp only [renameAll, quantifiers, List.map_map]
    congr 1
    exact List.map_congr_left ih
  | link c a b iha ihb => simp [renameAll, quantifiers, iha, ihb]
  | bind q v f ih => simp [renameAll, quantifiers, ih]

end Formula

end Sequitur
