import Sequitur.Identity
import Sequitur.Proofs.Instance
import Sequitur.Proofs.Order

/-! Two formulas are identical when one is an instance of the other whose free variables stay
as they are and whose symbols have the same names. -/

namespace Sequitur

open Arrangement

def Change.keep : Change := fun x t => t = .var x

theorem Change.renames_keep : Change.keep.Renames := fun x _ kept => ⟨x, kept⟩

theorem Change.meet_keep : Change.Meet .keep .keep .keep := by
  intro x x' y here there
  rw [Change.keep, ← Term.var.inj there, ← Term.var.inj here]

abbrev Symbol.Same (s t : Symbol) : Prop := s.same t = true

theorem Symbol.same_of_eq {s t : Symbol} (equal : s = t) : s.Same t := by
  subst equal
  cases s with
  | relation r => exact Relation.same_iff.mpr rfl
  | operator f => exact Operator.same_iff.mpr rfl
  | constant c => exact Constant.same_iff.mpr rfl

theorem Symbol.same_symm {s t : Symbol} (same : s.same t = true) : t.same s = true := by
  cases s <;> cases t <;> simp_all [Symbol.same, Relation.same_iff, Operator.same_iff,
    Constant.same_iff]

theorem Symbol.same_trans {s t w : Symbol} (first : s.same t = true) (second : t.same w = true) :
    s.same w = true := by
  cases s <;> cases t <;> cases w <;> simp_all [Symbol.same, Relation.same_iff, Operator.same_iff,
    Constant.same_iff]

namespace BinderPairs

def change (bound : BinderPairs) : Change := fun x t => ∃ y, t = .var y ∧ bound.agree x y = true

theorem change_nil : change [] = Change.keep := by
  funext x t
  apply propext
  constructor
  · rintro ⟨y, rfl, agrees⟩
    have same : x = y := by simpa [agree] using agrees
    rw [same]
    rfl
  · rintro rfl
    exact ⟨x, rfl, by simp [agree]⟩

theorem change_cons (v w : Variable) (bound : BinderPairs) :
    change ((v, w) :: bound) = bound.change.under v w := by
  funext x t
  apply propext
  constructor
  · rintro ⟨y, rfl, agrees⟩
    by_cases here : x = v ∨ y = w
    · simp only [agree, here, ↓reduceIte, Bool.and_eq_true, beq_iff_eq] at agrees
      exact .inl ⟨agrees.1, by rw [agrees.2]⟩
    · simp only [agree, here, ↓reduceIte] at agrees
      obtain ⟨apart, other⟩ := not_or.mp here
      exact .inr ⟨apart, by simpa using Ne.symm other, y, rfl, agrees⟩
  · rintro (⟨rfl, rfl⟩ | ⟨apart, clear, y, rfl, agrees⟩)
    · exact ⟨w, rfl, by simp [agree]⟩
    · have other : y ≠ w := Ne.symm (by simpa using clear)
      exact ⟨y, rfl, by simpa [agree, apart, other] using agrees⟩

end BinderPairs

namespace Term

theorem identicalArgs_iff {bound : BinderPairs} {ordered : Bool} {ts us : List Term} :
    identicalArgs bound ordered ts us = true ↔ ∃ pairs, Pairing ordered pairs ts us ∧
      ∀ p ∈ pairs, p.1.identicalUnder bound p.2 = true := by
  cases ordered with
  | true =>
    simp only [identicalArgs, ↓reduceIte, identicalInOrder_eq]
    exact inOrder_iff
  | false =>
    simp only [identicalArgs, Bool.false_eq_true, ↓reduceIte, identicalAssignable_eq]
    exact inAnyOrder_iff

theorem identicalUnder_iff {bound : BinderPairs} {t u : Term} :
    t.identicalUnder bound u = true ↔ Instance Symbol.Same bound.change t u := by
  induction t generalizing u with
  | var x =>
    constructor
    · intro identical
      cases u with
      | var y => exact .var ⟨y, rfl, by simpa [identicalUnder] using identical⟩
      | _ => simp [identicalUnder] at identical
    · rintro ⟨y, rfl, agree⟩
      simpa [identicalUnder] using agree
  | const c =>
    constructor
    · intro identical
      cases u with
      | const d =>
        rw [identicalUnder] at identical
        exact .const identical
      | _ => simp [identicalUnder] at identical
    · rintro (_ | same)
      rw [identicalUnder]
      exact same
  | app op ts ih =>
    have args {us : List Term} : (∃ pairs, Pairing op.ordered pairs ts us ∧
        ∀ p ∈ pairs, p.1.identicalUnder bound p.2 = true) ↔
        ∃ pairs, Pairing op.ordered pairs ts us ∧
          ∀ p ∈ pairs, Instance Symbol.Same bound.change p.1 p.2 := by
      exact Pairing.exists_congr fun p member => ih p.1 member
    constructor
    · intro identical
      cases u with
      | app op' us =>
        rw [identicalUnder, Bool.and_eq_true] at identical
        obtain ⟨pairs, pairing, all⟩ := args.mp (identicalArgs_iff.mp identical.2)
        exact .app identical.1 pairing all
      | _ => simp [identicalUnder] at identical
    · rintro (_ | _ | ⟨same, pairing, all⟩)
      rw [identicalUnder, Bool.and_eq_true]
      exact ⟨same, identicalArgs_iff.mpr (args.mpr ⟨_, pairing, all⟩)⟩

theorem identical_iff {t u : Term} : t.identical u = true ↔ Instance Symbol.Same .keep t u := by
  rw [identical, identicalUnder_iff, BinderPairs.change_nil]

theorem identical_refl (t : Term) : t.identical t = true :=
  identical_iff.mpr (.refl (fun _ => Symbol.same_of_eq rfl) fun _ _ => rfl)

end Term

namespace Formula

theorem identicalUnder_iff {bound : BinderPairs} {f g : Formula} :
    f.identicalUnder bound g = true ↔ Instance Symbol.Same bound.change f g := by
  induction f generalizing bound g with
  | atom r ts =>
    constructor
    · intro identical
      cases g with
      | atom s us =>
        rw [identicalUnder, Bool.and_eq_true] at identical
        obtain ⟨pairs, pairing, all⟩ := Term.identicalArgs_iff.mp identical.2
        exact .atom identical.1 pairing fun p pair => Term.identicalUnder_iff.mp (all p pair)
      | _ => simp [identicalUnder] at identical
    · rintro ⟨same, pairing, all⟩
      rw [identicalUnder, Bool.and_eq_true]
      refine ⟨same, Term.identicalArgs_iff.mpr ⟨_, pairing, fun p pair => ?_⟩⟩
      exact Term.identicalUnder_iff.mpr (all p pair)
  | not f ih =>
    constructor
    · intro identical
      cases g with
      | not g => exact .not (ih.mp (by simpa [identicalUnder] using identical))
      | _ => simp [identicalUnder] at identical
    · rintro (_ | inst)
      rw [identicalUnder]
      exact ih.mpr inst
  | multi c fs ih =>
    have parts {gs : List Formula} : (fs.length == gs.length && identicalAssignable bound fs gs)
        = true ↔ ∃ pairs, Pairing false pairs fs gs ∧
          ∀ p ∈ pairs, Instance Symbol.Same bound.change p.1 p.2 := by
      rw [identicalAssignable_eq]
      refine inAnyOrder_iff.trans (Pairing.exists_congr fun p member => ?_)
      exact ih p.1 member
    constructor
    · intro identical
      cases g with
      | multi d gs =>
        rw [identicalUnder, Bool.and_eq_true, beq_iff_eq] at identical
        obtain ⟨rfl, identical⟩ := identical
        obtain ⟨pairs, pairing, all⟩ := parts.mp identical
        exact .multi pairing all
      | _ => simp [identicalUnder] at identical
    · rintro (_ | _ | ⟨pairing, all⟩)
      rw [identicalUnder, Bool.and_eq_true]
      exact ⟨beq_self_eq_true c, parts.mpr ⟨_, pairing, all⟩⟩
  | link c a b iha ihb =>
    cases c with
    | imply =>
      constructor
      · intro identical
        match g with
        | .link .imply a' b' =>
          rw [identicalUnder, Bool.and_eq_true] at identical
          exact .imply (iha.mp identical.1) (ihb.mp identical.2)
        | .link .equiv _ _ | .atom _ _ | .not _ | .multi _ _ | .bind _ _ _ =>
          simp [identicalUnder] at identical
      · rintro (_ | _ | _ | ⟨left, right⟩)
        rw [identicalUnder, Bool.and_eq_true]
        exact ⟨iha.mpr left, ihb.mpr right⟩
    | equiv =>
      constructor
      · intro identical
        match g with
        | .link .equiv a' b' =>
          simp only [identicalUnder, Bool.or_eq_true, Bool.and_eq_true, iha, ihb] at identical
          obtain ⟨pairs, pairing, all⟩ : ∃ pairs, Pairing false pairs [a, b] [a', b'] ∧
              ∀ p ∈ pairs, Instance Symbol.Same bound.change p.1 p.2 :=
            Pairing.exists_two.mpr identical
          exact .equiv pairing all
        | .link .imply _ _ | .atom _ _ | .not _ | .multi _ _ | .bind _ _ _ =>
          simp [identicalUnder] at identical
      · rintro (_ | _ | _ | _ | ⟨pairing, all⟩)
        simp only [identicalUnder, Bool.or_eq_true, Bool.and_eq_true, iha, ihb]
        exact Pairing.exists_two.mp ⟨_, pairing, all⟩
  | bind q v f ih =>
    constructor
    · intro identical
      cases g with
      | bind q' w g =>
        rw [identicalUnder, Bool.and_eq_true, beq_iff_eq] at identical
        obtain ⟨rfl, identical⟩ := identical
        exact .bind (BinderPairs.change_cons v w bound ▸ ih.mp identical)
      | _ => simp [identicalUnder] at identical
    · rintro (_ | _ | _ | _ | _ | inst)
      rw [identicalUnder, Bool.and_eq_true]
      exact ⟨beq_self_eq_true q, ih.mpr (BinderPairs.change_cons .. ▸ inst)⟩

theorem identical_iff {f g : Formula} :
    f.identical g = true ↔ Instance Symbol.Same .keep f g := by
  rw [identical, identicalUnder_iff, BinderPairs.change_nil]

theorem identical_refl (f : Formula) : f.identical f = true :=
  identical_iff.mpr (.refl (fun _ => Symbol.same_of_eq rfl) fun _ _ => rfl)

/-- Two instances of one formula are identical if what becomes of its free variables is. -/
theorem identical_of_span {R : Symbol → Symbol → Prop} {E E' : Change} {f g h : Formula}
    (first : Instance Eq E f g) (second : Instance R E' f h) (names : ∀ s m, R s m → s.Same m)
    (meet : ∀ x ∈ f.freeVars, ∀ t u, E x t → E' x u → t.identical u = true) :
    g.identical h = true := by
  refine identical_iff.mpr (first.span second (fun _ _ same => congrArg Symbol.ordered same)
    (fun s _ n same related => same ▸ names s n related) ?_)
  intro x free t u becomes becomes'
  exact Term.identical_iff.mp (meet x free t u becomes becomes')

end Formula

theorem Term.instance_of_bare {t u : Term} (same : t.bare = u.bare) :
    Instance Symbol.Same .keep t u := by
  induction t generalizing u with
  | var v =>
    cases u with
    | var w =>
      rw [bare, bare, var.injEq] at same
      exact .var (by rw [same]; rfl)
    | _ => simp [bare] at same
  | const c =>
    cases u with
    | const d =>
      rw [bare, bare, const.injEq] at same
      exact .const (Constant.same_iff.mpr same)
    | _ => simp [bare] at same
  | app op ts ih =>
    cases u with
    | app op' us =>
      rw [bare, bare, app.injEq] at same
      obtain ⟨pairs, pairing, all⟩ := Pairing.exists_of_keys op.ordered same.2
      refine .app (Operator.same_iff.mpr same.1) pairing fun p pair => ?_
      exact ih p.1 (pairing.mem pair).1 (all p pair)
    | _ => simp [bare] at same

/-- Formulas that are the same but for what is shown and recorded are identical. -/
theorem Formula.instance_of_bare {f g : Formula} (same : f.bare = g.bare) :
    Instance Symbol.Same .keep f g := by
  induction f generalizing g with
  | atom r ts =>
    cases g with
    | atom s us =>
      rw [bare, bare, atom.injEq] at same
      obtain ⟨pairs, pairing, all⟩ := Pairing.exists_of_keys r.ordered same.2
      refine .atom (Relation.same_iff.mpr same.1) pairing fun p pair => ?_
      exact Term.instance_of_bare (all p pair)
    | _ => simp [bare] at same
  | not f ih =>
    cases g with
    | not g =>
      rw [bare, bare, not.injEq] at same
      exact .not (ih same)
    | _ => simp [bare] at same
  | multi c fs ih =>
    cases g with
    | multi d gs =>
      rw [bare, bare, multi.injEq] at same
      obtain ⟨rfl, same⟩ := same
      obtain ⟨pairs, pairing, all⟩ := Pairing.exists_of_keys false same
      exact .multi pairing fun p pair => ih p.1 (pairing.mem pair).1 (all p pair)
    | _ => simp [bare] at same
  | link c a b iha ihb =>
    cases g with
    | link d a' b' =>
      rw [bare, bare, link.injEq] at same
      obtain ⟨rfl, left, right⟩ := same
      cases c with
      | imply => exact .imply (iha left) (ihb right)
      | equiv =>
        obtain ⟨pairs, pairing, all⟩ : ∃ pairs, Pairing false pairs [a, b] [a', b'] ∧
            ∀ p ∈ pairs, Instance Symbol.Same .keep p.1 p.2 :=
          Pairing.exists_two.mpr (.inl ⟨iha left, ihb right⟩)
        exact .equiv pairing all
    | _ => simp [bare] at same
  | bind q v f ih =>
    cases g with
    | bind q' w g =>
      rw [bare, bare, bind.injEq] at same
      obtain ⟨rfl, rfl, same⟩ := same
      refine .bind ((ih same).mono (fun _ _ _ _ related => related) ?_)
      rintro x free s - rfl
      by_cases here : x = v
      · exact .inl ⟨here, by rw [here]⟩
      · exact .inr ⟨here, by simpa using Ne.symm here, rfl⟩
    | _ => simp [bare] at same

end Sequitur
