import Sequitur.Matcher
import Sequitur.Proofs.Arrangement

/-! Backtracking with flags. Instead of taking items out of a list, a search can set a flag for every
item that is taken and clear it on the way back. Both go through the same choices in the same order:
whoever comes back has left the flags as they were, and what is left of the list are the items without
a flag. -/

namespace Sequitur

namespace Arrangement

variable {α β : Type} {fits : β → Bool} {onward : List Bool → Bool × List Bool} {flags : List Bool}
  {ys : List β}

def flagged (flags : List Bool) (j : Nat) : Bool := flags.getD j true

def unflagged (ys : List β) (flags : List Bool) : List β :=
  ((ys.zip flags).filter fun p => !p.2).map Prod.fst

/-- Goes through numbered items. Sets the flag of one that fits and has none, goes on from there, and
clears it again if that leads nowhere. -/
def tryEach (fits : β → Bool) (onward : List Bool → Bool × List Bool) :
    List (β × Nat) → List Bool → Bool × List Bool
  | [], flags => (false, flags)
  | (y, j) :: later, flags =>
    if flagged flags j || !fits y then tryEach fits onward later flags
    else
      match onward (flags.set j true) with
      | (true, flags) => (true, flags)
      | (false, flags) => tryEach fits onward later (flags.set j false)

def assignFlagged (related : α → β → Bool) (ys : List β) : List α → List Bool → Bool × List Bool
  | [], flags => (true, flags)
  | x :: xs, flags => tryEach (related x) (assignFlagged related ys xs) ys.zipIdx flags

def inAnyOrderFlagged (related : α → β → Bool) (xs : List α) (ys : List β) : Bool :=
  xs.length == ys.length && (assignFlagged related ys xs (.replicate ys.length false)).1

theorem unflagged_replicate (ys : List β) : unflagged ys (.replicate ys.length false) = ys := by
  induction ys with
  | nil => rfl
  | cons y ys ih => simpa [unflagged, List.replicate_succ] using ih

theorem set_flag_clear {j : Nat} (free : flagged flags j = false) :
    (flags.set j true).set j false = flags := by
  have inside : flags[j]? = some false := by
    cases here : flags[j]? with
    | none => simp [flagged, here] at free
    | some b => simpa [flagged, here] using free
  obtain ⟨within, -⟩ := List.getElem?_eq_some_iff.mp inside
  rw [List.set_set]
  apply List.ext_getElem?
  intro i
  by_cases here : j = i
  · subst here
    rw [List.getElem?_set_self within, inside]
  · rw [List.getElem?_set_ne here]

/-- To take an item out is to set its flag. -/
theorem picks_unflagged (same : flags.length = ys.length) : picks (unflagged ys flags) =
    (ys.zipIdx.filter fun p => !flagged flags p.2).map fun p =>
      (p.1, unflagged ys (flags.set p.2 true)) := by
  induction ys generalizing flags with
  | nil => simp [unflagged, picks]
  | cons y ys ih =>
    obtain _ | ⟨flag, flags⟩ := flags
    · cases same
    · have rest := ih (Nat.succ.inj same)
      rw [List.zipIdx_cons, List.zipIdx_succ, List.filter_cons, List.filter_map]
      cases flag with
      | true => simpa [flagged, unflagged, Function.comp_def] using rest
      | false =>
        have kept := congrArg (List.map fun p => (p.1, y :: p.2)) rest
        simpa [flagged, unflagged, picks, Function.comp_def] using kept

section Comparison

variable {related : α → β → Bool} {xs : List α}

/-- One round of choices, when what comes after it leaves the flags as they were wherever it fails. -/
theorem tryEach_spec {items : List (β × Nat)}
    (restores : ∀ j, (onward (flags.set j true)).1 = false →
      (onward (flags.set j true)).2 = flags.set j true) :
    (tryEach fits onward items flags).1 = (items.any fun p =>
      !flagged flags p.2 && (fits p.1 && (onward (flags.set p.2 true)).1)) ∧
    ((tryEach fits onward items flags).1 = false → (tryEach fits onward items flags).2 = flags) := by
  induction items with
  | nil => simp [tryEach]
  | cons p items ih =>
    obtain ⟨y, j⟩ := p
    rw [tryEach, List.any_cons]
    by_cases free : flagged flags j = false
    · by_cases fit : fits y = true
      · rw [if_neg (by simp [free, fit])]
        have back := restores j
        cases found : onward (flags.set j true) with
        | mk success after =>
          rw [found] at back
          cases success with
          | true => simp [free, fit]
          | false =>
            have after_eq : after = flags.set j true := back rfl
            simpa [after_eq, set_flag_clear free] using ih
      · rw [if_pos (by simp [fit])]
        simpa [fit] using ih
    · rw [if_pos (by simp [free])]
      simpa [free] using ih

theorem assignFlagged_spec (same : flags.length = ys.length) :
    (assignFlagged related ys xs flags).1 = assignable related xs (unflagged ys flags) ∧
    ((assignFlagged related ys xs flags).1 = false → (assignFlagged related ys xs flags).2 = flags) := by
  induction xs generalizing flags with
  | nil => simp [assignFlagged, assignable]
  | cons x xs ih =>
    have next (j : Nat) := ih (by rw [List.length_set, same] : (flags.set j true).length = ys.length)
    rw [assignFlagged]
    refine ⟨?_, (tryEach_spec fun j => (next j).2).2⟩
    rw [(tryEach_spec fun j => (next j).2).1, assignable, picks_unflagged same, List.any_map,
      List.any_filter]
    simp only [(next _).1, Function.comp_def]

theorem inAnyOrderFlagged_eq (related : α → β → Bool) (xs : List α) (ys : List β) :
    inAnyOrderFlagged related xs ys = inAnyOrder related xs ys := by
  rw [inAnyOrderFlagged, inAnyOrder, (assignFlagged_spec List.length_replicate).1,
    unflagged_replicate]

end Comparison

end Arrangement

namespace Matcher

open Arrangement

variable {α : Type} {m : Matcher α} {ms : List (Matcher α)} {xs : List α} {flags : List Bool}
  {r : Bindings} {rs : List Bindings}

/-- What a search finds from bindings and flags, each time with the flags then set, and the flags that it
leaves behind. -/
abbrev FlaggedSearch := Bindings → List Bool → List (Bindings × List Bool) × List Bool

def fromEach (onward : FlaggedSearch) : List Bindings → List Bool →
    List (Bindings × List Bool) × List Bool
  | [], flags => ([], flags)
  | r :: rs, flags =>
    let (found, flags) := onward r flags
    let (later, flags) := fromEach onward rs flags
    (found ++ later, flags)

def tryAll (m : Matcher α) (onward : FlaggedSearch) (r : Bindings) : List (α × Nat) → List Bool →
    List (Bindings × List Bool) × List Bool
  | [], flags => ([], flags)
  | (x, j) :: later, flags =>
    if flagged flags j then tryAll m onward r later flags
    else
      match m x r with
      | [] => tryAll m onward r later flags
      | rs =>
        let (found, flags) := fromEach onward rs (flags.set j true)
        let (more, flags) := tryAll m onward r later (flags.set j false)
        (found ++ more, flags)

def assignFlagged (xs : List α) : List (Matcher α) → FlaggedSearch
  | [], r, flags => ([(r, flags)], flags)
  | m :: ms, r, flags => tryAll m (assignFlagged xs ms) r xs.zipIdx flags

theorem fromEach_eq {onward : FlaggedSearch} (restores : ∀ r, (onward r flags).2 = flags) :
    fromEach onward rs flags = (rs.flatMap fun r => (onward r flags).1, flags) := by
  induction rs with
  | nil => rfl
  | cons r rs ih => simp only [fromEach, restores, ih, List.flatMap_cons]

theorem tryAll_eq {onward : FlaggedSearch} {items : List (α × Nat)}
    (restores : ∀ r j, (onward r (flags.set j true)).2 = flags.set j true) :
    tryAll m onward r items flags =
      ((items.filter fun p => !flagged flags p.2).flatMap fun p =>
        (m p.1 r).flatMap fun r => (onward r (flags.set p.2 true)).1, flags) := by
  induction items with
  | nil => rfl
  | cons p items ih =>
    obtain ⟨x, j⟩ := p
    rw [tryAll]
    by_cases free : flagged flags j = false
    · rw [if_neg (by simp [free]), List.filter_cons_of_pos (by simp [free]), List.flatMap_cons]
      cases found : m x r with
      | nil => simpa using ih
      | cons r rs =>
        simp only [fromEach_eq fun r => restores r j, set_flag_clear free, ih]
    · rw [if_pos (by simpa using free), List.filter_cons_of_neg (by simpa using free), ih]

/-- The search with flags finds what the search that takes items out finds, in the same order. -/
theorem assignFlagged_eq (same : flags.length = xs.length) :
    ((assignFlagged xs ms r flags).1.map fun p => (p.1, unflagged xs p.2)) =
      assignments ms (unflagged xs flags) r ∧ (assignFlagged xs ms r flags).2 = flags := by
  induction ms generalizing r flags with
  | nil => exact ⟨rfl, rfl⟩
  | cons m ms ih =>
    have next (r : Bindings) (j : Nat) :=
      ih (by rw [List.length_set, same] : (flags.set j true).length = xs.length) (r := r)
    rw [assignFlagged, tryAll_eq fun r j => (next r j).2]
    refine ⟨?_, rfl⟩
    rw [assignments, picks_unflagged same]
    simp only [List.map_flatMap, (next _ _).1, List.flatMap_map]

theorem assignments_eq_flagged (ms : List (Matcher α)) (xs : List α) (r : Bindings) :
    assignments ms xs r = (assignFlagged xs ms r (.replicate xs.length false)).1.map fun p =>
      (p.1, unflagged xs p.2) := by
  rw [(assignFlagged_eq List.length_replicate).1, unflagged_replicate]

/-- Matching in any order, with flags for the items that have a matcher. -/
theorem inAnyOrder_eq_flagged (ms : List (Matcher α)) (xs : List α) (r : Bindings) :
    inAnyOrder ms xs r = if ms.length = xs.length then
      (assignFlagged xs ms r (.replicate xs.length false)).1.map Prod.fst else [] := by
  rw [inAnyOrder, assignments_eq_flagged, List.map_map]
  rfl

/-- The items that are left over are those without a flag when all matchers have one. -/
theorem withOthers_eq_flagged (ms : List (Matcher α)) (rest : Matcher α) (join : List α → α)
    (xs : List α) (r : Bindings) :
    withOthers ms (some rest) join xs r = if ms.length ≤ xs.length then
      (assignFlagged xs ms r (.replicate xs.length false)).1.flatMap fun p =>
        others rest join (p.1, unflagged xs p.2) else [] := by
  rw [withOthers, assignments_eq_flagged, List.flatMap_map]

end Matcher

end Sequitur
