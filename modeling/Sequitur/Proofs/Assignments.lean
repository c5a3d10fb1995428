import Mathlib
import Sequitur.Pattern.Match
import Sequitur.Proofs.Arrangement

/-! Matching in any order is exhaustive. The backtracking search lays the matchers against every choice
of different items, each choice once, and finds what matching in order finds there, as often as it is
found there. Comparing two lists in any order goes through the same choices, so it finds a bijection of
related items wherever there is one. -/

namespace Sequitur

namespace Arrangement

variable {α β γ : Type}

/-- Each way to take `k` items out of a list, one after the other, with the items that remain. -/
def selections : Nat → List α → List (List α × List α)
  | 0, xs => [([], xs)]
  | k + 1, xs => (picks xs).flatMap fun p => (selections k p.2).map fun s => (p.1 :: s.1, s.2)

def chosen {k : Nat} (xs : List α) (σ : Fin k → Fin xs.length) : List α :=
  List.ofFn fun i => xs.get (σ i)

/-- The items that `σ` does not point at, in the order of the list. -/
def unchosen {k : Nat} (xs : List α) (σ : Fin k → Fin xs.length) : List α :=
  ((List.finRange xs.length).filter fun j => ∀ i, σ i ≠ j).map xs.get

theorem selections_map (g : α → β) (k : Nat) (xs : List α) :
    selections k (xs.map g) = (selections k xs).map (Prod.map (List.map g) (List.map g)) := by
  induction k generalizing xs with
  | zero => rfl
  | succ k ih =>
    simp only [selections, picks_map, List.flatMap_map, List.map_flatMap, Prod.map, ih, List.map_map,
      Function.comp_def, List.map_cons]

theorem map_fst_picks (xs : List α) : (picks xs).map Prod.fst = xs := by
  induction xs with
  | nil => rfl
  | cons x xs ih => simpa [picks, Function.comp_def] using ih

section Distinct

variable [DecidableEq α] {xs rest taken : List α} {x : α} {k : Nat}

theorem filter_ne_cons_self (outside : x ∉ xs) : (x :: xs).filter (· ≠ x) = xs := by
  rw [List.filter_cons_of_neg (by simp), List.filter_eq_self]
  intro y member
  simpa using ne_of_mem_of_not_mem member outside

theorem filter_ne_cons {y : α} (inside : x ∈ xs) (outside : y ∉ xs) :
    (y :: xs).filter (· ≠ x) = y :: xs.filter (· ≠ x) :=
  List.filter_cons_of_pos (by simpa using (ne_of_mem_of_not_mem inside outside).symm)

theorem mem_picks_iff (distinct : xs.Nodup) :
    (x, rest) ∈ picks xs ↔ x ∈ xs ∧ rest = xs.filter (· ≠ x) := by
  induction xs generalizing rest with
  | nil => simp [picks]
  | cons y ys ih =>
    obtain ⟨outside, distinct⟩ := List.nodup_cons.mp distinct
    simp only [picks, List.mem_cons, Prod.mk.injEq, List.mem_map, Prod.exists]
    constructor
    · rintro (⟨rfl, rfl⟩ | ⟨z, zs, pick, rfl, rfl⟩)
      · exact ⟨.inl rfl, (filter_ne_cons_self outside).symm⟩
      · obtain ⟨inside, rfl⟩ := (ih distinct).mp pick
        exact ⟨.inr inside, (filter_ne_cons inside outside).symm⟩
    · rintro ⟨rfl | inside, rfl⟩
      · exact .inl ⟨rfl, filter_ne_cons_self outside⟩
      · refine .inr ⟨x, _, (ih distinct).mpr ⟨inside, rfl⟩, rfl, ?_⟩
        exact (filter_ne_cons inside outside).symm

theorem filter_ne_filter (x : α) (xs ys : List α) :
    (xs.filter (· ≠ x)).filter (· ∉ ys) = xs.filter (· ∉ x :: ys) := by
  rw [List.filter_filter]
  refine List.filter_congr fun y _ => ?_
  simp [Bool.and_comm]

/-- From a list without repetitions, every list of `k` different items is taken, and what remains keeps
its order. -/
theorem mem_selections_iff (distinct : xs.Nodup) : (taken, rest) ∈ selections k xs ↔
    taken.length = k ∧ taken.Nodup ∧ taken ⊆ xs ∧ rest = xs.filter (· ∉ taken) := by
  induction k generalizing xs taken with
  | zero =>
    simp only [selections, List.mem_singleton, Prod.mk.injEq, List.length_eq_zero_iff]
    constructor
    · rintro ⟨rfl, rfl⟩
      simp
    · rintro ⟨rfl, -, -, rfl⟩
      simp
  | succ k ih =>
    simp only [selections, List.mem_flatMap, List.mem_map, Prod.exists, Prod.mk.injEq]
    constructor
    · rintro ⟨x, others, pick, ys, left, selected, rfl, rfl⟩
      obtain ⟨inside, rfl⟩ := (mem_picks_iff distinct).mp pick
      obtain ⟨length, apart, within, rfl⟩ := (ih (distinct.filter _)).mp selected
      have other (y : α) (member : y ∈ ys) : y ∈ xs ∧ y ≠ x := by
        simpa using List.mem_filter.mp (within member)
      refine ⟨by simpa using length, ?_, ?_, filter_ne_filter x xs ys⟩
      · exact List.nodup_cons.mpr ⟨fun again => (other x again).2 rfl, apart⟩
      · exact List.cons_subset.mpr ⟨inside, fun y member => (other y member).1⟩
    · rintro ⟨length, apart, within, rfl⟩
      cases taken with
      | nil => cases length
      | cons x ys =>
        obtain ⟨outside, apart⟩ := List.nodup_cons.mp apart
        obtain ⟨inside, within⟩ := List.cons_subset.mp within
        refine ⟨x, _, (mem_picks_iff distinct).mpr ⟨inside, rfl⟩, ys, _, ?_, rfl, rfl⟩
        refine (ih (distinct.filter _)).mpr ⟨by simpa using length, apart, ?_, ?_⟩
        · intro y member
          refine List.mem_filter.mpr ⟨within member, ?_⟩
          simpa using ne_of_mem_of_not_mem member outside
        · exact (filter_ne_filter x xs ys).symm

/-- No selection is listed twice: its first item tells which pick it comes from. -/
theorem nodup_selections (distinct : xs.Nodup) (k : Nat) : (selections k xs).Nodup := by
  induction k generalizing xs with
  | zero => simp [selections]
  | succ k ih =>
    have first : (picks xs).Pairwise fun p q => p.1 ≠ q.1 := by
      rw [← List.pairwise_map, map_fst_picks]
      exact distinct
    refine List.nodup_flatMap.mpr ⟨fun p pick => ?_, first.imp fun {p q} differ => ?_⟩
    · obtain ⟨-, others⟩ := (mem_picks_iff distinct).mp pick
      refine List.Nodup.map ?_ (others ▸ ih (distinct.filter _))
      rintro ⟨taken, rest⟩ ⟨taken', rest'⟩ same
      simpa using same
    · intro s left right
      obtain ⟨_, -, rfl⟩ := List.mem_map.mp left
      obtain ⟨_, -, same⟩ := List.mem_map.mp right
      exact differ (List.cons.inj (Prod.mk.inj same).1).1.symm

end Distinct

/-- The places of a list differ, so taking `k` of them is an injection, and each injection is one. -/
theorem selections_finRange (k n : Nat) : (selections k (List.finRange n) : Multiset _) =
    Finset.univ.val.map fun σ : Fin k ↪ Fin n =>
      (List.ofFn σ, (List.finRange n).filter fun j => ∀ i, σ i ≠ j) := by
  have distinct := List.nodup_finRange n
  have remaining (σ : Fin k → Fin n) : (List.finRange n).filter (· ∉ List.ofFn σ) =
      (List.finRange n).filter fun j => ∀ i, σ i ≠ j := by
    refine List.filter_congr fun j _ => ?_
    simp [List.mem_ofFn]
  refine (Multiset.Nodup.ext ?_ ?_).mpr fun ⟨taken, rest⟩ => ?_
  · exact Multiset.coe_nodup.mpr (nodup_selections distinct k)
  · refine Finset.univ.nodup.map fun σ τ same => ?_
    exact DFunLike.coe_injective (List.ofFn_injective (Prod.mk.inj same).1)
  · rw [Multiset.mem_coe, mem_selections_iff distinct, Multiset.mem_map]
    constructor
    · rintro ⟨rfl, apart, -, rfl⟩
      refine ⟨⟨taken.get, List.nodup_iff_injective_get.mp apart⟩, Finset.mem_univ _, ?_⟩
      rw [Prod.mk.injEq, ← remaining]
      simp [List.ofFn_get]
    · rintro ⟨σ, -, same⟩
      obtain ⟨rfl, rfl⟩ := Prod.mk.inj same
      refine ⟨List.length_ofFn, List.nodup_ofFn.mpr σ.injective, fun j _ => List.mem_finRange j, ?_⟩
      exact (remaining σ).symm

theorem selections_eq (k : Nat) (xs : List α) : (selections k xs : Multiset _) =
    Finset.univ.val.map fun σ : Fin k ↪ Fin xs.length => (chosen xs σ, unchosen xs σ) := by
  -- equal items count as different ones, since they stand at different places
  conv_lhs => rw [← List.map_get_finRange xs]
  rw [selections_map, ← Multiset.map_coe, selections_finRange, Multiset.map_map]
  refine Multiset.map_congr rfl fun σ _ => ?_
  simp [chosen, unchosen, List.map_ofFn, Function.comp_def]

theorem flatMap_swap_perm (xs : List α) (ys : List β) (f : α → β → List γ) :
    (xs.flatMap fun x => ys.flatMap (f x)).Perm (ys.flatMap fun y => xs.flatMap fun x => f x y) := by
  refine Multiset.coe_eq_coe.mp ?_
  simp only [← Multiset.coe_bind]
  exact Multiset.bind_bind _ _

/-- As many different places as there are use up the places. -/
theorem bijective_of_embedding {m n : Nat} (same : m = n) (σ : Fin m ↪ Fin n) : Function.Bijective σ :=
  (Fintype.bijective_iff_injective_and_card σ).mpr ⟨σ.injective, by simp [same]⟩

/-- With as many items as matchers, different items for all of them use up the items. -/
theorem sum_embedding_eq {M : Type} [AddCommMonoid M] {m n : Nat} (same : m = n)
    (f : (Fin m → Fin n) → M) : ∑ σ : Fin m ↪ Fin n, f σ = ∑ σ : Fin m ≃ Fin n, f σ := by
  symm
  refine Fintype.sum_bijective Equiv.toEmbedding ⟨Equiv.toEmbedding_injective, fun σ => ?_⟩ _ _
    fun _ => rfl
  exact ⟨.ofBijective σ (bijective_of_embedding same σ), rfl⟩

section Comparison

variable {related : α → β → Bool} {xs : List α} {ys : List β}

/-- The search compares the first list in order with every selection of as many items of the second. An
item is used up along one line of choices only: where a choice leads nowhere, the next one has it again. -/
theorem assignable_iff_selection : assignable related xs ys = true ↔
    ∃ s ∈ selections xs.length ys, inOrder related xs s.1 = true := by
  induction xs generalizing ys with
  | nil => simp [assignable, selections, inOrder]
  | cons x xs ih =>
    simp only [assignable, List.any_eq_true, Bool.and_eq_true, ih, List.length_cons, selections,
      List.mem_flatMap, List.mem_map]
    constructor
    · rintro ⟨p, pick, fits, s, selected, agree⟩
      refine ⟨_, ⟨p, pick, s, selected, rfl⟩, ?_⟩
      rw [inOrder, fits, agree, Bool.and_self]
    · rintro ⟨_, ⟨p, pick, s, selected, rfl⟩, agree⟩
      rw [inOrder, Bool.and_eq_true] at agree
      exact ⟨p, pick, agree.1, s, selected, agree.2⟩

theorem inOrder_ofFn {g : Fin xs.length → β} :
    inOrder related xs (List.ofFn g) = true ↔ ∀ i, related (xs.get i) (g i) = true := by
  induction xs with
  | nil => simp [inOrder]
  | cons x xs ih => simp [inOrder, List.ofFn_succ, ih, Fin.forall_fin_succ]

/-- The search succeeds exactly when the items of the first list can be sent to different places of the
second, where some places may be left over. -/
theorem assignable_iff_embedding : assignable related xs ys = true ↔
    ∃ σ : Fin xs.length ↪ Fin ys.length, ∀ i, related (xs.get i) (ys.get (σ i)) = true := by
  rw [assignable_iff_selection]
  constructor
  · rintro ⟨s, selected, agree⟩
    rw [← Multiset.mem_coe, selections_eq] at selected
    obtain ⟨σ, -, rfl⟩ := Multiset.mem_map.mp selected
    exact ⟨σ, inOrder_ofFn.mp agree⟩
  · rintro ⟨σ, agree⟩
    refine ⟨(chosen ys σ, unchosen ys σ), ?_, inOrder_ofFn.mpr agree⟩
    rw [← Multiset.mem_coe, selections_eq]
    exact Multiset.mem_map_of_mem _ (Finset.mem_univ σ)

/-- Comparing two lists in any order succeeds exactly when they are of one length and some bijection between
their places leads from each item to a related one. Nothing is asked of the relation. -/
theorem inAnyOrder_iff_bijection : inAnyOrder related xs ys = true ↔ xs.length = ys.length ∧
    ∃ σ : Fin xs.length ≃ Fin ys.length, ∀ i, related (xs.get i) (ys.get (σ i)) = true := by
  rw [inAnyOrder, Bool.and_eq_true, beq_iff_eq, assignable_iff_embedding]
  refine and_congr_right fun same => ⟨?_, ?_⟩
  · rintro ⟨σ, agree⟩
    exact ⟨.ofBijective σ (bijective_of_embedding same σ), agree⟩
  · rintro ⟨σ, agree⟩
    exact ⟨σ.toEmbedding, agree⟩

/-- The first item could take either place, and only one of them leaves the other to the second item. -/
example : inAnyOrder (fun a b : Nat => a ≤ b) [1, 2] [3, 1] = true := by decide

end Comparison

end Arrangement

namespace Matcher

open Arrangement

variable {α : Type}

open scoped List in
/-- The search is a selection of items for the matchers, followed by matching in order. -/
theorem assignments_perm (ms : List (Matcher α)) (xs : List α) (r : Bindings) :
    assignments ms xs r ~ (selections ms.length xs).flatMap fun s =>
      (inOrder ms s.1 r).map fun r' => (r', s.2) := by
  induction ms generalizing xs r with
  | nil => simp [assignments, selections, inOrder]
  | cons m ms ih =>
    -- which items the other matchers get does not depend on what the first one has found
    have first (x : α) (others : List α) : (m x r).flatMap (assignments ms others) ~
        (selections ms.length others).flatMap fun s =>
          (inOrder (m :: ms) (x :: s.1) r).map fun r' => (r', s.2) := by
      calc (m x r).flatMap (assignments ms others)
        _ ~ (m x r).flatMap fun between => (selections ms.length others).flatMap fun s =>
            (inOrder ms s.1 between).map fun r' => (r', s.2) :=
          .flatMap_left _ fun between _ => ih others between
        _ ~ (selections ms.length others).flatMap fun s => (m x r).flatMap fun between =>
            (inOrder ms s.1 between).map fun r' => (r', s.2) := flatMap_swap_perm ..
        _ = (selections ms.length others).flatMap fun s =>
            (inOrder (m :: ms) (x :: s.1) r).map fun r' => (r', s.2) := by
          simp only [inOrder, List.map_flatMap]
    simp only [assignments, List.length_cons, selections, List.flatMap_assoc, List.flatMap_map]
    exact .flatMap_left _ fun p _ => first p.1 p.2

/-- Whatever is made of the results of the search is made of those of matching in order, over all
injections of the matchers into the items. -/
theorem flatMap_assignments {β : Type} (ms : List (Matcher α)) (xs : List α) (r : Bindings)
    (make : Bindings × List α → List β) : ((assignments ms xs r).flatMap make : Multiset β) =
      ∑ σ : Fin ms.length ↪ Fin xs.length,
        ↑((inOrder ms (chosen xs σ) r).flatMap fun r' => make (r', unchosen xs σ)) := by
  rw [Multiset.coe_eq_coe.mpr ((assignments_perm ms xs r).flatMap_right make), List.flatMap_assoc,
    ← Multiset.coe_bind, selections_eq, Multiset.bind_map]
  simp only [List.flatMap_map]
  rfl

theorem inAnyOrder_eq_nil {ms : List (Matcher α)} {xs : List α} (differ : ms.length ≠ xs.length)
    (r : Bindings) : inAnyOrder ms xs r = [] := if_neg differ

theorem withOthers_eq_nil {ms : List (Matcher α)} {xs : List α} (more : xs.length < ms.length)
    (rest : Option (Matcher α)) (join : List α → α) (r : Bindings) :
    withOthers ms rest join xs r = [] := by
  cases rest with
  | none => exact inAnyOrder_eq_nil (Nat.ne_of_gt more) r
  | some m => exact if_neg (Nat.not_le_of_gt more)

/-- Matching in any order tries everything. Without a further matcher, the results are those of matching
in order, over all bijections between the matchers and the items, so none if their numbers differ. With
a further matcher, they are those over all injections of the matchers into the items, so none if there
are too few items. The items that are not chosen, in their order, go to the further matcher: none of them
asks nothing more, one goes as it is, and several are joined. -/
theorem results_of_every_assignment (ms : List (Matcher α)) (xs : List α) (r : Bindings) :
    (inAnyOrder ms xs r : Multiset Bindings) =
      ∑ σ : Fin ms.length ≃ Fin xs.length, (inOrder ms (chosen xs σ) r : Multiset Bindings) ∧
    (ms.length ≠ xs.length → inAnyOrder ms xs r = []) ∧
    ∀ join : List α → α, withOthers ms none join xs r = inAnyOrder ms xs r ∧
      ∀ rest : Matcher α,
        (withOthers ms (some rest) join xs r : Multiset Bindings) =
          ∑ σ : Fin ms.length ↪ Fin xs.length,
            ↑((inOrder ms (chosen xs σ) r).flatMap fun r' => others rest join (r', unchosen xs σ)) ∧
        (∀ r', others rest join (r', []) = [r'] ∧ (∀ x, others rest join (r', [x]) = rest x r') ∧
          ∀ x y left, others rest join (r', x :: y :: left) = rest (join (x :: y :: left)) r') ∧
        (xs.length < ms.length → withOthers ms (some rest) join xs r = []) := by
  refine ⟨?_, fun differ => inAnyOrder_eq_nil differ r, fun join => ⟨rfl, fun rest => ⟨?_, ?_, ?_⟩⟩⟩
  · by_cases same : ms.length = xs.length
    · have each (σ : Fin ms.length → Fin xs.length) :
          (inOrder ms (chosen xs σ) r).flatMap (fun r' => [r']) = inOrder ms (chosen xs σ) r := by
        rw [← List.map_eq_flatMap, List.map_id']
      rw [inAnyOrder, if_pos same, List.map_eq_flatMap, flatMap_assignments]
      simp only [each]
      exact sum_embedding_eq same fun σ => (inOrder ms (chosen xs σ) r : Multiset Bindings)
    · have none : IsEmpty (Fin ms.length ≃ Fin xs.length) :=
        ⟨fun σ => same (by simpa using Fintype.card_congr σ)⟩
      rw [inAnyOrder_eq_nil same, Finset.univ_eq_empty, Finset.sum_empty, Multiset.coe_nil]
  · by_cases enough : ms.length ≤ xs.length
    · rw [withOthers, if_pos enough]
      exact flatMap_assignments ms xs r (others rest join)
    · have none : IsEmpty (Fin ms.length ↪ Fin xs.length) :=
        ⟨fun σ => enough (by simpa using Fintype.card_le_of_embedding σ)⟩
      rw [withOthers_eq_nil (Nat.lt_of_not_le enough), Finset.univ_eq_empty, Finset.sum_empty,
        Multiset.coe_nil]
  · exact fun r' => ⟨rfl, fun _ => rfl, fun _ _ _ => rfl⟩
  · exact fun more => withOthers_eq_nil more (some rest) join r

namespace Twice

def pair : List (Matcher Term) := [TermPattern.matcher (.ref "x"), TermPattern.matcher (.ref "x")]

def remaining : Matcher Term := TermPattern.matcher (.ref "z")

def joined (ts : List Term) : Term := .app (.named (.plain "rest")) ts

def items : List Term := [.var ⟨"a"⟩, .var ⟨"b"⟩, .var ⟨"a"⟩]

def found : Bindings := (Bindings.empty.insertTerm "x" (.var ⟨"a"⟩)).insertTerm "z" (.var ⟨"b"⟩)

end Twice

/-- Of the six injections, the two that give `a` to both references succeed, with equal results. -/
theorem results_of_every_assignment_twice : Twice.pair.length ≠ Twice.items.length ∧
    inAnyOrder Twice.pair Twice.items .empty = [] ∧
    ∑ σ : Fin Twice.pair.length ↪ Fin Twice.items.length,
      (↑((inOrder Twice.pair (chosen Twice.items σ) .empty).flatMap fun r =>
        others Twice.remaining Twice.joined (r, unchosen Twice.items σ)) : Multiset Bindings) =
      {Twice.found, Twice.found} ∧
    [Term.var ⟨"a"⟩].length < Twice.pair.length ∧
    withOthers Twice.pair (some Twice.remaining) Twice.joined [.var ⟨"a"⟩] .empty = [] := by
  have few : Twice.pair.length ≠ Twice.items.length := by decide
  have more : [Term.var ⟨"a"⟩].length < Twice.pair.length := by decide
  obtain ⟨-, none, further⟩ := results_of_every_assignment Twice.pair Twice.items .empty
  obtain ⟨-, -, further'⟩ := results_of_every_assignment Twice.pair [.var ⟨"a"⟩] .empty
  have results : withOthers Twice.pair (some Twice.remaining) Twice.joined Twice.items .empty =
      [Twice.found, Twice.found] := by cbv
  refine ⟨few, none few, ?_, more, ((further' Twice.joined).2 Twice.remaining).2.2 more⟩
  rw [← ((further Twice.joined).2 Twice.remaining).1, results]
  rfl

end Matcher

end Sequitur
