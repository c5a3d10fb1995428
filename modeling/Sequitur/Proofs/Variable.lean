import Mathlib.Order.Interval.Finset.Nat
import Sequitur.Variable

/-! Numbered variables are distinct, the index of a canonical variable can be read back, and a
fresh variable is the first numbered one that is not taken. A set of variables is determined by
its members. -/

namespace Sequitur

namespace Variable

instance : Std.TransCmp Variable.compare :=
  inferInstanceAs (Std.TransCmp (compareOn Variable.name))

instance : Std.LawfulEqCmp Variable.compare where
  eq_of_compare {v w} same := by
    cases v; cases w
    simpa [Variable.compare] using same

theorem numbered_injective (stem : String) : Function.Injective (numbered stem) := by
  intro i j equal
  simp only [numbered, mk.injEq, String.append_right_inj] at equal
  have digits : Nat.toDigits 10 i = Nat.toDigits 10 j := by
    simpa only [Nat.toString_eq_repr, Nat.toList_repr] using congrArg String.toList equal
  have read := congrArg (fun ds => Nat.ofDigitChars 10 ds 0) digits
  simpa using read

theorem ne_numbered {stem : String} {x : Variable} (other : ¬ stem.toList <+: x.name.toList)
    (i : Nat) : x ≠ numbered stem i := by
  rintro rfl
  apply other
  rw [numbered, String.toList_append]
  exact List.prefix_append _ _

theorem canonical_injective : Function.Injective canonical := numbered_injective "$"

theorem index?_canonical {i : Nat} (fits : i < Text.indexBound) :
    (canonical i).index? = some i := by
  have text : (canonical i).name.toList = '$' :: Nat.toDigits 10 i := by
    simp [canonical, Nat.toString_eq_repr]
  have value : Text.decimalValue (Nat.toDigits 10 i) = i :=
    Nat.ofDigitChars_toDigits (by decide) (by decide)
  have digits : (Nat.toDigits 10 i).all Char.isDigit = true := by
    rw [List.all_eq_true]
    exact fun c member => Nat.isDigit_of_mem_toDigits (by decide) (by decide) member
  have nonempty : Nat.toDigits 10 i ≠ [] := Nat.toDigits_ne_nil
  simp [index?, text, Text.readIndex, value, digits, nonempty, fits]

theorem index?_lt {v : Variable} {i : Nat} (index : v.index? = some i) : i < Text.indexBound := by
  rw [index?] at index
  split at index
  · rw [Text.readIndex] at index
    split at index
    · rename_i valid
      simp only [Bool.and_eq_true, decide_eq_true_eq] at valid
      exact Option.some.inj index ▸ valid.2
    · cases index
  · cases index

/-- The candidates differ from each other, so one more of them than there are taken variables cannot
all be taken. -/
theorem exists_numbered_not_mem (stem : String) (taken : List Variable) :
    ∃ i, 1 ≤ i ∧ i ≤ taken.toFinset.card + 1 ∧ numbered stem i ∉ taken := by
  by_contra none
  push Not at none
  have inside : (Finset.Icc 1 (taken.toFinset.card + 1)).image (numbered stem) ⊆ taken.toFinset := by
    intro v member
    obtain ⟨i, candidate, rfl⟩ := Finset.mem_image.mp member
    obtain ⟨positive, within⟩ := Finset.mem_Icc.mp candidate
    exact List.mem_toFinset.mpr (none i positive within)
  have fewer := Finset.card_le_card inside
  rw [Finset.card_image_of_injective _ (numbered_injective stem), Nat.card_Icc] at fewer
  omega

/-- The fresh variable is the first candidate that is not taken. -/
theorem exists_fresh_eq (stem : String) (taken : List Variable) :
    ∃ i, fresh stem taken = numbered stem i ∧ 1 ≤ i ∧ numbered stem i ∉ taken ∧
      ∀ j, 1 ≤ j → j < i → numbered stem j ∈ taken := by
  cases found : (List.range' 1 (taken.length + 1)).find? fun i => numbered stem i ∉ taken with
  | none =>
    -- repeated variables only make the list of candidates longer
    obtain ⟨i, positive, within, free⟩ := exists_numbered_not_mem stem taken
    have candidate : i ∈ List.range' 1 (taken.length + 1) := by
      have := taken.toFinset_card_le
      exact List.mem_range'_1.mpr ⟨positive, by omega⟩
    exact absurd free (by simpa using List.find?_eq_none.mp found i candidate)
  | some i =>
    obtain ⟨free, candidate, before⟩ := List.find?_range'_eq_some.mp found
    refine ⟨i, by rw [fresh, found, Option.getD_some], (List.mem_range'_1.mp candidate).1, ?_, ?_⟩
    · simpa using free
    · intro j positive below
      simpa using before j positive below

theorem fresh_not_mem (stem : String) (taken : List Variable) : fresh stem taken ∉ taken := by
  obtain ⟨i, equal, -, free, -⟩ := exists_fresh_eq stem taken
  rwa [equal]

/-- The search without a bound: trying the candidates one after the other, from number `i` on, stops
at the `n`th of them, which is `v`. -/
inductive Tries (stem : String) (taken : List Variable) : Nat → Nat → Variable → Prop
  | stop {i : Nat} : numbered stem i ∉ taken → Tries stem taken i 1 (numbered stem i)
  | next {i n : Nat} {v : Variable} : numbered stem i ∈ taken → Tries stem taken (i + 1) n v →
      Tries stem taken i (n + 1) v

namespace Tries

variable {stem : String} {taken : List Variable} {i k last n n' : Nat} {v v' : Variable}

/-- The search passes over the taken candidates in front of a free one. -/
theorem of_free (reach : i + k = last) (free : numbered stem last ∉ taken)
    (before : ∀ j, i ≤ j → j < last → numbered stem j ∈ taken) :
    Tries stem taken i (k + 1) (numbered stem last) := by
  induction k generalizing i with
  | zero =>
    obtain rfl : i = last := reach
    exact .stop free
  | succ k ih =>
    refine .next (before i le_rfl (by omega)) (ih (by omega) fun j above below => ?_)
    exact before j (by omega) below

/-- Each candidate is either taken or not, so there is one course. -/
theorem unique (search : Tries stem taken i n v) (other : Tries stem taken i n' v') :
    n = n' ∧ v = v' := by
  induction search generalizing n' with
  | stop free =>
    cases other with
    | stop _ => exact ⟨rfl, rfl⟩
    | next blocked _ => exact absurd blocked free
  | next blocked _ ih =>
    cases other with
    | stop free => exact absurd blocked free
    | next _ rest =>
      obtain ⟨rfl, rfl⟩ := ih rest
      exact ⟨rfl, rfl⟩

end Tries

/-- A fresh variable exists and is the first possible one, whatever the stem and whatever is taken.
Some least positive number has a candidate that is not taken, and it exceeds the number of taken
variables by one at most. The fresh variable is the stem followed by this number in decimals, and the
search without a bound stops there, after as many candidates as the number says. -/
theorem fresh_least (stem : String) (taken : List Variable) :
    ∃ i, IsLeast {i | 1 ≤ i ∧ numbered stem i ∉ taken} i ∧ i ≤ taken.toFinset.card + 1 ∧
      (fresh stem taken).name = stem ++ toString i ∧
      ∀ n v, Tries stem taken 1 n v ↔ n = i ∧ v = fresh stem taken := by
  obtain ⟨i, equal, positive, free, before⟩ := exists_fresh_eq stem taken
  have least : IsLeast {i | 1 ≤ i ∧ numbered stem i ∉ taken} i := by
    refine ⟨⟨positive, free⟩, fun j ⟨above, clear⟩ => ?_⟩
    by_contra below
    exact clear (before j above (by omega))
  have bound : i ≤ taken.toFinset.card + 1 := by
    obtain ⟨j, above, within, clear⟩ := exists_numbered_not_mem stem taken
    exact (least.2 ⟨above, clear⟩).trans within
  have search : Tries stem taken 1 i (fresh stem taken) := by
    obtain ⟨k, rfl⟩ := Nat.exists_eq_add_of_le' positive
    rw [equal]
    exact .of_free (Nat.add_comm 1 k) free before
  refine ⟨i, least, bound, by rw [equal, numbered], fun n v => ⟨fun other => other.unique search, ?_⟩⟩
  rintro ⟨rfl, rfl⟩
  exact search

end Variable

namespace VarSet

abbrev Sorted (us : VarSet) : Prop := us.Pairwise fun u v => u.compare v = .lt

theorem Sorted.insert {us : VarSet} (v : Variable) (sorted : Sorted us) :
    Sorted (VarSet.insert v us) := by
  induction us with
  | nil => simp [VarSet.insert]
  | cons u us ih =>
    obtain ⟨first, rest⟩ := List.pairwise_cons.mp sorted
    simp only [VarSet.insert]
    split
    · rename_i below
      refine List.pairwise_cons.mpr ⟨?_, sorted⟩
      intro w member
      rcases List.mem_cons.mp member with rfl | later
      · exact below
      · exact Std.TransCmp.lt_trans below (first w later)
    · exact sorted
    · rename_i above
      refine List.pairwise_cons.mpr ⟨?_, ih rest⟩
      intro w member
      rcases mem_insert.mp member with rfl | later
      · exact Std.OrientedCmp.lt_of_gt above
      · exact first w later

theorem Sorted.union {us vs : VarSet} (sorted : Sorted vs) : Sorted (VarSet.union us vs) := by
  induction us with
  | nil => exact sorted
  | cons u us ih => exact ih.insert u

theorem sorted_unions (sets : List VarSet) : Sorted (VarSet.unions sets) := by
  induction sets with
  | nil => exact .nil
  | cons us sets ih => exact ih.union

theorem Sorted.remove {us : VarSet} (v : Variable) (sorted : Sorted us) :
    Sorted (VarSet.remove v us) := sorted.filter _

/-- Sets with the same members are equal. -/
theorem Sorted.ext {us vs : VarSet} (left : Sorted us) (right : Sorted vs)
    (mem : ∀ v, v ∈ us ↔ v ∈ vs) : us = vs := by
  have irreflexive (v : Variable) : ¬ v.compare v = .lt := by simp [Variable.compare]
  have distinct {ws : VarSet} (sorted : Sorted ws) : ws.Nodup := by
    refine sorted.imp fun below => ?_
    rintro rfl
    exact irreflexive _ below
  have perm : us.Perm vs := (List.perm_ext_iff_of_nodup (distinct left) (distinct right)).mpr mem
  refine perm.eq_of_pairwise ?_ left right
  intro u v _ _ below above
  have := Std.TransCmp.lt_trans below above
  exact absurd this (irreflexive u)

end VarSet

end Sequitur
