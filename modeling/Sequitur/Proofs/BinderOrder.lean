import Sequitur.Proofs.Overflow
import Sequitur.Proofs.Premises
import Sequitur.Proofs.Template

/-! The binders of a regular form, read from left to right, are the canonical variables above those
that stand free, one after the other. The last of them decides whether there is a regular form. -/

namespace Sequitur

namespace Variable

def canonicals (start count : Nat) : List Variable := (List.range' (start + 1) count).map canonical

theorem canonicals_append (start m n : Nat) :
    canonicals start m ++ canonicals (start + m) n = canonicals start (m + n) := by
  rw [canonicals, canonicals, canonicals, ← List.map_append, ← List.range'_append_1]
  congr 3
  omega

theorem canonicals_succ (start n : Nat) :
    canonicals start (n + 1) = canonical (start + 1) :: canonicals (start + 1) n := by
  rw [canonicals, canonicals, List.range'_succ, List.map_cons]

end Variable

namespace Formula

open Variable

variable {image : Variable → Variable} {start next : Nat} {f : Formula}

@[simp] theorem binders_renameAll (f : Formula) : (f.renameAll image).binders = f.binders.map image := by
  induction f with
  | atom r ts => simp [renameAll, binders]
  | not f ih => simpa [renameAll, binders] using ih
  | multi c fs ih =>
    simp only [renameAll, binders, List.flatMap_map, List.map_flatMap]
    exact List.flatMap_congr ih
  | link c a b iha ihb => simp [renameAll, binders, iha, ihb]
  | bind q v f ih => simp [renameAll, binders, ih]

/-- Moving the binders up moves the list of them. -/
theorem map_shiftVar_canonicals {offset count : Nat} (fits : start + count < Text.indexBound) :
    (canonicals start count).map (shiftVar start offset) = canonicals (start + offset) count := by
  rw [canonicals, canonicals, List.map_map, show start + offset + 1 = offset + (start + 1) by omega,
    ← List.map_add_range' (a := offset), List.map_map]
  refine List.map_congr_left fun i member => ?_
  rw [List.mem_range'_1] at member
  rw [Function.comp_apply, Function.comp_apply, Nat.add_comm offset]
  exact shiftVar_canonical (by omega) (by omega)

/-- Parts that were all numbered from `start` are put one after the other. -/
theorem flatMap_binders_place {parts : List Numbered} (above : start ≤ next)
    (numbered : ∀ part ∈ parts, start ≤ part.last ∧
      part.formula.binders = canonicals start (part.last - start))
    (fits : (place start next parts).2 < Text.indexBound) :
    (place start next parts).1.flatMap binders =
      canonicals next (parts.map fun part => part.last - start).sum := by
  induction parts generalizing next with
  | nil => simp [place, canonicals]
  | cons part parts ih =>
    obtain ⟨⟨starts, binders⟩, others⟩ := List.forall_mem_cons.mp numbered
    simp only [place, place_last] at fits
    have moved : (part.formula.shift start (next - start)).binders =
        canonicals next (part.last - start) := by
      rw [shift_eq, binders_renameAll, binders, map_shiftVar_canonicals (by omega)]
      congr 1
      omega
    simp only [place, List.flatMap_cons, List.map_cons, List.sum_cons, moved]
    rw [ih (by omega) others (by rw [place_last]; omega), canonicals_append]

/-- Numbering gives the binders the indices after `start`, from left to right. -/
theorem binders_number (fits : start + f.quantifiers < Text.indexBound) :
    (f.number image start).formula.binders = canonicals start f.quantifiers := by
  induction f generalizing image start with
  | atom r ts => simp [number, binders, quantifiers, canonicals]
  | not f ih =>
    rw [quantifiers] at fits ⊢
    simp only [number, binders]
    exact ih fits
  | multi c fs ih =>
    rw [quantifiers] at fits ⊢
    have sorted := sort_perm (fs.map fun f => f.number image start)
    have total := sum_map_quantifiers sorted fun f _ => number_last image start f
    have numbered : ∀ part ∈ Numbered.sort (fs.map fun f => f.number image start),
        start ≤ part.last ∧ part.formula.binders = canonicals start (part.last - start) := by
      intro part member
      obtain ⟨f, source, rfl⟩ := List.mem_map.mp (sorted.subset member)
      have below : f.quantifiers ≤ (fs.map fun f => f.quantifiers).sum :=
        List.single_le_sum (by simp) _ (List.mem_map_of_mem source)
      rw [number_last, Nat.add_sub_cancel_left]
      exact ⟨by omega, ih f source (by omega)⟩
    simp only [number, binders]
    rw [flatMap_binders_place (Nat.le_refl start) numbered (by rwa [place_last, total]), total]
  | link c a b iha ihb =>
    rw [quantifiers] at fits ⊢
    cases c with
    | imply =>
      simp only [number, number_last, binders]
      rw [iha (by omega), ihb (by omega), canonicals_append]
    | equiv =>
      have left : (a.number image start).formula.binders = canonicals start a.quantifiers :=
        iha (by omega)
      have right : (b.number image start).formula.binders = canonicals start b.quantifiers :=
        ihb (by omega)
      -- whichever side comes second is moved up past the other
      rw [number_equiv]
      split
      · rw [binders, shift_eq, binders_renameAll, left, right, map_shiftVar_canonicals (by omega),
          canonicals_append]
      · rw [binders, shift_eq, binders_renameAll, left, right, map_shiftVar_canonicals (by omega),
          canonicals_append, Nat.add_comm]
  | bind q v f ih =>
    rw [quantifiers] at fits ⊢
    simp only [number, binders]
    rw [ih (by omega), canonicals_succ]

theorem isGreatest_startIndex (f : Formula) :
    IsGreatest (insert 0 {i | ∃ v ∈ f.freeVars, v.index? = some i}) f.startIndex := by
  constructor
  · by_contra missed
    simp only [Set.mem_insert_iff, Set.mem_ofPred_eq, not_or, not_exists, not_and] at missed
    obtain ⟨positive, unused⟩ := missed
    -- an index that no free variable has could be smaller
    have smaller : f.startIndex ≤ f.startIndex - 1 := by
      refine startIndex_le fun v free i index => ?_
      have below := le_startIndex free index
      have other : i ≠ f.startIndex := fun same => unused v free (same ▸ index)
      omega
    omega
  · rintro i (rfl | ⟨v, free, index⟩)
    · exact Nat.zero_le _
    · exact le_startIndex free index

theorem regularForm_eq_error_iff : f.regularForm = .error .indexOverflow ↔ ¬ f.Fits := by
  rw [fits_iff]
  constructor
  · rintro overflow ⟨form, ok⟩
    rw [overflow] at ok
    cases ok
  · intro none
    by_contra other
    exact none ((onlyOverflows_regularForm f).exists_ok other)

/-- The binders are numbered after the largest index of a free variable, in the order in which they are
read: a binder comes before those in its scope, and those of one part before those of the next. There is
a regular form exactly when the last index is a number of 64 bits. -/
theorem regularForm_binders (f : Formula) :
    IsGreatest (insert 0 {i | ∃ v ∈ f.freeVars, v.index? = some i}) f.startIndex ∧
    (f.regularForm = .error .indexOverflow ↔ 2 ^ 64 - 1 < f.startIndex + f.quantifiers) ∧
    (f.startIndex + f.quantifiers ≤ 2 ^ 64 - 1 → ∃ g, f.regularForm = .ok g ∧
      g.binders = (List.range' (f.startIndex + 1) f.quantifiers).map canonical) := by
  have fits_iff_le : f.Fits ↔ f.startIndex + f.quantifiers ≤ 2 ^ 64 - 1 := by
    rw [Fits, Text.indexBound]
    omega
  refine ⟨isGreatest_startIndex f, ?_, fun room => ?_⟩
  · rw [regularForm_eq_error_iff, fits_iff_le]
    omega
  · obtain ⟨g, ok⟩ := fits_iff.mp (fits_iff_le.mpr room)
    obtain ⟨fits, rfl⟩ := regularForm_eq_ok ok
    exact ⟨_, ok, binders_number fits⟩

def everyBeside (v w : String) : Formula :=
  .all ⟨v⟩ (.atom (.pred ⟨.plain "p", 2, true⟩) [.var ⟨v⟩, .var ⟨w⟩])

/-- `(∃z. (∀x. p(x, $7)) ∨ (∀y. p(y, z))) ∧ (∀x. p(x, w))`. -/
def nestedBinders : Formula := .and [
  .ex ⟨"z"⟩ (.or [everyBeside "x" "$7", everyBeside "y" "z"]),
  everyBeside "x" "w"]

/-- The four binders follow `$7`, and no index is left after the largest of all. -/
theorem regularForm_binders_nested :
    nestedBinders.startIndex + nestedBinders.quantifiers ≤ 2 ^ 64 - 1 ∧
    (∃ g, nestedBinders.regularForm = .ok g ∧ g.binders = [⟨"$8"⟩, ⟨"$9"⟩, ⟨"$10"⟩, ⟨"$11"⟩]) ∧
    (everyBeside "x" "$18446744073709551615").regularForm = .error .indexOverflow := by
  have start : nestedBinders.startIndex = 7 := by cbv
  have count : nestedBinders.quantifiers = 4 := by cbv
  have room : nestedBinders.startIndex + nestedBinders.quantifiers ≤ 2 ^ 64 - 1 := by
    rw [start, count]
    decide
  have last : (everyBeside "x" "$18446744073709551615").startIndex = 18446744073709551615 := by cbv
  have one : (everyBeside "x" "$18446744073709551615").quantifiers = 1 := by cbv
  refine ⟨room, ?_, (regularForm_binders _).2.1.mpr (by rw [last, one]; decide)⟩
  obtain ⟨g, ok, binders⟩ := (regularForm_binders nestedBinders).2.2 room
  refine ⟨g, ok, ?_⟩
  rw [binders, start, count]
  cbv

end Formula

end Sequitur
