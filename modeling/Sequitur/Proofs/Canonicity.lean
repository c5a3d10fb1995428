import Sequitur.Proofs.Numbering

/-! Numbering identifies what differs only in the names of binders and in the order of
commutative parts. -/

namespace Sequitur

open Arrangement

/-- The same name and the same order of arguments. -/
def Symbol.Twin (s t : Symbol) : Prop := s.same t = true ∧ s.ordered = t.ordered

namespace Term

variable {E : Change} {image image' : Variable → Variable}

theorem arrange_bare {ordered : Bool} {pairs : List (Term × Term)} {ts us : List Term}
    (pairing : Pairing ordered pairs ts us) (same : ∀ p ∈ pairs, p.1.bare = p.2.bare) :
    (arrange ordered ts).map bare = (arrange ordered us).map bare := by
  cases ordered with
  | true =>
    obtain ⟨rfl, rfl⟩ := pairing
    simpa [arrange] using same
  | false => exact sort_bare (pairing.perm_keys same)

theorem regular_bare {t u : Term} (inst : Instance Symbol.Twin E t u)
    (meets : ∀ x ∈ t.vars, ∀ s, E x s → ∃ y, s = .var y ∧ image x = image' y) :
    (t.regular image).bare = (u.regular image').bare := by
  induction inst with
  | var becomes =>
    obtain ⟨y, rfl, same⟩ := meets _ (by simp) _ becomes
    simp [regular, same]
  | const twin => simpa [regular, bare, Symbol.same, Constant.same_iff] using twin.1
  | @app f g ts us pairs twin pairing _ ih =>
    have order : f.ordered = g.ordered := twin.2
    have name : f.bare = g.bare := Operator.same_iff.mp twin.1
    have each : ∀ p ∈ pairs.map (Prod.map (regular image) (regular image')),
        p.1.bare = p.2.bare := by
      intro p mapped
      obtain ⟨q, pair, rfl⟩ := List.mem_map.mp mapped
      refine ih q pair fun x occurs => meets x ?_
      exact mem_vars_app.mpr ⟨q.1, (pairing.mem pair).1, occurs⟩
    simp only [regular, bare, app.injEq]
    exact ⟨name, order ▸ arrange_bare (pairing.map _ _) each⟩

end Term

namespace Formula

variable {E : Change} {image image' : Variable → Variable} {start next : Nat}

@[simp] theorem quantifiers_bare (f : Formula) : f.bare.quantifiers = f.quantifiers := by
  induction f with
  | atom r ts => simp [bare, quantifiers]
  | not f ih => simpa [bare, quantifiers] using ih
  | multi c fs ih =>
    simp only [bare, quantifiers, List.map_map]
    congr 1
    exact List.map_congr_left ih
  | link c a b iha ihb => simp [bare, quantifiers, iha, ihb]
  | bind q v f ih => simp [bare, quantifiers, ih]

theorem map_quantifiers_place (parts : List Numbered) :
    (place start next parts).1.map (fun f => f.quantifiers) =
      parts.map fun part => part.formula.quantifiers := by
  induction parts generalizing next with
  | nil => rfl
  | cons part parts ih => simp [place, shift_eq, ih]

@[simp] theorem quantifiers_number (f : Formula) (image : Variable → Variable) (start : Nat) :
    (f.number image start).formula.quantifiers = f.quantifiers := by
  induction f generalizing image start with
  | atom r ts => simp [number, quantifiers]
  | not f ih => simp [number, quantifiers, ih]
  | multi c fs ih =>
    simp only [number, quantifiers, map_quantifiers_place]
    rw [((sort_perm _).map fun part => part.formula.quantifiers).sum_nat, List.map_map]
    congr 1
    exact List.map_congr_left fun f member => ih f member image start
  | link c a b iha ihb =>
    cases c with
    | imply => simp [number, quantifiers, iha, ihb]
    | equiv =>
      rw [number_equiv]
      split <;> simp [quantifiers, shift_eq, iha, ihb, Nat.add_comm]
  | bind q v f ih => simp [number, quantifiers, ih]

def Numbered.bare (part : Numbered) : Numbered := ⟨part.formula.bare, part.last⟩

theorem place_bare (parts : List Numbered) :
    (place start next parts).1.map bare = (place start next (parts.map Numbered.bare)).1 := by
  induction parts generalizing next with
  | nil => rfl
  | cons part parts ih => simp [place, shift_eq, bare_renameAll, Numbered.bare, ih]

/-- Which members come first does not matter once they are numbered and put in place. -/
theorem place_sort_bare {fs gs : List Formula}
    (perm : (fs.map fun f => (f.number image start).bare).Perm
      (gs.map fun g => (g.number image' start).bare)) :
    (place start start (Numbered.sort (fs.map fun f => f.number image start))).1.map bare =
      (place start start (Numbered.sort (gs.map fun g => g.number image' start))).1.map bare := by
  have sorted : (Numbered.sort (fs.map fun f => f.number image start)).map Numbered.bare =
      (Numbered.sort (gs.map fun g => g.number image' start)).map Numbered.bare := by
    refine map_mergeSort_eq (fun a b => compare_bare ..) ?_ ?_
    · intro a left b right equal
      obtain ⟨f, _, rfl⟩ := List.mem_map.mp left
      obtain ⟨g, _, rfl⟩ := List.mem_map.mp right
      have bares := compare_eq_iff.mp equal
      have sizes := congrArg quantifiers bares
      simp only [quantifiers_bare, quantifiers_number] at sizes
      simp [Numbered.bare, bares, sizes]
    · simpa [Function.comp_def] using perm
  rw [place_bare, place_bare, sorted]

/-- Which side comes first does not matter either. -/
theorem number_equiv_swap (a b : Formula) :
    ((equiv a b).number image start).formula.bare =
      ((equiv b a).number image start).formula.bare := by
  rw [number_equiv, number_equiv]
  by_cases below : ((a.number image start).formula.compare
      (b.number image start).formula).isLE = true
  · rw [if_pos below]
    by_cases above : ((b.number image start).formula.compare
        (a.number image start).formula).isLE = true
    · rw [if_pos above]
      have bares := compare_eq_iff.mp (Std.OrientedCmp.isLE_antisymm below above)
      have sizes := congrArg quantifiers bares
      simp only [quantifiers_bare, quantifiers_number] at sizes
      simp [bare, shift_eq, bare_renameAll, bares, sizes]
    · rw [if_neg above]
  · rw [if_neg below, if_pos (isLE_of_not_isLE below)]

theorem number_equiv_bare {a b a' b' : Formula}
    (left : (a.number image start).formula.bare = (a'.number image' start).formula.bare)
    (right : (b.number image start).formula.bare = (b'.number image' start).formula.bare) :
    ((equiv a b).number image start).formula.bare =
      ((equiv a' b').number image' start).formula.bare := by
  have sizea : a.quantifiers = a'.quantifiers := by simpa using congrArg quantifiers left
  have sizeb : b.quantifiers = b'.quantifiers := by simpa using congrArg quantifiers right
  have order : (a.number image start).formula.compare (b.number image start).formula =
      (a'.number image' start).formula.compare (b'.number image' start).formula := by
    rw [← compare_bare, left, right, compare_bare]
  rw [number_equiv, number_equiv, order]
  split <;> simp [bare, shift_eq, bare_renameAll, left, right, sizea, sizeb]

/-- Formulas that are the same up to binders and order are numbered alike. -/
theorem number_bare {f g : Formula} (inst : Instance Symbol.Twin E f g)
    (meets : ∀ x ∈ f.freeVars, ∀ s, E x s → ∃ y, s = .var y ∧ image x = image' y) :
    (f.number image start).formula.bare = (g.number image' start).formula.bare := by
  induction inst generalizing image image' start with
  | @atom _ r s ts us pairs twin pairing all =>
    have order : r.ordered = s.ordered := twin.2
    have name : r.bare = s.bare := Relation.same_iff.mp twin.1
    have each : ∀ p ∈ pairs.map (Prod.map (Term.regular image) (Term.regular image')),
        p.1.bare = p.2.bare := by
      intro p mapped
      obtain ⟨q, pair, rfl⟩ := List.mem_map.mp mapped
      refine Term.regular_bare (all q pair) fun x occurs => meets x ?_
      exact mem_freeVars_atom.mpr ⟨q.1, (pairing.mem pair).1, occurs⟩
    simp only [number, bare, atom.injEq]
    exact ⟨name, order ▸ Term.arrange_bare (pairing.map _ _) each⟩
  | not _ ih => simpa [number, bare] using ih (by simpa using meets)
  | multi pairing _ ih =>
    simp only [number, bare, multi.injEq, true_and]
    refine place_sort_bare (pairing.perm_keys fun p pair => ?_)
    have same : (p.1.number image start).formula.bare = (p.2.number image' start).formula.bare :=
      ih p pair fun x free => meets x (mem_freeVars_multi.mpr ⟨p.1, (pairing.mem pair).1, free⟩)
    have sizes : p.1.quantifiers = p.2.quantifiers := by simpa using congrArg quantifiers same
    simp [Numbered.bare, same, sizes]
  | @imply _ a b a' b' _ _ iha ihb =>
    simp only [mem_freeVars_link] at meets
    have left : (a.number image start).formula.bare = (a'.number image' start).formula.bare :=
      iha fun x free => meets x (.inl free)
    have sizes : a.quantifiers = a'.quantifiers := by simpa using congrArg quantifiers left
    simp only [number, bare, number_last, sizes, left]
    rw [ihb fun x free => meets x (.inr free)]
  | @equiv _ a b a' b' pairs pairing _ ih =>
    have each : ∀ p ∈ pairs, (p.1.number image start).formula.bare =
        (p.2.number image' start).formula.bare := fun p pair =>
      ih p pair fun x free => meets x (mem_freeVars_sides.mpr ⟨p.1, (pairing.mem pair).1, free⟩)
    rcases Pairing.exists_two.mp ⟨pairs, pairing, each⟩ with ⟨left, right⟩ | ⟨left, right⟩
    · exact number_equiv_bare left right
    · rw [number_equiv_bare left right, number_equiv_swap]
  | @bind E q v w f g _ ih =>
    simp only [number, bare, bind.injEq, true_and]
    refine ih fun x free s becomes => ?_
    rcases becomes with ⟨rfl, rfl⟩ | ⟨apart, clear, becomes⟩
    · exact ⟨w, rfl, by simp⟩
    · obtain ⟨y, rfl, same⟩ := meets x (mem_freeVars_bind.mpr ⟨free, apart⟩) s becomes
      have other : y ≠ w := Ne.symm (by simpa using clear)
      exact ⟨y, rfl, by simpa [apart, other] using same⟩

end Formula

end Sequitur
