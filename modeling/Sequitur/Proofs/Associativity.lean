import Sequitur.Proofs.Congruence

/-! Flattening decides associativity. Splicing a junction into a junction of the same kind, anywhere
and any number of times, does not change what a formula flattens to, and leads from every formula to
its flattened form. -/

namespace Sequitur

open Arrangement

namespace Formula

variable {f g : Formula} {c : Junction}

/-- The least congruence under which a junction inside a junction of the same kind may be replaced by
its members. Formulas that differ only in what is shown and recorded are equal. -/
inductive Associated : Formula → Formula → Prop
  | same {f g : Formula} : f.same g = true → Associated f g
  | symm {f g : Formula} : Associated f g → Associated g f
  | trans {f g h : Formula} : Associated f g → Associated g h → Associated f h
  | not {f g : Formula} : Associated f g → Associated (.not f) (.not g)
  | member {c : Junction} {before after : List Formula} {f g : Formula} : Associated f g →
      Associated (.multi c (before ++ f :: after)) (.multi c (before ++ g :: after))
  | left {c : Arrow} {a a' b : Formula} : Associated a a' → Associated (.link c a b) (.link c a' b)
  | right {c : Arrow} {a b b' : Formula} : Associated b b' → Associated (.link c a b) (.link c a b')
  | body {q : Quantifier} {v : Variable} {f g : Formula} : Associated f g →
      Associated (.bind q v f) (.bind q v g)
  | splice {c : Junction} {before inner after : List Formula} :
      Associated (.multi c (before ++ .multi c inner :: after)) (.multi c (before ++ inner ++ after))

/-- No conjunction stands directly in a conjunction, and no disjunction in a disjunction. -/
inductive Flat : Formula → Prop
  | atom {r : Relation} {ts : List Term} : Flat (.atom r ts)
  | not {f : Formula} : Flat f → Flat (.not f)
  | multi {c : Junction} {fs : List Formula} : (∀ f ∈ fs, Flat f) →
      (∀ f ∈ fs, ∀ gs, f ≠ .multi c gs) → Flat (.multi c fs)
  | link {c : Arrow} {a b : Formula} : Flat a → Flat b → Flat (.link c a b)
  | bind {q : Quantifier} {v : Variable} {f : Formula} : Flat f → Flat (.bind q v f)

theorem members_junction (c : Junction) (fs : List Formula) : (multi c fs).members c = fs := by
  simp [members]

theorem members_of_ne (other : ∀ gs, f ≠ .multi c gs) : f.members c = [f] := by
  cases f with
  | multi d fs =>
    rw [members, if_neg]
    rintro rfl
    exact other fs rfl
  | _ => simp [members]

theorem bare_members (c : Junction) (f : Formula) :
    f.bare.members c = (f.members c).map bare := by
  cases f with
  | multi d fs =>
    simp only [bare, members]
    split <;> simp [bare]
  | _ => simp [bare, members]

theorem bare_flatten (f : Formula) : f.flatten.bare = f.bare.flatten := by
  induction f with
  | atom r ts => simp [flatten, bare]
  | not f ih => simp [flatten, bare, ih]
  | multi c fs ih =>
    have each : ∀ f ∈ fs, (f.flatten.members c).map bare = f.bare.flatten.members c := by
      intro f member
      rw [← bare_members, ih f member]
    simp only [flatten, bare, List.map_flatMap, List.flatMap_map]
    rw [List.flatMap_congr each]
  | link c a b iha ihb => simp [flatten, bare, iha, ihb]
  | bind q v f ih => simp [flatten, bare, ih]

/-- No splice changes the flattened form. -/
theorem Associated.bare_flatten (associated : f.Associated g) : f.flatten.bare = g.flatten.bare := by
  induction associated with
  | same same => rw [Formula.bare_flatten, same_iff.mp same, Formula.bare_flatten]
  | symm _ ih => exact ih.symm
  | trans _ _ first second => exact first.trans second
  | not _ ih => rw [flatten, flatten, bare, bare, ih]
  | @member c before after f g _ ih =>
    have inside : (f.flatten.members c).map bare = (g.flatten.members c).map bare := by
      rw [← bare_members, ih, bare_members]
    simp only [flatten, bare, List.flatMap_append, List.flatMap_cons, List.map_append, inside]
  | left _ ih => rw [flatten, flatten, bare, bare, ih]
  | right _ ih => rw [flatten, flatten, bare, bare, ih]
  | body _ ih => rw [flatten, flatten, bare, bare, ih]
  | @splice c before inner after =>
    simp only [flatten, List.flatMap_append, List.flatMap_cons, members_junction,
      List.append_assoc]

theorem Associated.refl (f : Formula) : f.Associated f := .same (same_iff.mpr rfl)

/-- Junctions among the members may be spliced one after the other. -/
theorem associated_members (c : Junction) (before fs : List Formula) :
    Associated (.multi c (before ++ fs)) (.multi c (before ++ fs.flatMap (members c))) := by
  induction fs generalizing before with
  | nil => exact .refl _
  | cons f fs ih =>
    rw [List.flatMap_cons]
    have rest := ih (before ++ f.members c)
    rw [List.append_assoc before _ (List.flatMap _ _)] at rest
    refine .trans ?_ rest
    by_cases junction : ∃ gs, f = .multi c gs
    · obtain ⟨gs, rfl⟩ := junction
      rw [members_junction]
      exact .splice
    · rw [members_of_ne (not_exists.mp junction), List.append_assoc, List.singleton_append]
      exact .refl _

theorem associated_flatten (f : Formula) : f.Associated f.flatten := by
  induction f with
  | atom r ts =>
    rw [flatten]
    exact .refl _
  | not f ih =>
    rw [flatten]
    exact .not ih
  | multi c fs ih =>
    -- all members are flattened first, and then spliced
    have inside : Associated (.multi c fs) (.multi c (fs.map flatten)) := by
      have each : Associated (.multi c ((fs.map fun f => (f, f.flatten)).map Prod.fst))
          (.multi c ((fs.map fun f => (f, f.flatten)).map Prod.snd)) :=
        each_of_one .refl .trans .member (List.forall_mem_map.mpr ih) []
      simpa [Function.comp_def] using each
    have spliced := associated_members c [] (fs.map flatten)
    rw [List.flatMap_map] at spliced
    rw [flatten]
    exact inside.trans spliced
  | link c a b iha ihb =>
    rw [flatten]
    exact .trans (.left iha) (.right ihb)
  | bind q v f ih =>
    rw [flatten]
    exact .body ih

theorem Flat.members (flat : f.Flat) (c : Junction) :
    ∀ g ∈ f.members c, g.Flat ∧ ∀ gs, g ≠ .multi c gs := by
  intro g member
  by_cases junction : ∃ gs, f = .multi c gs
  · obtain ⟨fs, rfl⟩ := junction
    rw [members_junction] at member
    cases flat with
    | multi each apart => exact ⟨each g member, apart g member⟩
  · have other : ∀ gs, f ≠ .multi c gs := not_exists.mp junction
    rw [members_of_ne other] at member
    obtain rfl := List.mem_singleton.mp member
    exact ⟨flat, other⟩

theorem flat_flatten (f : Formula) : f.flatten.Flat := by
  induction f with
  | atom r ts =>
    rw [flatten]
    exact .atom
  | not f ih =>
    rw [flatten]
    exact .not ih
  | multi c fs ih =>
    have each : ∀ g ∈ fs.flatMap fun f => f.flatten.members c, g.Flat ∧ ∀ gs, g ≠ .multi c gs := by
      intro g member
      obtain ⟨f, source, inside⟩ := List.mem_flatMap.mp member
      exact (ih f source).members c g inside
    rw [flatten]
    exact .multi (fun g member => (each g member).1) fun g member => (each g member).2
  | link c a b iha ihb =>
    rw [flatten]
    exact .link iha ihb
  | bind q v f ih =>
    rw [flatten]
    exact .bind ih

theorem Flat.flatten_eq (flat : f.Flat) : f.flatten = f := by
  induction flat with
  | atom => rw [flatten]
  | not _ ih => rw [flatten, ih]
  | @multi c fs _ apart ih =>
    have each : ∀ f ∈ fs, f.flatten.members c = [f] := by
      intro f member
      rw [ih f member, members_of_ne (apart f member)]
    rw [flatten, List.flatMap_congr each, List.flatMap_singleton']
  | link _ _ iha ihb => rw [flatten, iha, ihb]
  | bind _ ih => rw [flatten, ih]

theorem Flat.of_bare (flat : f.bare.Flat) : f.Flat := by
  induction f with
  | atom r ts => exact .atom
  | not f ih =>
    rw [bare] at flat
    cases flat with
    | not flat => exact .not (ih flat)
  | multi c fs ih =>
    rw [bare] at flat
    cases flat with
    | multi each apart =>
      apply Flat.multi
      · intro f member
        exact ih f member (each f.bare (List.mem_map_of_mem member))
      · rintro f member gs rfl
        apply apart _ (List.mem_map_of_mem member) (gs.map bare)
        rw [bare]
  | link c a b iha ihb =>
    rw [bare] at flat
    cases flat with
    | link left right => exact .link (iha left) (ihb right)
  | bind q v f ih =>
    rw [bare] at flat
    cases flat with
    | bind flat => exact .bind (ih flat)

theorem Flat.bare (flat : f.Flat) : f.bare.Flat := by
  have flattened : f.bare.flatten = f.bare := by rw [← bare_flatten, flat.flatten_eq]
  exact flattened ▸ f.bare.flat_flatten

/-- What flattening does not change has nothing to splice. -/
theorem flat_of_same (same : f.flatten.same f = true) : f.Flat := by
  apply Flat.of_bare
  rw [← same_iff.mp same]
  exact f.flat_flatten.bare

/-- Two formulas flatten to the same exactly when splicing leads from one to the other. Flattening
twice is flattening once, and afterwards there is nothing left to splice. -/
theorem flatten_decides (f g : Formula) :
    (f.flatten.same g.flatten = true ↔ f.Associated g) ∧
      f.flatten.flatten = f.flatten ∧ f.flatten.Flat := by
  refine ⟨⟨fun same => ?_, fun associated => ?_⟩, f.flat_flatten.flatten_eq, f.flat_flatten⟩
  · exact f.associated_flatten.trans (.trans (.same same) g.associated_flatten.symm)
  · exact same_iff.mpr associated.bare_flatten

/-- A conjunction of one formula is not that formula. -/
example : ¬ (Formula.and [.prop "A"]).Associated (.prop "A") := by
  intro associated
  simpa [flatten, members, bare] using associated.bare_flatten

end Formula

end Sequitur
