import Sequitur.Proofs.Catalogue

/-! Every inference step of the catalogue is justified: what it obtains is a consequence of what
it depends on, unless the step is by a rule that loses something and may have rewritten at a
place that does not allow this. -/

namespace Sequitur

open Arrangement

universe u

variable {D : Type u} {I : Interpretation D} {f g goal : Formula} {facts : Facts} {hints : Hints}
  {frontier : FormulaSet} {outcome : Outcome}

namespace Catalogue

/-- The rules in whose results something is lost. -/
def lossy : List Inference := [andProject, implyCompose, equalReplace]

end Catalogue

section Storage

variable {α : Type} {form : Formula}

/-- Formulas with the same key are the same but for what is shown and recorded of their
names. -/
theorem Formula.holds_of_compare (equal : f.compare g = .eq) (ρ : Variable → D) :
    f.holds I ρ ↔ g.holds I ρ :=
  holds_of_same (same_iff.mpr (compare_eq_iff.mp equal))

theorem mem_toList_insert {t : Std.TreeMap Formula α Formula.compare} {a : α} {p : Formula × α}
    (member : p ∈ (t.insert form a).toList) : p = (form, a) ∨ p ∈ t.toList := by
  let _ : BEq Formula := ⟨Formula.same⟩
  have _ : Std.LawfulBEqCmp Formula.compare :=
    ⟨fun {f g} => Formula.compare_eq_iff.trans Formula.same_iff.symm⟩
  have member := Std.TreeMap.toList_insert_perm.subset member
  rcases List.mem_cons.mp member with here | earlier
  · exact .inl here
  · exact .inr (List.mem_filter.mp earlier).1

theorem FormulaSet.mem_toList_insert {t : FormulaSet} (member : f ∈ (t.insert form).toList) :
    f = form ∨ f ∈ t.toList := by
  let _ : BEq Formula := ⟨Formula.same⟩
  have _ : Std.LawfulBEqCmp Formula.compare :=
    ⟨fun {f g} => Formula.compare_eq_iff.trans Formula.same_iff.symm⟩
  have member := Std.TreeSet.toList_insert_perm.subset member
  split at member
  · exact .inr member
  · exact List.mem_cons.mp member

theorem FormulaSet.mem_of_mem_ofList {fs : List Formula}
    (member : f ∈ (FormulaSet.ofList fs).toList) : f ∈ fs := by
  induction fs with
  | nil => exact member
  | cons g gs ih =>
    rcases mem_toList_insert member with rfl | later
    · simp
    · exact List.mem_cons_of_mem g (ih later)

end Storage

/-- Known formulas, in which every unordered symbol is interpreted as such, and which have the
truth values of the forms they are filed under. -/
structure Facts.Respected (I : Interpretation D) (facts : Facts) : Prop where
  formula : ∀ f ∈ facts.formulas, f.Respected I
  filed : ∀ p ∈ facts.forms.toList, p.1.Respected I ∧ p.2.Respected I ∧
    ∀ ρ, p.2.holds I ρ ↔ p.1.holds I ρ

namespace Facts.Respected

theorem empty : Facts.empty.Respected I := ⟨by simp [Facts.empty], by simp [Facts.empty]⟩

theorem find? (respected : facts.Respected I) {form : Formula} (found : facts.find? form = some f) :
    f.Respected I ∧ ∀ ρ, f.holds I ρ ↔ form.holds I ρ := by
  obtain ⟨key, equal, member⟩ :=
    Std.TreeMap.getElem?_eq_some_iff_exists_compare_eq_eq_and_mem_toList.mp found
  obtain ⟨-, kept, same⟩ := respected.filed (key, f) member
  exact ⟨kept, fun ρ => (same ρ).trans (Formula.holds_of_compare equal ρ).symm⟩

/-- A known formula that has the same regular form says the same. -/
theorem findIdentical? (respected : facts.Respected I) (given : f.Respected I)
    (found : facts.findIdentical? f = .ok (some g)) :
    g.Respected I ∧ ∀ ρ, g.holds I ρ ↔ f.holds I ρ := by
  simp only [Facts.findIdentical?, bind_eq_ok, pure_eq_ok] at found
  obtain ⟨form, ok, found⟩ := found
  obtain ⟨kept, same⟩ := respected.find? found
  exact ⟨kept, fun ρ => (same ρ).trans (Formula.holds_regularForm ok given ρ).symm⟩

theorem regularForms (respected : facts.Respected I) (member : f ∈ facts.regularForms.toList) :
    f.Respected I := by
  have key := FormulaSet.mem_of_mem_ofList member
  rw [← Std.TreeMap.map_fst_toList_eq_keys] at key
  obtain ⟨p, filed, rfl⟩ := List.mem_map.mp key
  exact (respected.filed p filed).1

theorem add (respected : facts.Respected I) (given : f.Respected I) {facts' : Facts} {new : Bool}
    (ok : facts.add f = .ok (facts', new)) : facts'.Respected I := by
  simp only [Facts.add, bind_eq_ok] at ok
  obtain ⟨form, okf, ok⟩ := ok
  split at ok
  · obtain ⟨rfl, -⟩ := Prod.mk.inj (pure_eq_ok.mp ok)
    exact respected
  · obtain ⟨rfl, -⟩ := Prod.mk.inj (pure_eq_ok.mp ok)
    constructor
    · intro g member
      rcases List.mem_append.mp member with known | new
      · exact respected.formula g known
      · rwa [List.mem_singleton.mp new]
    · intro p member
      rcases mem_toList_insert member with rfl | filed
      · exact ⟨Formula.respected_regularForm okf given, given,
          Formula.holds_regularForm okf given⟩
      · exact respected.filed p filed

theorem addAll {fs : List Formula} (respected : facts.Respected I) (given : ∀ f ∈ fs, f.Respected I)
    {facts' : Facts} {count : Nat} (ok : facts.addAll fs = .ok (facts', count)) :
    facts'.Respected I := by
  induction fs generalizing facts count with
  | nil =>
    obtain ⟨rfl, -⟩ := Prod.mk.inj (Except.ok.inj ok)
    exact respected
  | cons f fs ih =>
    simp only [Facts.addAll, bind_eq_ok, pure_eq_ok] at ok
    obtain ⟨⟨between, new⟩, first, ⟨last, more⟩, rest, equal⟩ := ok
    obtain ⟨rfl, -⟩ := Prod.mk.inj equal
    exact ih (respected.add (given f (by simp)) first) (fun f member => given f (by simp [member])) rest

end Facts.Respected

/-- What is obtained follows from what it depends on, except by a rule that loses something. -/
structure Deduction.Justified (I : Interpretation D) (d : Deduction) : Prop where
  formula : d.formula.Respected I
  dependency : ∀ f ∈ d.dependencies, f.Respected I
  single : d.derivation = none
  holds : (∀ rule ∈ Catalogue.lossy, d.rule ≠ rule.name) →
    ∀ ρ, (∀ f ∈ d.dependencies, f.holds I ρ) → d.formula.holds I ρ

def Outcome.Justified (I : Interpretation D) (goal : Formula) : Outcome → Prop
  | .reached d => d.Justified I ∧ d.formula = goal
  | .candidates ds => ∀ d ∈ ds, d.Justified I

theorem Outcome.Justified.after {ds : List Deduction} (later : outcome.Justified I goal)
    (before : ∀ d ∈ ds, d.Justified I) : (outcome.after ds).Justified I goal := by
  cases outcome with
  | reached d => exact later
  | candidates more =>
    intro d member
    rcases List.mem_append.mp member with first | rest
    · exact before d first
    · exact later d rest

/-- Two formulas with the same regular form say the same. -/
theorem Formula.holds_of_same_form {form target : Formula} (okf : f.regularForm = .ok form)
    (okg : g.regularForm = .ok target) (same : form.same target = true) (respectedf : f.Respected I)
    (respectedg : g.Respected I) (ρ : Variable → D) : f.holds I ρ ↔ g.holds I ρ := by
  rw [holds_regularForm okf respectedf, holds_of_same same, holds_regularForm okg respectedg]

/-- A deduction whose formula has the regular form of the goal reaches the goal. -/
theorem Deduction.Justified.retarget {d : Deduction} {form target : Formula}
    (justified : d.Justified I) (okf : d.formula.regularForm = .ok form)
    (okg : goal.regularForm = .ok target) (same : form.same target = true)
    (respected : goal.Respected I) : ({ d with formula := goal } : Deduction).Justified I := by
  refine ⟨respected, justified.dependency, justified.single, fun apart ρ true => ?_⟩
  have here := justified.holds apart ρ true
  exact (Formula.holds_of_same_form okf okg same justified.formula respected ρ).mp here

namespace Flattening

/-- The formulas that are gone through have the truth values of their forms. -/
theorem seek_justified {target : Formula} {pairs : List (Formula × Formula)}
    (respected : goal.Respected I) (flat : goal.flatten.regularForm = .ok target)
    (filed : ∀ p ∈ pairs, p.1.Respected I ∧ p.2.Respected I ∧ ∀ ρ, p.2.holds I ρ ↔ p.1.holds I ρ)
    (ok : seek goal target pairs = .ok outcome) : outcome.Justified I goal := by
  induction pairs generalizing outcome with
  | nil =>
    obtain rfl := Except.ok.inj ok
    intro d member
    cases member
  | cons p rest ih =>
    obtain ⟨form, source⟩ := p
    obtain ⟨respectedf, respecteds, same⟩ := filed (form, source) (by simp)
    obtain ⟨keptf, flattens⟩ := form.equivalent_flatten respectedf
    obtain ⟨keptg, flattens'⟩ := goal.equivalent_flatten respected
    have dependency : ∀ f ∈ [source], f.Respected I := by simpa using respecteds
    simp only [seek, bind_eq_ok] at ok
    obtain ⟨form', okf, ok⟩ := ok
    split at ok
    · rename_i equal
      obtain rfl := pure_eq_ok.mp ok
      refine ⟨⟨respected, dependency, rfl, fun _ ρ true => ?_⟩, rfl⟩
      have known : source.holds I ρ := true source (by simp [deduction])
      have reached := (Formula.holds_of_same_form okf flat equal keptf keptg ρ).mp
        ((flattens ρ).mp ((same ρ).mp known))
      exact (flattens' ρ).mpr reached
    · simp only [bind_eq_ok, pure_eq_ok] at ok
      obtain ⟨later, okl, rfl⟩ := ok
      have tail := ih (fun p member => filed p (by simp [member])) okl
      split
      · exact tail
      · apply tail.after
        intro d member
        obtain rfl := List.mem_singleton.mp member
        refine ⟨keptf, dependency, rfl, fun _ ρ true => ?_⟩
        have known : source.holds I ρ := true source (by simp [deduction])
        exact (flattens ρ).mp ((same ρ).mp known)

theorem towards_justified (known : facts.Respected I) (respected : goal.Respected I)
    (ok : towards facts goal = .ok outcome) : outcome.Justified I goal := by
  simp only [towards, bind_eq_ok] at ok
  obtain ⟨target, flat, ok⟩ := ok
  exact seek_justified respected flat known.filed ok

theorem advance_justified (recent : ∀ f ∈ frontier.toList, f.Respected I)
    (respected : goal.Respected I) (ok : advance frontier goal = .ok outcome) :
    outcome.Justified I goal := by
  simp only [advance, bind_eq_ok] at ok
  obtain ⟨target, flat, ok⟩ := ok
  apply seek_justified respected flat _ ok
  intro p member
  obtain ⟨f, inside, rfl⟩ := List.mem_map.mp member
  exact ⟨recent f inside, recent f inside, fun ρ => Iff.rfl⟩

end Flattening

namespace Conjunction

theorem sources_hold {fs gs : List Formula} (known : facts.Respected I)
    (respected : ∀ f ∈ fs, f.Respected I) (ok : sources facts frontier fs = .ok (some gs)) :
    (∀ g ∈ gs, g.Respected I) ∧
      ∀ ρ, (∀ g ∈ gs, g.holds I ρ) → ∀ f ∈ fs, f.holds I ρ := by
  induction fs generalizing gs with
  | nil =>
    obtain rfl := Option.some.inj (Except.ok.inj ok)
    simp
  | cons f fs ih =>
    have given := respected f (by simp)
    simp only [sources, bind_eq_ok] at ok
    obtain ⟨form, okf, ok⟩ := ok
    have source : ∃ g rest, gs = g :: rest ∧ sources facts frontier fs = .ok (some rest) ∧
        g.Respected I ∧ ∀ ρ, g.holds I ρ ↔ f.holds I ρ := by
      have regular := Formula.holds_regularForm okf given
      split at ok
      · rename_i g found
        obtain ⟨kept, same⟩ := known.find? found
        simp only [bind_eq_ok, pure_eq_ok, Option.map_eq_some_iff] at ok
        obtain ⟨_, rest, gs, rfl, rfl⟩ := ok
        exact ⟨g, gs, rfl, rest, kept, fun ρ => (same ρ).trans (regular ρ).symm⟩
      · split at ok
        · simp only [bind_eq_ok, pure_eq_ok, Option.map_eq_some_iff] at ok
          obtain ⟨_, rest, gs, rfl, rfl⟩ := ok
          exact ⟨form, gs, rfl, rest, Formula.respected_regularForm okf given,
            fun ρ => (regular ρ).symm⟩
        · cases ok
    obtain ⟨g, rest, rfl, okr, kept, same⟩ := source
    obtain ⟨all, holds⟩ := ih (fun f member => respected f (by simp [member])) okr
    refine ⟨List.forall_mem_cons.mpr ⟨kept, all⟩, fun ρ true => ?_⟩
    obtain ⟨first, later⟩ := List.forall_mem_cons.mp true
    exact List.forall_mem_cons.mpr ⟨(same ρ).mp first, holds ρ later⟩

theorem advance_justified (known : facts.Respected I) (respected : goal.Respected I)
    (ok : advance facts frontier goal = .ok outcome) : outcome.Justified I goal := by
  unfold advance at ok
  split at ok
  · rename_i fs
    simp only [bind_eq_ok] at ok
    obtain ⟨found, okf, ok⟩ := ok
    split at ok
    · rename_i gs
      obtain rfl := pure_eq_ok.mp ok
      obtain ⟨kept, holds⟩ := sources_hold known (Formula.respected_multi.mp respected) okf
      refine ⟨⟨respected, kept, rfl, fun _ ρ true => ?_⟩, rfl⟩
      exact Formula.holds_and.mpr (holds ρ true)
    · obtain rfl := pure_eq_ok.mp ok
      intro d member
      cases member
  · obtain rfl := pure_eq_ok.mp ok
    intro d member
    cases member

end Conjunction

/-- What is sought among deductions is justified as they are. -/
theorem Existential.seek_justified {target : Formula} {ds : List Deduction}
    (respected : goal.Respected I) (okg : goal.regularForm = .ok target) (all : ∀ d ∈ ds, d.Justified I)
    (ok : Existential.seek frontier goal target ds = .ok outcome) : outcome.Justified I goal := by
  induction ds generalizing outcome with
  | nil =>
    obtain rfl := Except.ok.inj ok
    intro d member
    cases member
  | cons d ds ih =>
    have here := all d (by simp)
    simp only [Existential.seek, bind_eq_ok] at ok
    obtain ⟨form, okf, ok⟩ := ok
    split at ok
    · rename_i same
      obtain rfl := pure_eq_ok.mp ok
      exact ⟨here.retarget okf okg same respected, rfl⟩
    · simp only [bind_eq_ok, pure_eq_ok] at ok
      obtain ⟨later, okl, rfl⟩ := ok
      have tail := ih (fun d member => all d (by simp [member])) okl
      split
      · exact tail
      · exact tail.after (by simpa using here)

namespace ModusPonens

theorem ofImplications_justified {fs : List Formula} {ds : List Deduction}
    (known : facts.Respected I) (respected : ∀ f ∈ fs, f.Respected I)
    (ok : ofImplications facts fs = .ok ds) : ∀ d ∈ ds, d.Justified I := by
  fun_induction ofImplications facts fs generalizing ds with
  | case1 =>
    obtain rfl := Except.ok.inj ok
    simp
  | case2 a b fs ih =>
    have given := respected (.link .imply a b) (by simp)
    obtain ⟨respecteda, respectedb⟩ := Formula.respected_link.mp given
    simp only [bind_eq_ok] at ok
    obtain ⟨premise, okp, later, okl, ok⟩ := ok
    have tail := ih (fun f member => respected f (by simp [member])) okl
    split at ok
    · rename_i p
      obtain rfl := pure_eq_ok.mp ok
      obtain ⟨kept, same⟩ := known.findIdentical? respecteda okp
      refine List.forall_mem_cons.mpr ⟨⟨respectedb, ?_, rfl, fun _ ρ true => ?_⟩, tail⟩
      · simpa [deduction] using ⟨given, kept⟩
      · have implication : (Formula.link .imply a b).holds I ρ := true _ (by simp [deduction])
        have premise : p.holds I ρ := true _ (by simp [deduction])
        exact Formula.holds_imply.mp implication ((same ρ).mp premise)
    · obtain rfl := pure_eq_ok.mp ok
      exact tail
  | case3 f fs _ ih => exact ih (fun f member => respected f (by simp [member])) ok

theorem ofPremises_justified {pairs : List (Formula × Formula)} {ds : List Deduction}
    (respected : ∀ p ∈ pairs, p.2.Respected I) (ok : ofPremises frontier pairs = .ok ds) :
    ∀ d ∈ ds, d.Justified I := by
  fun_induction ofPremises frontier pairs generalizing ds with
  | case1 =>
    obtain rfl := Except.ok.inj ok
    simp
  | case2 form a b rest _ ih => exact ih (fun p member => respected p (by simp [member])) ok
  | case3 form a b rest _ ih =>
    have given := respected (form, .link .imply a b) (by simp)
    obtain ⟨respecteda, respectedb⟩ := Formula.respected_link.mp given
    simp only [bind_eq_ok] at ok
    obtain ⟨premise, okp, later, okl, ok⟩ := ok
    have tail := ih (fun p member => respected p (by simp [member])) okl
    split at ok
    · obtain rfl := pure_eq_ok.mp ok
      refine List.forall_mem_cons.mpr ⟨⟨respectedb, ?_, rfl, fun _ ρ true => ?_⟩, tail⟩
      · simpa [deduction] using ⟨given, Formula.respected_regularForm okp respecteda⟩
      · have implication : (Formula.link .imply a b).holds I ρ := true _ (by simp [deduction])
        have reached : premise.holds I ρ := true _ (by simp [deduction])
        exact Formula.holds_imply.mp implication
          ((Formula.holds_regularForm okp respecteda ρ).mpr reached)
    · obtain rfl := pure_eq_ok.mp ok
      exact tail
  | case4 p rest _ ih => exact ih (fun p member => respected p (by simp [member])) ok

/-- The goal is sought as among existential formulas when none is recent. -/
theorem seek_eq (goal target : Formula) (ds : List Deduction) :
    seek goal target ds = Existential.seek {} goal target ds := by
  induction ds with
  | nil => rfl
  | cons d ds ih => simp [seek, Existential.seek, ih]

theorem advance_justified (known : facts.Respected I)
    (recent : ∀ f ∈ frontier.toList, f.Respected I) (respected : goal.Respected I)
    (ok : advance facts frontier goal = .ok outcome) : outcome.Justified I goal := by
  simp only [advance, bind_eq_ok] at ok
  obtain ⟨target, okg, fresh, okf, older, oko, ok⟩ := ok
  rw [seek_eq] at ok
  apply Existential.seek_justified respected okg _ ok
  intro d member
  rcases List.mem_append.mp member with first | second
  · exact ofImplications_justified known recent okf d first
  · exact ofPremises_justified (fun p filed => (known.filed p filed).2.1) oko d second

end ModusPonens

namespace ExcludedMiddle

theorem advance_justified (respected : goal.Respected I) : (advance goal).Justified I goal := by
  unfold advance
  split
  · intro d member
    cases member
  · rename_i found
    refine ⟨⟨respected, by simp [deduction], rfl, fun _ ρ _ => ?_⟩, rfl⟩
    cases results : pattern.matcher goal .empty with
    | nil => simp [results] at found
    | cons r rs =>
      have member : r ∈ pattern.matcher goal .empty := by simp [results]
      exact Catalogue.holds_excludedMiddle member respected ρ

end ExcludedMiddle

namespace Existential

theorem abstraction_justified {terms : List Term} {c : Term}
    (constants : ∀ t ∈ terms, ∃ c, t = .const c) (respected : f.Respected I)
    (member : (g, c) ∈ abstractions terms f) : (deduction f g c).Justified I := by
  obtain ⟨c, chosen, equal⟩ := List.mem_map.mp member
  obtain ⟨rfl, rfl⟩ := Prod.mk.inj equal
  obtain ⟨k, rfl⟩ : ∃ k, c = .const k := by
    split at chosen
    · obtain ⟨k, -, rfl⟩ := List.mem_map.mp chosen
      exact ⟨k, rfl⟩
    · exact constants c chosen
  have fresh : f.freshVar ∉ f.allVars := Variable.fresh_not_mem _ _
  have outside : f.freshVar ∉ f.freeVars := fun free => fresh (Formula.mem_allVars_of_free free)
  refine ⟨?_, by simpa [deduction] using respected, rfl, fun _ ρ true => ?_⟩
  · apply Formula.respected_bind.mpr
    exact Formula.respected_replace respected (by simp [Term.Respected, Term.symbols])
  · have known : f.holds I ρ := true f (by simp [deduction])
    refine Formula.holds_ex.mpr ⟨(Term.const k).value I ρ, ?_⟩
    exact (Formula.holds_replace_var outside _ ρ).mpr known

theorem advance_justified (known : facts.Respected I)
    (recent : ∀ f ∈ frontier.toList, f.Respected I) (respected : goal.Respected I)
    (ok : advance facts frontier hints goal = .ok outcome) : outcome.Justified I goal := by
  simp only [advance, bind_eq_ok] at ok
  obtain ⟨target, okg, ok⟩ := ok
  apply seek_justified respected okg _ ok
  intro d member
  obtain ⟨f, source, member⟩ := List.mem_flatMap.mp member
  obtain ⟨⟨g, c⟩, abstraction, rfl⟩ := List.mem_map.mp member
  have given : f.Respected I := by
    rcases List.mem_append.mp source with old | new
    · exact known.formula f old
    · exact recent f new
  apply abstraction_justified _ given abstraction
  intro t hint
  obtain ⟨-, constant⟩ := List.mem_filter.mp hint
  cases t with
  | const k => exact ⟨k, rfl⟩
  | _ => cases constant

end Existential

def Directions.transformations : Directions → List Transformation
  | .oneWay w => [w]
  | .twoWay forward backward => [forward, backward]

namespace PatternRule

variable {rule : PatternRule}

/-- What the transformations do at the root, the rule does as a whole. -/
theorem results_related {related : Formula → Formula → Prop} {gs : List Formula}
    (congruence : Formula.Congruence related) (flattens : ∀ f, related f f.flatten)
    (relates : ∀ w ∈ rule.directions.transformations, w.Relates related)
    (ok : rule.results f = .ok gs) (member : g ∈ gs) : related f g := by
  unfold results at ok
  split at ok
  · rename_i w here
    have root := relates w (by simp [here, Directions.transformations])
    exact root.addResults congruence flattens (by simp) ok member
  · rename_i forward backward here
    have first := relates forward (by simp [here, Directions.transformations])
    have second := relates backward (by simp [here, Directions.transformations])
    simp only [bind_eq_ok] at ok
    obtain ⟨known, okf, ok⟩ := ok
    have before (h : Formula) (inside : h ∈ known) : related f h :=
      first.addResults congruence flattens (by simp) okf inside
    exact second.addResults congruence flattens before ok member

structure Sound (I : Interpretation D) (rule : PatternRule) : Prop where
  kept : ∀ w ∈ rule.directions.transformations, w.Relates (Formula.Kept I)
  equivalent : (∀ lossy ∈ Catalogue.lossy, rule.name ≠ lossy.name) →
    ∀ w ∈ rule.directions.transformations, w.Relates (Formula.Equivalent I)

theorem Sound.deduction_justified (sound : rule.Sound I) {gs : List Formula}
    (ok : rule.results f = .ok gs) (respected : f.Respected I) (member : g ∈ gs) :
    (rule.deduction f g).Justified I := by
  have kept := results_related Formula.congruence_kept
    (fun f => f.equivalent_flatten.kept) sound.kept ok member
  refine ⟨kept respected, by simpa [deduction] using respected, rfl, fun apart ρ true => ?_⟩
  have equivalent := results_related Formula.congruence_equivalent Formula.equivalent_flatten
    (sound.equivalent apart) ok member
  exact ((equivalent respected).2 ρ).mp (true f (by simp [deduction]))

theorem Sound.seek_justified (sound : rule.Sound I) {fs : List Formula}
    (given : ∀ f ∈ fs, f.Respected I) (respected : goal.Respected I)
    (ok : rule.seek goal fs = .ok outcome) : outcome.Justified I goal := by
  induction fs generalizing outcome with
  | nil =>
    obtain rfl := Except.ok.inj ok
    intro d member
    cases member
  | cons f fs ih =>
    simp only [seek, bind_eq_ok] at ok
    obtain ⟨gs, okg, ok⟩ := ok
    have results (g : Formula) (member : g ∈ gs) : (rule.deduction f g).Justified I :=
      sound.deduction_justified okg (given f (by simp)) member
    split at ok
    · rename_i found
      obtain rfl := pure_eq_ok.mp ok
      obtain ⟨g, member, identical⟩ := List.any_eq_true.mp found
      have here := results g member
      refine ⟨⟨respected, here.dependency, rfl, fun apart ρ true => ?_⟩, rfl⟩
      exact (Formula.holds_of_identical identical here.formula).mp (here.holds apart ρ true)
    · simp only [bind_eq_ok, pure_eq_ok] at ok
      obtain ⟨later, okl, rfl⟩ := ok
      have tail := ih (fun f member => given f (by simp [member])) okl
      exact tail.after (List.forall_mem_map.mpr results)

end PatternRule

/-- A step by a pattern keeps truth unless it loses something. The other steps are justified
without further ado. -/
def Inference.Sound (I : Interpretation D) : Inference → Prop
  | .pattern rule => rule.Sound I
  | _ => True

namespace Catalogue

open Transformation Formula

theorem sound_oneWay {s description : String} {pattern : Pattern}
    {result : Bindings → Except Error Formula} (relates : Relates ⟨pattern, result⟩ (Equivalent I)) :
    (oneWay s description pattern result).Sound I := by
  have all : ∀ w ∈ (Directions.oneWay ⟨pattern, result⟩).transformations,
      w.Relates (Equivalent I) := by simpa [Directions.transformations] using relates
  exact ⟨fun w member f r g found ok => (all w member f r g found ok).kept, fun _ => all⟩

/-- Equivalent templates keep truth in both directions. -/
theorem relates_transformations {lhs rhs : Formula} (left : lhs.Shallow) (right : rhs.Shallow)
    (givenl : lhs.Respected I) (givenr : rhs.Respected I)
    (same : ∀ named ρ, lhs.holds { I with named } ρ ↔ rhs.holds { I with named } ρ) :
    ∀ w ∈ (Directions.twoWay (.ofTemplates lhs rhs) (.ofTemplates rhs lhs)).transformations,
      w.Relates (Equivalent I) := by
  have forward : Relates (.ofTemplates lhs rhs) (Equivalent I) :=
    relates_exchange left right givenl givenr same
  have backward : Relates (.ofTemplates rhs lhs) (Equivalent I) :=
    relates_exchange right left givenr givenl fun named ρ => (same named ρ).symm
  simpa [Directions.transformations] using ⟨forward, backward⟩

theorem sound_exchange {s description : String} {lhs rhs : Formula} (left : lhs.Propositional)
    (right : rhs.Propositional) (same : ∀ (I : Interpretation D) ρ, lhs.holds I ρ ↔ rhs.holds I ρ) :
    (exchange s description lhs rhs).Sound I := by
  have all : ∀ w ∈ (Directions.twoWay (.ofTemplates lhs rhs) (.ofTemplates rhs lhs)).transformations,
      w.Relates (Equivalent I) :=
    relates_transformations (.flat left.quantifierFree) (.flat right.quantifierFree) left.respected
      right.respected fun named ρ => same _ ρ
  exact ⟨fun w member f r g found ok => (all w member f r g found ok).kept, fun _ => all⟩

theorem sound_lossy {s description : String} {pattern : Pattern}
    {result : Bindings → Except Error Formula} (member : oneWay s description pattern result ∈ lossy)
    (weakens : Weakens ⟨pattern, result⟩ I) : (oneWay s description pattern result).Sound I := by
  constructor
  · intro w here f r g found ok respected
    obtain rfl := List.mem_singleton.mp here
    exact (weakens f r g found ok respected).1
  · intro apart
    exact absurd rfl (apart _ member)

theorem sound_defImply : defImply.Sound I := by
  apply sound_exchange (.link .prop .prop)
  · apply Propositional.multi
    intro f member
    rcases List.mem_cons.mp member with rfl | member
    · exact .not .prop
    · rw [List.mem_singleton.mp member]
      exact .prop
  · intro I ρ
    simp only [holds_imply, holds_or, List.mem_cons, List.not_mem_nil, or_false, exists_eq_or_imp,
      exists_eq_left, holds_not]
    exact imp_iff_not_or

theorem sound_defEquivTo : defEquivTo.Sound I := by
  refine sound_exchange ?_ (.link .prop .prop) ?_
  · apply Propositional.multi
    intro f member
    rcases List.mem_cons.mp member with rfl | member
    · exact .link .prop .prop
    · rw [List.mem_singleton.mp member]
      exact .link .prop .prop
  · intro I ρ
    simp only [holds_and, List.mem_cons, List.not_mem_nil, or_false, forall_eq_or_imp, forall_eq,
      holds_imply, holds_equiv]
    exact iff_iff_implies_and_implies.symm

theorem sound (standard : I.Standard) : ∀ rule ∈ rules, rule.Sound I := by
  have project : andProject.Sound I := sound_lossy (by simp [lossy, andProject]) weakens_andProject
  have compose : implyCompose.Sound I :=
    sound_lossy (by simp [lossy, implyCompose]) weakens_implyCompose
  have replace : equalReplace.Sound I :=
    sound_lossy (by simp [lossy, equalReplace]) (weakens_equalReplace standard)
  simp only [rules, combined, List.cons_append, List.nil_append, List.forall_mem_cons]
  exact ⟨trivial, sound_oneWay relates_doubleNegate, sound_oneWay (relates_identity .and),
    sound_oneWay (relates_identity .or), sound_oneWay (relates_absorption (by simp)),
    sound_oneWay (relates_absorption (by simp)), trivial, project, compose, sound_defImply, trivial,
    sound_defEquivTo, replace, trivial, sound_oneWay relates_forAnyAnd, trivial, by simp⟩

end Catalogue

namespace Inference

variable {rule : Inference}

theorem advance_justified (sound : rule.Sound I) (known : facts.Respected I)
    (recent : ∀ f ∈ frontier.toList, f.Respected I) (respected : goal.Respected I)
    (ok : rule.advance facts frontier hints goal = .ok outcome) : outcome.Justified I goal := by
  cases rule with
  | pattern r => exact PatternRule.Sound.seek_justified sound recent respected ok
  | flattening => exact Flattening.advance_justified recent respected ok
  | conjunction => exact Conjunction.advance_justified known respected ok
  | modusPonens => exact ModusPonens.advance_justified known recent respected ok
  | excludedMiddle =>
    obtain rfl := Except.ok.inj ok
    exact ExcludedMiddle.advance_justified respected
  | existential => exact Existential.advance_justified known recent respected ok

theorem towards_justified (sound : rule.Sound I) (known : facts.Respected I)
    (respected : goal.Respected I) (ok : rule.towards facts hints goal = .ok outcome) :
    outcome.Justified I goal := by
  have recent : ∀ f ∈ facts.regularForms.toList, f.Respected I := fun f => known.regularForms
  unfold towards at ok
  split at ok
  · exact PatternRule.Sound.seek_justified sound
      (fun f member => known.formula f (List.mem_reverse.mp member)) respected ok
  · exact Flattening.towards_justified known respected ok
  · exact advance_justified sound known recent respected ok

end Inference

end Sequitur
