import Sequitur.Proofs.Dependencies
import Sequitur.Proofs.Monotonicity

/-! Room for indices. A formula has a regular form when its free indices leave room for one index to
each quantifier. That depends on the formula only up to identity, and only two kinds of steps can lose
it: a pattern may make a larger formula, and naming what a constant stands for takes one more
quantifier. -/

namespace Sequitur

open Arrangement

variable {f g h goal : Formula} {hints : Hints} {rule : Inference} {P : Symbol → Prop}

namespace Formula

/-- Instances have as many quantifiers. -/
theorem Instance.quantifiers_eq {R : Symbol → Symbol → Prop} {E : Change} (inst : Instance R E f g) :
    f.quantifiers = g.quantifiers := by
  induction inst with
  | atom => rw [quantifiers, quantifiers]
  | not _ ih => rw [quantifiers, quantifiers, ih]
  | multi pairing _ ih => rw [quantifiers, quantifiers, (pairing.perm_keys ih).sum_nat]
  | imply _ _ iha ihb => rw [quantifiers, quantifiers, iha, ihb]
  | equiv pairing _ ih =>
    have sum := (pairing.perm_keys ih).sum_nat
    simpa [quantifiers] using sum
  | bind _ ih => rw [quantifiers, quantifiers, ih]

theorem TwinInstance.fits_iff (inst : f.TwinInstance g) : f.Fits ↔ g.Fits := by
  rw [Fits, Fits, Instance.quantifiers_eq inst, Instance.startIndex_eq inst]

theorem sum_quantifiers_members (c : Junction) (f : Formula) :
    ((f.members c).map quantifiers).sum = f.quantifiers := by
  cases f with
  | multi d fs =>
    rw [members]
    split
    · rw [quantifiers]
    · simp
  | _ => simp [members]

theorem exists_free_members {v : Variable} (c : Junction) :
    (∃ m ∈ f.members c, v ∈ m.freeVars) ↔ v ∈ f.freeVars := by
  cases f with
  | multi d fs =>
    rw [members]
    split
    · rw [mem_freeVars_multi]
    · simp
  | _ => simp [members]

theorem quantifiers_flatten (f : Formula) : f.flatten.quantifiers = f.quantifiers := by
  induction f with
  | atom r ts => rw [flatten]
  | not f ih => rw [flatten, quantifiers, quantifiers, ih]
  | multi c fs ih =>
    rw [flatten, quantifiers, quantifiers, List.map_flatMap, List.flatMap, List.sum_flatten,
      List.map_map]
    refine congrArg List.sum (List.map_congr_left fun f member => ?_)
    exact (sum_quantifiers_members c f.flatten).trans (ih f member)
  | link c a b iha ihb => rw [flatten, quantifiers, quantifiers, iha, ihb]
  | bind q v f ih => rw [flatten, quantifiers, quantifiers, ih]

theorem mem_freeVars_flatten {v : Variable} : v ∈ f.flatten.freeVars ↔ v ∈ f.freeVars := by
  induction f with
  | atom r ts => rw [flatten]
  | not f ih => simpa [flatten] using ih
  | multi c fs ih =>
    simp only [flatten, mem_freeVars_multi, List.mem_flatMap]
    constructor
    · rintro ⟨m, ⟨f, member, inside⟩, free⟩
      exact ⟨f, member, (ih f member).mp ((exists_free_members c).mp ⟨m, inside, free⟩)⟩
    · rintro ⟨f, member, free⟩
      obtain ⟨m, inside, free⟩ := (exists_free_members c).mpr ((ih f member).mpr free)
      exact ⟨m, ⟨f, member, inside⟩, free⟩
  | link c a b iha ihb => simp [flatten, iha, ihb]
  | bind q w f ih => simp [flatten, ih]

theorem Fits.flatten (fits : f.Fits) : f.flatten.Fits :=
  fits.of_le (fun _ => mem_freeVars_flatten.mp) (Nat.le_of_eq (quantifiers_flatten f))

end Formula

namespace Existential

variable {t : Term}

theorem exists_constant (member : (g, t) ∈ abstractions (hinted hints) f) :
    ∃ c, g = .ex f.freshVar (f.replace (.const c) (.var f.freshVar)) := by
  obtain ⟨t, chosen, equal⟩ := List.mem_map.mp member
  obtain ⟨rfl, rfl⟩ := Prod.mk.inj equal
  split at chosen
  · obtain ⟨c, -, rfl⟩ := List.mem_map.mp chosen
    exact ⟨c, rfl⟩
  · obtain ⟨-, constant⟩ := List.mem_filter.mp chosen
    cases t with
    | const c => exact ⟨c, rfl⟩
    | _ => cases constant

/-- Naming what a constant stands for takes one more quantifier and keeps the free variables. -/
theorem fits_iff (member : (g, t) ∈ abstractions (hinted hints) f) :
    g.Fits ↔ f.startIndex + (f.quantifiers + 1) < Text.indexBound := by
  obtain ⟨c, rfl⟩ := exists_constant member
  have fresh : f.freshVar ∉ f.allVars := Variable.fresh_not_mem _ _
  have inst : Formula.Instance Eq (Change.keep.putBack f.freshVar (.const c))
      (f.replace (.const c) (.var f.freshVar)) f := (Formula.expands_replace fresh).inst
  have free (v : Variable) : v ∈ (Formula.ex f.freshVar
      (f.replace (.const c) (.var f.freshVar))).freeVars ↔ v ∈ f.freeVars := by
    rw [Formula.mem_freeVars_bind]
    constructor
    · rintro ⟨inside, other⟩
      obtain ⟨s, ⟨here, -⟩ | ⟨-, rfl⟩, kept⟩ := inst.exists_target inside
      · exact absurd here other
      · exact kept v (by simp)
    · intro inside
      obtain ⟨w, source, s, ⟨-, same⟩ | ⟨other, rfl⟩, occurs⟩ := inst.exists_source inside
      · have none := Term.mem_vars_of_bare same occurs
        simp at none
      · obtain rfl := Term.mem_vars_var.mp occurs
        exact ⟨source, other⟩
  have start : (Formula.ex f.freshVar (f.replace (.const c) (.var f.freshVar))).startIndex =
      f.startIndex := by
    rw [Formula.startIndex, Formula.startIndex,
      (Formula.sorted_freeVars _).ext (Formula.sorted_freeVars f) free]
  rw [Formula.Fits, start, Formula.ex, Formula.quantifiers, inst.quantifiers_eq]

end Existential

namespace Inference

/-- Whatever the step makes of this premise has a regular form. Only a pattern or an abstraction can
outgrow the room that its premise has. -/
def Roomy (hints : Hints) : Inference → Formula → Prop
  | .pattern rule, f => ∀ gs, rule.results f = .ok gs → ∀ g ∈ gs, g.Fits
  | .existential, f => ∀ g t, (g, t) ∈ Existential.abstractions (Existential.hinted hints) f → g.Fits
  | _, _ => True

theorem roomy_of_twin (roomy : Roomy hints .existential f) (twin : f.TwinInstance g) :
    Roomy hints .existential g := by
  intro h t member
  obtain ⟨h', t', member', inst⟩ := Existential.abstractions_twin twin.symm member
  exact inst.fits_iff.mpr (roomy h' t' member')

theorem Roomy.of_alike (uniform : rule.Uniform) (roomy : rule.Roomy hints f) (alike : f.Alike g) :
    rule.Roomy hints g := by
  cases rule with
  | pattern rule =>
    intro gs results h member
    have back : g.Alike f := alike.symm
    obtain ⟨gs', h', results', member', same⟩ := exists_result_of_alike uniform back results member
    exact same.twinInstance.fits_iff.mpr (roomy gs' results' h' member')
  | existential => exact roomy_of_twin roomy alike.twinInstance
  | _ => trivial

end Inference

theorem Formula.Fits.succeeds (fits : f.Fits) : Succeeds f.regularForm := Formula.fits_iff.mp fits

variable {facts facts' : Facts} {frontier frontier' : FormulaSet} {target : Formula}
  {ds ds' : List Deduction} {d e : Deduction}

theorem Facts.Knows.fits (knows : facts.Knows f) : f.Fits := by
  obtain ⟨form, ok, -⟩ := knows
  exact Formula.fits_iff.mpr ⟨form, ok⟩

theorem Facts.Recent.fits (recent : facts.Recent frontier) (member : f ∈ frontier.toList) : f.Fits :=
  (recent.knows member).fits

theorem Flattening.succeeds_seek {pairs : List (Formula × Formula)}
    (fits : ∀ p ∈ pairs, p.1.Fits) : Succeeds (seek goal target pairs) := by
  induction pairs with
  | nil => exact .pure _
  | cons pair pairs ih =>
    obtain ⟨here, later⟩ := List.forall_mem_cons.mp fits
    refine .bind here.flatten.succeeds fun flat _ => ?_
    split
    · exact .pure _
    · exact (ih later).bind fun _ _ => .pure _

theorem Flattening.succeeds_advance (target : goal.flatten.Fits)
    (recent : ∀ f ∈ frontier.toList, f.Fits) : Succeeds (advance frontier goal) := by
  refine .bind target.succeeds fun target _ => succeeds_seek fun p member => ?_
  obtain ⟨f, inside, rfl⟩ := List.mem_map.mp member
  exact recent f inside

namespace Existential

theorem succeeds_seek (fits : ∀ d ∈ ds, d.formula.Fits) :
    Succeeds (seek frontier goal target ds) := by
  induction ds with
  | nil => exact .pure _
  | cons d ds ih =>
    obtain ⟨here, later⟩ := List.forall_mem_cons.mp fits
    refine .bind here.succeeds fun form _ => ?_
    split
    · exact .pure _
    · exact (ih later).bind fun _ _ => .pure _

theorem succeeds_advance (target : goal.Fits)
    (roomy : ∀ f ∈ facts.formulas ++ frontier.toList, Inference.Roomy hints .existential f) :
    Succeeds (advance facts frontier hints goal) := by
  refine .bind target.succeeds fun target _ => succeeds_seek fun d member => ?_
  obtain ⟨f, source, item⟩ := List.mem_flatMap.mp member
  obtain ⟨⟨g, t⟩, abstraction, rfl⟩ := List.mem_map.mp item
  exact roomy f source g t abstraction

/-- Everything that was gone through in vain has a regular form. -/
theorem fits_of_seek {own : List Deduction}
    (ok : seek frontier goal target ds = .ok (.candidates own)) : ∀ d ∈ ds, d.formula.Fits := by
  induction ds generalizing own with
  | nil => simp
  | cons d ds ih =>
    simp only [seek, bind_eq_ok] at ok
    obtain ⟨form, okf, ok⟩ := ok
    have here : d.formula.Fits := Formula.fits_iff.mpr ⟨form, okf⟩
    split at ok
    · cases pure_eq_ok.mp ok
    · simp only [bind_eq_ok, pure_eq_ok] at ok
      obtain ⟨later, okl, equal⟩ := ok
      cases later with
      | reached e => split at equal <;> cases equal
      | candidates rest => exact List.forall_mem_cons.mpr ⟨here, ih okl⟩

end Existential

namespace ModusPonens

theorem succeeds_ofImplications {fs : List Formula} (fits : ∀ f ∈ fs, f.Fits) :
    Succeeds (ofImplications facts fs) := by
  fun_induction ofImplications facts fs with
  | case1 => exact .pure _
  | case2 a b fs ih =>
    obtain ⟨here, later⟩ := List.forall_mem_cons.mp fits
    refine .bind (.bind here.left.succeeds fun _ _ => .pure _) fun premise _ => ?_
    refine (ih later).bind fun later _ => ?_
    cases premise with
    | some p => exact .pure _
    | none => exact .pure _
  | case3 f fs _ ih => exact ih (List.forall_mem_cons.mp fits).2

theorem succeeds_ofPremises {pairs : List (Formula × Formula)} (fits : ∀ p ∈ pairs, p.2.Fits) :
    Succeeds (ofPremises frontier pairs) := by
  fun_induction ofPremises frontier pairs with
  | case1 => exact .pure _
  | case2 form a b rest _ ih => exact ih (List.forall_mem_cons.mp fits).2
  | case3 form a b rest _ ih =>
    obtain ⟨here, later⟩ := List.forall_mem_cons.mp fits
    refine .bind here.left.succeeds fun premise _ => (ih later).bind fun later _ => ?_
    split
    · exact .pure _
    · exact .pure _
  | case4 p rest _ ih => exact ih (List.forall_mem_cons.mp fits).2

theorem succeeds_advance (filed : facts.Filed) (target : goal.Fits)
    (recent : ∀ f ∈ frontier.toList, f.Fits) : Succeeds (advance facts frontier goal) := by
  have known (p : Formula × Formula) (member : p ∈ facts.forms.toList) : p.2.Fits :=
    (filed.formula p.2 (filed.form p member).1).fits
  refine .bind target.succeeds fun target _ => ?_
  refine .bind (succeeds_ofImplications recent) fun fresh okf => ?_
  refine .bind (succeeds_ofPremises known) fun older oko => ?_
  rw [seek_eq]
  refine Existential.succeeds_seek (List.forall_mem_append.mpr ⟨fun d member => ?_, fun d member => ?_⟩)
  · obtain ⟨a, b, p, inside, -, rfl⟩ := (mem_ofImplications okf).mp member
    exact (recent _ inside).right
  · obtain ⟨form, a, b, p, inside, -, -, -, rfl⟩ := (mem_ofPremises oko).mp member
    exact (known _ inside).right

end ModusPonens

/-- With less known, a conjunction is given up no later. -/
theorem Conjunction.succeeds_sources {fs : List Formula} {found : Option (List Formula)}
    (recent : facts'.Recent frontier') (less : ∀ form ∈ facts'.forms, form ∈ facts.forms)
    (ok : sources facts frontier fs = .ok found) : Succeeds (sources facts' frontier' fs) := by
  induction fs generalizing found with
  | nil => exact .pure _
  | cons f fs ih =>
    simp only [sources, bind_eq_ok] at ok
    obtain ⟨form, okf, ok⟩ := ok
    refine .bind ⟨form, okf⟩ fun form' okf' => ?_
    obtain rfl := Except.ok.inj (okf.symm.trans okf')
    have searched (there : form ∈ facts'.forms) : Succeeds (sources facts' frontier' fs) := by
      obtain ⟨g, here⟩ : ∃ g, facts.find? form = some g :=
        mem_iff_exists_entry.mp (less form there)
      simp only [here, bind_eq_ok] at ok
      obtain ⟨later, okl, -⟩ := ok
      exact ih okl
    split
    · rename_i g here
      have there : form ∈ facts'.forms := mem_iff_exists_entry.mpr ⟨g, here⟩
      exact (searched there).bind fun _ _ => .pure _
    · split
      · rename_i member
        obtain ⟨h, inside, same⟩ := FormulaSet.mem_iff.mp (Std.TreeSet.contains_iff_mem.mp member)
        have there := (Facts.mem_forms_congr same).mp (recent.mem_forms h inside)
        exact (searched there).bind fun _ _ => .pure _
      · exact .pure _

namespace Inference

variable {outcome : Outcome}

/-- An attempt that succeeds does so with less known as well, if what an abstraction goes through has
room. -/
theorem succeeds_advance (uniform : rule.Uniform) (recent : facts'.Recent frontier')
    (less : ∀ form ∈ facts'.forms, form ∈ facts.forms)
    (roomy : rule = .existential → ∀ f ∈ facts'.formulas ++ frontier'.toList, rule.Roomy hints f)
    (ok : rule.advance facts frontier hints goal = .ok outcome) :
    Succeeds (rule.advance facts' frontier' hints goal) := by
  cases rule with
  | pattern rule => exact PatternRule.succeeds_seek uniform.total _
  | flattening =>
    simp only [advance, Flattening.advance, bind_eq_ok] at ok
    obtain ⟨target, flat, -⟩ := ok
    exact Flattening.succeeds_advance (Formula.fits_iff.mpr ⟨target, flat⟩) fun f => recent.fits
  | conjunction =>
    simp only [advance, Conjunction.advance] at ok ⊢
    split
    · simp only [bind_eq_ok] at ok
      obtain ⟨found, oks, -⟩ := ok
      refine .bind (Conjunction.succeeds_sources recent less oks) fun found _ => ?_
      cases found with
      | some gs => exact .pure _
      | none => exact .pure _
    · exact .pure _
  | modusPonens =>
    simp only [advance, ModusPonens.advance, bind_eq_ok] at ok
    obtain ⟨target, okg, -⟩ := ok
    exact ModusPonens.succeeds_advance recent.filed (Formula.fits_iff.mpr ⟨target, okg⟩)
      fun f => recent.fits
  | excludedMiddle => exact .pure _
  | existential =>
    simp only [advance, Existential.advance, bind_eq_ok] at ok
    obtain ⟨target, okg, -⟩ := ok
    exact Existential.succeeds_advance (Formula.fits_iff.mpr ⟨target, okg⟩) (roomy rfl)

/-- What is tried and is no goal has a regular form, if there is room for what the step makes of each
premise. -/
theorem Tries.fits (recent : facts.Recent frontier)
    (roomy : ∀ f ∈ frontier.toList, rule.Roomy hints f)
    (older : rule = .existential → ∀ f ∈ facts.formulas, rule.Roomy hints f)
    (tries : rule.Tries facts frontier hints goal d) (apart : ¬ rule.Meets goal d.formula) :
    d.formula.Fits := by
  cases tries with
  | @pattern rule f g gs member results result =>
    exact roomy f member gs results g result
  | flattening member => exact (recent.fits member).flatten
  | conjunction _ _ => exact absurd trivial apart
  | implication member _ => exact (recent.fits member).right
  | premise filed _ _ _ => exact (recent.filed.formula _ (recent.filed.form _ filed).1).fits.right
  | excludedMiddle _ => exact absurd trivial apart
  | @existential f g t source member =>
    exact source.elim (fun known => older rfl f known g t member) fun recent => roomy f recent g t member

end Inference

theorem Facts.succeeds_addAll {fs : List Formula} (fits : ∀ f ∈ fs, f.Fits) :
    Succeeds (facts.addAll fs) := by
  induction fs generalizing facts with
  | nil => exact .pure _
  | cons f fs ih =>
    obtain ⟨here, later⟩ := List.forall_mem_cons.mp fits
    refine .bind (.bind here.succeeds fun form _ => ?_) fun _ _ => ?_
    · split
      · exact .pure _
      · exact .pure _
    · exact (ih later).bind fun _ _ => .pure _

namespace Search

variable {reached : ReachedForms} {p p' : Progress} {rules : List Inference}

theorem succeeds_withForms {fs : List Formula} (fits : ∀ f ∈ fs, f.Fits) :
    Succeeds (withForms fs) := by
  induction fs with
  | nil => exact .pure _
  | cons f fs ih =>
    obtain ⟨here, later⟩ := List.forall_mem_cons.mp fits
    exact .bind here.succeeds fun _ _ => (ih later).bind fun _ _ => .pure _

theorem succeeds_step (fits : ∀ f ∈ d.dependencies, f.Fits) : Succeeds (step reached d) :=
  .bind (succeeds_withForms fits) fun _ _ => .pure _

theorem succeeds_conclude (fits : ∀ f ∈ d.dependencies, f.Fits) : Succeeds (conclude reached d) :=
  .bind (succeeds_step fits) fun _ _ => .pure _

theorem succeeds_enter (fits : ∀ d ∈ ds, d.formula.Fits ∧ ∀ f ∈ d.dependencies, f.Fits) :
    Succeeds (enter p ds) := by
  induction ds generalizing p with
  | nil => exact .pure _
  | cons d ds ih =>
    obtain ⟨⟨formula, depend⟩, later⟩ := List.forall_mem_cons.mp fits
    refine .bind formula.succeeds fun form _ => ?_
    split
    · exact ih later
    · exact .bind (succeeds_step depend) fun _ _ => ih later

/-- Everything that was entered has a regular form. -/
theorem fits_of_enter (ok : enter p ds = .ok p') : ∀ d ∈ ds, d.formula.Fits := by
  induction ds generalizing p with
  | nil => simp
  | cons d ds ih =>
    simp only [enter, bind_eq_ok] at ok
    obtain ⟨form, okf, ok⟩ := ok
    refine List.forall_mem_cons.mpr ⟨Formula.fits_iff.mpr ⟨form, okf⟩, ?_⟩
    split at ok
    · exact ih ok
    · simp only [bind_eq_ok] at ok
      obtain ⟨r, -, ok⟩ := ok
      exact ih ok

/-- A round that does not reach the goal has room for what each rule makes of the frontier. -/
theorem roomy_of_round (ok : round facts frontier hints goal p rules = .ok (.inr p')) :
    ∀ rule ∈ rules, ∀ f ∈ frontier.toList, rule.Roomy hints f := by
  obtain ⟨ds, returned, oke⟩ := round_cases ok
  have fits := fits_of_enter oke
  intro rule member f inside
  obtain ⟨own, oka, among⟩ := returned.each rule member
  cases rule with
  | pattern rule =>
    intro gs results g result
    have tried := (PatternRule.seek_sought oka).2 (rule.deduction f g)
      ⟨f, inside, gs, results, g, result, rfl⟩
    exact fits _ (among _ (tried.2.resolve_left id))
  | existential =>
    intro g t abstraction
    simp only [Inference.advance, Existential.advance, bind_eq_ok] at oka
    obtain ⟨target, -, oks⟩ := oka
    refine Existential.fits_of_seek oks (Existential.deduction f g t) ?_
    exact List.mem_flatMap.mpr ⟨f, List.mem_append_right _ inside,
      List.mem_map.mpr ⟨(g, t), abstraction, rfl⟩⟩
  | _ => trivial

end Search

end Sequitur
