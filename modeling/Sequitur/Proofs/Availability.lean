import Sequitur.Proofs.Definitions
import Sequitur.Proofs.Room
import Sequitur.Theory

/-! The built-in rules return. Every reference in a result is bound by every match of the pattern, so
that a call can only fail for want of an index. It fails then for a formula that comes up in the call:
one that it was given, or that the rules obtain within the depth of the search. -/

namespace Sequitur

variable {α : Type} {f g goal : Formula} {hints : Hints} {rule : Inference} {rules : List Inference}
  {facts facts' : Facts} {frontier : FormulaSet} {n m : Nat}

namespace Formula

theorem Fits.member {c : Junction} {fs : List Formula} (fits : (Formula.multi c fs).Fits)
    (member : f ∈ fs) : f.Fits := by
  apply fits.of_le
  · intro v free
    exact mem_freeVars_multi.mpr ⟨f, member, free⟩
  · rw [quantifiers]
    exact List.le_sum_of_mem (List.mem_map_of_mem member)

theorem regularForm_of_not_fits (large : ¬ f.Fits) : f.regularForm = .error .indexOverflow := by
  cases result : f.regularForm with
  | ok form => exact absurd (fits_iff.mpr ⟨form, result⟩) large
  | error e => rw [f.onlyOverflows_regularForm e result]

end Formula

/-- The computation has a result, unless one of these formulas needs an index that is too large. -/
def Returns (arising : Formula → Prop) (x : Except Error α) : Prop :=
  Succeeds x ∨ x = .error .indexOverflow ∧ ∃ f, arising f ∧ f.regularForm = .error .indexOverflow

theorem OnlyOverflows.returns {arising : Formula → Prop} {x : Except Error α} (only : OnlyOverflows x)
    (room : (∀ f, arising f → f.Fits) → Succeeds x) : Returns arising x := by
  by_cases fits : ∀ f, arising f → f.Fits
  · exact .inl (room fits)
  · simp only [not_forall] at fits
    obtain ⟨f, arises, large⟩ := fits
    cases result : x with
    | ok a => exact .inl ⟨a, rfl⟩
    | error e =>
      rw [only e result]
      exact .inr ⟨rfl, f, arises, Formula.regularForm_of_not_fits large⟩

theorem PatternRule.succeeds_applyAll {rule : PatternRule} (total : (Inference.pattern rule).Total)
    (fs : List Formula) : Succeeds (rule.applyAll fs) := by
  induction fs with
  | nil => exact .pure _
  | cons f fs ih =>
    rw [applyAll]
    exact .bind (total f) fun _ _ => ih.bind fun _ _ => .pure _

namespace Conjunction

theorem onlyOverflows_known (fs : List Formula) : OnlyOverflows (known facts fs) := by
  induction fs with
  | nil => exact .ok _
  | cons f fs ih =>
    refine .bind (Facts.onlyOverflows_findIdentical f) fun found => ?_
    cases found with
    | none => exact .pure _
    | some g => exact ih.bind fun _ => .pure _

theorem succeeds_known {fs : List Formula} (fits : ∀ f ∈ fs, f.Fits) : Succeeds (known facts fs) := by
  induction fs with
  | nil => exact .pure _
  | cons f fs ih =>
    obtain ⟨here, later⟩ := List.forall_mem_cons.mp fits
    refine .bind (.bind here.succeeds fun _ _ => .pure _) fun found _ => ?_
    cases found with
    | none => exact .pure _
    | some g => exact (ih later).bind fun _ _ => .pure _

theorem succeeds_sources_of_fits {fs : List Formula} (fits : ∀ f ∈ fs, f.Fits) :
    Succeeds (sources facts frontier fs) := by
  induction fs with
  | nil => exact .pure _
  | cons f fs ih =>
    obtain ⟨here, later⟩ := List.forall_mem_cons.mp fits
    refine .bind here.succeeds fun form _ => ?_
    split
    · exact (ih later).bind fun _ _ => .pure _
    · split
      · exact (ih later).bind fun _ _ => .pure _
      · exact .pure _

theorem succeeds_advance (target : goal.Fits) : Succeeds (advance facts frontier goal) := by
  unfold advance
  split
  · refine .bind (succeeds_sources_of_fits fun f => target.member) fun found _ => ?_
    cases found with
    | some gs => exact .pure _
    | none => exact .pure _
  · exact .pure _

end Conjunction

namespace Inference

theorem onlyOverflows_apply (total : rule.Total) : OnlyOverflows (rule.apply facts hints) := by
  cases rule with
  | pattern rule => exact .of_succeeds (PatternRule.succeeds_applyAll total _)
  | conjunction =>
    simp only [apply, Conjunction.apply]
    split
    · exact .pure _
    · refine .bind (Conjunction.onlyOverflows_known _) fun found => ?_
      cases found with
      | none => exact .pure _
      | some gs => exact .pure _
  | modusPonens => exact ModusPonens.onlyOverflows_ofImplications _
  | _ => exact .ok _

/-- What is known fits, so that only the hints can be too large. -/
theorem succeeds_apply (total : rule.Total) (filed : facts.Filed)
    (fits : ∀ f ∈ hints.formulas, f.Fits) : Succeeds (rule.apply facts hints) := by
  cases rule with
  | pattern rule => exact PatternRule.succeeds_applyAll total _
  | conjunction =>
    simp only [apply, Conjunction.apply]
    split
    · exact .pure _
    · refine .bind (Conjunction.succeeds_known fits) fun found _ => ?_
      cases found with
      | none => exact .pure _
      | some gs => exact .pure _
  | modusPonens =>
    exact ModusPonens.succeeds_ofImplications fun f member => (filed.formula f member).fits
  | _ => exact .pure _

theorem onlyOverflows_towards (total : rule.Total) : OnlyOverflows (rule.towards facts hints goal) := by
  have only : OnlyOverflows (rule.advance facts facts.regularForms hints goal) :=
    onlyOverflows_advance total
  cases rule with
  | pattern rule => exact .of_succeeds (PatternRule.succeeds_seek total _)
  | flattening =>
    exact .bind (Formula.onlyOverflows_regularForm _) fun _ => Flattening.onlyOverflows_seek _
  | _ => exact only

theorem succeeds_of_fits (total : rule.Total) (filed : facts.Filed) (target : goal.Fits)
    (recent : ∀ f ∈ frontier.toList, f.Fits)
    (roomy : rule = .existential → ∀ f ∈ facts.formulas ++ frontier.toList, rule.Roomy hints f) :
    Succeeds (rule.advance facts frontier hints goal) := by
  cases rule with
  | pattern rule => exact PatternRule.succeeds_seek total _
  | flattening => exact Flattening.succeeds_advance target.flatten recent
  | conjunction => exact Conjunction.succeeds_advance target
  | modusPonens => exact ModusPonens.succeeds_advance filed target recent
  | excludedMiddle => exact .pure _
  | existential => exact Existential.succeeds_advance target (roomy rfl)

theorem succeeds_towards (total : rule.Total) (filed : facts.Filed) (target : goal.Fits)
    (roomy : rule = .existential →
      ∀ f ∈ facts.formulas ++ facts.regularForms.toList, rule.Roomy hints f) :
    Succeeds (rule.towards facts hints goal) := by
  have recent (f : Formula) (member : f ∈ facts.regularForms.toList) : f.Fits :=
    filed.recent.fits member
  cases rule with
  | pattern rule => exact PatternRule.succeeds_seek total _
  | flattening =>
    refine .bind target.flatten.succeeds fun _ _ => Flattening.succeeds_seek fun p member => ?_
    exact Formula.fits_iff.mpr ⟨p.1, Formula.regularForm_regular (filed.form p member).2⟩
  | conjunction => exact succeeds_of_fits total filed target recent roomy
  | modusPonens => exact succeeds_of_fits total filed target recent roomy
  | excludedMiddle => exact .pure _
  | existential => exact succeeds_of_fits total filed target recent roomy

end Inference

/-- What the rules obtain from these formulas in at most `n` steps, up to its regular form. -/
inductive Arises (rules : List Inference) (hints : Hints) (goal : Formula) (given : List Formula) :
    Nat → Formula → Prop
  | given {n : Nat} {f : Formula} : f ∈ given → Arises rules hints goal given n f
  | form {n : Nat} {f g : Formula} : Arises rules hints goal given n f → f.regularForm = .ok g →
      Arises rules hints goal given n g
  | step {n : Nat} {rule : Inference} {fs : List Formula} {g : Formula} : rule ∈ rules →
      (∀ f ∈ fs, Arises rules hints goal given n f) → rule.Yields hints goal fs g →
      Arises rules hints goal given (n + 1) g

variable {given : List Formula}

theorem Arises.mono (arises : Arises rules hints goal given n f) (le : n ≤ m) :
    Arises rules hints goal given m f := by
  induction arises generalizing m with
  | given member => exact .given member
  | form _ ok ih => exact .form (ih le) ok
  | step member _ yields ih =>
    cases m with
    | zero => omega
    | succ m => exact .step member (fun f premise => ih f premise (by omega)) yields

/-- Everything that is known, or was just obtained, is among these formulas. -/
structure Facts.Covered (arising : Formula → Prop) (facts : Facts) (frontier : FormulaSet) : Prop
    extends facts.Recent frontier where
  known : ∀ f ∈ facts.formulas, arising f
  recent : ∀ f ∈ frontier.toList, arising f

theorem Facts.Filed.covered (filed : facts.Filed) (known : ∀ f ∈ facts.formulas, f ∈ given) :
    facts.Covered (Arises rules hints goal given n) facts.regularForms := by
  refine ⟨filed.recent, fun f member => .given (known f member), fun f member => ?_⟩
  obtain ⟨g, source, regular⟩ := filed.exists_known member
  exact .form (.given (known g source)) regular

namespace Inference

/-- If everything that arises in one more step fits, there is room for what a rule makes of this. -/
theorem roomy_of_arises (member : rule ∈ rules)
    (room : ∀ f, Arises rules hints goal given (n + 1) f → f.Fits)
    (arises : Arises rules hints goal given n f) : rule.Roomy hints f := by
  have premise : ∀ h ∈ [f], Arises rules hints goal given n h := by simpa using arises
  cases rule with
  | pattern rule =>
    intro gs results g result
    exact room g (.step member premise (.pattern results result))
  | existential =>
    intro g t abstraction
    exact room g (.step member premise (.existential abstraction))
  | _ => trivial

theorem Tries.arises {d : Deduction} (tries : rule.Tries facts frontier hints goal d)
    (covered : facts.Covered (Arises rules hints goal given n) frontier) (member : rule ∈ rules)
    (target : goal ∈ given) : Arises rules hints goal given (n + 1) d.formula := by
  cases tries with
  | pattern inside results result =>
    exact .step member (by simpa using covered.recent _ inside) (.pattern results result)
  | flattening inside => exact .step member (by simpa using covered.recent _ inside) .flattening
  | conjunction _ _ => exact .given target
  | @implication a b p inside found =>
    obtain ⟨known, same⟩ := covered.filed.findIdentical? found
    have premises : ∀ f ∈ [.imply a b, p], Arises rules hints goal given n f := by
      simpa using ⟨covered.recent _ inside, covered.known p known⟩
    exact .step member premises (.modusPonens same)
  | @premise form a b p filed _ ok inside =>
    -- the premise was obtained as a formula that is the same but for labels
    obtain ⟨p', there, same⟩ := FormulaSet.mem_iff.mp inside
    have equal : p'.key = a.key := by
      rw [Formula.key_eq ok, Formula.key_eq (covered.regular p' there), same]
    have premises : ∀ f ∈ [.imply a b, p'], Arises rules hints goal given n f := by
      simpa using ⟨covered.known _ (covered.filed.form _ filed).1, covered.recent p' there⟩
    exact .step member premises (.modusPonens equal)
  | excludedMiddle _ => exact .given target
  | @existential f g c source abstraction =>
    have premise : Arises rules hints goal given n f := source.elim (covered.known f) (covered.recent f)
    exact .step member (by simpa using premise) (.existential abstraction)

end Inference

namespace Search

variable {p p' : Progress} {ds : List Deduction} {reached : ReachedForms}

/-- What a round adds is the regular form of a candidate. -/
theorem mem_fresh_of_enter (ok : enter p ds = .ok p') (added : f ∈ p'.fresh.toList) :
    f ∈ p.fresh.toList ∨ ∃ d ∈ ds, d.formula.regularForm = .ok f := by
  induction ds generalizing p with
  | nil =>
    obtain rfl := Except.ok.inj ok
    exact .inl added
  | cons d ds ih =>
    simp only [enter, bind_eq_ok] at ok
    obtain ⟨form, okf, ok⟩ := ok
    split at ok
    · refine (ih ok).imp_right ?_
      rintro ⟨e, member, regular⟩
      exact ⟨e, List.mem_cons_of_mem d member, regular⟩
    · simp only [bind_eq_ok] at ok
      obtain ⟨r, -, ok⟩ := ok
      rcases ih ok with fresh | ⟨e, member, regular⟩
      · rcases FormulaSet.mem_toList_insert fresh with rfl | earlier
        · exact .inr ⟨d, List.mem_cons_self, okf⟩
        · exact .inl earlier
      · exact .inr ⟨e, List.mem_cons_of_mem d member, regular⟩

section

variable (total : ∀ rule ∈ rules, rule.Total) (target : goal ∈ given)

include total target

/-- A round completes if there is room for everything that arises in one more step. -/
theorem succeeds_round {first : List Inference}
    (covered : facts.Covered (Arises rules hints goal given n) frontier)
    (room : ∀ f, Arises rules hints goal given (n + 1) f → f.Fits)
    (fewer : ∀ rule ∈ first, rule ∈ rules) : Succeeds (round facts frontier hints goal p first) := by
  induction first generalizing p with
  | nil => exact .pure _
  | cons rule first ih =>
    obtain ⟨member, others⟩ := List.forall_mem_cons.mp fewer
    have roomy : ∀ f ∈ facts.formulas ++ frontier.toList, rule.Roomy hints f := by
      intro f source
      apply Inference.roomy_of_arises member room
      exact (List.mem_append.mp source).elim (covered.known f) (covered.recent f)
    refine .bind (Inference.succeeds_of_fits (total rule member) covered.filed
      (room goal (.given target)) (fun f => covered.toRecent.fits) fun _ => roomy) fun outcome ok => ?_
    have sought := Inference.advance_sought ok
    cases outcome with
    | reached d =>
      obtain ⟨e, tries, -, rfl⟩ := sought
      exact .bind (succeeds_conclude fun f inside => (tries.known covered.toRecent f inside).fits)
        fun _ _ => .pure _
    | candidates ds =>
      refine .bind (succeeds_enter fun d inside => ?_) fun _ _ => ih others
      have tries := sought.1 d inside
      exact ⟨room d.formula (tries.arises covered member target),
        fun f depends => (tries.known covered.toRecent f depends).fits⟩

omit total

/-- What a round adds arises in one more step. -/
theorem fresh_of_round (covered : facts.Covered (Arises rules hints goal given n) frontier)
    (ok : round facts frontier hints goal ⟨reached, {}⟩ rules = .ok (.inr p))
    (member : f ∈ p.fresh.toList) :
    Arises rules hints goal given (n + 1) f ∧ f.regularForm = .ok f := by
  obtain ⟨ds, returned, entered⟩ := round_cases ok
  rcases mem_fresh_of_enter entered member with none | ⟨d, candidate, regular⟩
  · cases none
  · obtain ⟨rule, inside, own, oka, among⟩ := returned.some d candidate
    have tries := (Inference.advance_sought oka).1 d among
    exact ⟨.form (tries.arises covered inside target) regular, Formula.regularForm_regular regular⟩

/-- The next round starts from that. -/
theorem covered_of_round {count : Nat}
    (covered : facts.Covered (Arises rules hints goal given n) frontier)
    (ok : round facts frontier hints goal ⟨reached, {}⟩ rules = .ok (.inr p))
    (added : facts.addAll p.fresh.toList = .ok (facts', count)) :
    facts'.Covered (Arises rules hints goal given (n + 1)) p.fresh := by
  have fresh {f : Formula} (member : f ∈ p.fresh.toList) := fresh_of_round target covered ok member
  refine ⟨⟨covered.filed.addAll added, fun f member => (fresh member).2, fun f member => ?_⟩,
    fun f member => ?_, fun f member => (fresh member).1⟩
  · have key : f.key = f.bare := Formula.key_eq (fresh member).2
    exact (Facts.mem_forms_addAll added).mpr (.inr ⟨f, member, key⟩)
  · rcases Facts.mem_formulas_addAll added member with known | new
    · exact (covered.known f known).mono (Nat.le_succ n)
    · exact (fresh new).1

include total

theorem succeeds_rounds {depth : Nat}
    (covered : facts.Covered (Arises rules hints goal given n) frontier)
    (room : ∀ f, Arises rules hints goal given (n + depth) f → f.Fits) :
    Succeeds (rounds rules hints goal depth facts frontier reached) := by
  induction depth generalizing n facts frontier reached with
  | zero => exact .pure _
  | succ depth ih =>
    have here (f : Formula) (arises : Arises rules hints goal given (n + 1) f) : f.Fits :=
      room f (arises.mono (by omega))
    refine .bind (succeeds_round total target covered here fun _ => id) fun result ok => ?_
    cases result with
    | inl d => exact .pure _
    | inr p =>
      simp only
      split
      · exact .pure _
      · have fits (f : Formula) (member : f ∈ p.fresh.toList) : f.Fits :=
          here f (fresh_of_round target covered ok member).1
        refine .bind (Facts.succeeds_addAll fits) fun grown added => ?_
        apply ih (covered_of_round target covered ok added)
        rwa [Nat.add_right_comm, Nat.add_assoc]

end

theorem succeeds_towards {s : Search} (total : ∀ rule ∈ s.rules, rule.Total) (filed : facts.Filed)
    (room : ∀ f, Arises s.rules hints goal (goal :: facts.formulas) s.depth f → f.Fits) :
    Succeeds (s.towards facts hints goal) := by
  have covered : facts.Covered (Arises s.rules hints goal (goal :: facts.formulas) 0)
      facts.regularForms := filed.covered fun f member => List.mem_cons_of_mem goal member
  rw [← Nat.zero_add s.depth] at room
  refine .bind (succeeds_rounds total List.mem_cons_self covered room) fun found _ => ?_
  cases found with
  | some d => exact .pure _
  | none => exact .pure _

end Search

namespace Theory

def sameElements : Formula :=
  .all ⟨"x"⟩ (.equiv (.atom (.pred membership) [.var ⟨"x"⟩, .var ⟨"A"⟩])
    (.atom (.pred membership) [.var ⟨"x"⟩, .var ⟨"B"⟩]))

/-- Both sides have the same two free variables, which every match binds, and no references. -/
theorem total_extensionality : extensionality.Total := by
  have left : (Formula.equal (.var ⟨"A"⟩) (.var ⟨"B"⟩)).freeVars = [⟨"A"⟩, ⟨"B"⟩] := by cbv
  have right : sameElements.freeVars = [⟨"A"⟩, ⟨"B"⟩] := by cbv
  have bindsLeft : (Formula.equal (.var ⟨"A"⟩) (.var ⟨"B"⟩)).determined [] = [⟨"A"⟩, ⟨"B"⟩] := by cbv
  have bindsRight : sameElements.determined [] = [⟨"A"⟩, ⟨"B"⟩] := by cbv
  have forward :
      (Transformation.ofTemplates (.equal (.var ⟨"A"⟩) (.var ⟨"B"⟩)) sameElements).Total := by
    apply Transformation.total_ofTemplates
    · rw [Formula.Determined, left, bindsLeft]
      exact fun _ => id
    · rw [left, right]
      exact fun _ => id
    · simp [sameElements, Formula.names, Formula.applications]
    · simp [sameElements, Formula.applications]
  have backward :
      (Transformation.ofTemplates sameElements (.equal (.var ⟨"A"⟩) (.var ⟨"B"⟩))).Total := by
    apply Transformation.total_ofTemplates
    · rw [Formula.Determined, right, bindsRight]
      exact fun _ => id
    · rw [left, right]
      exact fun _ => id
    · simp [Formula.equal, Formula.names, Formula.applications]
    · simp [Formula.equal, Formula.applications]
  exact fun f => (forward.addResults [] f).bind fun known _ => backward.addResults known f

end Theory

namespace Catalogue

theorem total : ∀ rule ∈ Catalogue.rules ++ [Theory.extensionality], rule.Total := by
  intro rule member
  rcases List.mem_append.mp member with catalogued | last
  · exact (uniform rule catalogued).total
  · rw [List.mem_singleton.mp last]
    exact Theory.total_extensionality

/-- Every call of a rule of the catalogue, of extensionality or of a search over them returns, unless a
formula that arises in the call needs too large an index. -/
theorem calls_return {fs : List Formula} (known : Facts.ofList fs = .ok facts)
    (frontier : FormulaSet) (hints : Hints) (goal : Formula) :
    (∀ rule ∈ Catalogue.rules ++ [Theory.extensionality],
      Returns (· ∈ hints.formulas) (rule.apply facts hints) ∧
      Returns (Arises [rule] hints goal (goal :: facts.formulas) 1) (rule.towards facts hints goal) ∧
      Returns (Arises [rule] hints goal (goal :: facts.formulas ++ frontier.toList) 1)
        (rule.advance facts frontier hints goal)) ∧
    ∀ s : Search, (∀ rule ∈ s.rules, rule ∈ Catalogue.rules ++ [Theory.extensionality]) →
      Returns (Arises s.rules hints goal (goal :: facts.formulas) s.depth)
        (s.towards facts hints goal) := by
  have filed := Facts.Filed.ofList known
  constructor
  · intro rule member
    have total := total rule member
    refine ⟨(Inference.onlyOverflows_apply total).returns (Inference.succeeds_apply total filed),
      (Inference.onlyOverflows_towards total).returns fun room => ?_,
      (Inference.onlyOverflows_advance total).returns fun room => ?_⟩
    · have covered : facts.Covered (Arises [rule] hints goal (goal :: facts.formulas) 0)
          facts.regularForms := filed.covered fun f member => List.mem_cons_of_mem goal member
      refine Inference.succeeds_towards total filed (room goal (.given (by simp))) fun _ f source => ?_
      apply Inference.roomy_of_arises (List.mem_singleton_self rule) room
      exact (List.mem_append.mp source).elim (covered.known f) (covered.recent f)
    · refine Inference.succeeds_of_fits total filed (room goal (.given (by simp)))
        (fun f member => room f (.given (by simp [member]))) fun _ f source => ?_
      apply Inference.roomy_of_arises (List.mem_singleton_self rule) room
      exact .given (List.mem_cons_of_mem goal source)
  · intro s combined
    have total (rule : Inference) (member : rule ∈ s.rules) : rule.Total :=
      total rule (combined rule member)
    exact (Search.onlyOverflows_of_total total).returns (Search.succeeds_towards total filed)

/-- A search by modus ponens and extensionality, for `B` from `A` and `A → B`: nothing arises but these
three. -/
theorem calls_return_composed :
    ∃ facts, Facts.ofList [.prop "A", .imply (.prop "A") (.prop "B")] = .ok facts ∧
      Succeeds ((Search.mk [.modusPonens, Theory.extensionality] 4).towards facts {} (.prop "B")) := by
  have regular : ∀ f ∈ [.prop "A", .prop "B", .imply (.prop "A") (.prop "B")],
      f.regularForm = .ok f ∧
        ∀ rule, Theory.extensionality = .pattern rule → rule.results f = .ok [] := by
    simp only [List.forall_mem_cons, List.not_mem_nil]
    refine ⟨⟨by cbv, ?_⟩, ⟨by cbv, ?_⟩, ⟨by cbv, ?_⟩, by simp⟩
    all_goals
      rintro rule ⟨⟩
      cbv
  obtain ⟨facts, known⟩ : ∃ facts,
      Facts.ofList [.prop "A", .imply (.prop "A") (.prop "B")] = .ok facts := ⟨_, by cbv⟩
  have arising (n : Nat) (f : Formula) (arises : Arises [.modusPonens, Theory.extensionality] {}
      (.prop "B") (.prop "B" :: facts.formulas) n f) :
      f ∈ [.prop "A", .prop "B", .imply (.prop "A") (.prop "B")] := by
    induction arises with
    | given member =>
      rcases List.mem_cons.mp member with rfl | inside
      · simp
      · have := Facts.mem_of_ofList known inside
        grind
    | form _ ok ih =>
      obtain rfl := Except.ok.inj ((regular _ ih).1.symm.trans ok)
      exact ih
    | step member _ yields ih =>
      cases yields with
      | pattern results inside =>
        have extension := (List.mem_pair.mp member).resolve_left (by simp)
        have none := (regular _ (ih _ (List.mem_singleton_self _))).2 _ extension.symm
        obtain rfl := Except.ok.inj (none.symm.trans results)
        cases inside
      | modusPonens _ =>
        have implication := ih _ List.mem_cons_self
        simp only [Formula.imply, Formula.prop, List.mem_cons, List.not_mem_nil, reduceCtorEq,
          Formula.link.injEq, false_or, or_false] at implication
        simp [implication.2.2, Formula.prop]
      | _ => simp [Theory.extensionality] at member
  have returns := (calls_return known {} {} (.prop "B")).2 ⟨[.modusPonens, Theory.extensionality], 4⟩
    (by simp [rules, combined])
  refine ⟨facts, known, returns.resolve_right ?_⟩
  rintro ⟨-, f, arises, large⟩
  exact absurd ((regular f (arising 4 f arises)).1.symm.trans large) (by simp)

end Catalogue

end Sequitur
