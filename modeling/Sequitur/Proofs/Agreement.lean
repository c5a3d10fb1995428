import Sequitur.Proofs.Room

/-! Exploring and aiming agree. A step that is applied to everything goes through the formulas as they
were added; aimed at a goal, it goes through their regular forms, from the latest on or in the order of
formulas, and compares regular forms. It reaches the goal exactly when one of the consequences is
identical to it. -/

namespace Sequitur

variable {f g goal form : Formula} {facts : Facts} {hints : Hints} {rule : Inference}
  {ds : List Deduction} {outcome : Outcome} {P : Symbol → Prop}

theorem Outcome.Sought.isReached_iff {tried meets repeats : Deduction → Prop}
    (sought : outcome.Sought goal tried meets repeats) :
    outcome.isReached = true ↔ ∃ d, tried d ∧ meets d := by
  cases outcome with
  | reached d =>
    obtain ⟨e, tries, met, -⟩ := sought
    exact ⟨fun _ => ⟨e, tries, met⟩, fun _ => rfl⟩
  | candidates ds =>
    constructor
    · intro reached
      cases reached
    · rintro ⟨d, tries, met⟩
      exact absurd met (sought.2 d tries).1

theorem Facts.Knows.contains (knows : facts.Knows f) : facts.contains f = .ok true := by
  obtain ⟨form, ok, known⟩ := knows
  rw [Facts.contains_eq facts ok, Std.TreeMap.contains_iff_mem.mpr known]

namespace PatternRule

variable {rule : PatternRule}

theorem mem_applyAll {fs : List Formula} {d : Deduction} (ok : rule.applyAll fs = .ok ds) :
    d ∈ ds ↔ ∃ f ∈ fs, ∃ gs, rule.results f = .ok gs ∧ ∃ g ∈ gs, rule.deduction f g = d := by
  induction fs generalizing ds with
  | nil =>
    obtain rfl := Except.ok.inj ok
    simp
  | cons f fs ih =>
    simp only [applyAll, bind_eq_ok, pure_eq_ok] at ok
    obtain ⟨gs, results, later, rest, rfl⟩ := ok
    rw [List.mem_append, ih rest]
    simp [results]

/-- The order in which formulas are transformed does not matter. -/
theorem towards_iff (applied : rule.apply facts = .ok ds)
    (tried : rule.towards facts goal = .ok outcome) :
    outcome.isReached = true ↔ ∃ d ∈ ds, d.formula.identical goal = true := by
  rw [(seek_sought tried).isReached_iff]
  simp only [mem_applyAll applied, List.mem_reverse]

end PatternRule

/-- What reaches the goal has a regular form, the same as the goal's. -/
theorem Existential.exists_of_seek {frontier : FormulaSet} {d : Deduction}
    (ok : seek frontier goal form ds = .ok (.reached d)) :
    ∃ e ∈ ds, ∃ same, e.formula.regularForm = .ok same ∧ same.same form = true := by
  induction ds with
  | nil => cases ok
  | cons e ds ih =>
    simp only [seek, bind_eq_ok] at ok
    obtain ⟨own, okf, ok⟩ := ok
    split at ok
    · rename_i same
      exact ⟨e, List.mem_cons_self, own, okf, same⟩
    · simp only [bind_eq_ok, pure_eq_ok] at ok
      obtain ⟨later, okl, equal⟩ := ok
      cases later with
      | reached d' =>
        have last : Outcome.reached d' = .reached d := by
          split at equal
          · exact equal
          · exact equal
        obtain ⟨e, member, found⟩ := ih (last ▸ okl)
        exact ⟨e, List.mem_cons_of_mem _ member, found⟩
      | candidates rest => split at equal <;> cases equal

section

variable (single : Symbol.Single P) (known : ∀ f ∈ facts.formulas, ∀ s ∈ f.symbols, P s)
  (aimed : ∀ s ∈ goal.symbols, P s)

include single known aimed

namespace ModusPonens

/-- A conclusion from regular forms is one from the formulas that they stand for. -/
theorem exists_of_tries {d : Deduction} (filed : facts.Filed) (applied : apply facts = .ok ds)
    (regular : goal.regularForm = .ok form)
    (tries : Inference.modusPonens.Tries facts facts.regularForms hints goal d)
    (met : d.formula.key = goal.key) : ∃ d ∈ ds, d.formula.identical goal = true := by
  cases tries with
  | @implication a' b' p inside found =>
    obtain ⟨source, member, ok⟩ := filed.exists_known inside
    have twin := (Formula.twinInstance_regularForm ok).symm
    obtain ⟨a, b, rfl, premise, conclusion⟩ := Formula.TwinInstance.exists_imply twin
    have fits := (filed.formula _ member).fits
    obtain ⟨formA, okA⟩ := fits.left.succeeds
    obtain ⟨formB, okB⟩ := fits.right.succeeds
    have there : a.key ∈ facts.forms := by
      obtain ⟨listed, same⟩ := filed.findIdentical? found
      rw [← premise, ← same]
      exact (filed.formula p listed).key_mem
    obtain ⟨p', found'⟩ := Facts.exists_findIdentical okA there
    have obtained : deduction (.imply a b) p' b ∈ ds :=
      (mem_ofImplications applied).mpr ⟨a, b, p', member, found', rfl⟩
    have symbols : ∀ s ∈ b.symbols, P s := fun s occurs =>
      known _ member s (Formula.mem_symbols_link.mpr (.inr occurs))
    exact ⟨_, obtained, (Formula.key_eq_iff_identical single okB regular symbols aimed).mp
      (conclusion.symm.trans met)⟩
  | @premise filedAs _ _ _ entry older _ _ =>
    -- every known implication is itself gone through
    have key : filedAs ∈ facts.forms.keys := by
      rw [← Std.TreeMap.map_fst_toList_eq_keys]
      exact List.mem_map_of_mem entry
    exact absurd (FormulaSet.mem_ofList key) older

/-- A conclusion from known formulas is one from their regular forms. -/
theorem isReached_of_mem {d : Deduction} (filed : facts.Filed) (applied : apply facts = .ok ds)
    (tried : Inference.modusPonens.advance facts facts.regularForms hints goal = .ok outcome)
    (member : d ∈ ds) (identical : d.formula.identical goal = true) : outcome.isReached = true := by
  obtain ⟨a, b, p, inside, found, rfl⟩ := (mem_ofImplications applied).mp member
  obtain ⟨listed, same⟩ := filed.findIdentical? found
  have made := filed.madeOf known
  obtain ⟨_, ok, regular, there⟩ := made.exists_form inside
  obtain ⟨a', b', rfl, premise, conclusion⟩ := (Formula.twinInstance_regularForm ok).exists_imply
  obtain ⟨p', okp, regularP, thereP⟩ := made.exists_form listed
  have equal : p'.key = a'.key := by
    rw [← premise, ← same]
    exact (Formula.twinInstance_regularForm okp).key_eq.symm
  have symbols : ∀ s ∈ b.symbols, P s := fun s occurs =>
    known _ inside s (Formula.mem_symbols_link.mpr (.inr occurs))
  have met : b'.key = goal.key :=
    conclusion.symm.trans (Formula.twinInstance_of_identical single symbols aimed identical).key_eq
  cases outcome with
  | reached d => rfl
  | candidates own =>
    have uniform : Inference.modusPonens.Uniform := by
      simp [Inference.Uniform, Inference.transformations]
    have apart := (Inference.candidates_of_yields made single uniform tried
      (.modusPonens equal) (by simp [regular, there, regularP, thereP])
      (.inr ⟨_, List.mem_cons_self, Facts.mem_regularForms there⟩)).1
    exact absurd met apart

end ModusPonens

namespace Existential

/-- An abstraction of a regular form is one of the formula that it stands for. -/
theorem exists_of_reached {d : Deduction} (filed : facts.Filed)
    (tried : advance facts facts.regularForms hints goal = .ok (.reached d)) :
    ∃ d ∈ apply facts hints, d.formula.identical goal = true := by
  simp only [advance, bind_eq_ok] at tried
  obtain ⟨target, regular, tried⟩ := tried
  obtain ⟨e, inside, own, okg, same⟩ := exists_of_seek tried
  obtain ⟨f, source, item⟩ := List.mem_flatMap.mp inside
  obtain ⟨⟨g, c⟩, member, rfl⟩ := List.mem_map.mp item
  have met : g.key = goal.key := (Formula.same_iff_key okg regular).mp same
  have made := filed.madeOf known
  have symbols : ∀ s ∈ f.symbols, P s :=
    (List.mem_append.mp source).elim (made.known f) (made.obtained f)
  have twin : g.TwinInstance goal := Formula.twinInstance_of_key single okg regular
    (symbols_of_abstraction symbols member) aimed met
  rcases List.mem_append.mp source with listed | recent
  · exact ⟨deduction f g c, List.mem_flatMap.mpr ⟨f, listed, item⟩, twin.identical⟩
  · obtain ⟨f', listed, ok⟩ := filed.exists_known recent
    have back := (Formula.twinInstance_regularForm ok).symm
    obtain ⟨g', c', member', inst⟩ := abstractions_twin back member
    have obtained : deduction f' g' c' ∈ apply facts hints :=
      List.mem_flatMap.mpr ⟨f', listed, List.mem_map.mpr ⟨(g', c'), member', rfl⟩⟩
    exact ⟨_, obtained, (inst.symm.trans twin).identical⟩

/-- Known formulas are gone through as they are. -/
theorem isReached_of_mem {d : Deduction}
    (tried : Inference.existential.advance facts facts.regularForms hints goal = .ok outcome)
    (member : d ∈ apply facts hints) (identical : d.formula.identical goal = true) :
    outcome.isReached = true := by
  obtain ⟨f, listed, item⟩ := List.mem_flatMap.mp member
  obtain ⟨⟨g, c⟩, inside, rfl⟩ := List.mem_map.mp item
  have symbols := symbols_of_abstraction (known f listed) inside
  have met := (Formula.twinInstance_of_identical single symbols aimed identical).key_eq
  exact (Inference.advance_sought tried).isReached_iff.mpr ⟨_, .existential (.inl listed) inside, met⟩

end Existential

end

namespace Inference

/-- What an attempt reaches rests on known formulas. -/
theorem contains_of_reached {d : Deduction} (filed : facts.Filed)
    (tried : rule.advance facts facts.regularForms hints goal = .ok (.reached d)) :
    d.formula = goal ∧ ∀ f ∈ d.dependencies, facts.contains f = .ok true := by
  obtain ⟨e, tries, -, rfl⟩ := advance_sought tried
  exact ⟨rfl, fun f member => (tries.known filed.recent f member).contains⟩

/-- Where names have a single flag, a pattern, modus ponens or an abstraction that is aimed at a goal
reaches it exactly when one of its consequences is identical to the goal, and from known formulas. -/
theorem towards_iff_apply {fs : List Formula} (listed : Facts.ofList fs = .ok facts)
    (single : Formula.SingleOrder (goal :: facts.formulas))
    (kind : (∃ r, rule = .pattern r) ∨ rule = .modusPonens ∨ rule = .existential)
    (applied : rule.apply facts hints = .ok ds) (tried : rule.towards facts hints goal = .ok outcome) :
    (outcome.isReached = true ↔ ∃ d ∈ ds, d.formula.identical goal = true) ∧
      ∀ d, outcome = .reached d →
        d.formula = goal ∧ ∀ f ∈ d.dependencies, facts.contains f = .ok true := by
  have filed := Facts.Filed.ofList listed
  have known : ∀ f ∈ facts.formulas, ∀ s ∈ f.symbols, ∃ g ∈ goal :: facts.formulas, s ∈ g.symbols :=
    fun f member s occurs => ⟨f, List.mem_cons_of_mem goal member, occurs⟩
  have aimed : ∀ s ∈ goal.symbols, ∃ g ∈ goal :: facts.formulas, s ∈ g.symbols :=
    fun s occurs => ⟨goal, List.mem_cons_self, occurs⟩
  rcases kind with ⟨r, rfl⟩ | rfl | rfl
  · refine ⟨PatternRule.towards_iff applied tried, ?_⟩
    rintro d rfl
    obtain ⟨e, ⟨f, member, gs, -, g, -, rfl⟩, -, rfl⟩ := PatternRule.seek_sought tried
    refine ⟨rfl, fun h depends => ?_⟩
    obtain rfl := List.mem_singleton.mp depends
    exact (filed.formula h (List.mem_reverse.mp member)).contains
  · change advance facts facts.regularForms hints goal .modusPonens = .ok outcome at tried
    refine ⟨⟨fun reached => ?_, ?_⟩, ?_⟩
    · obtain ⟨d, tries, met⟩ := (advance_sought tried).isReached_iff.mp reached
      obtain ⟨target, regular, -⟩ := bind_eq_ok.mp tried
      exact ModusPonens.exists_of_tries single.symbols known aimed filed applied regular tries met
    · rintro ⟨d, member, identical⟩
      exact ModusPonens.isReached_of_mem single.symbols known aimed filed applied tried member identical
    · rintro d rfl
      exact contains_of_reached filed tried
  · change advance facts facts.regularForms hints goal .existential = .ok outcome at tried
    obtain rfl := Except.ok.inj applied
    refine ⟨⟨fun reached => ?_, ?_⟩, ?_⟩
    · cases outcome with
      | reached d => exact Existential.exists_of_reached single.symbols known aimed filed tried
      | candidates own => cases reached
    · rintro ⟨d, member, identical⟩
      exact Existential.isReached_of_mem single.symbols known aimed tried member identical
    · rintro d rfl
      exact contains_of_reached filed tried

def everyP (v : String) : Formula := .all ⟨v⟩ (.atom (.pred ⟨.plain "p", 1, true⟩) [.var ⟨v⟩])

def someQ (v : String) : Formula := .ex ⟨v⟩ (.atom (.pred ⟨.plain "q", 1, true⟩) [.var ⟨v⟩])

/-- From `∀ x, p(x)` and `(∀ y, p(y)) → ∃ z, q(z)`, the goal `∃ w, q(w)`. -/
theorem towards_iff_apply_renamed : ∃ facts ds d,
    Facts.ofList [everyP "x", .imply (everyP "y") (someQ "z")] = .ok facts ∧
    Formula.SingleOrder (someQ "w" :: facts.formulas) ∧
    Inference.modusPonens.apply facts {} = .ok ds ∧
    Inference.modusPonens.towards facts {} (someQ "w") = .ok (.reached d) ∧
    (∃ e ∈ ds, e.formula.identical (someQ "w") = true) ∧
    d.formula = someQ "w" ∧ ∀ f ∈ d.dependencies, facts.contains f = .ok true := by
  have run : (do
      let facts ← Facts.ofList [everyP "x", .imply (everyP "y") (someQ "z")]
      let ds ← Inference.modusPonens.apply facts {}
      let outcome ← Inference.modusPonens.towards facts {} (someQ "w")
      return (ds.length, outcome.isReached)) = .ok (1, true) := by cbv
  simp only [bind_eq_ok, pure_eq_ok, Prod.mk.injEq] at run
  obtain ⟨facts, listed, ds, applied, outcome, tried, -, reached⟩ := run
  have single : Formula.SingleOrder (someQ "w" :: facts.formulas) := by
    have all : Formula.SingleOrder [someQ "w", everyP "x", .imply (everyP "y") (someQ "z")] := by
      simp [Formula.SingleOrder, everyP, someQ, Formula.symbols, Formula.all, Formula.ex, Formula.imply,
        Symbol.same, Symbol.ordered, Relation.same, Predicate.same, Relation.ordered, Term.symbols]
    have inside : ∀ f ∈ someQ "w" :: facts.formulas,
        f ∈ [someQ "w", everyP "x", .imply (everyP "y") (someQ "z")] := by
      intro f member
      rcases List.mem_cons.mp member with rfl | known
      · exact List.mem_cons_self
      · exact List.mem_cons_of_mem _ (Facts.mem_of_ofList listed known)
    exact fun f first g second => all f (inside f first) g (inside g second)
  obtain ⟨agrees, rests⟩ := towards_iff_apply listed single (.inr (.inl rfl)) applied tried
  cases outcome with
  | reached d => exact ⟨facts, ds, d, listed, single, applied, tried, agrees.mp rfl, rests d rfl⟩
  | candidates own => cases reached

end Inference

end Sequitur
