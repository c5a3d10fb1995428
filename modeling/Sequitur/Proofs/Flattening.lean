import Sequitur.Proofs.Room

/-! What flattening reaches. The rule flattens the regular forms that the known formulas are filed
under, and not the formulas. As flattening keeps instances, neither the names of bound variables nor
the order of commutative parts make a difference: the goal is reached from the known formulas that
flatten to the same up to identity, and from no others. -/

namespace Sequitur

variable {f g goal form : Formula} {facts : Facts} {fs : List Formula} {outcome : Outcome}

namespace Formula

theorem flatten_identical (identical : f.identical g = true) :
    f.flatten.identical g.flatten = true :=
  identical_iff.mpr (Instance.flatten (identical_iff.mp identical))

/-- A formula and its regular form flatten to the same. -/
theorem key_flatten_regularForm (ok : f.regularForm = .ok form) :
    form.flatten.key = f.flatten.key :=
  (TwinInstance.key_eq (Instance.flatten (twinInstance_regularForm ok))).symm

/-- Where every name has a single flag, flattened formulas have the same key exactly if they are
identical. -/
theorem key_flatten_iff (single : SingleOrder fs) (left : f ∈ fs) (right : g ∈ fs) (fits : f.Fits)
    (fits' : g.Fits) : f.flatten.key = g.flatten.key ↔ f.flatten.identical g.flatten = true := by
  have symbols {h : Formula} (member : h ∈ fs) :
      ∀ s ∈ h.flatten.symbols, ∃ g ∈ fs, s ∈ g.symbols :=
    symbols_flatten fun s occurs => ⟨h, member, occurs⟩
  obtain ⟨_, ok⟩ := fits.flatten.succeeds
  obtain ⟨_, ok'⟩ := fits'.flatten.succeeds
  exact key_eq_iff_identical single.symbols ok ok' (symbols left) (symbols right)

end Formula

theorem Facts.Filed.exists_identical (filed : facts.Filed)
    (single : Formula.SingleOrder (goal :: facts.formulas)) (fits : goal.regularForm = .ok form)
    (contained : facts.contains goal = .ok true) :
    ∃ f ∈ facts.formulas, f.identical goal = true := by
  rw [facts.contains_eq fits, Except.ok.injEq] at contained
  apply (filed.contains_iff single.symbols _ _ fits).mp contained
  · exact fun f listed s occurs => ⟨f, List.mem_cons_of_mem goal listed, occurs⟩
  · exact fun s occurs => ⟨goal, List.mem_cons_self, occurs⟩

namespace Flattening

theorem succeeds_towards (filed : facts.Filed) (fits : goal.Fits) :
    Succeeds (towards facts goal) := by
  refine .bind fits.flatten.succeeds fun target _ => succeeds_seek fun p member => ?_
  have regular := Formula.regularForm_regular (filed.form p member).2
  exact Formula.fits_iff.mpr ⟨p.1, regular⟩

/-- The goal is reached from a known formula that flattens to the same, or there is none. -/
theorem towards_cases (indexed : facts.Indexed) (ok : towards facts goal = .ok outcome) :
    (∃ f ∈ facts.formulas, f.flatten.key = goal.flatten.key ∧
      outcome = .reached (deduction f goal)) ∨
    (outcome.isReached = false ∧ ∀ f ∈ facts.formulas, f.flatten.key ≠ goal.flatten.key) := by
  simp only [towards, bind_eq_ok] at ok
  obtain ⟨target, flat, ok⟩ := ok
  have sought := seek_sought flat ok
  cases outcome with
  | reached d =>
    obtain ⟨_, ⟨p, member, rfl⟩, meets, rfl⟩ := sought
    obtain ⟨listed, regular⟩ := indexed.form p member
    exact .inl ⟨p.2, listed, (Formula.key_flatten_regularForm regular).symm.trans meets, rfl⟩
  | candidates ds =>
    refine .inr ⟨rfl, fun f listed same => ?_⟩
    obtain ⟨form, regular, -⟩ := indexed.formula f listed
    have tried := sought.2 _ ⟨(form, f), indexed.mem_toList.mpr ⟨listed, regular⟩, rfl⟩
    exact tried.1 ((Formula.key_flatten_regularForm regular).trans same)

/-- Flattening reaches the goal exactly if a known formula flattens to something identical to what the
goal flattens to, and such a formula is then the only dependency. In particular what is known is
reached again. -/
theorem towards_variants (hints : Hints) (single : Formula.SingleOrder (goal :: facts.formulas))
    (known : Facts.ofList fs = .ok facts) (fits : goal.regularForm = .ok form) :
    ∃ outcome, Inference.flattening.towards facts hints goal = .ok outcome ∧
      (outcome.isReached = true ↔
        ∃ f ∈ facts.formulas, f.flatten.identical goal.flatten = true) ∧
      (∀ d, outcome = .reached d → d.formula = goal ∧ ∃ f ∈ facts.formulas,
        d.dependencies = [f] ∧ f.flatten.identical goal.flatten = true) ∧
      (facts.contains goal = .ok true → outcome.isReached = true) := by
  have indexed := Facts.Indexed.ofList known
  have fitting : goal.Fits := Formula.fits_iff.mpr ⟨form, fits⟩
  have variants (f : Formula) (listed : f ∈ facts.formulas) :
      f.flatten.key = goal.flatten.key ↔ f.flatten.identical goal.flatten = true := by
    obtain ⟨_, regular, -⟩ := indexed.formula f listed
    exact Formula.key_flatten_iff single (List.mem_cons_of_mem goal listed) List.mem_cons_self
      (Formula.fits_iff.mpr ⟨_, regular⟩) fitting
  obtain ⟨outcome, ok⟩ := succeeds_towards indexed.toFiled fitting
  refine ⟨outcome, ok, ?_⟩
  rcases towards_cases indexed ok with ⟨f, listed, same, rfl⟩ | ⟨missed, none⟩
  · have variant := (variants f listed).mp same
    refine ⟨⟨fun _ => ⟨f, listed, variant⟩, fun _ => rfl⟩, fun d reached => ?_, fun _ => rfl⟩
    obtain rfl := Outcome.reached.inj reached
    exact ⟨rfl, f, listed, rfl, variant⟩
  · have absent : ¬ ∃ f ∈ facts.formulas, f.flatten.identical goal.flatten = true := by
      rintro ⟨f, listed, variant⟩
      exact none f listed ((variants f listed).mpr variant)
    refine ⟨⟨fun reached => ?_, fun found => absurd found absent⟩, fun d reached => ?_,
      fun contained => ?_⟩
    · simp [missed] at reached
    · simp [reached, Outcome.isReached] at missed
    · obtain ⟨f, listed, identical⟩ := indexed.exists_identical single fits contained
      exact absurd ⟨f, listed, Formula.flatten_identical identical⟩ absent

namespace Regrouped

def property (v : Variable) : Formula := .atom (.pred ⟨.plain "q", 1, true⟩) [.var v]

/-- `(∀x. q(x)) ∧ (B ∧ C)`. -/
def known : Formula := .and [.all ⟨"x"⟩ (property ⟨"x"⟩), .and [.prop "B", .prop "C"]]

def wanted : Formula := .and [.and [.prop "C", .all ⟨"y"⟩ (property ⟨"y"⟩)], .prop "B"]

/-- `B ∧ (C ∧ ∀$1. q($1))`. -/
def numbered : Formula := .and [.prop "B", .and [.prop "C", .all ⟨"$1"⟩ (property ⟨"$1"⟩)]]

end Regrouped

/-- The goal groups the members differently, in another order and with another bound variable. -/
theorem towards_variants_regrouped :
    ∃ facts d, Formula.SingleOrder (Regrouped.wanted :: facts.formulas) ∧
      Facts.ofList [Regrouped.known] = .ok facts ∧
      Regrouped.wanted.regularForm = .ok Regrouped.numbered ∧
      Regrouped.known.identical Regrouped.wanted = false ∧
      Inference.flattening.towards facts {} Regrouped.wanted = .ok (.reached d) ∧
      d.formula = Regrouped.wanted ∧ d.dependencies = [Regrouped.known] := by
  have listed : (Facts.ofList [Regrouped.known] >>= fun facts => pure facts.formulas) =
      .ok [Regrouped.known] := by cbv
  obtain ⟨facts, built, formulas⟩ := bind_eq_ok.mp listed
  rw [pure_eq_ok] at formulas
  have single : Formula.SingleOrder (Regrouped.wanted :: facts.formulas) := by
    rw [formulas]
    simp [Formula.SingleOrder, Regrouped.wanted, Regrouped.known, Regrouped.property, Formula.prop,
      Formula.symbols, Term.symbols, Symbol.same, Symbol.ordered, Relation.same, Predicate.same,
      Name.plain, Relation.ordered]
  have fits : Regrouped.wanted.regularForm = .ok Regrouped.numbered := by cbv
  have variant : Regrouped.known.flatten.identical Regrouped.wanted.flatten = true := by cbv
  obtain ⟨outcome, ok, reached, dependency, -⟩ := towards_variants {} single built fits
  have success := reached.mpr ⟨_, by simp [formulas], variant⟩
  cases outcome with
  | candidates ds => cases success
  | reached d =>
    obtain ⟨same, f, member, only, -⟩ := dependency d rfl
    rw [formulas, List.mem_singleton] at member
    exact ⟨facts, d, single, built, fits, by cbv, ok, same, member ▸ only⟩

end Flattening

end Sequitur
