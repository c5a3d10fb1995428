import Mathlib
import Sequitur.Proofs.Provenance

/-! Soundness. A goal that a rule or a search reaches follows from the formulas it is said to rest
on, as long as no step that loses something rewrites at a negative place or in an equivalence.
For a search this is read off the derivation: its steps were returned by rules of the search, each
of which is sound. -/

namespace Sequitur

open Arrangement

universe u

variable {D : Type u} {I : Interpretation D} {f g goal : Formula} {ρ : Variable → D}
  {reached : ReachedForms} {hints : Hints}

def Inference.transformations : Inference → List Transformation
  | .pattern rule => rule.directions.transformations
  | _ => []

/-- Every step that loses something rewrites a premise at positive places alone. -/
inductive Derivation.Positive : Derivation → Prop
  | node {rule : Option Name} {f : Formula} {premises : List Derivation} :
      (∀ p ∈ premises, Positive p) →
      (∀ lossy ∈ Catalogue.lossy, rule = some lossy.name →
        ∃ p ∈ premises, ∃ w ∈ lossy.transformations, w.RewritesPositively p.formula f) →
      Positive (.node rule f premises)

theorem Derivation.positive_leaf (f : Formula) : (leaf f).Positive := .node (by simp) (by simp)

theorem Catalogue.weakens_of_lossy (standard : I.Standard) {rule : Inference}
    (member : rule ∈ lossy) {w : Transformation} (here : w ∈ rule.transformations) :
    w.Weakens I := by
  simp only [lossy, List.mem_cons, List.not_mem_nil, or_false] at member
  rcases member with rfl | rfl | rfl
  · rw [List.mem_singleton.mp here]
    exact weakens_andProject
  · rw [List.mem_singleton.mp here]
    exact weakens_implyCompose
  · rw [List.mem_singleton.mp here]
    exact weakens_equalReplace standard

/-- A positive step from premises that are true obtains something true. -/
theorem Deduction.Justified.holds_of_positive {d : Deduction} {premises : List Derivation}
    (standard : I.Standard) (justified : d.Justified I)
    (positive : (Derivation.node (some d.rule) d.formula premises).Positive)
    (true : ∀ f ∈ d.dependencies, f.holds I ρ)
    (known : ∀ p ∈ premises, p.formula.Respected I ∧ p.formula.holds I ρ) :
    d.formula.holds I ρ := by
  by_cases lossy : ∃ rule ∈ Catalogue.lossy, d.rule = rule.name
  · obtain ⟨rule, member, name⟩ := lossy
    cases positive with
    | node _ steps =>
      obtain ⟨p, premise, w, transforms, rewrites⟩ := steps rule member (by rw [name])
      have weakens := Catalogue.weakens_of_lossy standard member transforms
      exact rewrites.holds weakens (known p premise).1 (known p premise).2
  · apply justified.holds _ ρ true
    intro rule member name
    exact lossy ⟨rule, member, name⟩

def Deduction.Concludes (I : Interpretation D) (goal : Formula) (d : Deduction) : Prop :=
  d.tree.Positive → ∀ ρ, (∀ f ∈ d.dependencies, f.holds I ρ) → goal.holds I ρ

theorem Deduction.Justified.concludes {d : Deduction} (standard : I.Standard)
    (justified : d.Justified I) : d.Concludes I d.formula := by
  intro positive ρ true
  rw [Deduction.tree, justified.single, Option.getD_none] at positive
  apply justified.holds_of_positive standard positive true
  intro p member
  obtain ⟨f, source, rfl⟩ := List.mem_map.mp member
  exact ⟨justified.dependency f source, true f source⟩

theorem exists_of_forall₂ {α β : Type} {R : α → β → Prop} {as : List α} {bs : List β} {a : α}
    (related : List.Forall₂ R as bs) (member : a ∈ as) : ∃ b ∈ bs, R a b := by
  induction related with
  | nil => cases member
  | cons here _ ih =>
    rcases List.mem_cons.mp member with rfl | later
    · exact ⟨_, List.mem_cons_self, here⟩
    · obtain ⟨b, inside, related⟩ := ih later
      exact ⟨b, List.mem_cons_of_mem _ inside, related⟩

/-- Along a positive derivation by justified steps, the truth of the leaves reaches the root. -/
theorem Derivation.holds_of_recorded {known : List Formula} (standard : I.Standard)
    (respected : ∀ f ∈ known, f.Respected I) : ∀ d : Derivation,
    (∀ n ∈ d.nodes, n.Recorded known fun name e => e.rule = name ∧ e.Justified I) → d.Positive →
    (∀ f ∈ d.leaves, f.holds I ρ) → d.formula.Respected I ∧ d.formula.holds I ρ
  | .node none f premises, recorded, _, truths => by
    rw [nodes] at recorded
    obtain ⟨⟨rfl, member⟩, -⟩ := List.forall_mem_cons.mp recorded
    exact ⟨respected f member, truths f (by simp [leaves, nodes, rule, formula])⟩
  | .node (some name) f premises, recorded, positive, truths => by
    rw [nodes] at recorded
    obtain ⟨⟨e, ⟨rfl, justified⟩, rfl, related⟩, later⟩ := List.forall_mem_cons.mp recorded
    have below (p : Derivation) (member : p ∈ premises) :
        p.formula.Respected I ∧ p.formula.holds I ρ := by
      apply holds_of_recorded standard respected p
      · exact fun n node => later n (List.mem_flatMap.mpr ⟨p, member, node⟩)
      · cases positive with
        | node positive _ => exact positive p member
      · intro f leaf
        apply truths
        rw [leaves_step]
        exact List.mem_flatMap.mpr ⟨p, member, leaf⟩
    refine ⟨justified.formula, justified.holds_of_positive standard positive (fun g member => ?_) below⟩
    obtain ⟨p, premise, form, form', okg, okp, same⟩ := exists_of_forall₂ related member
    obtain ⟨kept, holds⟩ := below p premise
    exact (Formula.holds_of_same_form okg okp same (justified.dependency g member) kept ρ).mpr holds

namespace Search

variable {facts : Facts} {frontier : FormulaSet} {rules : List Inference} {p p' : Progress}

theorem enter_respected {ds : List Deduction} (fresh : ∀ f ∈ p.fresh.toList, f.Respected I)
    (all : ∀ d ∈ ds, d.Justified I) (ok : enter p ds = .ok p') :
    ∀ f ∈ p'.fresh.toList, f.Respected I := by
  induction ds generalizing p with
  | nil =>
    obtain rfl := Except.ok.inj ok
    exact fresh
  | cons d ds ih =>
    obtain ⟨here, rest⟩ := List.forall_mem_cons.mp all
    simp only [enter, bind_eq_ok] at ok
    obtain ⟨form, okf, ok⟩ := ok
    split at ok
    · exact ih fresh rest ok
    · simp only [bind_eq_ok] at ok
      obtain ⟨r, -, ok⟩ := ok
      apply ih _ rest ok
      intro f member
      rcases FormulaSet.mem_toList_insert member with rfl | earlier
      · exact Formula.respected_regularForm okf here.formula
      · exact fresh f earlier

theorem round_respected (sound : ∀ rule ∈ rules, rule.Sound I) (known : facts.Respected I)
    (recent : ∀ f ∈ frontier.toList, f.Respected I) (respected : goal.Respected I)
    (fresh : ∀ f ∈ p.fresh.toList, f.Respected I)
    (ok : round facts frontier hints goal p rules = .ok (.inr p')) :
    ∀ f ∈ p'.fresh.toList, f.Respected I := by
  induction rules generalizing p with
  | nil =>
    obtain rfl := Sum.inr.inj (Except.ok.inj ok)
    exact fresh
  | cons rule rules ih =>
    obtain ⟨first, others⟩ := List.forall_mem_cons.mp sound
    simp only [round, bind_eq_ok] at ok
    obtain ⟨outcome, oko, ok⟩ := ok
    have here := Inference.advance_justified first known recent respected oko
    cases outcome with
    | reached d =>
      simp only [bind_eq_ok, pure_eq_ok] at ok
      obtain ⟨_, _, impossible⟩ := ok
      cases impossible
    | candidates ds =>
      simp only [bind_eq_ok] at ok
      obtain ⟨next, oke, ok⟩ := ok
      exact ih others (enter_respected fresh here oke) ok

/-- Whatever a sound rule returns in some round is justified, and names the rule. -/
theorem Applies.justified {depth : Nat} {rule : Inference} {outcome : Outcome} {d : Deduction}
    (sound : ∀ rule ∈ rules, rule.Sound I) (known : facts.Respected I)
    (recent : ∀ f ∈ frontier.toList, f.Respected I) (respected : goal.Respected I)
    (applies : Applies rules hints goal depth facts frontier reached rule outcome)
    (member : d ∈ outcome.deductions) : d.rule = rule.name ∧ d.Justified I := by
  induction applies with
  | @now _ _ _ _ before after rule _ outcome split _ ok =>
    have inside : rule ∈ rules := split ▸ List.mem_append_right before List.mem_cons_self
    have here := Inference.advance_justified (sound rule inside) known recent respected ok
    have sought := Inference.advance_sought ok
    cases outcome with
    | reached last =>
      obtain rfl := List.mem_singleton.mp member
      obtain ⟨e, tries, -, rfl⟩ := sought
      exact ⟨tries.name, here.1⟩
    | candidates ds => exact ⟨(sought.1 d member).name, here d member⟩
  | later ok _ added _ ih =>
    have fresh := round_respected sound known recent respected (fun f none => by cases none) ok
    exact ih (known.addAll fresh added) fresh member

/-- What a search by sound rules reaches follows from the dependencies if the derivation is
positive. -/
theorem rounds_concludes {depth : Nat} {d : Deduction} (standard : I.Standard)
    (sound : ∀ rule ∈ rules, rule.Sound I) (filed : facts.Filed) (known : facts.Respected I)
    (respected : goal.Respected I)
    (ok : rounds rules hints goal depth facts facts.regularForms (start facts) = .ok (some d)) :
    d.Concludes I goal := by
  intro positive ρ true
  have concluded : Concluded facts.formulas (fun name e => e.rule = name ∧ e.Justified I) goal d :=
    rounds_concluded filed.recent (start_traced filed)
      (fun form member => Std.TreeMap.mem_map.mpr member)
      (fun rule outcome applies d member =>
        applies.justified sound known (fun f => known.regularForms) respected member) ok
  have leaves (f : Formula) (member : f ∈ d.tree.leaves) : f.holds I ρ := by
    obtain ⟨g, kept, same⟩ := exists_same_of_mem [] (.inr member)
    rw [foldl_addRoot_nil, ← concluded.dependencies] at kept
    exact (Formula.holds_of_same same).mp (true g kept)
  have reached := d.tree.holds_of_recorded standard known.formula concluded.recorded positive leaves
  rw [concluded.formula] at reached
  exact reached.2

end Search

def Interpretation.ofProps (truth : String → Prop) : Interpretation Unit where
  named name _ := truth name
  pred _ _ := True
  namedTerm _ _ := ()
  fn _ _ := ()
  const _ := ()

theorem Interpretation.standard_ofProps (truth : String → Prop) : (ofProps truth).Standard := by
  intro a b
  simp [ofProps]

theorem Formula.respected_ofProps (truth : String → Prop) (f : Formula) :
    f.Respected (.ofProps truth) := by
  intro s _
  cases s with
  | relation r =>
    cases r <;> simp [Interpretation.Respects, Interpretation.relation, Interpretation.ofProps]
  | operator op => simp [Interpretation.Respects]
  | constant c => simp [Interpretation.Respects]

namespace Rule

/-- What a rule of the catalogue reaches, or the search with any number of rounds, is true in every
interpretation and for all values for which its dependencies are true, if the derivation is
positive. -/
theorem holds_of_reached {rule : Rule} {fs : List Formula} {d : Deduction}
    (catalogued : rule ∈ Catalogue.rules.map .inference ∨
      ∃ depth, rule = (Rule.search Catalogue.search).withDepth depth)
    (reached : rule.towardsFrom fs hints goal = .ok (.reached d))
    (positive : d.tree.Positive) (standard : I.Standard)
    (respected : ∀ f ∈ goal :: fs, f.Respected I) (true : ∀ f ∈ d.dependencies, f.holds I ρ) :
    goal.holds I ρ := by
  obtain ⟨target, given⟩ := List.forall_mem_cons.mp respected
  simp only [towardsFrom, bind_eq_ok] at reached
  obtain ⟨facts, okf, reached⟩ := reached
  obtain ⟨count, added⟩ := Facts.ofList_eq_ok.mp okf
  have known : facts.Respected I := Facts.Respected.empty.addAll given added
  have sound := Catalogue.sound standard
  rcases catalogued with single | ⟨depth, rfl⟩
  · obtain ⟨step, member, rfl⟩ := List.mem_map.mp single
    obtain ⟨justified, rfl⟩ := Inference.towards_justified (sound step member) known target reached
    exact justified.concludes standard positive ρ true
  · simp only [Rule.towards, withDepth, Search.towards, bind_eq_ok] at reached
    obtain ⟨found, run, reached⟩ := reached
    split at reached
    · obtain rfl := Outcome.reached.inj (pure_eq_ok.mp reached)
      have searched : ∀ rule ∈ Catalogue.combined, rule.Sound I :=
        fun rule member => sound rule (List.mem_append_left _ member)
      exact Search.rounds_concludes standard searched (Facts.Filed.ofList okf) known target run
        positive ρ true
    · cases pure_eq_ok.mp reached

/-- From `A ∧ B` and `A → C`, two rounds reach `C` through `A`. -/
theorem holds_of_reached_composed :
    ((Rule.search Catalogue.search).withDepth 2).towardsFrom
        [.and [.prop "A", .prop "B"], .imply (.prop "A") (.prop "C")] {} (.prop "C") =
      .ok (.reached composed) ∧
    composed.tree.Positive ∧
    (∀ f ∈ composed.dependencies, f.holds (.ofProps fun _ => True) fun _ => ()) ∧
    (Formula.prop "C").holds (.ofProps fun _ => True) fun _ => () := by
  have reached : ((Rule.search Catalogue.search).withDepth 2).towardsFrom
      [.and [.prop "A", .prop "B"], .imply (.prop "A") (.prop "C")] {} (.prop "C") =
    .ok (.reached composed) := by cbv
  have project : (Transformation.mk (.multi .and [.ref "P"] (.ref "Q")) (·.formula "P")).Rewrites true
      (.and [.prop "A", .prop "B"]) (.prop "A") := by
    have root : Transformation.atRoot ⟨.multi .and [.ref "P"] (.ref "Q"), (·.formula "P")⟩
      (.and [.prop "A", .prop "B"]) = .ok [.prop "A", .prop "B"] := by cbv
    obtain ⟨r, found, result⟩ := exists_of_mapM root (List.mem_cons_self ..)
    exact .here found result
  have inner : (Derivation.node (some Catalogue.andProject.name) (.prop "A")
      [.leaf (.and [.prop "A", .prop "B"])]).Positive := by
    apply Derivation.Positive.node (by simpa using Derivation.positive_leaf _)
    intro rule member name
    simp only [Catalogue.lossy, List.mem_cons, List.not_mem_nil, or_false] at member
    rcases member with rfl | rfl | rfl
    · exact ⟨_, List.mem_singleton_self _, _, List.mem_singleton_self _,
        _, _, .inl rfl, .single project, by cbv⟩
    · exact absurd name (by decide)
    · exact absurd name (by decide)
  have positive : composed.tree.Positive := by
    apply Derivation.Positive.node
    · simpa using ⟨Derivation.positive_leaf _, inner⟩
    · intro rule member name
      simp only [Catalogue.lossy, List.mem_cons, List.not_mem_nil, or_false] at member
      rcases member with rfl | rfl | rfl <;> exact absurd name (by decide)
  have true : ∀ f ∈ composed.dependencies, f.holds (.ofProps fun _ => True) fun _ => () := by
    simp [composed, Interpretation.relation, Interpretation.ofProps]
  exact ⟨reached, positive, true, holds_of_reached (.inr ⟨2, rfl⟩) reached positive
    (Interpretation.standard_ofProps _) (fun f _ => f.respected_ofProps _) true⟩

/-- Projecting under a negation obtains something that does not follow. -/
theorem reached_false_of_negated :
    (Rule.inference Catalogue.andProject).towardsFrom
        [.not (.and [.prop "A", .prop "B"])] {} (.not (.prop "A")) =
      .ok (.reached {
        rule := Catalogue.andProject.name
        formula := .not (.prop "A")
        dependencies := [.not (.and [.prop "A", .prop "B"])] }) ∧
    (Interpretation.ofProps (· = "A")).Standard ∧
    (∀ f : Formula, f.Respected (.ofProps (· = "A"))) ∧
    (Formula.not (.and [.prop "A", .prop "B"])).holds (.ofProps (· = "A")) (fun _ => ()) ∧
    ¬ (Formula.not (.prop "A")).holds (.ofProps (· = "A")) fun _ => () := by
  refine ⟨by cbv, Interpretation.standard_ofProps _, fun f => f.respected_ofProps _, ?_, ?_⟩
  · simp [Interpretation.relation, Interpretation.ofProps]
  · simp [Interpretation.relation, Interpretation.ofProps]

end Rule

end Sequitur
