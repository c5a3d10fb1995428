import Sequitur.Proofs.Steps
import Sequitur.Proofs.Totality

/-! The one way to fail. The rules of the catalogue bind everything that they refer to, so an attempt
at a goal, and a whole search, fails only when a regular form needs an index that is too large. -/

namespace Sequitur

theorem OnlyOverflows.of_succeeds {α : Type} {x : Except Error α} (succeeds : Succeeds x) :
    OnlyOverflows x := by
  obtain ⟨a, rfl⟩ := succeeds
  exact ok a

variable {facts : Facts} {frontier : FormulaSet} {hints : Hints} {goal : Formula} {rule : Inference}

theorem Formula.onlyOverflows_regularForm (f : Formula) : OnlyOverflows f.regularForm := by
  rw [regularForm_eq]
  split
  · exact .ok _
  · rintro e ⟨⟩
    rfl

namespace Facts

theorem onlyOverflows_add (f : Formula) : OnlyOverflows (facts.add f) := by
  refine .bind f.onlyOverflows_regularForm fun form => ?_
  split
  · exact .pure _
  · exact .pure _

theorem onlyOverflows_addAll (fs : List Formula) : OnlyOverflows (facts.addAll fs) := by
  induction fs generalizing facts with
  | nil => exact .ok _
  | cons f fs ih =>
    rw [addAll]
    exact .bind (onlyOverflows_add f) fun _ => .bind ih fun _ => .pure _

theorem onlyOverflows_findIdentical (f : Formula) : OnlyOverflows (facts.findIdentical? f) :=
  .bind f.onlyOverflows_regularForm fun _ => .pure _

end Facts

def Inference.Total : Inference → Prop
  | .pattern rule => ∀ f, Succeeds (rule.results f)
  | _ => True

theorem Inference.Uniform.total (uniform : rule.Uniform) : rule.Total := by
  cases rule with
  | pattern rule =>
    intro f
    obtain ⟨gs, results, -⟩ := PatternRule.uniform_results (m := .plain) uniform f
    exact ⟨gs, results⟩
  | _ => trivial

/-- A pattern is tried without a regular form, so that it cannot even overflow. -/
theorem PatternRule.succeeds_seek {rule : PatternRule} (total : (Inference.pattern rule).Total)
    (fs : List Formula) : Succeeds (rule.seek goal fs) := by
  induction fs with
  | nil => exact .pure _
  | cons f fs ih =>
    rw [seek]
    refine .bind (total f) fun gs _ => ?_
    split
    · exact .pure _
    · exact ih.bind fun _ _ => .pure _

theorem Flattening.onlyOverflows_seek {target : Formula} (pairs : List (Formula × Formula)) :
    OnlyOverflows (seek goal target pairs) := by
  induction pairs with
  | nil => exact .ok _
  | cons pair pairs ih =>
    refine .bind (Formula.onlyOverflows_regularForm _) fun flat => ?_
    split
    · exact .pure _
    · exact ih.bind fun _ => .pure _

theorem Existential.onlyOverflows_seek {target : Formula} (ds : List Deduction) :
    OnlyOverflows (Existential.seek frontier goal target ds) := by
  induction ds with
  | nil => exact .ok _
  | cons d ds ih =>
    refine .bind (Formula.onlyOverflows_regularForm _) fun form => ?_
    split
    · exact .pure _
    · exact ih.bind fun _ => .pure _

theorem ModusPonens.onlyOverflows_ofImplications (fs : List Formula) :
    OnlyOverflows (ofImplications facts fs) := by
  fun_induction ofImplications facts fs with
  | case1 => exact .ok _
  | case2 a b fs ih =>
    refine .bind (Facts.onlyOverflows_findIdentical a) fun premise => ih.bind fun later => ?_
    cases premise with
    | some p => exact .pure _
    | none => exact .pure _
  | case3 f fs _ ih => exact ih

theorem ModusPonens.onlyOverflows_ofPremises (pairs : List (Formula × Formula)) :
    OnlyOverflows (ofPremises frontier pairs) := by
  fun_induction ofPremises frontier pairs with
  | case1 => exact .ok _
  | case2 form a b rest _ ih => exact ih
  | case3 form a b rest _ ih =>
    refine .bind a.onlyOverflows_regularForm fun premise => ih.bind fun later => ?_
    split
    · exact .pure _
    · exact .pure _
  | case4 p rest _ ih => exact ih

theorem Conjunction.onlyOverflows_sources (fs : List Formula) :
    OnlyOverflows (sources facts frontier fs) := by
  induction fs with
  | nil => exact .ok _
  | cons f fs ih =>
    refine .bind f.onlyOverflows_regularForm fun form => ?_
    split
    · exact ih.bind fun _ => .pure _
    · split
      · exact ih.bind fun _ => .pure _
      · exact .pure _

theorem Inference.onlyOverflows_advance (total : rule.Total) :
    OnlyOverflows (rule.advance facts frontier hints goal) := by
  cases rule with
  | pattern rule => exact .of_succeeds (PatternRule.succeeds_seek total _)
  | flattening =>
    exact .bind (Formula.onlyOverflows_regularForm _) fun _ => Flattening.onlyOverflows_seek _
  | conjunction =>
    simp only [advance, Conjunction.advance]
    split
    · refine .bind (Conjunction.onlyOverflows_sources _) fun found => ?_
      cases found with
      | some gs => exact .pure _
      | none => exact .pure _
    · exact .pure _
  | modusPonens =>
    refine .bind goal.onlyOverflows_regularForm fun target => ?_
    refine .bind (ModusPonens.onlyOverflows_ofImplications _) fun fresh => ?_
    refine .bind (ModusPonens.onlyOverflows_ofPremises _) fun older => ?_
    rw [ModusPonens.seek_eq]
    exact Existential.onlyOverflows_seek _
  | excludedMiddle => exact .ok _
  | existential =>
    exact .bind goal.onlyOverflows_regularForm fun _ => Existential.onlyOverflows_seek _

namespace Search

variable {reached : ReachedForms} {p : Progress} {rules : List Inference}

theorem onlyOverflows_withForms (fs : List Formula) : OnlyOverflows (withForms fs) := by
  induction fs with
  | nil => exact .ok _
  | cons f fs ih => exact .bind f.onlyOverflows_regularForm fun _ => ih.bind fun _ => .pure _

theorem onlyOverflows_step (d : Deduction) : OnlyOverflows (step reached d) :=
  .bind (onlyOverflows_withForms _) fun _ => .pure _

theorem onlyOverflows_conclude (d : Deduction) : OnlyOverflows (conclude reached d) :=
  .bind (onlyOverflows_step d) fun _ => .pure _

theorem onlyOverflows_enter (ds : List Deduction) : OnlyOverflows (enter p ds) := by
  induction ds generalizing p with
  | nil => exact .ok _
  | cons d ds ih =>
    refine .bind d.formula.onlyOverflows_regularForm fun form => ?_
    split
    · exact ih
    · exact .bind (onlyOverflows_step d) fun _ => ih

theorem onlyOverflows_round (total : ∀ rule ∈ rules, rule.Total) :
    OnlyOverflows (round facts frontier hints goal p rules) := by
  induction rules generalizing p with
  | nil => exact .ok _
  | cons rule rules ih =>
    obtain ⟨here, later⟩ := List.forall_mem_cons.mp total
    refine .bind (Inference.onlyOverflows_advance here) fun outcome => ?_
    cases outcome with
    | reached d => exact .bind (onlyOverflows_conclude d) fun _ => .pure _
    | candidates ds => exact .bind (onlyOverflows_enter ds) fun _ => ih later

theorem onlyOverflows_rounds (total : ∀ rule ∈ rules, rule.Total) (depth : Nat) :
    OnlyOverflows (rounds rules hints goal depth facts frontier reached) := by
  induction depth generalizing facts frontier reached with
  | zero => exact .ok _
  | succ depth ih =>
    refine .bind (onlyOverflows_round total) fun result => ?_
    cases result with
    | inl d => exact .pure _
    | inr p =>
      simp only
      split
      · exact .pure _
      · exact .bind (Facts.onlyOverflows_addAll _) fun _ => ih

theorem onlyOverflows_of_total {s : Search} (total : ∀ rule ∈ s.rules, rule.Total) :
    OnlyOverflows (s.towards facts hints goal) := by
  refine .bind (onlyOverflows_rounds total s.depth) fun found => ?_
  cases found with
  | some d => exact .pure _
  | none => exact .pure _

theorem onlyOverflows_towards {s : Search} (uniform : ∀ rule ∈ s.rules, rule.Uniform) :
    OnlyOverflows (s.towards facts hints goal) :=
  onlyOverflows_of_total fun rule member => (uniform rule member).total

end Search

end Sequitur
