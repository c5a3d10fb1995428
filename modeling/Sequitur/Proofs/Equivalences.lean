import Sequitur.Proofs.Steps
import Sequitur.Theory

/-! Rewriting that loses nothing. Most rules of the catalogue put something equivalent in the place of
what they match. So does a definition whose sides are equivalent, and extensionality where sets are
determined by their elements. Each of them keeps truth wherever in a formula it is used. -/

namespace Sequitur

open Formula

universe u

variable {D : Type u} {I : Interpretation D} {rule : PatternRule} {f : Formula}

def Catalogue.equivalences : List Inference :=
  [doubleNegate, identityAnd, identityOr, absorptionAnd, absorptionOr, defImply, defEquivTo, forAnyAnd]

namespace PatternRule

/-- Wherever the rule matches at the root, it keeps truth. -/
def KeepsTruth (I : Interpretation D) (rule : PatternRule) : Prop :=
  ∀ w ∈ rule.directions.transformations, w.Relates (Equivalent I)

/-- Then it does so at every place. -/
theorem KeepsTruth.results {gs : List Formula} (keeps : rule.KeepsTruth I)
    (ok : rule.results f = .ok gs) : ∀ g ∈ gs, f.Equivalent I g :=
  fun _ member => results_related congruence_equivalent equivalent_flatten keeps ok member

theorem keepsTruth_equivalence (member : .pattern rule ∈ Catalogue.equivalences) :
    rule.KeepsTruth I := by
  have sound : ∀ step ∈ Catalogue.equivalences, step.Sound I := by
    simp only [Catalogue.equivalences, List.forall_mem_cons]
    exact ⟨Catalogue.sound_oneWay Catalogue.relates_doubleNegate,
      Catalogue.sound_oneWay (Catalogue.relates_identity .and),
      Catalogue.sound_oneWay (Catalogue.relates_identity .or),
      Catalogue.sound_oneWay (Catalogue.relates_absorption (by simp)),
      Catalogue.sound_oneWay (Catalogue.relates_absorption (by simp)),
      Catalogue.sound_defImply, Catalogue.sound_defEquivTo,
      Catalogue.sound_oneWay Catalogue.relates_forAnyAnd, List.forall_mem_nil _⟩
  have apart : ∀ step ∈ Catalogue.equivalences, ∀ lossy ∈ Catalogue.lossy,
      step.name ≠ lossy.name := by decide
  exact PatternRule.Sound.equivalent (sound _ member) (apart _ member)

theorem keepsTruth_exchange {name : Name} {description : String} {lhs rhs : Formula}
    (left : lhs.Shallow) (right : rhs.Shallow) (givenl : lhs.Respected I) (givenr : rhs.Respected I)
    (same : ∀ named ρ, lhs.holds { I with named } ρ ↔ rhs.holds { I with named } ρ) :
    (exchange name description lhs rhs).KeepsTruth I :=
  Catalogue.relates_transformations left right givenl givenr same

end PatternRule

/-- Sets are equal exactly if they have the same elements. -/
def Interpretation.Extensional (I : Interpretation D) : Prop :=
  ∀ a b, I.pred Predicate.equality.name.full [a, b] ↔
    ∀ x, I.pred Theory.membership.name.full [x, a] ↔ I.pred Theory.membership.name.full [x, b]

theorem Theory.keepsTruth_extensionality (extensional : I.Extensional)
    (equality : I.Respects (.relation (.pred .equality)))
    (here : Theory.extensionality = .pattern rule) : rule.KeepsTruth I := by
  obtain rfl := Inference.pattern.inj here
  have element (set : String) :
      (Formula.atom (.pred membership) [.var ⟨"x"⟩, .var ⟨set⟩]).Respected I := by
    have ordered : I.Respects (.relation (.pred membership)) :=
      fun unordered => absurd unordered (by decide)
    exact respected_atom.mpr ⟨ordered, by simp [Term.respected_var]⟩
  refine PatternRule.keepsTruth_exchange (.flat .pred) (.bind (.link .pred .pred)) ?_ ?_ ?_
  · exact respected_atom.mpr ⟨equality, by simp [Term.respected_var]⟩
  · exact respected_bind.mpr (respected_link.mpr ⟨element "A", element "B"⟩)
  · intro named ρ
    have names : (Variable.mk "A") ≠ ⟨"x"⟩ ∧ (Variable.mk "B") ≠ ⟨"x"⟩ := by decide
    simp only [Formula.equal, holds_atom, holds_all, holds_equiv, Interpretation.relation,
      List.map_cons, List.map_nil, Term.value, Function.update_self, Function.update_of_ne names.1,
      Function.update_of_ne names.2]
    exact extensional _ _

/-- Every result for `f` of a pattern of the catalogue that loses nothing, and `f` flattened, have the
truth value of `f`, in every interpretation and for all values. So has every result of a definition
whose sides have no quantifiers and are equivalent whatever their propositions mean, and of
extensionality in every interpretation that satisfies it. Unordered symbols have to be interpreted as
such. -/
theorem Formula.equivalent_of_two_way (I : Interpretation D) (f : Formula) :
    (∀ rule gs, .pattern rule ∈ Catalogue.equivalences → rule.results f = .ok gs →
      ∀ g ∈ gs, f.Equivalent I g) ∧
    f.Equivalent I f.flatten ∧
    (∀ name description lhs rhs rule gs, PatternRule.define name description lhs rhs = .ok rule →
      lhs.QuantifierFree → rhs.QuantifierFree → lhs.Respected I → rhs.Respected I →
      (∀ named ρ, lhs.holds { I with named } ρ ↔ rhs.holds { I with named } ρ) →
      rule.results f = .ok gs → ∀ g ∈ gs, f.Equivalent I g) ∧
    ∀ rule gs, Theory.extensionality = .pattern rule → I.Extensional →
      I.Respects (.relation (.pred .equality)) → rule.results f = .ok gs →
      ∀ g ∈ gs, f.Equivalent I g := by
  refine ⟨?_, equivalent_flatten f, ?_, ?_⟩
  · intro rule gs member ok
    exact (PatternRule.keepsTruth_equivalence member).results ok
  · intro name description lhs rhs rule gs defined left right givenl givenr same ok
    simp only [PatternRule.define, bind_eq_ok, pure_eq_ok] at defined
    obtain ⟨-, -, rfl⟩ := defined
    exact (PatternRule.keepsTruth_exchange (.flat left) (.flat right) givenl givenr same).results ok
  · intro rule gs here extensional equality ok
    exact (Theory.keepsTruth_extensionality extensional equality here).results ok

/-- The natural numbers as sets of the smaller ones. -/
def ordinals : Interpretation Nat where
  named _ _ := False
  pred name ds :=
    if name = Theory.membership.name.full then ∃ x a, ds = [x, a] ∧ x < a
    else ∀ a ∈ ds, ∀ b ∈ ds, a = b
  namedTerm _ _ := 0
  fn _ _ := 0
  const _ := 0

theorem ordinals_equality (ds : List Nat) :
    ordinals.pred Predicate.equality.name.full ds ↔ ∀ a ∈ ds, ∀ b ∈ ds, a = b := by
  have apart : Predicate.equality.name.full ≠ Theory.membership.name.full := by decide
  simp only [ordinals, if_neg apart]

theorem ordinals_extensional : ordinals.Extensional := by
  intro a b
  have element (x a : Nat) : ordinals.pred Theory.membership.name.full [x, a] ↔ x < a := by
    simp [ordinals]
  simp only [ordinals_equality, element]
  constructor
  · intro equal x
    rw [equal a (by simp) b (by simp)]
  · intro same
    have equal : a = b := by
      have := same a
      have := same b
      omega
    simp [equal]

theorem ordinals_respects_equality : ordinals.Respects (.relation (.pred .equality)) := by
  intro _ xs ys perm
  simp only [Interpretation.relation, ordinals_equality, perm.mem_iff]

def unequal : Formula := .not (.all ⟨"x"⟩ (.equal (.var ⟨"x"⟩) (.var ⟨"y"⟩)))

def unequalElements : Formula := .not (.all ⟨"x"⟩ (.all ⟨"x1"⟩ (.equiv
  (.atom (.pred Theory.membership) [.var ⟨"x1"⟩, .var ⟨"x"⟩])
  (.atom (.pred Theory.membership) [.var ⟨"x1"⟩, .var ⟨"y"⟩]))))

def allEqualOr : Formula := .all ⟨"x"⟩ (.or [.equal (.var ⟨"x"⟩) (.var ⟨"y"⟩), .prop "S"])

def notBoth : Formula :=
  .all ⟨"x"⟩ (.not (.and [.not (.prop "S"), .not (.equal (.var ⟨"x"⟩) (.var ⟨"y"⟩))]))

/-- Under a negation and a quantifier, extensionality gets another name for its variable. A definition
with a proposition is used where the members come in another order. -/
theorem equivalent_of_two_way_ordinals :
    (∃ rule, Theory.extensionality = .pattern rule ∧ rule.results unequal = .ok [unequalElements] ∧
      ∀ ρ, unequal.holds ordinals ρ ↔ unequalElements.holds ordinals ρ) ∧
    ∃ rule, PatternRule.define (.plain "Or") "" (.or [.prop "P", .equal (.var ⟨"a"⟩) (.var ⟨"b"⟩)])
        (.not (.and [.not (.prop "P"), .not (.equal (.var ⟨"a"⟩) (.var ⟨"b"⟩))])) = .ok rule ∧
      rule.results allEqualOr = .ok [notBoth] ∧
      ∀ ρ, allEqualOr.holds ordinals ρ ↔ notBoth.holds ordinals ρ := by
  have proposition (s : String) : (Formula.prop s).Respected ordinals := Propositional.prop.respected
  have equation (a b : String) : (Formula.equal (.var ⟨a⟩) (.var ⟨b⟩)).Respected ordinals := by
    refine respected_atom.mpr ⟨ordinals_respects_equality, ?_⟩
    simp [Term.respected_var]
  constructor
  · obtain ⟨rule, here, ok⟩ : ∃ rule, Theory.extensionality = .pattern rule ∧
        rule.results unequal = .ok [unequalElements] := ⟨_, rfl, by cbv⟩
    have respected : unequal.Respected ordinals :=
      respected_not.mpr (respected_bind.mpr (equation "x" "y"))
    have equivalent := (equivalent_of_two_way ordinals unequal).2.2.2 rule _ here
      ordinals_extensional ordinals_respects_equality ok _ (List.mem_singleton_self _)
    exact ⟨rule, here, ok, (equivalent respected).2⟩
  · have evaluated : (do
        let rule ← PatternRule.define (.plain "Or") ""
          (.or [.prop "P", .equal (.var ⟨"a"⟩) (.var ⟨"b"⟩)])
          (.not (.and [.not (.prop "P"), .not (.equal (.var ⟨"a"⟩) (.var ⟨"b"⟩))]))
        rule.results allEqualOr) = .ok [notBoth] := by cbv
    obtain ⟨rule, defined, ok⟩ := bind_eq_ok.mp evaluated
    have respected : allEqualOr.Respected ordinals :=
      respected_bind.mpr (respected_multi.mpr (by simp [proposition, equation]))
    have same (named : String → List Nat → Prop) (ρ : Variable → Nat) :
        (Formula.or [.prop "P", .equal (.var ⟨"a"⟩) (.var ⟨"b"⟩)]).holds { ordinals with named } ρ ↔
          (Formula.not (.and [.not (.prop "P"), .not (.equal (.var ⟨"a"⟩) (.var ⟨"b"⟩))])).holds
            { ordinals with named } ρ := by
      simp only [holds_or, holds_not, holds_and, List.mem_cons, List.not_mem_nil, or_false,
        exists_eq_or_imp, exists_eq_left, forall_eq_or_imp, forall_eq]
      exact or_iff_not_and_not
    have equivalent := (equivalent_of_two_way ordinals allEqualOr).2.2.1 _ _ _ _ rule _ defined
      (.multi (by simp [QuantifierFree.prop, QuantifierFree.pred, Formula.equal]))
      (.not (.multi
        (by simp [QuantifierFree.prop, QuantifierFree.pred, QuantifierFree.not, Formula.equal])))
      (respected_multi.mpr (by simp [proposition, equation]))
      (respected_not.mpr (respected_multi.mpr (by simp [respected_not, proposition, equation])))
      same ok _ (List.mem_singleton_self _)
    exact ⟨rule, defined, ok, (equivalent respected).2⟩

end Sequitur
