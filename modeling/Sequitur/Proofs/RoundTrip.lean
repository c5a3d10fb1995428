import Sequitur.Proofs.Associativity
import Sequitur.Proofs.Totality

/-! An implication as a disjunction, and back. A rule that works both ways does not always undo what it
has done: its result is flattened, and a disjunction in the conclusion dissolves into the new one. The
pattern for the way back asks for exactly two members, so that the implication returns if its conclusion
is no disjunction, and only then. -/

namespace Sequitur

open Arrangement Pattern

variable {f g h : Formula}

namespace Formula

def IsDisjunction (f : Formula) : Prop := ∃ fs, f = .or fs

/-- At the root, no member of a disjunction and no conclusion of an implication is a disjunction. -/
def Separated : Formula → Prop
  | .multi .or fs => ∀ f ∈ fs, ¬ f.IsDisjunction
  | .link .imply _ b => ¬ b.IsDisjunction
  | _ => True

/-- The step makes no disjunction at the root, and none just below it. -/
def KeepsApart (f g : Formula) : Prop :=
  (¬ f.IsDisjunction → ¬ g.IsDisjunction) ∧ (f.Separated → g.Separated)

theorem Flat.separated_or {fs : List Formula} (flat : (Formula.or fs).Flat) :
    (Formula.or fs).Separated := by
  cases flat with
  | multi _ apart =>
    rintro f member ⟨gs, rfl⟩
    exact apart _ member gs rfl

theorem congruence_keepsApart : Congruence KeepsApart where
  refl f := ⟨id, id⟩
  trans first second := ⟨second.1 ∘ first.1, second.2 ∘ first.2⟩
  not keeps := ⟨fun _ => by simp [IsDisjunction], fun _ => trivial⟩
  multi := by
    intro c fs gs pairs pairing all
    constructor
    · rintro other ⟨hs, equal⟩
      obtain ⟨rfl, -⟩ := Formula.multi.inj equal
      exact other ⟨fs, rfl⟩
    · cases c with
      | and => exact fun _ => trivial
      | or =>
        intro separated g member
        obtain ⟨f, source, pair⟩ := pairing.exists_left member
        exact (all _ pair).1 (separated f source)
  link := by
    intro c a a' b b' left right
    constructor
    · simp [IsDisjunction]
    · cases c with
      | imply => exact right.1
      | equiv => exact fun _ => trivial
  bind keeps := ⟨fun _ => by simp [IsDisjunction], fun _ => trivial⟩

theorem isDisjunction_flatten : f.flatten.IsDisjunction ↔ f.IsDisjunction := by
  cases f with
  | multi c fs => simp [flatten, IsDisjunction]
  | _ => simp [flatten, IsDisjunction]

theorem keepsApart_flatten (f : Formula) : f.KeepsApart f.flatten := by
  refine ⟨mt isDisjunction_flatten.mp, ?_⟩
  intro separated
  cases f with
  | multi c fs =>
    cases c with
    | and => simp [flatten, Separated]
    | or =>
      have flat := flat_flatten (.multi .or fs)
      rw [flatten] at flat ⊢
      exact flat.separated_or
  | link c a b =>
    rw [flatten]
    cases c with
    | imply => exact mt isDisjunction_flatten.mp separated
    | equiv => trivial
  | _ => simp [flatten, Separated]

theorem IsDisjunction.of_identical (identical : f.identical g = true) (disjunction : g.IsDisjunction) :
    f.IsDisjunction := by
  obtain ⟨gs, rfl⟩ := disjunction
  cases identical_iff.mp identical with
  | multi => exact ⟨_, rfl⟩

end Formula

namespace Transformation

variable {w : Transformation} {fs gs hs known places : List Formula} {r : Bindings}

theorem mem_addNew (h : Formula) (member : g ∈ fs) : g ∈ addNew fs h := by
  unfold addNew
  split
  · exact member
  · exact List.mem_append_left [h] member

theorem mem_foldl_addNew (hs : List Formula) (member : g ∈ fs) : g ∈ hs.foldl addNew fs := by
  induction hs generalizing fs with
  | nil => exact member
  | cons h hs ih => exact ih (mem_addNew h member)

/-- A result is listed itself, or one identical to it was listed before. -/
theorem exists_identical_addNew (fs : List Formula) (h : Formula) :
    ∃ k ∈ addNew fs h, k.identical h = true := by
  unfold addNew
  split
  · rename_i there
    exact List.any_eq_true.mp there
  · exact ⟨h, by simp, h.identical_refl⟩

theorem exists_identical_foldl_addNew (fs : List Formula) (member : h ∈ hs) :
    ∃ k ∈ hs.foldl addNew fs, k.identical h = true := by
  induction hs generalizing fs with
  | nil => cases member
  | cons g hs ih =>
    rw [List.foldl_cons]
    rcases List.mem_cons.mp member with rfl | later
    · obtain ⟨k, listed, identical⟩ := exists_identical_addNew fs h
      exact ⟨k, mem_foldl_addNew hs listed, identical⟩
    · exact ih (addNew fs g) later

/-- The results at the root come first among those at one place. -/
theorem exists_atRoot (ok : w.atOnePlace f = .ok places) :
    ∃ here inside, w.atRoot f = .ok here ∧ places = here ++ inside := by
  cases f with
  | atom s ts =>
    rw [atOnePlace] at ok
    exact ⟨places, [], ok, (List.append_nil places).symm⟩
  | link c a b =>
    simp only [atOnePlace, bind_eq_ok, pure_eq_ok] at ok
    obtain ⟨here, root, left, -, right, -, rfl⟩ := ok
    exact ⟨here, _, root, List.append_assoc _ _ _⟩
  | _ =>
    simp only [atOnePlace, bind_eq_ok, pure_eq_ok] at ok
    obtain ⟨here, root, inside, -, rfl⟩ := ok
    exact ⟨here, _, root, rfl⟩

/-- What was known and what is obtained at one place is listed, up to identity. -/
theorem exists_places (ok : w.addResults known f = .ok gs) :
    ∃ places, w.atOnePlace f = .ok places ∧
      ∀ k ∈ (places.map Formula.flatten).foldl addNew known, k ∈ gs := by
  simp only [addResults, one, all, bind_eq_ok, pure_eq_ok] at ok
  obtain ⟨_, ⟨places, single, rfl⟩, complete, -, rfl⟩ := ok
  refine ⟨places, single, fun k listed => ?_⟩
  split
  · exact listed
  · exact mem_addNew complete listed

theorem mem_addResults (ok : w.addResults known f = .ok gs) (member : g ∈ known) : g ∈ gs := by
  obtain ⟨places, -, listed⟩ := exists_places ok
  exact listed g (mem_foldl_addNew _ member)

/-- Every match at the root is among the results. -/
theorem exists_identical_addResults (ok : w.addResults known f = .ok gs)
    (found : r ∈ w.pattern.matcher f .empty) (result : w.result r = .ok g) :
    ∃ h ∈ gs, h.identical g.flatten = true := by
  obtain ⟨places, single, listed⟩ := exists_places ok
  obtain ⟨here, inside, root, rfl⟩ := exists_atRoot single
  obtain ⟨g', member, result'⟩ := exists_mem_mapM root found
  obtain rfl := Except.ok.inj (result.symm.trans result')
  have obtained : g.flatten ∈ (here ++ inside).map Formula.flatten :=
    List.mem_map_of_mem (List.mem_append_left inside member)
  obtain ⟨k, kept, identical⟩ := exists_identical_foldl_addNew known obtained
  exact ⟨k, listed k kept, identical⟩

/-- The first match at the root gives the first of all results. -/
theorem first_mem_addResults {rs : List Bindings} (ok : w.addResults [] f = .ok gs)
    (found : w.pattern.matcher f .empty = r :: rs) (result : w.result r = .ok g) :
    g.flatten ∈ gs := by
  obtain ⟨places, single, listed⟩ := exists_places ok
  obtain ⟨here, inside, root, rfl⟩ := exists_atRoot single
  simp only [atRoot, found, List.mapM_cons, bind_eq_ok, pure_eq_ok] at root
  obtain ⟨g', result', rest, -, rfl⟩ := root
  obtain rfl := Except.ok.inj (result.symm.trans result')
  apply listed
  rw [List.cons_append, List.map_cons, List.foldl_cons]
  apply mem_foldl_addNew
  simp [addNew]

/-- If the pattern matches no disjunction, a disjunction is rewritten inside only. -/
theorem results_of_unmatched (unmatched : ∀ fs, w.pattern.matcher (.or fs) .empty = [])
    (ok : w.addResults [] (.or fs) = .ok gs) (member : g ∈ gs) : ∃ hs, g = (Formula.or hs).flatten := by
  simp only [addResults, one, all, atOnePlace, everywhere, bind_eq_ok, pure_eq_ok] at ok
  obtain ⟨_, ⟨_, ⟨here, root, inside, -, rfl⟩, rfl⟩, _, ⟨_, ⟨members, -, whole⟩, rfl⟩, rfl⟩ := ok
  rw [atRoot, unmatched, List.mapM_nil, pure_eq_ok] at root
  rw [firstAtRoot, unmatched] at whole
  obtain rfl := Except.ok.inj whole
  have atPlaces (member : g ∈ ((here ++ inside.map (Formula.multi .or)).map Formula.flatten).foldl
      addNew []) : ∃ hs, g = (Formula.or hs).flatten := by
    rcases mem_of_mem_foldl_addNew member with known | new
    · cases known
    · rw [← root, List.nil_append, List.map_map] at new
      obtain ⟨hs, -, rfl⟩ := List.mem_map.mp new
      exact ⟨hs, rfl⟩
  split at member
  · exact atPlaces member
  · rcases mem_of_mem_addNew member with earlier | rfl
    · exact atPlaces earlier
    · exact ⟨members, rfl⟩

end Transformation

namespace Catalogue

def unfolding : Transformation :=
  .ofTemplates (.imply (.prop "P") (.prop "Q")) (.or [.not (.prop "P"), .prop "Q"])

def refolding : Transformation :=
  .ofTemplates (.or [.not (.prop "P"), .prop "Q"]) (.imply (.prop "P") (.prop "Q"))

variable {r : Bindings} {a b : Formula} {gs : List Formula}

theorem fillUnder_prop {name : String} (bound : r.formula? name = some ⟨[], f⟩) (taken : VarSet)
    (scope : TemplateScope) : (Formula.prop name).fillUnder r taken scope = .ok f := by
  have instantiated : Abstraction.instantiate ⟨[], f⟩ [] = .ok f := by
    simp [Abstraction.instantiate, Subst.ofList]
  simp only [Formula.fillUnder, Term.fillAll, bound]
  exact instantiated

def both (a b : Formula) : Bindings :=
  (Bindings.empty.insertFormula "P" ⟨[], a⟩).insertFormula "Q" ⟨[], b⟩

theorem formula?_both (a b : Formula) :
    (both a b).formula? "P" = some ⟨[], a⟩ ∧ (both a b).formula? "Q" = some ⟨[], b⟩ := by
  simp [both, Bindings.formula?_insertFormula]

theorem pattern_unfolding : unfolding.pattern = .link .imply (.ref "P") (.ref "Q") := by
  simp [unfolding, Transformation.ofTemplates, ofTemplate]

theorem pattern_refolding : refolding.pattern = exactly .or [.not (.ref "P"), .ref "Q"] := by
  simp [refolding, Transformation.ofTemplates, ofTemplate]

theorem matcher_unfolding (a b : Formula) :
    unfolding.pattern.matcher (.imply a b) .empty = [both a b] := by
  simp [pattern_unfolding, matcher, matcherWith, matchRef, Matcher.onEach, both,
    Bindings.formula?_insertFormula]

theorem result_unfolding (a b : Formula) :
    unfolding.result (both a b) = .ok (.or [.not a, b]) := by
  obtain ⟨left, right⟩ := formula?_both a b
  have negated : (Formula.not (.prop "P")).fillUnder (both a b) (both a b).vars [] = .ok (.not a) := by
    rw [Formula.fillUnder, fillUnder_prop left]
    rfl
  have members : Formula.fillAllUnder (both a b) (both a b).vars []
      [.not (.prop "P"), .prop "Q"] = .ok [.not a, b] := by
    rw [Formula.fillAllUnder, negated, Formula.fillAllUnder, fillUnder_prop right, Formula.fillAllUnder]
    rfl
  show (Formula.or _).fillUnder _ _ _ = _
  rw [Formula.fillUnder, members]
  rfl

theorem mem_matcher_refolding (a b : Formula) :
    both a b ∈ refolding.pattern.matcher (.or [.not a, b]) .empty := by
  simp [pattern_refolding, matcher, matcherWith, matchRef, both, Bindings.formula?_insertFormula,
    exactly, matchersWith, isNothing, Matcher.withOthers, Matcher.inAnyOrder, Matcher.assignments,
    picks]

theorem result_refolding (a b : Formula) : refolding.result (both a b) = .ok (.imply a b) := by
  obtain ⟨left, right⟩ := formula?_both a b
  show (Formula.imply _ _).fillUnder _ _ _ = _
  rw [Formula.fillUnder, fillUnder_prop left, fillUnder_prop right]
  rfl

/-- The conclusion that comes back is a member of the disjunction. -/
theorem keepsApart_refolding : refolding.Relates Formula.KeepsApart := by
  intro f r g found result
  rw [pattern_refolding] at found
  obtain ⟨fs, negation, b, between, rfl, perm, first, second⟩ := exists_pair found
  cases negation with
  | not a =>
    simp only [matcher, matcherWith, matchRef, Bindings.formula?_empty, List.mem_singleton] at first
    subst first
    have found : r = both a b := by
      simpa [both, matcher, matcherWith, matchRef, Bindings.formula?_insertFormula] using second
    subst found
    obtain rfl := Except.ok.inj ((result_refolding a b).symm.trans result)
    constructor
    · exact fun other => absurd ⟨fs, rfl⟩ other
    · exact fun separated => separated b (perm.subset (by simp))
  | _ => simp [matcher, matcherWith] at first

theorem unfolding_unmatched (fs : List Formula) : unfolding.pattern.matcher (.or fs) .empty = [] := by
  simp [pattern_unfolding, matcher, matcherWith]

/-- On a disjunction, neither way of the rule puts a disjunction where it would dissolve. -/
theorem keepsApart_of_results {fs : List Formula} {known : List Formula}
    (forward : unfolding.addResults [] (.or fs) = .ok known)
    (backward : refolding.addResults known (.or fs) = .ok gs) (member : g ∈ gs) :
    Formula.KeepsApart (.or fs) g := by
  apply keepsApart_refolding.addResults Formula.congruence_keepsApart Formula.keepsApart_flatten
    (fun g earlier => ?_) backward member
  obtain ⟨hs, rfl⟩ := Transformation.results_of_unmatched unfolding_unmatched forward earlier
  constructor
  · exact fun other => absurd ⟨fs, rfl⟩ other
  · intro _
    have flat := (Formula.or hs).flat_flatten
    rw [Formula.flatten] at flat ⊢
    exact flat.separated_or

/-- Both ways of the rule, one after the other. -/
theorem exists_results (f : Formula) : ∃ known gs, unfolding.addResults [] f = .ok known ∧
    refolding.addResults known f = .ok gs := by
  have each := uniform defImply (by simp [rules, combined])
  have forward : unfolding.Uniform := each unfolding (List.mem_cons_self ..)
  have backward : refolding.Uniform := each refolding (List.mem_cons_of_mem _ (List.mem_cons_self ..))
  obtain ⟨known, first, -⟩ := forward.addResults (m := .plain) [] f
  obtain ⟨gs, second, -⟩ := backward.addResults (m := .plain) known f
  exact ⟨known, gs, first, second⟩

/-- What the rule makes of an implication, it makes back into that implication exactly when the
conclusion is no disjunction. -/
theorem defImply_round_trip (a b : Formula) (left : a.flatten.same a = true)
    (right : b.flatten.same b = true) : ∃ rule gs hs, defImply = .pattern rule ∧
    rule.results (.imply a b) = .ok gs ∧ (Formula.or [.not a, b]).flatten ∈ gs ∧
    rule.results (Formula.or [.not a, b]).flatten = .ok hs ∧
    ((∃ h ∈ hs, h.identical (.imply a b) = true) ↔ ¬ ∃ bs, b = .or bs) := by
  obtain ⟨first, gs, forward, backward⟩ := exists_results (.imply a b)
  have unfolded : (Formula.or [.not a, b]).flatten ∈ gs := by
    apply Transformation.mem_addResults backward
    exact Transformation.first_mem_addResults forward (matcher_unfolding a b) (result_unfolding a b)
  obtain ⟨known, hs, forward', backward'⟩ := exists_results (Formula.or [.not a, b]).flatten
  refine ⟨_, gs, hs, rfl, bind_eq_ok.mpr ⟨first, forward, backward⟩, unfolded,
    bind_eq_ok.mpr ⟨known, forward', backward'⟩, ?_⟩
  constructor
  · -- A disjunction in the conclusion has dissolved, and no result has one there.
    rintro ⟨h, member, identical⟩ ⟨bs, rfl⟩
    have flat := (Formula.or [.not a, .or bs]).flat_flatten
    rw [Formula.flatten] at flat forward' backward'
    have separated := (keepsApart_of_results forward' backward' member).2 flat.separated_or
    cases Formula.identical_iff.mp identical with
    | imply _ conclusion =>
      exact separated (.of_identical (Formula.identical_iff.mpr conclusion) ⟨bs, rfl⟩)
  · intro other
    have flat : (Formula.or [.not a, b]).Flat := by
      apply Formula.Flat.multi
      · simp only [List.forall_mem_cons]
        exact ⟨.not (Formula.flat_of_same left), Formula.flat_of_same right, by simp⟩
      · simp only [List.forall_mem_cons]
        exact ⟨by simp, fun bs equal => other ⟨bs, equal⟩, by simp⟩
    rw [flat.flatten_eq] at backward'
    obtain ⟨h, member, identical⟩ := Transformation.exists_identical_addResults backward'
      (mem_matcher_refolding a b) (result_refolding a b)
    rw [(Formula.Flat.link (Formula.flat_of_same left) (Formula.flat_of_same right)).flatten_eq]
      at identical
    exact ⟨h, member, identical⟩

/-- A conjunction that implies an equivalence returns. -/
theorem defImply_round_trip_equivalence : ∃ rule hs, defImply = .pattern rule ∧
    rule.results (.or [.not (.and [.prop "A", .prop "B"]), .equiv (.prop "C") (.prop "D")]) = .ok hs ∧
    ∃ h ∈ hs, h.identical
      (.imply (.and [.prop "A", .prop "B"]) (.equiv (.prop "C") (.prop "D"))) = true := by
  obtain ⟨rule, -, hs, equal, -, -, refolded, returns⟩ := defImply_round_trip
    (.and [.prop "A", .prop "B"]) (.equiv (.prop "C") (.prop "D")) (by cbv) (by cbv)
  have flat : (Formula.or [.not (.and [.prop "A", .prop "B"]),
      .equiv (.prop "C") (.prop "D")]).flatten =
      .or [.not (.and [.prop "A", .prop "B"]), .equiv (.prop "C") (.prop "D")] := by cbv
  rw [flat] at refolded
  exact ⟨rule, hs, equal, refolded, returns.mpr (by simp)⟩

/-- `A → B ∨ C` becomes a disjunction of three, and nothing becomes of that. -/
theorem defImply_loses_disjunction : ∃ rule, defImply = .pattern rule ∧
    rule.results (.imply (.prop "A") (.or [.prop "B", .prop "C"])) =
      .ok [.or [.not (.prop "A"), .prop "B", .prop "C"]] ∧
    rule.results (.or [.not (.prop "A"), .prop "B", .prop "C"]) = .ok [] :=
  ⟨_, rfl, by cbv, by cbv⟩

end Catalogue

end Sequitur
