import Sequitur.Proofs.DefaultSearch

/-! What is left of a definition that fails. The rule is registered before the searches are extended,
and a search refuses a rule under a name that it holds already. If the theory does not register that
name itself, the definition fails and its rule stays; every other failure leaves the session as it
was. -/

namespace Sequitur

namespace Theory

variable {t t' : Theory} {rule : Rule} {search : Search} {step : Inference} {name : String}

def HasSearch (t : Theory) (search : Search) : Prop :=
  .search search ∈ t.defaults ∨ ∃ name : String, t.rules[name]? = some (.search search)

/-- Some search combines a rule of this name. -/
def Combines (t : Theory) (name : String) : Prop :=
  ∃ search, t.HasSearch search ∧ ∃ r ∈ search.rules, r.name.full = name

/-- Registering a single step registers no search. -/
theorem hasSearch_addRule (ok : t.addRule (.inference step) = .ok t') :
    t'.HasSearch search ↔ t.HasSearch search := by
  have before {name : String} : t.rules[name]? = some (.search search) →
      t'.rules[name]? = some (.search search) := getElem?_addRule ok
  obtain ⟨-, rfl⟩ := addRule_eq_ok ok
  constructor
  · rintro (default | ⟨name, found⟩)
    · exact .inl default
    · rw [Std.TreeMap.getElem?_insert] at found
      split at found
      · cases found
      · exact .inr ⟨name, found⟩
  · rintro (default | ⟨name, found⟩)
    · exact .inl default
    · exact .inr ⟨name, before found⟩

/-- Changing one registered rule after the other succeeds only if every change does. -/
theorem succeeds_of_foldlM_insert {change : Rule → Except Error Rule}
    {rules : Std.TreeMap String Rule} {name : String}
    (folds : Succeeds
      (rules.foldlM (fun rules name rule => return rules.insert name (← change rule)) rules))
    (found : rules[name]? = some rule) : Succeeds (change rule) := by
  have changes (l : List (String × Rule)) (filled : Std.TreeMap String Rule)
      (folds : Succeeds (l.foldlM (fun rules p => return rules.insert p.1 (← change p.2)) filled)) :
      ∀ p ∈ l, Succeeds (change p.2) := by
    induction l generalizing filled with
    | nil => simp
    | cons p l ih =>
      obtain ⟨last, ok⟩ := folds
      simp only [List.foldlM_cons, bind_eq_ok, pure_eq_ok] at ok
      obtain ⟨_, ⟨changed, here, rfl⟩, later⟩ := ok
      exact List.forall_mem_cons.mpr ⟨⟨changed, here⟩, ih _ ⟨last, later⟩⟩
  rw [Std.TreeMap.foldlM_eq_foldlM_toList] at folds
  exact changes _ _ folds (name, rule) (Std.TreeMap.mem_toList_iff_getElem?_eq_some.mpr found)

theorem succeeds_extendBy : Succeeds (Rule.extendBy (.inference step) (.search search)) ↔
    ∀ r ∈ search.rules, r.name.full ≠ step.name.full := by
  constructor
  · rintro ⟨extended, ok⟩ r member same
    have there : (search.rules.any fun r => r.name.same step.name) = true :=
      List.any_eq_true.mpr ⟨r, member, Name.same_iff.mpr same⟩
    rw [Rule.extendBy, Search.extend, Search.addRule, if_pos there] at ok
    cases ok
  · intro new
    rw [Rule.extendBy, Search.extend_of_new new]
    exact .pure _

/-- A step can be added to the searches exactly when none of them combines a rule of its name. -/
theorem succeeds_addToSearches :
    Succeeds (t.addToSearches (.inference step)) ↔ ¬ t.Combines step.name.full := by
  constructor
  · rintro ⟨t', ok⟩ ⟨search, has, r, member, same⟩
    simp only [Theory.addToSearches, bind_eq_ok, pure_eq_ok] at ok
    obtain ⟨defaults, first, rules, second, -⟩ := ok
    have extended : Succeeds (Rule.extendBy (.inference step) (.search search)) := by
      rcases has with default | ⟨name, found⟩
      · exact Succeeds.mapM_iff.mp ⟨defaults, first⟩ _ default
      · exact succeeds_of_foldlM_insert ⟨rules, second⟩ found
    exact succeeds_extendBy.mp extended r member same
  · intro none
    have each (rule : Rule) (has : ∀ search, rule = .search search → t.HasSearch search) :
        Rule.extendBy (.inference step) rule = .ok (rule.extended step) := by
      cases rule with
      | inference other => rfl
      | search search =>
        have new : ∀ r ∈ search.rules, r.name.full ≠ step.name.full :=
          fun r member same => none ⟨search, has search rfl, r, member, same⟩
        rw [Rule.extendBy, Search.extend_of_new new]
        rfl
    have defaults : Succeeds (t.defaults.mapM (Rule.extendBy (.inference step))) := by
      apply Succeeds.mapM_iff.mpr
      intro rule member
      refine ⟨_, each rule fun search same => .inl ?_⟩
      rwa [← same]
    obtain ⟨rules, folds, -⟩ := exists_foldlM_insert t.rules fun name rule found =>
      each rule fun search same => .inr ⟨name, same ▸ found⟩
    exact defaults.bind fun _ _ => .bind ⟨rules, folds⟩ fun _ _ => .pure _

end Theory

namespace Session

variable {s : Session} {name description : String} {lhs rhs : Formula} {rule : Rule}

/-- A definition becomes a single step under the name given. -/
theorem exists_step (ok : definitionRule name lhs rhs description = .ok rule) :
    ∃ step : Inference, rule = .inference step ∧ step.name.full = name := by
  simp only [definitionRule, Name.parse, bind_eq_ok] at ok
  obtain ⟨parsed, readable, ok⟩ := ok
  split at readable
  · cases readable
  obtain rfl := Except.ok.inj readable
  split at ok
  · rename_i defined ok'
    obtain rfl := pure_eq_ok.mp ok
    simp only [PatternRule.define, bind_eq_ok, pure_eq_ok] at ok'
    obtain ⟨-, -, rfl⟩ := ok'
    exact ⟨_, rfl, rfl⟩
  · cases ok

/-- The session with one more rule in its innermost theory, which no search combines yet. -/
def register (s : Session) (name : String) (rule : Rule) : Session :=
  s.setFrame { s.frame with theory :=
    { s.frame.theory with rules := s.frame.theory.rules.insert name rule } }

theorem getElem?_register (s : Session) (name : String) (rule : Rule) :
    (s.register name rule).frame.theory.rules[name]? = some rule := by
  rw [register, frame_setFrame]
  exact Std.TreeMap.getElem?_insert_self

theorem addRule_of_none (none : s.frame.theory.rules[rule.name.full]? = none) :
    s.addRule rule = (s.register rule.name.full rule, .ok ()) := by
  rw [addRule, Theory.addRule_of_none none]
  rfl

theorem succeeds_addToSearches {step : Inference}
    (none : s.frame.theory.rules[step.name.full]? = none) :
    Succeeds ((s.register step.name.full (.inference step)).frame.theory.addToSearches
      (.inference step)) ↔ ¬ s.frame.theory.Combines step.name.full := by
  have registers : s.frame.theory.addRule (.inference step) = .ok
      (s.register step.name.full (.inference step)).frame.theory := by
    rw [Theory.addRule_of_none none, register, frame_setFrame]
    rfl
  rw [Theory.succeeds_addToSearches, Theory.Combines]
  simp only [Theory.hasSearch_addRule registers]
  rfl

/-- The theory does not know the name, but a search that is to be extended does. -/
structure Clashes (s : Session) (name : String) (lhs rhs : Formula) (description : String) : Prop where
  extending : s.settings.extendOnDefine = true
  defines : Succeeds (definitionRule name lhs rhs description)
  unregistered : s.frame.theory.rules[name]? = none
  combined : s.frame.theory.Combines name

theorem Clashes.define (clashes : s.Clashes name lhs rhs description) :
    ∃ rule e, definitionRule name lhs rhs description = .ok rule ∧
      s.define name lhs rhs description = (s.register name rule, .error e) := by
  obtain ⟨rule, defined⟩ := clashes.defines
  obtain ⟨step, rfl, rfl⟩ := exists_step defined
  have registers : s.addRule (.inference step) =
      (s.register step.name.full (.inference step), .ok ()) := addRule_of_none clashes.unregistered
  rcases addToSearches_cases (s.register step.name.full (.inference step)) (.inference step) with
    ⟨e, -, refused⟩ | ⟨theory, combines, -⟩
  · refine ⟨.inference step, e, defined, ?_⟩
    rw [Session.define, defined]
    simp only [registers, clashes.extending, if_true, refused]
    rfl
  · have free := (succeeds_addToSearches clashes.unregistered).mp ⟨theory, combines⟩
    exact absurd clashes.combined free

theorem define_of_not_clashes (none : ¬ s.Clashes name lhs rhs description) :
    Succeeds (s.define name lhs rhs description).2 ∨ (s.define name lhs rhs description).1 = s := by
  unfold define
  split
  · exact .inr rfl
  · rename_i rule defined
    rcases addRule_cases s rule with ⟨e, -, refused⟩ | ⟨theory, registers, registered⟩
    · rw [refused]
      exact .inr rfl
    · rw [registered]
      simp only
      split
      · rename_i extending
        rcases addToSearches_cases (s.setFrame { s.frame with theory }) rule with
          ⟨e, refusal, -⟩ | ⟨extended, -, ended⟩
        · obtain ⟨step, rfl, rfl⟩ := exists_step defined
          obtain ⟨unregistered, rfl⟩ := Theory.addRule_eq_ok registers
          have clashes : s.Clashes step.name.full lhs rhs description := by
            refine ⟨extending, ⟨_, defined⟩, unregistered, ?_⟩
            by_contra free
            obtain ⟨extended, ok⟩ := (succeeds_addToSearches unregistered).mpr free
            exact absurd (refusal.symm.trans ok) (by simp)
          exact absurd clashes none
        · rw [ended]
          exact .inl ⟨rule, rfl⟩
      · exact .inl ⟨rule, rfl⟩

/-- A definition that fails leaves the session as it was, unless it clashes with a search; then its
rule stays registered, and nothing else has changed. -/
theorem define_leaves_rule_iff (s : Session) (name : String) (lhs rhs : Formula)
    (description : String) :
    ((∃ e, (s.define name lhs rhs description).2 = .error e) ∧
        (s.define name lhs rhs description).1 ≠ s ↔ s.Clashes name lhs rhs description) ∧
      ((∃ rule, (s.define name lhs rhs description).2 = .ok rule) ∨
        (s.define name lhs rhs description).1 = s ∨
        ∃ rule, definitionRule name lhs rhs description = .ok rule ∧
          (s.define name lhs rhs description).1 = s.register name rule) := by
  by_cases clashes : s.Clashes name lhs rhs description
  · obtain ⟨rule, e, defined, result⟩ := clashes.define
    have changed : s.register name rule ≠ s := by
      intro same
      have there := getElem?_register s name rule
      rw [same, clashes.unregistered] at there
      cases there
    rw [result]
    exact ⟨⟨fun _ => clashes, fun _ => ⟨⟨e, rfl⟩, changed⟩⟩, .inr (.inr ⟨rule, defined, rfl⟩)⟩
  · rcases define_of_not_clashes clashes with ⟨rule, ok⟩ | same
    · refine ⟨⟨?_, fun clash => absurd clash clashes⟩, .inl ⟨rule, ok⟩⟩
      rintro ⟨⟨e, failed⟩, -⟩
      rw [ok] at failed
      cases failed
    · exact ⟨⟨fun changed => absurd same changed.2, fun clash => absurd clash clashes⟩,
        .inr (.inl same)⟩

def onlySearch : Rule :=
  .search ⟨[.pattern (.exchange (.plain "d") "" (.prop "A") (.prop "A"))], Catalogue.defaultDepth⟩

/-- A theory registers a search for `d`, but not `d`. The definition of `d` is refused, and `d` is
registered. -/
theorem define_refused_and_registered : ∃ s e,
    (start (.named "t") {}).addRule onlySearch = (s, .ok ()) ∧ s.frame.theory.rules["d"]? = none ∧
    (s.define "d" (.prop "A") (.prop "A") "").2 = .error e ∧
    (s.define "d" (.prop "A") (.prop "A") "").1.frame.theory.rules["d"]?.isSome = true := by
  have registers : (start (.named "t") {}).addRule onlySearch = (_, .ok ()) := addRule_of_none rfl
  have parsed : Name.parse "d" = .ok ⟨"d", "d"⟩ := by
    simp [Name.parse, Name.lastSegment, Text.trim, Text.isBlank]
  have checked : Definition.check (.prop "A") (.prop "A") = .ok () := by cbv
  have defined : definitionRule "d" (.prop "A") (.prop "A") "" =
      .ok (.inference (.pattern (.exchange ⟨"d", "d"⟩ "" (.prop "A") (.prop "A")))) := by
    simp only [definitionRule, parsed, PatternRule.define, checked]
    rfl
  have clashes : ((start (.named "t") {}).register onlySearch.name.full onlySearch).Clashes
      "d" (.prop "A") (.prop "A") "" := by
    refine ⟨rfl, ⟨_, defined⟩, rfl, ?_⟩
    exact ⟨_, .inr ⟨_, getElem?_register _ _ _⟩, _, List.mem_singleton_self _, rfl⟩
  obtain ⟨rule, e, -, result⟩ := clashes.define
  refine ⟨_, e, registers, clashes.unregistered, ?_, ?_⟩
  · rw [result]
  · rw [result, getElem?_register]
    rfl

end Session

end Sequitur
