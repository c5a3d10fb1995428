import Sequitur.Proofs.Scopes

/-! The default search and the search that is registered by name stay the same. Nothing is ever
registered under a name that is taken, so the rules of the search keep their names, a new rule is new
to the search as well, and a definition extends both or neither. -/

namespace Sequitur

namespace Theory

variable {t t' : Theory} {rule : Rule} {search : Search} {step : Inference}

/-- The theory has one default rule, a search, which is also the one search that is registered. What
it combines is registered too, and each rule is filed under its own name. -/
structure Searches (t : Theory) (search : Search) : Prop where
  default : t.defaults = [.search search]
  registered : t.rules[Search.name.full]? = some (.search search)
  combined : ∀ step ∈ search.rules, t.rules[step.name.full]? = some (.inference step)
  filed : ∀ (name : String) (rule : Rule), t.rules[name]? = some rule → rule.name.full = name

theorem addRule_eq_ok (ok : t.addRule rule = .ok t') : t.rules[rule.name.full]? = none ∧
    t' = { t with rules := t.rules.insert rule.name.full rule } := by
  rw [addRule] at ok
  split at ok
  · cases ok
  · rename_i new
    refine ⟨?_, (Except.ok.inj ok).symm⟩
    exact Std.TreeMap.getElem?_eq_none_of_contains_eq_false (Bool.eq_false_iff.mpr new)

/-- What is registered stays registered. -/
theorem addRule_of_none (none : t.rules[rule.name.full]? = none) :
    t.addRule rule = .ok { t with rules := t.rules.insert rule.name.full rule } := by
  have new : t.rules.contains rule.name.full = false := by
    rw [Std.TreeMap.contains_eq_isSome_getElem?, none]
    rfl
  rw [addRule, new]
  rfl

theorem getElem?_addRule {name : String} {old : Rule} (ok : t.addRule rule = .ok t')
    (before : t.rules[name]? = some old) : t'.rules[name]? = some old := by
  obtain ⟨new, rfl⟩ := addRule_eq_ok ok
  have other : rule.name.full ≠ name := by
    rintro rfl
    rw [new] at before
    cases before
  rw [Std.TreeMap.getElem?_insert, if_neg fun same => other (compare_eq_iff_eq.mp same)]
  exact before

theorem getElem?_addRule_self (ok : t.addRule rule = .ok t') :
    t'.rules[rule.name.full]? = some rule := by
  obtain ⟨-, rfl⟩ := addRule_eq_ok ok
  exact Std.TreeMap.getElem?_insert_self

namespace Searches

theorem addRule (searches : t.Searches search) (ok : t.addRule rule = .ok t') :
    t'.Searches search where
  default := by
    obtain ⟨-, rfl⟩ := addRule_eq_ok ok
    exact searches.default
  registered := getElem?_addRule ok searches.registered
  combined := fun step member => getElem?_addRule ok (searches.combined step member)
  filed := by
    intro name other found
    obtain ⟨-, rfl⟩ := addRule_eq_ok ok
    rw [Std.TreeMap.getElem?_insert] at found
    split at found
    · rename_i same
      obtain rfl := Option.some.inj found
      exact compare_eq_iff_eq.mp same
    · exact searches.filed name other found

/-- All searches have the same name, so that no other one is registered. -/
theorem unique (searches : t.Searches search) {name : String} {other : Search}
    (found : t.rules[name]? = some (.search other)) : other = search := by
  obtain rfl : Search.name.full = name := searches.filed name _ found
  rw [searches.registered] at found
  exact (Rule.search.inj (Option.some.inj found)).symm

/-- A rule that was registered just now is a single step, and new to the search. -/
theorem new_of_addRule (searches : t.Searches search) (ok : t.addRule rule = .ok t') :
    ∃ step, rule = .inference step ∧ ∀ r ∈ search.rules, r.name.full ≠ step.name.full := by
  obtain ⟨new, -⟩ := addRule_eq_ok ok
  cases rule with
  | search other =>
    rw [Rule.name, searches.registered] at new
    cases new
  | inference step =>
    refine ⟨step, rfl, fun r member same => ?_⟩
    have there := searches.combined r member
    rw [same, show step.name.full = (Rule.inference step).name.full from rfl, new] at there
    cases there

end Searches

/-- If every registered rule can be changed, they all are. -/
theorem exists_foldlM_insert {change : Rule → Except Error Rule} {changed : Rule → Rule}
    (rules : Std.TreeMap String Rule)
    (each : ∀ (name : String) (rule : Rule), rules[name]? = some rule →
      change rule = .ok (changed rule)) :
    ∃ rules' : Std.TreeMap String Rule,
      rules.foldlM (fun rules name rule => return rules.insert name (← change rule)) rules =
        .ok rules' ∧ ∀ name : String, rules'[name]? = rules[name]?.map changed := by
  have insertions (l : List (String × Rule)) (filled : Std.TreeMap String Rule)
      (each : ∀ p ∈ l, change p.2 = .ok (changed p.2)) :
      l.foldlM (fun rules p => return rules.insert p.1 (← change p.2)) filled =
        .ok (filled.insertMany (l.map fun p => (p.1, changed p.2))) := by
    induction l generalizing filled with
    | nil => rfl
    | cons p l ih =>
      obtain ⟨here, later⟩ := List.forall_mem_cons.mp each
      rw [List.foldlM_cons, here, List.map_cons, Std.TreeMap.insertMany_cons]
      exact ih _ later
  refine ⟨rules.insertMany (rules.toList.map fun p => (p.1, changed p.2)), ?_, fun name => ?_⟩
  · rw [Std.TreeMap.foldlM_eq_foldlM_toList]
    refine insertions _ _ fun p member => each p.1 p.2 ?_
    exact Std.TreeMap.mem_toList_iff_getElem?_eq_some.mp member
  · cases found : rules[name]? with
    | none =>
      rw [Std.TreeMap.getElem?_insertMany_list_of_contains_eq_false, found, Option.map_none]
      rw [List.map_map, ← Bool.not_eq_true, List.contains_iff_mem]
      intro member
      obtain ⟨p, inside, rfl⟩ := List.mem_map.mp member
      exact absurd ((Std.TreeMap.mem_toList_iff_getElem?_eq_some.mp inside).symm.trans found) (by simp)
    | some rule =>
      refine Std.TreeMap.getElem?_insertMany_list_of_mem (compare_eq_iff_eq.mpr rfl) ?_ ?_
      · rw [List.pairwise_map]
        exact Std.TreeMap.distinct_keys_toList
      · exact List.mem_map.mpr
          ⟨(name, rule), Std.TreeMap.mem_toList_iff_getElem?_eq_some.mpr found, rfl⟩

end Theory

namespace Rule

def extended (step : Inference) : Rule → Rule
  | .inference other => .inference other
  | .search s => .search { s with rules := s.rules ++ [step] }

@[simp] theorem name_extended (step : Inference) (rule : Rule) :
    (rule.extended step).name = rule.name := by
  cases rule <;> rfl

end Rule

theorem Search.extend_of_new {search : Search} {step : Inference}
    (new : ∀ r ∈ search.rules, r.name.full ≠ step.name.full) :
    search.extend (.inference step) = .ok { search with rules := search.rules ++ [step] } := by
  have none : ¬ (search.rules.any fun r => r.name.same step.name) = true := by
    simpa [List.any_eq_true] using new
  rw [extend, addRule, if_neg none]

namespace Theory

variable {t t' : Theory} {rule : Rule} {search : Search} {step : Inference}

/-- A registered step that is new to the search is added to it, in both places. -/
theorem Searches.addToSearches (searches : t.Searches search)
    (registered : t.rules[step.name.full]? = some (.inference step))
    (new : ∀ r ∈ search.rules, r.name.full ≠ step.name.full) :
    ∃ t', t.addToSearches (.inference step) = .ok t' ∧
      t'.Searches { search with rules := search.rules ++ [step] } := by
  have grows : Rule.extendBy (.inference step) (.search search) =
      .ok ((Rule.search search).extended step) := by
    rw [Rule.extendBy, Search.extend_of_new new]
    rfl
  have each (name : String) (rule : Rule) (found : t.rules[name]? = some rule) :
      Rule.extendBy (.inference step) rule = .ok (rule.extended step) := by
    cases rule with
    | inference other => rfl
    | search other =>
      obtain rfl := searches.unique found
      exact grows
  obtain ⟨rules, folds, changed⟩ := exists_foldlM_insert t.rules each
  refine ⟨{ t with rules, defaults := [(Rule.search search).extended step] }, ?_, rfl, ?_, ?_, ?_⟩
  · rw [Theory.addToSearches, searches.default, List.mapM_cons, grows]
    simp only [bind_eq_ok, pure_eq_ok]
    exact ⟨_, ⟨_, rfl, [], rfl, rfl⟩, rules, folds, rfl⟩
  · rw [changed, searches.registered]
    rfl
  · intro r member
    rw [changed]
    rcases List.mem_append.mp member with old | last
    · rw [searches.combined r old]
      rfl
    · obtain rfl := List.mem_singleton.mp last
      rw [registered]
      rfl
  · intro name rule found
    rw [changed] at found
    obtain ⟨old, before, rfl⟩ := Option.map_eq_some_iff.mp found
    rw [Rule.name_extended]
    exact searches.filed name old before

/-- A rule that could be registered can be added to the searches. -/
theorem Searches.addToSearches_of_addRule (searches : t.Searches search)
    (ok : t.addRule rule = .ok t') : ∃ step t'', rule = .inference step ∧
      t'.addToSearches rule = .ok t'' ∧
      t''.Searches { search with rules := search.rules ++ [step] } := by
  obtain ⟨step, rfl, new⟩ := searches.new_of_addRule ok
  obtain ⟨t'', ok', searches'⟩ :=
    (searches.addRule ok).addToSearches (getElem?_addRule_self ok) new
  exact ⟨step, t'', rfl, ok', searches'⟩

/-- What one command keeps. -/
theorem Searches.grows (searches : t.Searches search) (grows : t.Grows t') :
    ∃ rules, t'.Searches ⟨rules, search.depth⟩ := by
  cases grows with
  | same => exact ⟨search.rules, searches⟩
  | registers ok => exact ⟨search.rules, searches.addRule ok⟩
  | combines ok ok' =>
    obtain ⟨step, t'', rfl, again, searches'⟩ := searches.addToSearches_of_addRule ok
    obtain rfl := Except.ok.inj (again.symm.trans ok')
    exact ⟨_, searches'⟩

theorem Searches.withSearchDepth (searches : t.Searches search) (depth : Nat) :
    (t.withSearchDepth depth).Searches ⟨search.rules, depth⟩ where
  default := by
    rw [Theory.withSearchDepth, searches.default]
    rfl
  registered := by
    rw [Theory.withSearchDepth, Std.TreeMap.getElem?_map, searches.registered]
    rfl
  combined := by
    intro step member
    rw [Theory.withSearchDepth, Std.TreeMap.getElem?_map, searches.combined step member]
    rfl
  filed := by
    intro name rule found
    rw [Theory.withSearchDepth, Std.TreeMap.getElem?_map] at found
    obtain ⟨old, before, rfl⟩ := Option.map_eq_some_iff.mp found
    rw [← searches.filed name old before]
    cases old <;> rfl

/-- Rules with different names are all found by them. -/
theorem getElem?_ofList_iff {rules : List Rule} (distinct : (rules.map (·.name.full)).Nodup)
    {name : String} :
    (Std.TreeMap.ofList (rules.map fun rule => (rule.name.full, rule)))[name]? = some rule ↔
      rule ∈ rules ∧ rule.name.full = name := by
  have found (other : Rule) (member : other ∈ rules) :
      (Std.TreeMap.ofList (rules.map fun rule => (rule.name.full, rule)))[other.name.full]? =
        some other := by
    refine Std.TreeMap.getElem?_ofList_of_mem (compare_eq_iff_eq.mpr rfl) ?_
      (List.mem_map.mpr ⟨other, member, rfl⟩)
    rw [List.pairwise_map]
    refine (List.pairwise_map.mp distinct).imp fun different same => ?_
    exact different (compare_eq_iff_eq.mp same)
  constructor
  · intro here
    by_cases member : name ∈ rules.map (·.name.full)
    · obtain ⟨other, inside, rfl⟩ := List.mem_map.mp member
      rw [found other inside] at here
      obtain rfl := Option.some.inj here
      exact ⟨inside, rfl⟩
    · rw [Std.TreeMap.getElem?_ofList_of_contains_eq_false] at here
      · cases here
      · rw [List.map_map, ← Bool.not_eq_true, List.contains_iff_mem]
        exact member
  · rintro ⟨member, rfl⟩
    exact found rule member

/-- The rules of a theory with these further steps. -/
theorem searches_logicWith {name : String} {predicates : List Predicate} {constants : List Constant}
    {steps : List Inference}
    (distinct : ((Catalogue.rules ++ steps).map (·.name.full) ++ [Search.name.full]).Nodup) :
    (logicWith name predicates constants steps).Searches
      ⟨Catalogue.combined ++ steps, Catalogue.defaultDepth⟩ := by
  have different : (((Catalogue.rules ++ steps).map Rule.inference ++
      [Rule.search ⟨Catalogue.combined ++ steps, Catalogue.defaultDepth⟩]).map
        (·.name.full)).Nodup := by
    rw [List.map_append, List.map_map]
    exact distinct
  refine ⟨rfl, ?_, fun step member => ?_, fun name rule found => ?_⟩
  · exact (getElem?_ofList_iff different).mpr ⟨by simp, rfl⟩
  · refine (getElem?_ofList_iff different).mpr ⟨?_, rfl⟩
    have listed : step ∈ Catalogue.rules ++ steps := by
      rw [Catalogue.rules]
      simp only [List.mem_append] at member ⊢
      tauto
    exact List.mem_append_left _ (List.mem_map_of_mem listed)
  · exact ((getElem?_ofList_iff different).mp found).2

theorem getElem?_logicWith_eq_none {theory name : String} {predicates : List Predicate}
    {constants : List Constant} {steps : List Inference}
    (absent : name ∉ (Catalogue.rules ++ steps).map (·.name.full) ++ [Search.name.full]) :
    (logicWith theory predicates constants steps).rules[name]? = none := by
  apply Std.TreeMap.getElem?_ofList_of_contains_eq_false
  rw [List.map_map, ← Bool.not_eq_true, List.contains_iff_mem, List.map_append, List.map_map]
  exact absent

theorem searches_logic : Theory.logic.Searches ⟨Catalogue.combined, Catalogue.defaultDepth⟩ :=
  searches_logicWith (by decide)

theorem searches_sets :
    Theory.sets.Searches ⟨Catalogue.combined ++ [extensionality], Catalogue.defaultDepth⟩ :=
  searches_logicWith (by decide)

end Theory

namespace Session

variable {s s' : Session} {frame : Frame} {depth : Nat}

def Searches (depth : Nat) (s : Session) : Prop :=
  ∀ frame ∈ s.base :: s.scopes, ∃ rules, frame.theory.Searches ⟨rules, depth⟩

theorem mem_frames (s : Session) : s.frame ∈ s.base :: s.scopes := by
  obtain ⟨base, _ | ⟨scope, outer⟩, settings⟩ := s <;> simp [Session.frame]

namespace Searches

theorem setFrame (searches : s.Searches depth)
    (here : ∃ rules, frame.theory.Searches ⟨rules, depth⟩) : (s.setFrame frame).Searches depth := by
  obtain ⟨base, _ | ⟨scope, outer⟩, settings⟩ := s
  · exact List.forall_mem_cons.mpr ⟨here, List.forall_mem_nil _⟩
  · obtain ⟨bottom, above⟩ := List.forall_mem_cons.mp searches
    obtain ⟨-, rest⟩ := List.forall_mem_cons.mp above
    exact List.forall_mem_cons.mpr ⟨bottom, List.forall_mem_cons.mpr ⟨here, rest⟩⟩

theorem step (searches : s.Searches depth) (moves : Moves s s') : s'.Searches depth := by
  cases moves with
  | stays => exact searches
  | changes grows =>
    obtain ⟨rules, here⟩ := searches s.frame s.mem_frames
    exact searches.setFrame (here.grows grows)
  | opens same =>
    have here := searches s.frame s.mem_frames
    obtain ⟨bottom, rest⟩ := List.forall_mem_cons.mp searches
    exact List.forall_mem_cons.mpr ⟨bottom, List.forall_mem_cons.mpr ⟨same ▸ here, rest⟩⟩
  | @closes base scope frame outer settings same =>
    obtain ⟨bottom, above⟩ := List.forall_mem_cons.mp searches
    have below : (Session.mk base outer settings).Searches depth :=
      List.forall_mem_cons.mpr ⟨bottom, (List.forall_mem_cons.mp above).2⟩
    exact below.setFrame (same ▸ below _ (mem_frames _))

theorem run (searches : s.Searches depth) (commands : List Command) :
    (s.run commands).Searches depth := by
  induction commands generalizing s with
  | nil => exact searches
  | cons command commands ih => exact ih (searches.step (moves_perform s command))

/-- To name no rule is to name the search. -/
theorem deduce (searches : s.Searches depth) (f : Formula) :
    s.deduce f none = s.deduce f (some Search.name.full) := by
  obtain ⟨rules, here⟩ := searches s.frame s.mem_frames
  have named : s.frame.theory.rule? Search.name.full = some (.search ⟨rules, depth⟩) := by
    rw [Theory.rule?, here.registered]
  simp only [Session.deduce, Session.tried, Option.bind_none, Option.bind_some, named, here.default]

end Searches

theorem start_searches {theory : Theory} {search : Search} (settings : Settings)
    (searches : theory.Searches search) : (start theory settings).Searches settings.searchDepth :=
  List.forall_mem_cons.mpr ⟨⟨_, searches.withSearchDepth settings.searchDepth⟩, List.forall_mem_nil _⟩

/-- Whatever commands are given to a session about logic or about sets, in each frame the only
default rule is the search that is registered as `logic.Logic`, with the depth of the settings. The
rules that it combines are registered too, and a rule that can be registered can be added to it. So a
deduction by default and one by the named search have the same answer and lead to the same session. -/
theorem default_search_named (theory : Theory) (settings : Settings) (commands : List Command)
    (given : theory = .logic ∨ theory = .sets) :
    (∀ k frame, ((start theory settings).run commands).frameAt k = some frame →
      ∃ rules : List Inference,
        frame.theory.defaults = [.search ⟨rules, settings.searchDepth⟩] ∧
        frame.theory.rules["logic.Logic"]? = some (.search ⟨rules, settings.searchDepth⟩) ∧
        (∀ step ∈ rules, frame.theory.rules[step.name.full]? = some (.inference step)) ∧
        ∀ rule registered, frame.theory.addRule rule = .ok registered →
          ∃ step extended, rule = .inference step ∧ registered.addToSearches rule = .ok extended ∧
            extended.defaults = [.search ⟨rules ++ [step], settings.searchDepth⟩]) ∧
    ∀ f, ((start theory settings).run commands).deduce f none =
      ((start theory settings).run commands).deduce f (some "logic.Logic") := by
  have initially : (start theory settings).Searches settings.searchDepth := by
    rcases given with rfl | rfl
    · exact start_searches settings Theory.searches_logic
    · exact start_searches settings Theory.searches_sets
  have searches := initially.run commands
  refine ⟨fun k frame here => ?_, fun f => searches.deduce f⟩
  have member : frame ∈ ((start theory settings).run commands).base ::
      ((start theory settings).run commands).scopes := by
    have listed := List.mem_of_getElem? here
    simpa using listed
  obtain ⟨rules, holds⟩ := searches frame member
  refine ⟨rules, holds.default, holds.registered, holds.combined, fun rule registered ok => ?_⟩
  obtain ⟨step, extended, rfl, ok', holds'⟩ := holds.addToSearches_of_addRule ok
  exact ⟨step, extended, rfl, ok', holds'.default⟩

/-- A definition under a new name is added to the search. -/
theorem define_extends {search : Search} {step : Inference} {name description : String}
    {lhs rhs : Formula} (searches : s.frame.theory.Searches search)
    (extending : s.settings.extendOnDefine = true)
    (defined : definitionRule name lhs rhs description = .ok (.inference step))
    (new : s.frame.theory.rules[step.name.full]? = none) :
    ∃ theory, s.define name lhs rhs description =
        (s.setFrame { s.frame with theory }, .ok (.inference step)) ∧
      theory.Searches { search with rules := search.rules ++ [step] } := by
  have registers : s.frame.theory.addRule (.inference step) = .ok _ := Theory.addRule_of_none new
  obtain ⟨other, theory, same, combines, searches'⟩ := searches.addToSearches_of_addRule registers
  obtain rfl := Rule.inference.inj same
  refine ⟨theory, ?_, searches'⟩
  simp only [define, defined, addRule, registers, extending, if_true, addToSearches, frame_setFrame,
    combines, setFrame_setFrame]
  rfl

/-- In a scope of a session about sets, `B` is defined as `B ∧ B`. -/
def scopedDefinition : List Command := [
  .assume [.prop "A"],
  .define "logic.Twice" (.prop "B") (.and [.prop "B", .prop "B"]) ""]

def twice : Inference :=
  .pattern (.exchange ⟨"Twice", "logic.Twice"⟩ "" (.prop "B") (.and [.prop "B", .prop "B"]))

theorem definitionRule_twice :
    definitionRule "logic.Twice" (.prop "B") (.and [.prop "B", .prop "B"]) "" =
      .ok (.inference twice) := by
  have parsed : Name.parse "logic.Twice" = .ok ⟨"Twice", "logic.Twice"⟩ := by
    simp [Name.parse, Name.lastSegment, Text.trim, Text.isBlank]
  have checked : Definition.check (.prop "B") (.and [.prop "B", .prop "B"]) = .ok () := by cbv
  simp only [definitionRule, parsed, PatternRule.define, checked]
  rfl

/-- The definition is in the search of its scope, whether this is tried by default or by name. -/
theorem default_search_named_scoped :
    ∃ frame, ((start .sets ⟨2, true⟩).run scopedDefinition).frameAt 1 = some frame ∧
      frame.theory.defaults =
        [.search ⟨Catalogue.combined ++ [Theory.extensionality] ++ [twice], 2⟩] ∧
      frame.theory.rules["logic.Logic"]? =
        some (.search ⟨Catalogue.combined ++ [Theory.extensionality] ++ [twice], 2⟩) ∧
      ((start .sets ⟨2, true⟩).run scopedDefinition).deduce (.prop "D") none =
        ((start .sets ⟨2, true⟩).run scopedDefinition).deduce (.prop "D") (some "logic.Logic") := by
  let s : Session := start .sets ⟨2, true⟩
  obtain ⟨⟨facts, count⟩, added⟩ : Succeeds (Facts.empty.addAll [.prop "A"]) := by
    have ok : (Facts.empty.addAll [.prop "A"]).isOk = true := by cbv
    cases added : Facts.empty.addAll [.prop "A"] with
    | error e =>
      rw [added] at ok
      cases ok
    | ok result => exact ⟨result, rfl⟩
  let scope : Frame := ⟨some [.prop "A"], s.base.theory, facts⟩
  have opened : s.perform (.assume [.prop "A"]) = { s with scopes := [scope] } := by
    have assumed : s.frame.assume [.prop "A"] = .ok scope := by
      rw [Frame.assume]
      exact bind_eq_ok.mpr ⟨_, added, rfl⟩
    rw [perform, Session.assume, assumed]
    rfl
  have new : scope.theory.rules[twice.name.full]? = none := by
    have absent : Theory.sets.rules[twice.name.full]? = none :=
      Theory.getElem?_logicWith_eq_none (by decide)
    change (Theory.sets.withSearchDepth 2).rules[twice.name.full]? = none
    rw [Theory.withSearchDepth, Std.TreeMap.getElem?_map, absent]
    rfl
  obtain ⟨theory, defines, searches⟩ := define_extends (s := { s with scopes := [scope] })
    (Theory.searches_sets.withSearchDepth 2) rfl definitionRule_twice new
  have ran : s.run scopedDefinition = { s with scopes := [{ scope with theory }] } := by
    rw [run, scopedDefinition, List.foldl_cons, opened, List.foldl_cons, perform, defines]
    rfl
  have here : (s.run scopedDefinition).frameAt 1 = some { scope with theory } := by
    rw [ran]
    rfl
  obtain ⟨each, same⟩ := default_search_named .sets ⟨2, true⟩ scopedDefinition (.inr rfl)
  obtain ⟨rules, default, registered, -, -⟩ := each 1 _ here
  obtain rfl : rules = Catalogue.combined ++ [Theory.extensionality] ++ [twice] := by
    have equal := default.symm.trans searches.default
    simpa using equal
  exact ⟨_, here, default, registered, same (.prop "D")⟩

end Session

end Sequitur
