import Sequitur.Proofs.Overflow
import Sequitur.Proofs.Session

/-! Scopes are closed off. A command changes the innermost frame, opens a scope or closes one, and
never writes further down. So whatever is done in a scope, all that is left of it once it is closed
is the formula that was handed down. -/

namespace Sequitur

/-- What a command can do to a theory. -/
inductive Theory.Grows : Theory → Theory → Prop
  | same (t : Theory) : Grows t t
  | registers {t t' : Theory} {rule : Rule} : t.addRule rule = .ok t' → Grows t t'
  | combines {t t' t'' : Theory} {rule : Rule} : t.addRule rule = .ok t' →
      t'.addToSearches rule = .ok t'' → Grows t t''

namespace Session

variable {s s' t t' : Session} {f : Formula} {fs : List Formula}

@[simp] theorem frame_setFrame (s : Session) (frame : Frame) : (s.setFrame frame).frame = frame := by
  obtain ⟨base, _ | ⟨scope, outer⟩, settings⟩ := s <;> rfl

@[simp] theorem setFrame_frame (s : Session) : s.setFrame s.frame = s := by
  obtain ⟨base, _ | ⟨scope, outer⟩, settings⟩ := s <;> rfl

@[simp] theorem setFrame_setFrame (s : Session) (first second : Frame) :
    (s.setFrame first).setFrame second = s.setFrame second := by
  obtain ⟨base, _ | ⟨scope, outer⟩, settings⟩ := s <;> rfl

@[simp] theorem depth_setFrame (s : Session) (frame : Frame) : (s.setFrame frame).depth = s.depth := by
  obtain ⟨base, _ | ⟨scope, outer⟩, settings⟩ := s <;> rfl

inductive Moves : Session → Session → Prop
  | stays (s : Session) : Moves s s
  | changes {s : Session} {frame : Frame} : s.frame.theory.Grows frame.theory →
      Moves s (s.setFrame frame)
  | opens {s : Session} {frame : Frame} : frame.theory = s.frame.theory →
      Moves s { s with scopes := frame :: s.scopes }
  | closes {base scope frame : Frame} {outer : List Frame} {settings : Settings} :
      frame.theory = (Session.mk base outer settings).frame.theory →
      Moves ⟨base, scope :: outer, settings⟩ ((Session.mk base outer settings).setFrame frame)

theorem moves_add (s : Session) (f : Formula) : Moves s (s.add f).1 := by
  rcases add_cases s f with ⟨e, -, failed⟩ | ⟨facts, isNew, -, ok⟩
  · rw [failed]
    exact .stays s
  · rw [ok]
    exact .changes (.same _)

theorem addRule_cases (s : Session) (rule : Rule) :
    (∃ e, s.frame.theory.addRule rule = .error e ∧ s.addRule rule = (s, .error e)) ∨
      ∃ theory, s.frame.theory.addRule rule = .ok theory ∧
        s.addRule rule = (s.setFrame { s.frame with theory }, .ok ()) := by
  unfold addRule
  split
  · rename_i e failed
    exact .inl ⟨e, failed, rfl⟩
  · rename_i theory registers
    exact .inr ⟨theory, registers, rfl⟩

theorem addToSearches_cases (s : Session) (rule : Rule) :
    (∃ e, s.frame.theory.addToSearches rule = .error e ∧ s.addToSearches rule = (s, .error e)) ∨
      ∃ theory, s.frame.theory.addToSearches rule = .ok theory ∧
        s.addToSearches rule = (s.setFrame { s.frame with theory }, .ok ()) := by
  unfold addToSearches
  split
  · rename_i e failed
    exact .inl ⟨e, failed, rfl⟩
  · rename_i theory combines
    exact .inr ⟨theory, combines, rfl⟩

/-- A definition changes the theory of the innermost frame. -/
theorem define_cases (s : Session) (name : String) (lhs rhs : Formula) (description : String) :
    ∃ theory, s.frame.theory.Grows theory ∧
      (s.define name lhs rhs description).1 = s.setFrame { s.frame with theory } := by
  have nothing : s = s.setFrame { s.frame with theory := s.frame.theory } := (setFrame_frame s).symm
  unfold define
  split
  · exact ⟨s.frame.theory, .same _, nothing⟩
  · rename_i rule _
    rcases addRule_cases s rule with ⟨e, -, refused⟩ | ⟨theory, registers, registered⟩
    · rw [refused]
      exact ⟨s.frame.theory, .same _, nothing⟩
    · rw [registered]
      simp only
      split
      · rcases addToSearches_cases (s.setFrame { s.frame with theory }) rule with
          ⟨e, -, refused⟩ | ⟨theory', combines, extended⟩
        · rw [refused]
          exact ⟨theory, .registers registers, rfl⟩
        · rw [extended]
          rw [frame_setFrame] at combines
          refine ⟨theory', .combines registers combines, ?_⟩
          rw [frame_setFrame, setFrame_setFrame]
      · exact ⟨theory, .registers registers, rfl⟩

/-- Every command, whether it succeeds or fails, is one of these moves. -/
theorem moves_perform (s : Session) (command : Command) : Moves s (s.perform command) := by
  cases command with
  | assume fs =>
    rw [perform]
    rcases assume_cases s fs with ⟨e, -, failed⟩ | ⟨scope, opened, ok⟩
    · rw [failed]
      exact .stays s
    · rw [ok]
      simp only [Frame.assume, bind_eq_ok, pure_eq_ok] at opened
      obtain ⟨_, -, rfl⟩ := opened
      exact .opens rfl
  | add f => exact moves_add s f
  | deduce f rule =>
    rw [perform]
    rcases deduce_cases s f rule with ⟨same, -⟩ | ⟨d, -, ok⟩
    · rw [same]
      exact .stays s
    · rw [ok]
      exact moves_add s f
  | yield f =>
    rw [perform]
    rcases yield_cases s f with ⟨same, -⟩ | ⟨base, scope, outer, settings, rfl, -, ok⟩
    · rw [same]
      exact .stays s
    · rw [ok]
      rcases add_cases ⟨base, outer, settings⟩ (scope.discharge f) with
        ⟨e, -, failed⟩ | ⟨facts, isNew, -, added⟩
      · -- The scope is gone although nothing was handed down.
        rw [failed, ← setFrame_frame ⟨base, outer, settings⟩]
        exact .closes rfl
      · rw [added]
        exact .closes rfl
  | addRule rule =>
    rw [perform]
    rcases addRule_cases s rule with ⟨e, -, refused⟩ | ⟨theory, registers, ok⟩
    · rw [refused]
      exact .stays s
    · rw [ok]
      exact .changes (.registers registers)
  | define name lhs rhs description =>
    obtain ⟨theory, grows, same⟩ := define_cases s name lhs rhs description
    rw [perform, same]
    exact .changes grows

/-- The session `t` is in a scope that was opened in `s`: there are frames on top, and all that `s`
has lies unchanged below them. -/
def Within (s t : Session) : Prop :=
  ∃ frame inner, t = { s with scopes := frame :: (inner ++ s.scopes) }

namespace Within

theorem assume (ok : s.assume fs = (t, .ok ())) : Within s t := by
  rcases assume_cases s fs with ⟨e, -, failed⟩ | ⟨scope, -, opened⟩
  · cases failed.symm.trans ok
  · obtain ⟨rfl, -⟩ := Prod.mk.inj (opened.symm.trans ok)
    exact ⟨scope, [], rfl⟩

/-- A move that does not close the scope leaves what is below it alone. -/
theorem step (within : Within s t) (moves : Moves t t') (above : s.depth < t'.depth) : Within s t' := by
  obtain ⟨frame, inner, same⟩ := within
  cases moves with
  | stays => exact ⟨frame, inner, same⟩
  | @changes _ frame' _ =>
    subst same
    exact ⟨frame', inner, rfl⟩
  | @opens _ frame' _ =>
    subst same
    exact ⟨frame', frame :: inner, rfl⟩
  | @closes base scope frame' outer settings _ =>
    obtain ⟨rfl, scopes, rfl⟩ := Session.mk.inj same
    obtain ⟨rfl, rfl⟩ := List.cons.inj scopes
    cases inner with
    | nil =>
      -- The scope itself would be closed, and the depth back at that of `s`.
      rw [depth_setFrame] at above
      exact absurd above (Nat.lt_irrefl _)
    | cons _ inner => exact ⟨frame', inner, rfl⟩

theorem run {commands : List Command} (within : Within s t)
    (above : ∀ earlier, earlier <+: commands → s.depth < (t.run earlier).depth) :
    Within s (t.run commands) := by
  induction commands generalizing t with
  | nil => exact within
  | cons command commands ih =>
    have first : s.depth < (t.perform command).depth :=
      above [command] (List.cons_prefix_cons.mpr ⟨rfl, List.nil_prefix⟩)
    refine ih (within.step (moves_perform t command) first) fun earlier before => ?_
    exact above (command :: earlier) (List.cons_prefix_cons.mpr ⟨rfl, before⟩)

/-- Once the scope is closed, the session is as it was, but for the formula handed down. -/
theorem yield {result : Formula} (within : Within s t) (closes : t.yield f = (s', .ok (some result)))
    (back : s'.depth = s.depth) : ∃ isNew, s.add result = (s', .ok isNew) := by
  obtain ⟨frame, inner, rfl⟩ := within
  rcases yield_cases _ f with ⟨-, stays⟩ | ⟨base, scope, outer, settings, same, -, ok⟩
  · rw [closes] at stays
    rcases stays with none | ⟨failed, -⟩ | ⟨e, -, failed⟩
    · cases none
    · cases failed
    · cases failed
  · obtain ⟨rfl, scopes, rfl⟩ := Session.mk.inj same
    obtain ⟨rfl, rfl⟩ := List.cons.inj scopes
    rw [ok] at closes
    rcases add_cases ⟨s.base, inner ++ s.scopes, s.settings⟩ (frame.discharge f) with
      ⟨e, -, failed⟩ | ⟨facts, isNew, -, added⟩
    · rw [failed] at closes
      cases closes
    · rw [added] at closes
      obtain ⟨rfl, handed⟩ := Prod.mk.inj closes
      obtain rfl : frame.discharge f = result := by simpa [Except.map] using handed
      have none : inner = [] := by
        rw [depth_setFrame] at back
        simpa [depth] using back
      subst none
      exact ⟨isNew, added⟩

end Within

/-- Closing a scope is refused if none is open. In any other failure an index overflows, and then
the scope may be closed already. -/
theorem error_of_yield {e : Error} (failed : s.yield f = (s', .error e)) :
    (e = .noOpenScope ∧ s.depth = 0 ∧ s' = s) ∨ (e = .indexOverflow ∧
      (s' = s ∨ s.contains f = .ok true ∧ s' = { s with scopes := s.scopes.tail })) := by
  rcases yield_cases s f with ⟨same, ended⟩ | ⟨base, scope, outer, settings, rfl, found, ok⟩
  · rw [failed] at same ended
    rcases ended with none | ⟨refused, level⟩ | ⟨e', overflows, equal⟩
    · cases none
    · exact .inl ⟨Except.error.inj refused, level, same⟩
    · obtain rfl := Except.error.inj equal
      have overflow : OnlyOverflows (s.frame.facts.contains f) :=
        .bind f.onlyOverflows_regularForm fun _ => .pure _
      exact .inr ⟨overflow e overflows, .inl same⟩
  · rw [ok] at failed
    rcases add_cases ⟨base, outer, settings⟩ (scope.discharge f) with
      ⟨e', overflows, added⟩ | ⟨facts, isNew, -, added⟩
    · rw [added] at failed
      obtain ⟨rfl, equal⟩ := Prod.mk.inj failed
      obtain rfl := Except.error.inj equal
      exact .inr ⟨Facts.onlyOverflows_add _ e' overflows, .inr ⟨found, rfl⟩⟩
    · rw [added] at failed
      cases failed

theorem unchanged_of_yield (ok : s.yield f = (s', .ok none)) : s' = s := by
  rcases yield_cases s f with ⟨same, -⟩ | ⟨base, scope, outer, settings, -, -, closes⟩
  · rwa [ok] at same
  · rw [closes] at ok
    cases added : ((Session.mk base outer settings).add (scope.discharge f)).2 <;>
      simp [added, Except.map] at ok

theorem unchanged_of_deduce {rule : Option String} (ok : s.deduce f rule = (s', .ok none)) :
    s' = s := by
  rcases deduce_cases s f rule with ⟨same, -⟩ | ⟨d, -, reached⟩
  · rwa [ok] at same
  · rw [reached] at ok
    cases added : (s.add f).2 <;> simp [added, Except.map] at ok

theorem exists_rule_of_attempt_error {facts : Facts} {goal : Formula} {rules : List Rule} {e : Error}
    (failed : attempt facts goal rules = .error e) :
    ∃ rule ∈ rules, rule.towards facts {} goal = .error e := by
  induction rules with
  | nil => cases failed
  | cons rule rules ih =>
    rw [attempt, bind_eq_error] at failed
    rcases failed with here | ⟨outcome, -, later⟩
    · exact ⟨rule, List.mem_cons_self, here⟩
    · cases outcome with
      | reached d => cases later
      | candidates ds =>
        obtain ⟨other, member, found⟩ := ih later
        exact ⟨other, List.mem_cons_of_mem rule member, found⟩

/-- A deduction fails if a rule that it tries fails on what is known, and then it changes nothing. -/
theorem error_of_deduce {rule : Option String} {e : Error}
    (failed : s.deduce f rule = (s', .error e)) :
    s' = s ∧ (e = .indexOverflow ∨
      ∃ r, s.frame.theory.Offers r ∧ r.towards s.frame.facts {} f = .error e) := by
  rcases deduce_cases s f rule with ⟨same, ended⟩ | ⟨d, -, ok⟩
  · rw [failed] at same ended
    refine ⟨same, .inr ?_⟩
    rcases ended with none | ⟨e', fails, equal⟩
    · cases none
    · obtain rfl := Except.error.inj equal
      obtain ⟨r, member, fails⟩ := exists_rule_of_attempt_error fails
      exact ⟨r, offers_of_tried member, fails⟩
  · rw [ok] at failed
    rcases add_cases s f with ⟨e', overflows, added⟩ | ⟨facts, isNew, -, added⟩
    · rw [added] at failed
      obtain ⟨rfl, equal⟩ := Prod.mk.inj failed
      obtain rfl := Except.error.inj equal
      exact ⟨rfl, .inl (Facts.onlyOverflows_add f e' overflows)⟩
    · rw [added] at failed
      cases failed

/-- A scope is closed off. Whatever is done after `s.assume fs` without going back to the depth of
`s`, and whether it succeeds or fails, once the scope is closed the session is `s` with the formula
that was handed down added to it. Closing and deducing that have no result change nothing. Neither
does closing that is refused, for want of an open scope, and neither does a deduction that fails,
with a rule it tries. An overflow is no refusal: it stops a closing at whatever was done by then. -/
theorem scopes_isolated (s : Session) :
    (∀ fs commands f result opened closed, s.assume fs = (opened, .ok ()) →
      (∀ earlier, earlier <+: commands → s.depth < (opened.run earlier).depth) →
      (opened.run commands).yield f = (closed, .ok (some result)) → closed.depth = s.depth →
      ∃ isNew, s.add result = (closed, .ok isNew)) ∧
    (∀ f s', s.yield f = (s', .ok none) → s' = s) ∧
    (∀ f s' e, s.yield f = (s', .error e) → (e = .noOpenScope ∧ s.depth = 0 ∧ s' = s) ∨
      (e = .indexOverflow ∧
        (s' = s ∨ s.contains f = .ok true ∧ s' = { s with scopes := s.scopes.tail }))) ∧
    (∀ f rule s', s.deduce f rule = (s', .ok none) → s' = s) ∧
    ∀ f rule s' e, s.deduce f rule = (s', .error e) → s' = s ∧
      (e = .indexOverflow ∨
        ∃ r, s.frame.theory.Offers r ∧ r.towards s.frame.facts {} f = .error e) := by
  refine ⟨?_, ?_, ?_, ?_, ?_⟩
  · intro fs commands f result opened closed opens above closes back
    exact ((Within.assume opens).run above).yield closes back
  · intro f s' ok
    exact unchanged_of_yield ok
  · intro f s' e failed
    exact error_of_yield failed
  · intro f rule s' ok
    exact unchanged_of_deduce ok
  · intro f rule s' e failed
    exact error_of_deduce failed

/-- In a scope: another one that is opened and closed, a formula that is not known, a new rule. -/
def busy : List Command := [
  .assume [.prop "C"],
  .deduce (.and [.prop "B", .prop "C"]) none,
  .yield (.and [.prop "B", .prop "C"]),
  .yield (.prop "D"),
  .deduce (.prop "D") none,
  .addRule (.inference .conjunction),
  .deduce (.and [.prop "B", .prop "A"]) none]

def outside : Session := (start joining {}).perform (.add (.imply (.prop "A") (.prop "B")))

def inside : Session := outside.perform (.assume [.prop "A"])

def handed : Formula := .imply (.prop "A") (.and [.prop "B", .prop "A"])

/-- None of what is done in the scope is left when it is closed, and no other scope can be closed
then. -/
theorem scopes_isolated_busy :
    ∃ closed isNew, outside.assume [.prop "A"] = (inside, .ok ()) ∧
      (inside.run busy).formulas.length = 4 ∧ (inside.run busy).frame.theory.rules.size = 1 ∧
      (inside.run busy).yield (.and [.prop "B", .prop "A"]) = (closed, .ok (some handed)) ∧
      outside.add handed = (closed, .ok isNew) ∧
      closed.yield handed = (closed, .error .noOpenScope) := by
  have evaluated : ((outside.assume [.prop "A"]).2,
      busy.inits.map (fun earlier => (inside.run earlier).depth),
      (inside.run busy).formulas.length, (inside.run busy).frame.theory.rules.size,
      ((inside.run busy).yield (.and [.prop "B", .prop "A"])).2,
      ((inside.run busy).yield (.and [.prop "B", .prop "A"])).1.depth) =
      (.ok (), [1, 2, 2, 1, 1, 1, 1, 1], 4, 1, .ok (some handed), 0) := by cbv
  simp only [Prod.mk.injEq] at evaluated
  obtain ⟨opens, depths, formulas, rules, closes, back⟩ := evaluated
  have level : outside.depth = 0 := by cbv
  have above (earlier : List Command) (before : earlier <+: busy) :
      outside.depth < (inside.run earlier).depth := by
    have member := List.mem_map_of_mem (f := fun earlier => (inside.run earlier).depth)
      ((List.mem_inits earlier busy).mpr before)
    rw [depths] at member
    have positive : ∀ depth ∈ [1, 2, 2, 1, 1, 1, 1, 1], 0 < depth := by decide
    exact level ▸ positive _ member
  obtain ⟨isNew, added⟩ := (scopes_isolated outside).1 _ busy _ _ _ _ (Prod.ext rfl opens) above
    (Prod.ext rfl closes) (back.trans level.symm)
  have refused : (outside.add handed).1.yield handed = ((outside.add handed).1, .error .noOpenScope) := by
    cbv
  rw [added] at refused
  exact ⟨_, isNew, Prod.ext rfl opens, formulas, rules, Prod.ext rfl closes, added, refused⟩

end Session

end Sequitur
