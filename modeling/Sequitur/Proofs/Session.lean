import Sequitur.Proofs.Facts
import Sequitur.Proofs.Provenance
import Sequitur.Session

/-! Reasoning in scopes. Whatever commands are given to a session whose rules are sound, a formula
that is known in a frame follows from the formulas that were added and from the assumptions of the
scopes up to that frame. The invariant goes along the stack: each frame rests on the added formulas
and on the assumptions from it downwards, and closing a scope turns its assumptions into a premise. -/

namespace Sequitur

universe u

variable {f g goal : Formula} {fs gs : List Formula} {facts facts' : Facts} {hints : Hints}

/-- In every interpretation in which the unordered symbols of the mentioned formulas are interpreted
as such, and for all values for which the premises are true, the formula is true. -/
def Formula.Follows (mentioned premises : List Formula) (f : Formula) : Prop :=
  ∀ (D : Type u) (I : Interpretation D) (ρ : Variable → D), I.Standard →
    (∀ g ∈ mentioned, g.Respected I) → (∀ g ∈ premises, g.holds I ρ) → f.holds I ρ

/-- What the rule reaches from known formulas follows from them. -/
def Rule.Sound (rule : Rule) : Prop :=
  ∀ fs facts hints goal d, Facts.ofList fs = .ok facts →
    rule.towards facts hints goal = .ok (.reached d) →
    Formula.Follows.{u} (goal :: facts.formulas) facts.formulas goal

/-- A derivation by rules that lose nothing has no step that could be at a negative place. -/
theorem Derivation.positive_of_lossless : ∀ d : Derivation,
    (∀ n ∈ d.nodes, ∀ lossy ∈ Catalogue.lossy, n.rule ≠ some lossy.name) → d.Positive
  | .node rule f premises, lossless => by
    rw [nodes] at lossless
    obtain ⟨here, later⟩ := List.forall_mem_cons.mp lossless
    refine .node (fun p member => ?_) (fun lossy inside name => absurd name (here lossy inside))
    exact positive_of_lossless p fun n node => later n (List.mem_flatMap.mpr ⟨p, member, node⟩)

theorem Facts.Filed.respected {D : Type u} {I : Interpretation D} (filed : facts.Filed)
    (known : ∀ f ∈ facts.formulas, f.Respected I) : facts.Respected I := by
  refine ⟨known, fun p member => ?_⟩
  obtain ⟨inside, ok⟩ := filed.form p member
  have own := known p.2 inside
  exact ⟨Formula.respected_regularForm ok own, own, Formula.holds_regularForm ok own⟩

/-- A search by rules of the catalogue is sound without the three that lose something. -/
theorem Rule.sound_of_lossless {s : Search} (catalogued : ∀ rule ∈ s.rules, rule ∈ Catalogue.rules)
    (lossless : ∀ rule ∈ s.rules, ∀ lossy ∈ Catalogue.lossy, rule.name ≠ lossy.name) :
    Rule.Sound.{u} (.search s) := by
  intro fs facts hints goal d built ok D I ρ standard respected true
  obtain ⟨target, given⟩ := List.forall_mem_cons.mp respected
  have filed := Facts.Filed.ofList built
  have known := filed.respected given
  simp only [Rule.towards, Search.towards, bind_eq_ok] at ok
  obtain ⟨found, run, ok⟩ := ok
  cases found with
  | none => cases ok
  | some last =>
    obtain rfl := Outcome.reached.inj (pure_eq_ok.mp ok)
    have concludes := Search.rounds_concludes standard
      (fun rule member => Catalogue.sound standard rule (catalogued rule member)) filed known target run
    have concluded :
        Search.Concluded facts.formulas (fun name _ => ∃ rule ∈ s.rules, rule.name = name) goal last :=
      Search.rounds_concluded filed.recent (Search.start_traced filed)
        (fun form member => Std.TreeMap.mem_map.mpr member)
        (fun rule outcome applies d member => ⟨rule, applies.mem, rfl⟩) run
    have positive : last.tree.Positive := by
      refine last.tree.positive_of_lossless fun n node lossy inside name => ?_
      obtain ⟨rule, f, premises⟩ := n
      obtain rfl : rule = some lossy.name := name
      obtain ⟨d, ⟨rule, member, named⟩, -⟩ := concluded.recorded _ node
      exact lossless rule member lossy inside named
    refine concludes positive ρ fun f member => true f ?_
    exact concluded.mem_known member

def Theory.Offers (t : Theory) (rule : Rule) : Prop :=
  (∃ name, t.rule? name = some rule) ∨ rule ∈ t.defaults

namespace Session

/-- What a session can be told to do. -/
inductive Command where
  | assume (fs : List Formula)
  | add (f : Formula)
  | deduce (f : Formula) (rule : Option String)
  | yield (f : Formula)
  | addRule (rule : Rule)
  | define (name : String) (lhs rhs : Formula) (description : String)

namespace Command

def formulas : Command → List Formula
  | .assume fs => fs
  | .add f | .deduce f _ | .yield f => [f]
  | .addRule _ => []
  | .define _ lhs rhs _ => [lhs, rhs]

def given : Command → List Formula
  | .add f => [f]
  | _ => []

def keepsRules : Command → Bool
  | .addRule _ | .define _ _ _ _ => false
  | _ => true

end Command

/-- The session after a command, whether it succeeds or fails. -/
def perform (s : Session) : Command → Session
  | .assume fs => (s.assume fs).1
  | .add f => (s.add f).1
  | .deduce f rule => (s.deduce f rule).1
  | .yield f => (s.yield f).1
  | .addRule rule => (s.addRule rule).1
  | .define name lhs rhs description => (s.define name lhs rhs description).1

def run (s : Session) (commands : List Command) : Session := commands.foldl perform s

/-- The frame on top of `k` others, the base frame being the one on top of none. -/
def frameAt (s : Session) (k : Nat) : Option Frame := (s.base :: s.scopes.reverse)[k]?

def assumedTo (s : Session) (k : Nat) : List Formula :=
  (s.scopes.reverse.take k).flatMap Frame.hypotheses

end Session

def Facts.Built (facts : Facts) : Prop := ∃ fs, Facts.ofList fs = .ok facts

namespace Facts

theorem built_empty : Facts.empty.Built := ⟨[], rfl⟩

theorem Built.addAll {count : Nat} (built : facts.Built) (ok : facts.addAll fs = .ok (facts', count)) :
    facts'.Built := by
  obtain ⟨gs, before⟩ := built
  obtain ⟨first, added⟩ := ofList_eq_ok.mp before
  exact ⟨gs ++ fs, ofList_eq_ok.mpr ⟨_, addAll_append added ok⟩⟩

theorem Built.add {new : Bool} (built : facts.Built) (ok : facts.add f = .ok (facts', new)) :
    facts'.Built := by
  have alone : facts.addAll [f] = .ok (facts', if new then 0 + 1 else 0) := by
    simp only [Facts.addAll, ok, bind, Except.bind]
    rfl
  exact built.addAll alone

end Facts

/-- Everything known in the frame is true wherever the premises are, and its rules are sound. -/
structure Frame.Faithful {D : Type u} (I : Interpretation D) (premises : List Formula)
    (frame : Frame) : Prop where
  sound : ∀ rule, frame.theory.Offers rule → Rule.Sound.{u} rule
  built : frame.facts.Built
  respected : frame.facts.Respected I
  assumed : ∀ h ∈ frame.hypotheses, h.Respected I
  holds : ∀ ρ, (∀ g ∈ premises, g.holds I ρ) → ∀ f ∈ frame.facts.formulas, f.holds I ρ

variable {D : Type u} {I : Interpretation D} {frame : Frame} {premises premises' : List Formula}

namespace Frame

namespace Faithful

theorem mono (faithful : frame.Faithful I premises) (more : ∀ g ∈ premises, g ∈ premises') :
    frame.Faithful I premises' where
  sound := faithful.sound
  built := faithful.built
  respected := faithful.respected
  assumed := faithful.assumed
  holds := fun ρ true => faithful.holds ρ fun g member => true g (more g member)

/-- A formula that is true where the premises are may be added. -/
theorem add {new : Bool} (faithful : frame.Faithful I premises) (given : f.Respected I)
    (true : ∀ ρ, (∀ g ∈ premises, g.holds I ρ) → f.holds I ρ)
    (ok : frame.facts.add f = .ok (facts', new)) :
    Faithful I premises { frame with facts := facts' } where
  sound := faithful.sound
  built := faithful.built.add ok
  respected := faithful.respected.add given ok
  assumed := faithful.assumed
  holds := by
    intro ρ premise g member
    rcases Facts.mem_formulas_add ok member with known | rfl
    · exact faithful.holds ρ premise g known
    · exact true ρ premise

/-- What is known up to its regular form is true as well. -/
theorem holds_of_contains (faithful : frame.Faithful I premises) (given : f.Respected I)
    (known : frame.facts.contains f = .ok true) {ρ : Variable → D}
    (true : ∀ g ∈ premises, g.holds I ρ) : f.holds I ρ := by
  simp only [Facts.contains, bind_eq_ok, pure_eq_ok] at known
  obtain ⟨form, ok, filed⟩ := known
  have key : f.key ∈ frame.facts.forms := by
    rw [Formula.key_eq ok, Facts.mem_forms_congr form.bare_bare, ← Std.TreeMap.contains_iff_mem, filed]
  obtain ⟨source, found⟩ := Facts.exists_findIdentical ok key
  obtain ⟨fs, built⟩ := faithful.built
  have listed := ((Facts.Filed.ofList built).findIdentical? found).1
  have same := (faithful.respected.findIdentical? given found).2 ρ
  exact same.mp (faithful.holds ρ true source listed)

end Faithful

theorem assume_faithful {frame' : Frame} (faithful : frame.Faithful I premises)
    (given : ∀ f ∈ fs, f.Respected I) (ok : frame.assume fs = .ok frame') :
    frame'.hypotheses = fs ∧ frame'.Faithful I (premises ++ fs) := by
  simp only [assume, bind_eq_ok, pure_eq_ok] at ok
  obtain ⟨⟨facts, count⟩, added, rfl⟩ := ok
  refine ⟨rfl, faithful.sound, faithful.built.addAll added, faithful.respected.addAll given added,
    given, fun ρ true f member => ?_⟩
  rcases Facts.mem_formulas_addAll added member with known | new
  · exact faithful.holds ρ (fun g inside => true g (List.mem_append_left fs inside)) f known
  · exact true f (List.mem_append_right premises new)

theorem respected_premise (assumed : ∀ h ∈ frame.hypotheses, h.Respected I) (given : f.Respected I) :
    (Formula.imply (.junctionOf .and frame.hypotheses) f).Respected I := by
  refine Formula.respected_link.mpr ⟨?_, given⟩
  unfold Formula.junctionOf
  split
  · rename_i only
    exact assumed _ (by simp [only])
  · exact Formula.respected_multi.mpr assumed

theorem respected_discharge (assumed : ∀ h ∈ frame.hypotheses, h.Respected I)
    (given : f.Respected I) : (frame.discharge f).Respected I := by
  unfold discharge
  split
  · exact given
  · exact (Formula.equivalent_flatten _).kept (respected_premise assumed given)

/-- What is handed down is the formula with the assumptions as its premise. -/
theorem holds_discharge {ρ : Variable → D} (assumed : ∀ h ∈ frame.hypotheses, h.Respected I)
    (given : f.Respected I) : (frame.discharge f).holds I ρ ↔
      ((∀ h ∈ frame.hypotheses, h.holds I ρ) → f.holds I ρ) := by
  unfold discharge
  split
  · rename_i none
    simp [none]
  · have same := (Formula.equivalent_flatten _ (respected_premise assumed given)).2 ρ
    rw [← same, Formula.holds_imply, Formula.holds_junctionOf, Formula.holds_and]

end Frame

namespace Session

variable {s s' : Session} {base : Frame} {scopes : List Frame} {given given' : List Formula}

section Outcomes

/-- Adding a formula fails without a change, or changes what is known in the innermost frame. -/
theorem add_cases (s : Session) (f : Formula) :
    (∃ e, s.frame.facts.add f = .error e ∧ s.add f = (s, .error e)) ∨
      ∃ facts isNew, s.frame.facts.add f = .ok (facts, isNew) ∧
        s.add f = (s.setFrame { s.frame with facts }, .ok isNew) := by
  unfold add
  split
  · rename_i e failed
    exact .inl ⟨e, failed, rfl⟩
  · rename_i facts isNew added
    exact .inr ⟨facts, isNew, added, rfl⟩

theorem assume_cases (s : Session) (fs : List Formula) :
    (∃ e, s.frame.assume fs = .error e ∧ s.assume fs = (s, .error e)) ∨
      ∃ scope, s.frame.assume fs = .ok scope ∧
        s.assume fs = ({ s with scopes := scope :: s.scopes }, .ok ()) := by
  unfold assume
  split
  · rename_i e failed
    exact .inl ⟨e, failed, rfl⟩
  · rename_i scope opened
    exact .inr ⟨scope, opened, rfl⟩

/-- A scope that stays open is left as it was, and one that is closed hands a formula down. -/
theorem yield_cases (s : Session) (f : Formula) :
    ((s.yield f).1 = s ∧ ((s.yield f).2 = .ok none ∨
      (s.yield f).2 = .error .noOpenScope ∧ s.depth = 0 ∨
      ∃ e, s.frame.facts.contains f = .error e ∧ (s.yield f).2 = .error e)) ∨
    ∃ base scope outer settings, s = ⟨base, scope :: outer, settings⟩ ∧
      scope.facts.contains f = .ok true ∧
      s.yield f = (((Session.mk base outer settings).add (scope.discharge f)).1,
        ((Session.mk base outer settings).add (scope.discharge f)).2.map
          fun _ => some (scope.discharge f)) := by
  obtain ⟨base, scopes, settings⟩ := s
  cases scopes with
  | nil => exact .inl ⟨rfl, .inr (.inl ⟨rfl, rfl⟩)⟩
  | cons scope outer =>
    simp only [yield]
    split
    · rename_i e failed
      exact .inl ⟨rfl, .inr (.inr ⟨e, failed, rfl⟩)⟩
    · exact .inl ⟨rfl, .inl rfl⟩
    · rename_i found
      exact .inr ⟨base, scope, outer, settings, rfl, found, rfl⟩

/-- A formula that no rule obtains leaves the session as it was, and one that is obtained is
added. -/
theorem deduce_cases (s : Session) (f : Formula) (rule : Option String) :
    ((s.deduce f rule).1 = s ∧ ((s.deduce f rule).2 = .ok none ∨
      ∃ e, attempt s.frame.facts f (s.tried rule) = .error e ∧ (s.deduce f rule).2 = .error e)) ∨
    ∃ d, attempt s.frame.facts f (s.tried rule) = .ok (some d) ∧
      s.deduce f rule = ((s.add f).1, (s.add f).2.map fun _ => some d) := by
  unfold deduce
  cases attempt s.frame.facts f (s.tried rule) with
  | error e => exact .inl ⟨rfl, .inr ⟨e, rfl, rfl⟩⟩
  | ok found =>
    cases found with
    | none => exact .inl ⟨rfl, .inl rfl⟩
    | some d => exact .inr ⟨d, rfl, rfl⟩

end Outcomes

/-- Each frame rests on what was given and on the assumptions from it downwards. -/
def StackFaithful (I : Interpretation D) (given : List Formula) (base : Frame) : List Frame → Prop
  | [] => base.Faithful I given
  | frame :: outer => frame.Faithful I (given ++ (frame :: outer).flatMap Frame.hypotheses) ∧
      StackFaithful I given base outer

def Faithful (I : Interpretation D) (given : List Formula) (s : Session) : Prop :=
  StackFaithful I given s.base s.scopes

theorem StackFaithful.mono (faithful : StackFaithful I given base scopes)
    (more : ∀ g ∈ given, g ∈ given') : StackFaithful I given' base scopes := by
  induction scopes with
  | nil => exact Frame.Faithful.mono faithful more
  | cons frame outer ih =>
    refine ⟨faithful.1.mono fun g member => ?_, ih faithful.2⟩
    exact List.mem_append.mpr ((List.mem_append.mp member).imp_left (more g))

namespace Faithful

theorem innermost (faithful : s.Faithful I given) :
    s.frame.Faithful I (given ++ s.scopes.flatMap Frame.hypotheses) := by
  obtain ⟨base, scopes, settings⟩ := s
  cases scopes with
  | nil => exact Frame.Faithful.mono faithful fun g member => List.mem_append_left _ member
  | cons scope outer => exact faithful.1

theorem setFrame {frame' : Frame} (faithful : s.Faithful I given)
    (same : frame'.assumptions = s.frame.assumptions)
    (here : frame'.Faithful I (given ++ s.scopes.flatMap Frame.hypotheses)) :
    (s.setFrame frame').Faithful I given := by
  obtain ⟨base, scopes, settings⟩ := s
  cases scopes with
  | nil => exact here.mono fun g member => by simpa using member
  | cons scope outer =>
    have hypotheses : frame'.hypotheses = scope.hypotheses := by
      rw [Frame.hypotheses, same]
      rfl
    refine ⟨?_, faithful.2⟩
    rw [List.flatMap_cons, hypotheses]
    rwa [List.flatMap_cons] at here

/-- A formula that is true in the innermost frame may be added there. -/
theorem add (faithful : s.Faithful I given) (known : f.Respected I)
    (true : ∀ ρ, (∀ g ∈ given ++ s.scopes.flatMap Frame.hypotheses, g.holds I ρ) → f.holds I ρ) :
    (s.add f).1.Faithful I given := by
  rcases add_cases s f with ⟨e, -, failed⟩ | ⟨facts, isNew, added, ok⟩
  · rw [failed]
    exact faithful
  · rw [ok]
    exact faithful.setFrame rfl (faithful.innermost.add known true added)

theorem assume (faithful : s.Faithful I given) (known : ∀ f ∈ fs, f.Respected I) :
    (s.assume fs).1.Faithful I given := by
  rcases assume_cases s fs with ⟨e, -, failed⟩ | ⟨frame, opened, ok⟩
  · rw [failed]
    exact faithful
  · rw [ok]
    obtain ⟨hypotheses, here⟩ := Frame.assume_faithful faithful.innermost known opened
    refine ⟨here.mono fun g member => ?_, faithful⟩
    rw [List.flatMap_cons, hypotheses]
    simp only [List.mem_append] at member ⊢
    tauto

/-- Closing a scope turns what follows from its assumptions into an implication that follows
without them. -/
theorem yield (faithful : s.Faithful I given) (known : f.Respected I) :
    (s.yield f).1.Faithful I given := by
  rcases yield_cases s f with ⟨same, -⟩ | ⟨base, scope, outer, settings, rfl, found, ok⟩
  · rwa [same]
  · rw [ok]
    have below : (⟨base, outer, settings⟩ : Session).Faithful I given := faithful.2
    apply below.add (Frame.respected_discharge faithful.1.assumed known)
    intro ρ true
    apply (Frame.holds_discharge faithful.1.assumed known).mpr
    intro assumed
    apply faithful.1.holds_of_contains known found
    intro g member
    rw [List.flatMap_cons] at member
    simp only [List.mem_append] at member true
    rcases member with inside | inside | inside
    · exact true g (.inl inside)
    · exact assumed g inside
    · exact true g (.inr inside)

end Faithful

theorem exists_rule_of_attempt {rules : List Rule} {d : Deduction}
    (ok : attempt facts goal rules = .ok (some d)) :
    ∃ rule ∈ rules, rule.towards facts {} goal = .ok (.reached d) := by
  induction rules with
  | nil => cases ok
  | cons rule rules ih =>
    simp only [attempt, bind_eq_ok] at ok
    obtain ⟨outcome, here, ok⟩ := ok
    cases outcome with
    | reached e =>
      obtain rfl := Option.some.inj (pure_eq_ok.mp ok)
      exact ⟨rule, List.mem_cons_self, here⟩
    | candidates ds =>
      obtain ⟨other, member, found⟩ := ih ok
      exact ⟨other, List.mem_cons_of_mem rule member, found⟩

/-- What is tried is the named rule or a default. -/
theorem offers_of_tried {name : Option String} {rule : Rule} (member : rule ∈ s.tried name) :
    s.frame.theory.Offers rule := by
  unfold tried at member
  split at member
  · rename_i only named
    obtain ⟨n, -, registered⟩ := Option.bind_eq_some_iff.mp named
    exact .inl ⟨n, List.mem_singleton.mp member ▸ registered⟩
  · exact .inr member

theorem Faithful.deduce {name : Option String} (standard : I.Standard) (faithful : s.Faithful I given)
    (known : f.Respected I) : (s.deduce f name).1.Faithful I given := by
  rcases deduce_cases s f name with ⟨same, -⟩ | ⟨d, found, ok⟩
  · rwa [same]
  · rw [ok]
    obtain ⟨rule, member, reached⟩ := exists_rule_of_attempt found
    have here := faithful.innermost
    obtain ⟨fs, built⟩ := here.built
    apply faithful.add known
    intro ρ true
    have sound := here.sound rule (offers_of_tried member) fs _ _ _ _ built reached
    apply sound D I ρ standard _ (here.holds ρ true)
    exact List.forall_mem_cons.mpr ⟨known, here.respected.formula⟩

/-- What one command keeps. -/
theorem Faithful.perform {command : Command} (standard : I.Standard) (faithful : s.Faithful I given)
    (known : ∀ f ∈ command.formulas, f.Respected I) (plain : command.keepsRules = true) :
    (s.perform command).Faithful I (given ++ command.given) := by
  have more : s.Faithful I (given ++ command.given) :=
    StackFaithful.mono faithful fun g member => List.mem_append_left _ member
  cases command with
  | assume fs => exact more.assume known
  | add f =>
    apply more.add (known f (List.mem_singleton_self f))
    intro ρ true
    exact true f (by simp [Command.given])
  | deduce f rule => exact more.deduce standard (known f (List.mem_singleton_self f))
  | yield f => exact more.yield (known f (List.mem_singleton_self f))
  | addRule rule => cases plain
  | define name lhs rhs description => cases plain

/-- What any number of commands keeps. -/
theorem Faithful.run {commands : List Command} (standard : I.Standard) (faithful : s.Faithful I given)
    (known : ∀ f ∈ commands.flatMap Command.formulas, f.Respected I)
    (plain : ∀ command ∈ commands, command.keepsRules = true) :
    (s.run commands).Faithful I (given ++ commands.flatMap Command.given) := by
  induction commands generalizing s given with
  | nil => simpa [Session.run] using faithful
  | cons command commands ih =>
    rw [List.flatMap_cons] at known ⊢
    obtain ⟨here, later⟩ := List.forall_mem_append.mp known
    obtain ⟨first, rest⟩ := List.forall_mem_cons.mp plain
    rw [← List.append_assoc]
    exact ih (faithful.perform standard here first) later rest

theorem start_faithful {theory : Theory} {settings : Settings}
    (sound : ∀ rule, (start theory settings).frame.theory.Offers rule → Rule.Sound.{u} rule) :
    (start theory settings).Faithful I [] :=
  ⟨sound, Facts.built_empty, .empty, by simp [start, Frame.base, Frame.hypotheses],
    by simp [start, Frame.base, Facts.empty]⟩

/-- The frame on top of `k` others rests on the assumptions of the first `k` scopes. -/
theorem StackFaithful.frameAt {k : Nat} (faithful : StackFaithful I given base scopes)
    (here : (base :: scopes.reverse)[k]? = some frame) :
    frame.Faithful I (given ++ (scopes.reverse.take k).flatMap Frame.hypotheses) := by
  induction scopes with
  | nil =>
    rw [List.reverse_nil, List.getElem?_singleton] at here
    split at here
    · obtain rfl := Option.some.inj here
      exact Frame.Faithful.mono faithful fun g member => List.mem_append_left _ member
    · cases here
  | cons scope outer ih =>
    rw [List.reverse_cons] at here ⊢
    rw [← List.cons_append, List.getElem?_append] at here
    split at here
    · rename_i below
      have short : k ≤ outer.reverse.length := Nat.le_of_lt_succ below
      rw [List.take_append_of_le_length short]
      exact ih faithful.2 here
    · -- The frame is the outermost scope of the list, and all the assumptions are below it.
      rename_i above
      rw [List.getElem?_singleton] at here
      split at here
      · obtain rfl := Option.some.inj here
        have all : (outer.reverse ++ [scope]).length ≤ k := by
          rw [List.length_append, List.length_singleton]
          exact Nat.le_of_not_lt above
        rw [List.take_of_length_le all]
        refine faithful.1.mono fun g member => ?_
        simpa [or_comm, or_left_comm] using member
      · cases here

/-- In a session whose rules are sound, and which is told to assume, to add, to deduce and to close
scopes in any order: what is known in the frame at depth `k` follows from the formulas that were
added and the assumptions of the scopes up to that depth. -/
theorem known_follows {theory : Theory} {settings : Settings} {commands : List Command} {k : Nat}
    (sound : ∀ rule, (start theory settings).frame.theory.Offers rule → Rule.Sound.{u} rule)
    (plain : ∀ command ∈ commands, command.keepsRules = true)
    (here : ((start theory settings).run commands).frameAt k = some frame) :
    (∀ f ∈ frame.facts.formulas, Formula.Follows.{u} (commands.flatMap Command.formulas)
      (commands.flatMap Command.given ++ ((start theory settings).run commands).assumedTo k) f) ∧
    ∀ f, frame.facts.contains f = .ok true →
      Formula.Follows.{u} (f :: commands.flatMap Command.formulas)
        (commands.flatMap Command.given ++ ((start theory settings).run commands).assumedTo k) f := by
  have at_depth {D : Type u} {I : Interpretation D} (standard : I.Standard)
      (known : ∀ f ∈ commands.flatMap Command.formulas, f.Respected I) :
      frame.Faithful I (commands.flatMap Command.given ++
        ((start theory settings).run commands).assumedTo k) :=
    ((start_faithful sound).run standard known plain).frameAt here
  constructor
  · intro f member D I ρ standard known true
    exact (at_depth standard known).holds ρ true f member
  · intro f contained D I ρ standard known true
    obtain ⟨own, known⟩ := List.forall_mem_cons.mp known
    exact (at_depth standard known).holds_of_contains own contained true

def joining : Theory where
  name := "joining"
  defaults := [.search ⟨[.flattening, .conjunction, .modusPonens], Catalogue.defaultDepth⟩]

theorem joining_sound (rule : Rule) (offered : (start joining {}).frame.theory.Offers rule) :
    Rule.Sound.{u} rule := by
  rcases offered with ⟨name, registered⟩ | member
  · cases registered
  · obtain rfl := List.mem_singleton.mp member
    apply Rule.sound_of_lossless
    · simp [Catalogue.rules, Catalogue.combined]
    · intro step inside lossy
      simp only [List.mem_cons, List.not_mem_nil, or_false, Catalogue.lossy] at inside ⊢
      rcases inside with rfl | rfl | rfl <;> rintro (rfl | rfl | rfl) <;> decide

/-- Where `A` is assumed on top of `A → B`, a scope with the assumption `C` is closed with
`B ∧ C`. -/
def nested : List Command := [
  .add (.imply (.prop "A") (.prop "B")),
  .assume [.prop "A"],
  .assume [.prop "C"],
  .deduce (.and [.prop "B", .prop "C"]) none,
  .yield (.and [.prop "B", .prop "C"])]

/-- What is handed down rests on what was added and on `A`. -/
theorem known_follows_nested :
    ∃ frame, ((start joining {}).run nested).frameAt 1 = some frame ∧
      .imply (.prop "C") (.and [.prop "B", .prop "C"]) ∈ frame.facts.formulas ∧
      Formula.Follows.{0} (nested.flatMap Command.formulas)
        [.imply (.prop "A") (.prop "B"), .prop "A"]
        (.imply (.prop "C") (.and [.prop "B", .prop "C"])) := by
  have known : (((start joining {}).run nested).frameAt 1).map (·.facts.formulas) =
      some [.imply (.prop "A") (.prop "B"), .prop "A",
        .imply (.prop "C") (.and [.prop "B", .prop "C"])] := by cbv
  have assumed : ((start joining {}).run nested).assumedTo 1 = [.prop "A"] := by cbv
  obtain ⟨frame, here, formulas⟩ := Option.map_eq_some_iff.mp known
  have member : .imply (.prop "C") (.and [.prop "B", .prop "C"]) ∈ frame.facts.formulas := by
    simp [formulas]
  have follows := (known_follows joining_sound (by decide) here).1 _ member
  rw [assumed] at follows
  exact ⟨frame, here, member, follows⟩

end Session

end Sequitur
