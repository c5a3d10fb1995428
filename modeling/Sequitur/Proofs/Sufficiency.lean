import Sequitur.Proofs.Queue

/-! A search again, from the dependencies of its goal alone. The second run knows less in every round
and so finds room where the first did, and in the round in which the first reaches the goal the same
rule has its premises in the second. -/

namespace Sequitur

open Saturation

variable {f g h goal target : Formula} {hints : Hints} {rule : Inference} {rules : List Inference}
  {P : Symbol → Prop} {facts facts' : Facts} {frontier frontier' : FormulaSet}
  {reached reached' : ReachedForms} {deps : List Formula}

theorem Saturation.next_of_more {K K' : Formula → Prop} (more : ∀ form, K form → K' form)
    (there : next P rules hints goal K f) : next P rules hints goal K' f := by
  rcases there with known | ⟨rule, g, ⟨member, fs, premises, yields⟩, same⟩
  · exact .inl (more f known)
  · exact .inr ⟨rule, g, ⟨member, fs, fun f inside => (premises f inside).imp_right (more f), yields⟩,
      same⟩

namespace Search

variable {p p' q : Progress} {first : List Inference} {d : Deduction} {ds : List Deduction}

theorem round_append_of_reached {last : Deduction} {before after : List Inference}
    (ok : round facts frontier hints goal p before = .ok (.inl last)) :
    round facts frontier hints goal p (before ++ after) = .ok (.inl last) := by
  obtain ⟨before, rule, others, between, d, rfl, okb, oka, okc⟩ := exists_last ok
  rw [List.append_assoc, List.cons_append, round_append okb, round, oka]
  simp only [bind, Except.bind, okc]
  rfl

/-- A step from one formula rests on what that rests on. -/
theorem dependencies_conclude {last : Deduction} {r : Step} {form root : Formula}
    (ok : conclude reached d = .ok last) (one : d.dependencies = [f])
    (okf : f.regularForm = .ok form) (found : reached[form]? = some r) (roots : r.roots = [root]) :
    last.dependencies = [root] := by
  have premises : withForms d.dependencies = .ok [(form, f)] := by
    rw [one, withForms, okf]
    rfl
  simp only [conclude, step, premises, bind_eq_ok, pure_eq_ok] at ok
  obtain ⟨r', ⟨_, equal, rfl⟩, rfl⟩ := ok
  obtain rfl := Except.ok.inj equal
  simp [rootsOf, found, roots, addRoot]

/-- A rule that yields the goal from what is known reaches it. -/
theorem Begins.reached_of_obtains {outcome : Outcome}
    (begins : Begins P rules hints goal facts frontier reached) (single : Symbol.Single P)
    (uniform : rule.Uniform) (obtains : Obtains P rules hints goal (· ∈ facts.forms) rule g)
    (meets : rule.Meets goal g) (ok : rule.advance facts frontier hints goal = .ok outcome) :
    ∃ d, outcome = .reached d := by
  obtain ⟨member, fs, known, yields⟩ := obtains
  cases outcome with
  | reached d => exact ⟨d, rfl⟩
  | candidates own =>
    by_cases touches : fs = [] ∨ ∃ f ∈ fs, f ∈ frontier
    · exact absurd meets
        (Inference.candidates_of_yields begins.made single uniform ok yields known touches).1
    · -- older premises alone
      simp only [not_or, not_exists, not_and] at touches
      exact absurd meets (begins.settled rule member fs g touches.1 known touches.2 yields).1

def Spacious (P : Symbol → Prop) (rules : List Inference) (hints : Hints) (facts : Facts)
    (frontier : FormulaSet) : Prop :=
  ∀ rule ∈ rules, ∀ f, f.Regular P → f ∈ facts.forms → f ∉ frontier → rule.Roomy hints f

theorem spacious_regularForms : Spacious P rules hints facts facts.regularForms :=
  fun _ _ _ _ known older => absurd (Facts.mem_regularForms known) older

/-- After a round without the goal there is room for what its rules make of anything known. -/
theorem Spacious.roomy (spacious : Spacious P rules hints facts frontier) (single : Symbol.Single P)
    (uniform : ∀ rule ∈ rules, rule.Uniform) (made : facts.MadeOf P frontier)
    (fewer : ∀ rule ∈ first, rule ∈ rules)
    (ok : round facts frontier hints goal p first = .ok (.inr q)) :
    ∀ rule ∈ first, ∀ f, f.Regular P → f ∈ facts.forms → rule.Roomy hints f := by
  intro rule member f regular known
  by_cases recent : f ∈ frontier
  · obtain ⟨f', inside, regular', same⟩ := made.exists_recent recent
    exact (roomy_of_round ok rule member f' inside).of_alike (uniform rule (fewer rule member))
      (regular'.alike single regular same)
  · exact spacious rule (fewer rule member) f regular known recent

/-- Two runs before the same round. The second knows less, but all that rests on the dependencies,
and what is recent in the first is no older in the second. -/
structure Beside (P : Symbol → Prop) (rules : List Inference) (hints : Hints) (goal : Formula)
    (deps : List Formula) (facts : Facts) (frontier : FormulaSet) (reached : ReachedForms)
    (facts' : Facts) (frontier' : FormulaSet) (reached' : ReachedForms) : Prop where
  full : Begins P rules hints goal facts frontier reached
  spacious : Spacious P rules hints facts frontier
  part : Begins P rules hints goal facts' frontier' reached'
  less : ∀ form ∈ facts'.forms, form ∈ facts.forms
  rooted : reached.Rooted deps (· ∈ facts'.forms)
  recent : ∀ form ∈ facts'.forms, form ∈ frontier → form ∈ frontier'

namespace Beside

variable (beside : Beside P rules hints goal deps facts frontier reached facts' frontier' reached')
  (single : Symbol.Single P) (uniform : ∀ rule ∈ rules, rule.Uniform)

include beside

/-- Where there is room for all that the first run knows, there is for what the second goes through. -/
theorem roomy_recent (roomy : ∀ f, f.Regular P → f ∈ facts.forms → rule.Roomy hints f) :
    ∀ f ∈ frontier'.toList, rule.Roomy hints f := fun f member =>
  roomy f (beside.part.made.regular_of_mem member)
    (beside.less f (beside.part.made.mem_forms f member))

theorem roomy_known
    (roomy : ∀ f, f.Regular P → f ∈ facts.forms → Inference.Roomy hints .existential f) :
    ∀ f ∈ facts'.formulas, Inference.Roomy hints .existential f := by
  intro f member
  obtain ⟨form, ok, regular, known⟩ := beside.part.made.exists_form member
  exact Inference.roomy_of_twin (roomy form regular (beside.less form known))
    (Formula.twinInstance_regularForm ok).symm

/-- Rules that find room in the first run complete their part of the round in the second. -/
theorem succeeds_rules (fewer : ∀ rule ∈ first, rule.Uniform)
    (each : ∀ rule ∈ first, (∃ outcome, rule.advance facts frontier hints goal = .ok outcome) ∧
      ∀ f, f.Regular P → f ∈ facts.forms → rule.Roomy hints f) :
    Succeeds (round facts' frontier' hints goal p' first) := by
  induction first generalizing p' with
  | nil => exact .pure _
  | cons rule first ih =>
    obtain ⟨⟨⟨outcome, ok⟩, roomy⟩, later⟩ := List.forall_mem_cons.mp each
    obtain ⟨here, others⟩ := List.forall_mem_cons.mp fewer
    have made := beside.part.made
    have frontiers := beside.roomy_recent roomy
    have known : rule = .existential → ∀ f ∈ facts'.formulas, rule.Roomy hints f := by
      rintro rfl
      exact beside.roomy_known roomy
    refine .bind (Inference.succeeds_advance here made.toRecent beside.less
      (fun equal => List.forall_mem_append.mpr ⟨known equal, frontiers⟩) ok) fun outcome' ok' => ?_
    have sought := Inference.advance_sought ok'
    cases outcome' with
    | reached d =>
      obtain ⟨e, tries, -, rfl⟩ := sought
      exact .bind (succeeds_conclude fun f member => (tries.known made.toRecent f member).fits)
        fun _ _ => .pure _
    | candidates ds =>
      refine .bind (succeeds_enter fun d member => ?_) fun _ _ => ih others later
      have tries := sought.1 d member
      exact ⟨tries.fits made.toRecent frontiers known (sought.2 d tries).1,
        fun f inside => (tries.known made.toRecent f inside).fits⟩

include single uniform

/-- What the first run completes the second completes. -/
theorem succeeds_round (fewer : ∀ rule ∈ first, rule ∈ rules)
    (ok : round facts frontier hints goal p first = .ok (.inr q)) :
    Succeeds (round facts' frontier' hints goal p' first) := by
  obtain ⟨ds, returned, -⟩ := round_cases ok
  refine beside.succeeds_rules (fun rule member => uniform rule (fewer rule member))
    fun rule member => ⟨?_, ?_⟩
  · obtain ⟨own, oka, -⟩ := returned.each rule member
    exact ⟨_, oka⟩
  · exact beside.spacious.roomy single uniform beside.full.made fewer ok rule member

/-- After a round that reaches the goal in neither run, they are side by side again. -/
theorem next {grown grown' : Facts} {count count' : Nat}
    (ok : round facts frontier hints goal ⟨reached, {}⟩ rules = .ok (.inr p))
    (added : facts.addAll p.fresh.toList = .ok (grown, count))
    (ok' : round facts' frontier' hints goal ⟨reached', {}⟩ rules = .ok (.inr p'))
    (added' : facts'.addAll p'.fresh.toList = .ok (grown', count')) :
    Beside P rules hints goal deps grown p.fresh p.reached grown' p'.fresh p'.reached := by
  obtain ⟨more, full⟩ := beside.full.next single uniform ok added
  obtain ⟨more', part⟩ := beside.part.next single uniform ok' added'
  have within := (beside.full.next_iff single uniform ok).2.1
  have within' := (beside.part.next_iff single uniform ok').2.1
  refine ⟨full, fun rule member f regular known older => ?_, part, fun form known => ?_, ?_, ?_⟩
  · have before := ((within.mem_reached f).mp ((full.there f).mpr known)).resolve_right older
    exact beside.spacious.roomy single uniform beside.full.made (fun _ => id) ok rule member f regular
      before
  · have there : Saturation.next P rules hints goal (· ∈ facts'.forms) form :=
      (congrFun more' form).mpr known
    exact (congrFun more form).mp (next_of_more beside.less there)
  · have rooted := (beside.full.round_rooted beside.rooted (fun _ => id) ok).rooted
    rwa [more'] at rooted
  · intro form known fresh
    have there := (within'.mem_reached form).mp ((part.there form).mpr known)
    refine there.resolve_left fun before => ?_
    exact beside.full.not_mem_of_fresh ok fresh (beside.less form before)

/-- In the round in which the first run reaches the goal, so does the second. -/
theorem reaches {last : Deduction}
    (ok : round facts frontier hints goal ⟨reached, {}⟩ rules = .ok (.inl last))
    (all : ∀ f ∈ last.dependencies, f.Among deps)
    (abstracts : ∀ (p : Progress) d, (∀ form ∈ reached, p.reached[form]? = reached[form]?) →
      Inference.existential.advance facts frontier hints goal = .ok (.reached d) →
      conclude p.reached d = .ok last → .existential ∈ rules →
      (∀ f ∈ d.dependencies, ∀ form, f.regularForm = .ok form → form ∈ facts'.forms) →
      Succeeds (Inference.existential.advance facts' frontier' hints goal)) :
    ∃ last', round facts' frontier' hints goal ⟨reached', {}⟩ rules = .ok (.inl last') := by
  obtain ⟨before, rule, after, between, d, split, okb, oka, okc⟩ := exists_last ok
  have fewer : ∀ r ∈ before, r ∈ rules := fun r member => split ▸ List.mem_append_left _ member
  have member : rule ∈ rules := split ▸ List.mem_append_right before List.mem_cons_self
  have succeeds : Succeeds (rule.advance facts' frontier' hints goal) := by
    by_cases existential : rule = .existential
    · subst existential
      exact abstracts between d (beside.full.round_rooted beside.rooted fewer okb).kept oka okc member
        (beside.full.known_last beside.rooted fewer okb oka okc all)
    · exact Inference.succeeds_advance (uniform rule member) beside.part.made.toRecent beside.less
        (fun here => absurd here existential) oka
  obtain ⟨outcome, ok'⟩ := succeeds
  obtain ⟨g, obtains, meets⟩ := beside.full.obtains_last beside.rooted split okb oka okc all
  obtain ⟨e, rfl⟩ :=
    beside.part.reached_of_obtains single (uniform rule member) obtains meets ok'
  have others : Succeeds (round facts' frontier' hints goal ⟨reached', {}⟩ before) :=
    beside.succeeds_round single uniform fewer okb
  obtain ⟨result, okr⟩ := others
  rw [← split]
  cases result with
  | inl earlier => exact ⟨earlier, round_append_of_reached okr⟩
  | inr between' =>
    obtain ⟨e', tries, -, rfl⟩ := Inference.advance_sought ok'
    obtain ⟨last', okc'⟩ : Succeeds (conclude between'.reached { e' with formula := goal }) :=
      succeeds_conclude fun f inside => (tries.known beside.part.made.toRecent f inside).fits
    refine ⟨last', ?_⟩
    simp only [round_append okr, round, ok', bind, Except.bind, okc']
    rfl

omit single uniform in
/-- There is room for the abstractions of what is older in the second run. -/
theorem roomy_older (member : .existential ∈ rules) (known : f ∈ facts'.formulas)
    (older : f.key ∉ frontier') : Inference.Roomy hints .existential f := by
  obtain ⟨form, okf, regular, there⟩ := beside.part.made.exists_form known
  rw [Formula.key_eq okf, FormulaSet.mem_congr form.bare_bare] at older
  have before : form ∉ frontier := fun recent => older (beside.recent form there recent)
  exact Inference.roomy_of_twin (beside.spacious _ member form regular (beside.less form there) before)
    (Formula.twinInstance_regularForm okf).symm

omit uniform in
/-- And of what it goes through before a formula that the first run comes to. -/
theorem roomy_before (member : .existential ∈ rules) (same : g.bare = f.bare)
    (ahead : ∀ h ∈ frontier.toList, h.compare f = .lt → Inference.Roomy hints .existential h)
    (recent : h ∈ frontier'.toList) (before : h.compare g = .lt) :
    Inference.Roomy hints .existential h := by
  have regular := beside.part.made.regular_of_mem recent
  by_cases first : h ∈ frontier
  · obtain ⟨h', inside, regular', equal⟩ := beside.full.made.exists_recent first
    have lower : h'.compare f = .lt := by
      rw [Std.TransCmp.congr_left (Formula.compare_eq_iff.mpr equal),
        ← Std.TransCmp.congr_right (Formula.compare_eq_iff.mpr same), before]
    exact Inference.roomy_of_twin (ahead h' inside lower)
      (regular'.alike single regular equal).twinInstance
  · exact beside.spacious _ member h regular
      (beside.less h (beside.part.made.mem_forms h recent)) first

omit uniform in
/-- In a later round the second run comes to the same abstraction, and finds room on the way. -/
theorem succeeds_later (queued : facts.Queued frontier) (queued' : facts'.Queued frontier')
    (member : .existential ∈ rules)
    (oka : Inference.existential.advance facts frontier hints goal = .ok (.reached d))
    (known : ∀ f ∈ d.dependencies, ∀ form, f.regularForm = .ok form → form ∈ facts'.forms) :
    Succeeds (Inference.existential.advance facts' frontier' hints goal) := by
  obtain ⟨f, inside, finds, depends, ahead⟩ := beside.full.exists_first queued member oka
  have regular := beside.full.made.regular_of_mem inside
  have there : f ∈ facts'.forms := known f (by simp [depends]) f regular.regular
  have recent : f ∈ frontier' :=
    beside.recent f there (FormulaSet.mem_iff.mpr ⟨f, inside, rfl⟩)
  obtain ⟨g, inside', regular', same⟩ := beside.part.made.exists_recent recent
  have twin := (regular.alike single regular' same.symm).twinInstance
  obtain ⟨before, after, split⟩ := List.append_of_mem inside'
  have sorted := frontier'.ordered_toList
  rw [split] at sorted
  obtain ⟨older, equal, apart⟩ := queued'
  have roomy : ∀ h ∈ older ++ (before ++ [g]), Inference.Roomy hints .existential h := by
    simp only [List.mem_append, List.mem_singleton]
    rintro h (old | earlier | rfl)
    · exact beside.roomy_older member (equal ▸ List.mem_append_left _ old) (apart h old)
    · exact beside.roomy_before single member same ahead (split ▸ List.mem_append_left _ earlier)
        ((List.pairwise_append.mp sorted).2.2 h earlier g List.mem_cons_self)
    · exact Inference.roomy_of_twin finds.roomy twin
  have sources : facts'.formulas ++ frontier'.toList =
      (older ++ (before ++ [g])) ++ (after ++ frontier'.toList) := by
    rw [equal, split]
    simp
  obtain ⟨target, okt, -⟩ := bind_eq_ok.mp oka
  refine .bind ⟨target, okt⟩ fun target okt => ?_
  rw [sources]
  exact Existential.succeeds_seek_attempts okt roomy ⟨g, by simp, finds.of_twin twin⟩

/-- If the first run reaches the goal, the second completes. -/
theorem succeeds_rounds {depth : Nat}
    (reaches : round facts frontier hints goal ⟨reached, {}⟩ rules = .ok (.inl d) →
      ∃ last, round facts' frontier' hints goal ⟨reached', {}⟩ rules = .ok (.inl last))
    (ok : rounds rules hints goal depth facts frontier reached = .ok (some d))
    (all : ∀ f ∈ d.dependencies, f.Among deps) :
    Succeeds (rounds rules hints goal depth facts' frontier' reached') := by
  induction depth generalizing facts frontier reached facts' frontier' reached' with
  | zero => exact .pure _
  | succ depth ih =>
    simp only [rounds, bind_eq_ok] at ok
    obtain ⟨result, okr, ok⟩ := ok
    cases result with
    | inl last =>
      obtain rfl := Option.some.inj (pure_eq_ok.mp ok)
      obtain ⟨last', okr'⟩ := reaches okr
      refine .bind ⟨_, okr'⟩ fun result here => ?_
      obtain rfl := Except.ok.inj (okr'.symm.trans here)
      exact .pure _
    | inr p =>
      simp only at ok
      split at ok
      · cases ok
      simp only [bind_eq_ok] at ok
      obtain ⟨⟨grown, count⟩, added, ok⟩ := ok
      refine .bind (beside.succeeds_round single uniform (fun _ => id) okr) fun result okr' => ?_
      cases result with
      | inl last => exact .pure _
      | inr p' =>
        simp only
        split
        · exact .pure _
        have within := (beside.part.next_iff single uniform okr').2.1
        refine .bind (Facts.succeeds_addAll fun f member =>
          Formula.fits_iff.mpr ⟨f, (within.regular f member).regular⟩) fun added okn => ?_
        obtain ⟨grown', count'⟩ := added
        have beside' := beside.next single uniform okr added okr' okn
        refine ih beside' (fun okl => ?_) ok
        exact beside'.reaches single uniform okl all fun _ _ _ oka _ member known =>
          beside'.succeeds_later single (beside.full.queued single uniform okr added)
            (beside.part.queued single uniform okr' okn) member oka known

end Beside

/-- What a search starts from rests on itself. -/
theorem exists_root {form : Formula} {r : Step} (filed : facts.Filed)
    (found : (start facts)[form]? = some r) :
    ∃ f ∈ facts.formulas, r.roots = [f] ∧ f.key = form.bare := by
  obtain ⟨key, same, member⟩ :=
    Std.TreeMap.getElem?_eq_some_iff_exists_compare_eq_eq_and_mem_toList.mp found
  rw [start, Std.TreeMap.toList_map] at member
  obtain ⟨⟨key, f⟩, there, rfl, rfl⟩ := List.mem_map.mp member
  obtain ⟨known, regular⟩ := filed.form _ there
  exact ⟨f, known, rfl, by rw [Formula.key_eq regular, Formula.compare_eq_iff.mp same]⟩

/-- In the first round an abstraction rests on a single formula. All that the second run knows is
identical to that, so there is room for it. -/
theorem Beside.succeeds_first {last : Deduction}
    (beside : Beside P rules hints goal last.dependencies facts frontier (start facts) facts' frontier'
      reached')
    (single : Symbol.Single P) (uniform : ∀ rule ∈ rules, rule.Uniform)
    (known : Facts.ofList last.dependencies = .ok facts') (member : .existential ∈ rules)
    (kept : ∀ form ∈ start facts, p.reached[form]? = (start facts)[form]?)
    (oka : Inference.existential.advance facts frontier hints goal = .ok (.reached d))
    (okc : conclude p.reached d = .ok last) :
    Succeeds (Inference.existential.advance facts' frontier' hints goal) := by
  have made := beside.full.made
  have made' := beside.part.made
  obtain ⟨target, okt, ok⟩ := bind_eq_ok.mp oka
  obtain ⟨f, source, finds, depends⟩ := Existential.exists_finds okt ok
  obtain ⟨⟨form, okf, there⟩, symbols⟩ := made.of_source source
  have entered := (beside.full.there form).mpr there
  obtain ⟨r, found⟩ := mem_iff_exists_entry.mp entered
  obtain ⟨root, -, roots, same⟩ := exists_root made.filed found
  have only := dependencies_conclude okc depends okf ((kept form entered).trans found) roots
  refine Inference.succeeds_advance (uniform _ member) made'.toRecent beside.less
    (fun _ h inside => ?_) oka
  obtain ⟨⟨form', okh, there'⟩, symbols'⟩ := made'.of_source inside
  obtain ⟨g, dependency, same'⟩ := (Facts.mem_forms_ofList known).mp there'
  rw [only, List.mem_singleton] at dependency
  have equal : f.key = h.key := by
    rw [Formula.key_eq okf, Formula.key_eq okh, ← same, ← same', dependency]
  exact Inference.roomy_of_twin finds.roomy
    (Formula.twinInstance_of_key single okf okh symbols symbols' equal)

/-- A search from some of the known formulas, beside one from all of them. -/
theorem Beside.start (single : Symbol.Single P) (filed : facts.Filed)
    (symbols : ∀ f ∈ facts.formulas, ∀ s ∈ f.symbols, P s)
    (inside : ∀ f ∈ deps, f ∈ facts.formulas) (known : Facts.ofList deps = .ok facts') :
    Beside P rules hints goal deps facts facts.regularForms (start facts) facts' facts'.regularForms
      (start facts') := by
  refine ⟨.start filed symbols, spacious_regularForms, .start (.ofList known) fun f member => ?_,
    fun form there => ?_, fun form r found all => ?_, fun form there _ => Facts.mem_regularForms there⟩
  · exact symbols f (inside f (Facts.mem_of_ofList known member))
  · obtain ⟨f, member, same⟩ := (Facts.mem_forms_ofList known).mp there
    have key := (filed.formula f (inside f member)).key_mem
    exact (Facts.mem_forms_congr (by rw [same, Formula.bare_bare])).mp key
  · obtain ⟨f, source, roots, key⟩ := exists_root filed found
    obtain ⟨g, member, same⟩ := all f (by simp [roots])
    have alike : g.Alike f := Formula.relabel_plain_eq single (symbols g (inside g member))
      (symbols f source) (Formula.same_iff.mp same)
    exact (Facts.mem_forms_ofList known).mpr ⟨g, member, alike.key_eq.trans key⟩

/-- The dependencies of a goal suffice. When a search by rules of the catalogue reaches it, from known
formulas in which every name has a single flag, the same search reaches it from the dependencies
alone. In particular no index overflows then. -/
theorem towards_dependencies {s : Search} {fs : List Formula}
    (catalogued : ∀ rule ∈ s.rules, rule ∈ Catalogue.rules) (single : Formula.SingleOrder fs)
    (known : Facts.ofList fs = .ok facts)
    (reached : s.towards facts hints goal = .ok (.reached d)) :
    ∃ facts' d', Facts.ofList d.dependencies = .ok facts' ∧
      s.towards facts' hints goal = .ok (.reached d') := by
  have uniform (rule : Inference) (member : rule ∈ s.rules) : rule.Uniform :=
    Catalogue.uniform rule (catalogued rule member)
  have flags := single.symbols
  have filed := Facts.Filed.ofList known
  simp only [towards, run, bind_eq_ok] at reached
  obtain ⟨found, ok, reached⟩ := reached
  cases found with
  | none => cases reached
  | some last =>
    obtain rfl := Outcome.reached.inj (pure_eq_ok.mp reached)
    have concluded : Concluded facts.formulas (fun _ _ => True) goal last :=
      rounds_concluded filed.recent (start_traced filed)
        (fun form member => Std.TreeMap.mem_map.mpr member) (fun _ _ _ _ _ => trivial) ok
    have inside (f : Formula) (member : f ∈ last.dependencies) : f ∈ facts.formulas :=
      concluded.mem_known member
    obtain ⟨facts', known'⟩ : Succeeds (Facts.ofList last.dependencies) :=
      .bind (Facts.succeeds_addAll fun f member => (filed.formula f (inside f member)).fits)
        fun _ _ => .pure _
    have symbols (f : Formula) (member : f ∈ facts.formulas) :
        ∀ n ∈ f.symbols, ∃ g ∈ fs, n ∈ g.symbols :=
      fun n occurs => ⟨f, Facts.mem_of_ofList known member, occurs⟩
    have beside : Beside _ s.rules hints goal last.dependencies facts facts.regularForms
      (start facts) facts' facts'.regularForms (start facts') :=
      .start flags filed symbols inside known'
    have all (f : Formula) (member : f ∈ last.dependencies) : f.Among last.dependencies :=
      ⟨f, member, Formula.same_iff.mpr rfl⟩
    obtain ⟨found', ok'⟩ := beside.succeeds_rounds flags uniform (fun first =>
      beside.reaches flags uniform first all fun _ _ kept oka okc member _ =>
        beside.succeeds_first flags uniform known' member kept oka okc) ok all
    have met := rounds_rooted flags uniform beside.full beside.rooted ok all
    obtain ⟨d', rfl⟩ := Option.isSome_iff_exists.mp
      ((rounds_iff flags uniform beside.part ok').mpr met)
    refine ⟨facts', d', known', ?_⟩
    simp only [towards, run, bind_eq_ok]
    exact ⟨some d', ok', rfl⟩

def abstracting : Search := ⟨[Catalogue.andProject, .existential, .modusPonens], 3⟩

def instanced : Formula :=
  .and [.atom (.pred ⟨.plain "P", 1, true⟩) [.const ⟨.plain "c"⟩], .prop "B"]

/-- From `D`, `P(c) ∧ B` and `∃x P(x) → C`, three rounds reach `C`, and do without `D`. -/
theorem towards_dependencies_instanced :
    ∃ facts d facts' d',
      (∀ rule ∈ abstracting.rules, rule ∈ Catalogue.rules) ∧
      Formula.SingleOrder [.prop "D", instanced, .imply (quantified .ex "x") (.prop "C")] ∧
      Facts.ofList [.prop "D", instanced, .imply (quantified .ex "x") (.prop "C")] = .ok facts ∧
      abstracting.towards facts {} (.prop "C") = .ok (.reached d) ∧
      d.dependencies = [.imply (quantified .ex "x") (.prop "C"), instanced] ∧
      Facts.ofList d.dependencies = .ok facts' ∧
      abstracting.towards facts' {} (.prop "C") = .ok (.reached d') := by
  have catalogued : ∀ rule ∈ abstracting.rules, rule ∈ Catalogue.rules := by
    simp [abstracting, Catalogue.rules, Catalogue.combined]
  have single :
      Formula.SingleOrder [.prop "D", instanced, .imply (quantified .ex "x") (.prop "C")] := by
    apply Formula.SingleOrder.of_ordered
    simp [instanced, quantified, Formula.prop, Formula.and, Formula.imply, Term.symbols,
      Symbol.ordered, Relation.ordered, or_imp, forall_and]
  have ran : ((Rule.search abstracting).towardsFrom
      [.prop "D", instanced, .imply (quantified .ex "x") (.prop "C")] {} (.prop "C")).map
        (fun o => o.reached?.map Deduction.dependencies) =
      .ok (some [.imply (quantified .ex "x") (.prop "C"), instanced]) := by cbv
  obtain ⟨facts, d, known, reached, depend⟩ := exists_reached ran
  obtain ⟨facts', d', known', reached'⟩ := towards_dependencies catalogued single known reached
  exact ⟨facts, d, facts', d', catalogued, single, known, reached, depend, known', reached'⟩

end Search

end Sequitur
