import Sequitur.Proofs.Attempt
import Sequitur.Rule

/-! Provenance. The derivation of a goal that a search reaches ends in the goal, starts from known
formulas, and each of its steps was taken by a rule in some round of the search. The known formulas
in it, in their order and without repetition, are the dependencies of the goal. That the derivation
can be built from the recorded steps at all is an invariant of the search: a step is recorded after
its premises, so every recorded step has a derivation, and this one the recursion finds. -/

namespace Sequitur

variable {f form goal : Formula} {facts facts' : Facts} {frontier : FormulaSet} {hints : Hints}
  {reached : ReachedForms} {rules : List Inference}

def Formula.SameForm (f g : Formula) : Prop :=
  ∃ form form', f.regularForm = .ok form ∧ g.regularForm = .ok form' ∧ form.same form' = true

def Outcome.deductions : Outcome → List Deduction
  | .reached d => [d]
  | .candidates ds => ds

namespace Derivation

def rule : Derivation → Option Name
  | .node rule _ _ => rule

/-- All nodes: a formula before its premises, and these from left to right. -/
def nodes : Derivation → List Derivation
  | .node rule f premises => .node rule f premises :: premises.flatMap fun p => p.nodes

def leaves (d : Derivation) : List Formula :=
  (d.nodes.filter fun n => n.rule.isNone).map formula

@[simp] theorem nodes_leaf (f : Formula) : (leaf f).nodes = [leaf f] := by simp [leaf, nodes]

@[simp] theorem leaves_leaf (f : Formula) : (leaf f).leaves = [f] := by
  rw [leaves, nodes_leaf]
  rfl

theorem leaves_step (name : Name) (f : Formula) (premises : List Derivation) :
    (node (some name) f premises).leaves = premises.flatMap leaves := by
  rw [leaves, nodes, List.filter_cons_of_neg (by simp [rule]), List.filter_flatMap, List.map_flatMap]
  rfl

/-- A formula without a rule is known and has no premises. Any other was returned by its rule,
from dependencies that have the regular forms of the premises. -/
def Recorded (known : List Formula) (returned : Name → Deduction → Prop) : Derivation → Prop
  | .node none f premises => premises = [] ∧ f ∈ known
  | .node (some name) f premises => ∃ d, returned name d ∧ d.formula = f ∧
      List.Forall₂ (fun g p => g.SameForm p.formula) d.dependencies premises

end Derivation

namespace Search

/-- In the rounds that are run from here the rule is applied, with this outcome: all rules before
it are applied in the same round without reaching the goal. -/
inductive Applies (rules : List Inference) (hints : Hints) (goal : Formula) :
    Nat → Facts → FormulaSet → ReachedForms → Inference → Outcome → Prop
  | now {depth : Nat} {facts : Facts} {frontier : FormulaSet} {reached : ReachedForms}
      {before after : List Inference} {rule : Inference} {p : Progress} {outcome : Outcome} :
      before ++ rule :: after = rules →
      round facts frontier hints goal ⟨reached, {}⟩ before = .ok (.inr p) →
      rule.advance facts frontier hints goal = .ok outcome →
      Applies rules hints goal (depth + 1) facts frontier reached rule outcome
  | later {depth count : Nat} {facts facts' : Facts} {frontier : FormulaSet}
      {reached : ReachedForms} {rule : Inference} {p : Progress} {outcome : Outcome} :
      round facts frontier hints goal ⟨reached, {}⟩ rules = .ok (.inr p) →
      p.fresh.isEmpty = false → facts.addAll p.fresh.toList = .ok (facts', count) →
      Applies rules hints goal depth facts' p.fresh p.reached rule outcome →
      Applies rules hints goal (depth + 1) facts frontier reached rule outcome

/-- In some round of the search a rule of this name returns the deduction. -/
def Returns (s : Search) (facts : Facts) (hints : Hints) (goal : Formula) (name : Name)
    (d : Deduction) : Prop :=
  ∃ rule ∈ s.rules, rule.name = name ∧ ∃ outcome, d ∈ outcome.deductions ∧
    Applies s.rules hints goal s.depth facts facts.regularForms (start facts) rule outcome

theorem Applies.mem {depth : Nat} {rule : Inference} {outcome : Outcome}
    (applies : Applies rules hints goal depth facts frontier reached rule outcome) :
    rule ∈ rules := by
  induction applies with
  | now split => simp [← split]
  | later _ _ _ _ ih => exact ih

theorem mem_withForms {fs : List Formula} {premises : List (Formula × Formula)}
    (ok : withForms fs = .ok premises) :
    premises.map Prod.snd = fs ∧ ∀ p ∈ premises, p.2.regularForm = .ok p.1 := by
  induction fs generalizing premises with
  | nil =>
    obtain rfl := Except.ok.inj ok
    exact ⟨rfl, by simp⟩
  | cons f fs ih =>
    simp only [withForms, bind_eq_ok, pure_eq_ok] at ok
    obtain ⟨form, okf, rest, okr, rfl⟩ := ok
    obtain ⟨rfl, all⟩ := ih okr
    exact ⟨rfl, List.forall_mem_cons.mpr ⟨okf, all⟩⟩

section Roots

theorem foldl_addRoot (fs roots : List Formula) :
    fs.foldl addRoot roots = List.eraseDupsBy.loop Formula.same fs roots.reverse := by
  induction fs generalizing roots with
  | nil => simp [List.eraseDupsBy.loop]
  | cons f fs ih =>
    have symm : (fun g : Formula => g.same f) = f.same := by
      funext g
      rw [Bool.eq_iff_iff, Formula.same_iff, Formula.same_iff, eq_comm]
    rw [List.foldl_cons, ih, addRoot, List.eraseDupsBy.loop, List.any_reverse, symm]
    cases roots.any f.same <;> simp

/-- Roots without repetition are what is left of a list. -/
theorem foldl_addRoot_nil (fs : List Formula) :
    fs.foldl addRoot [] = fs.eraseDupsBy Formula.same := foldl_addRoot fs []

theorem exists_same_of_mem {f : Formula} (roots : List Formula) {fs : List Formula}
    (member : f ∈ roots ∨ f ∈ fs) : ∃ g ∈ fs.foldl addRoot roots, g.same f = true := by
  induction fs generalizing f roots with
  | nil => exact ⟨f, by simpa using member, Formula.same_iff.mpr rfl⟩
  | cons h fs ih =>
    rw [List.foldl_cons, addRoot]
    split
    · rename_i there
      obtain ⟨g, inside, same⟩ := List.any_eq_true.mp there
      rcases member with earlier | member
      · exact ih _ (.inl earlier)
      · rcases List.mem_cons.mp member with rfl | later
        · obtain ⟨k, kept, same'⟩ := ih roots (.inl inside)
          refine ⟨k, kept, ?_⟩
          rw [Formula.same_iff] at same same' ⊢
          exact same'.trans same
        · exact ih _ (.inr later)
    · apply ih
      rcases member with earlier | member
      · exact .inl (by simp [earlier])
      · exact (List.mem_cons.mp member).imp (fun here => by simp [here]) id

theorem mem_of_mem_foldl_addRoot {f : Formula} {fs : List Formula} (roots : List Formula)
    (member : f ∈ fs.foldl addRoot roots) : f ∈ roots ∨ f ∈ fs := by
  induction fs generalizing roots with
  | nil => exact .inl member
  | cons h fs ih =>
    rw [List.foldl_cons] at member
    rcases ih _ member with inside | later
    · rw [addRoot] at inside
      split at inside
      · exact .inl inside
      · refine (List.mem_append.mp inside).imp_right fun here => ?_
        rw [List.mem_singleton.mp here]
        exact List.mem_cons_self
    · exact .inr (List.mem_cons_of_mem h later)

/-- Repetitions may as well be removed before. -/
theorem foldl_addRoot_foldl (fs gs roots : List Formula) :
    (fs.foldl addRoot gs).foldl addRoot roots = (gs ++ fs).foldl addRoot roots := by
  induction fs generalizing gs with
  | nil => simp
  | cons f fs ih =>
    rw [List.foldl_cons, ih, addRoot]
    split
    · rename_i there
      obtain ⟨g, inside, same⟩ := List.any_eq_true.mp there
      obtain ⟨k, kept, same'⟩ := exists_same_of_mem roots (.inr inside)
      have again : (gs.foldl addRoot roots).any (·.same f) = true := by
        refine List.any_eq_true.mpr ⟨k, kept, ?_⟩
        rw [Formula.same_iff] at same same' ⊢
        exact same'.trans same
      rw [List.foldl_append, List.foldl_append, List.foldl_cons, addRoot, if_pos again]
    · rw [List.append_assoc, List.singleton_append]

end Roots

end Search

namespace Search

/-- Following the recorded steps from the form gives this derivation. -/
inductive Builds (reached : ReachedForms) : Formula → Derivation → Prop
  | node {form : Formula} {step : Step} {premises : List (Formula × Derivation)} :
      reached[form]? = some step → premises.map Prod.fst = step.premises →
      (∀ p ∈ premises, Builds reached p.1 p.2) →
      Builds reached form (.node step.rule step.formula (premises.map Prod.snd))

namespace Builds

variable {target : Formula} {d d' : Derivation}

theorem congr (builds : Builds reached form d) (same : form.bare = target.bare) :
    Builds reached target d := by
  cases builds with
  | node found premises below =>
    rw [Std.TreeMap.getElem?_congr (Formula.compare_eq_iff.mpr same)] at found
    exact .node found premises below

/-- Recording a further form changes no derivation. -/
theorem insert {step : Step} (builds : Builds reached form d) (new : target ∉ reached) :
    Builds (reached.insert target step) form d := by
  induction builds with
  | @node form entry _ found premises _ ih =>
    have apart : target.compare form ≠ .eq := by
      intro equal
      apply new
      rw [Std.TreeMap.mem_congr equal]
      exact mem_iff_exists_entry.mpr ⟨entry, found⟩
    apply Builds.node _ premises ih
    rw [Std.TreeMap.getElem?_insert, if_neg apart, found]

theorem eq_of_premises {premises premises' : List (Formula × Derivation)}
    (forms : premises.map Prod.fst = premises'.map Prod.fst)
    (unique : ∀ p ∈ premises, ∀ d, Builds reached p.1 d → p.2 = d)
    (below : ∀ p ∈ premises', Builds reached p.1 p.2) :
    premises.map Prod.snd = premises'.map Prod.snd := by
  induction premises generalizing premises' with
  | nil =>
    obtain rfl := List.map_eq_nil_iff.mp forms.symm
    rfl
  | cons p premises ih =>
    obtain ⟨q, rest, rfl, first, later⟩ := List.map_eq_cons_iff.mp forms.symm
    obtain ⟨here, after⟩ := List.forall_mem_cons.mp unique
    obtain ⟨builds, others⟩ := List.forall_mem_cons.mp below
    rw [List.map_cons, List.map_cons, ih later.symm after others]
    rw [first] at builds
    rw [here q.2 builds]

theorem unique (builds : Builds reached form d) (other : Builds reached form d') : d = d' := by
  induction builds generalizing d' with
  | node found premises _ ih =>
    cases other with
    | node found' premises' below =>
      obtain rfl := Option.some.inj (found.symm.trans found')
      rw [eq_of_premises (premises.trans premises'.symm) (fun p member d => ih p member) below]

end Builds

/-- What is built already is what the steps give. -/
def Matches (reached : ReachedForms) (built : Built) : Prop :=
  ∀ form d, built[form]? = some d → Builds reached form d

variable {built : Built} {d : Derivation}

theorem Matches.insert (right : Matches reached built) (builds : Builds reached form d) :
    Matches reached (built.insert form d) := by
  intro target d' found
  rw [Std.TreeMap.getElem?_insert] at found
  split at found
  · rename_i equal
    obtain rfl := Option.some.inj found
    exact builds.congr (Formula.compare_eq_iff.mp equal)
  · exact right target d' found

/-- All forms with a derivation that is no larger are left to build. -/
def Pending (reached : ReachedForms) (left : List Formula) (d : Derivation) : Prop :=
  ∀ form e, Builds reached form e → sizeOf e ≤ sizeOf d → left.any (·.same form) = true

theorem Pending.premise {left : List Formula} {rule : Option Name} {premises : List Derivation}
    {p : Derivation} (pending : Pending reached left (.node rule f premises))
    (builds : Builds reached form (.node rule f premises)) (member : p ∈ premises) :
    Pending reached (without form left) p := by
  intro target e below smaller
  have less : sizeOf p < sizeOf (Derivation.node rule f premises) := by
    have := List.sizeOf_lt_of_mem member
    simp only [Derivation.node.sizeOf_spec]
    omega
  obtain ⟨g, inside, same⟩ := List.any_eq_true.mp (pending target e below (by omega))
  refine List.any_eq_true.mpr ⟨g, List.mem_filter.mpr ⟨inside, ?_⟩, same⟩
  -- the form itself has a larger derivation than its premises
  by_contra again
  have equal : g.same form = true := by simpa using again
  rw [Formula.same_iff] at same equal
  have := (below.congr (same.symm.trans equal)).unique builds
  subst this
  omega

theorem buildAll_eq {left : List Formula} {premises : List (Formula × Derivation)}
    (each : ∀ p ∈ premises, ∀ built, Matches reached built →
      ∃ built', build reached left p.1 built = some (p.2, built') ∧ Matches reached built')
    (right : Matches reached built) :
    ∃ built', buildAll reached left (premises.map Prod.fst) built =
      some (premises.map Prod.snd, built') ∧ Matches reached built' := by
  induction premises generalizing built with
  | nil =>
    refine ⟨built, ?_, right⟩
    rw [List.map_nil, buildAll, List.map_nil]
  | cons p premises ih =>
    obtain ⟨first, rest⟩ := List.forall_mem_cons.mp each
    obtain ⟨between, okb, right'⟩ := first built right
    obtain ⟨last, okl, right''⟩ := ih rest right'
    refine ⟨last, ?_, right''⟩
    rw [List.map_cons, buildAll, okb]
    simp [okl]

/-- The recursion ends with the derivation that the steps give. -/
theorem build_eq {left : List Formula} (builds : Builds reached form d) (pending : Pending reached left d)
    (right : Matches reached built) :
    ∃ built', build reached left form built = some (d, built') ∧ Matches reached built' := by
  induction builds generalizing built left with
  | @node form step premises found forms below ih =>
    have builds : Builds reached form _ := .node found forms below
    rw [build]
    cases there : built[form]? with
    | some d =>
      rw [builds.unique (right form d there)]
      exact ⟨built, rfl, right⟩
    | none =>
      obtain ⟨last, ok, right'⟩ := buildAll_eq (fun p member built right =>
        ih p member (pending.premise builds (List.mem_map_of_mem member)) right) right
      rw [forms] at ok
      refine ⟨last.insert form (.node step.rule step.formula (premises.map Prod.snd)), ?_,
        right'.insert builds⟩
      simp [found, pending form _ builds (Nat.le_refl _), ok]

theorem pending_keys (reached : ReachedForms) (d : Derivation) : Pending reached reached.keys d := by
  let _ : BEq Formula := ⟨Formula.same⟩
  have _ : Std.LawfulBEqCmp Formula.compare :=
    ⟨fun {f g} => Formula.compare_eq_iff.trans Formula.same_iff.symm⟩
  intro form e builds _
  cases builds with
  | node found _ _ =>
    have member : reached.keys.contains form = true := by
      rw [Std.TreeMap.contains_keys, Std.TreeMap.contains_eq_isSome_getElem?, found]
      rfl
    obtain ⟨g, inside, same⟩ := List.contains_iff_exists_mem_beq.mp member
    exact List.any_eq_true.mpr ⟨g, inside, Formula.same_iff.mpr (Formula.same_iff.mp same).symm⟩

end Search

/-- The steps give the form this derivation, which is recorded, ends in a formula with this regular
form, and has the roots of the step. -/
structure Step.Traced (known : List Formula) (returned : Name → Deduction → Prop)
    (reached : ReachedForms) (form : Formula) (step : Step) (d : Derivation) : Prop where
  builds : Search.Builds reached form d
  recorded : ∀ n ∈ d.nodes, n.Recorded known returned
  regular : ∃ form', d.formula.regularForm = .ok form' ∧ form'.bare = form.bare
  roots : step.roots = d.leaves.eraseDupsBy Formula.same

variable {known : List Formula} {returned : Name → Deduction → Prop}

def ReachedForms.Traced (known : List Formula) (returned : Name → Deduction → Prop)
    (reached : ReachedForms) : Prop :=
  ∀ (form : Formula) (step : Step), reached[form]? = some step →
    ∃ d, step.Traced known returned reached form d

namespace Search

theorem rootsOf_eq {premises : List (Formula × Formula)} {derivation : Formula × Formula → Derivation}
    (rests : ∀ p ∈ premises, ∃ step, reached[p.1]? = some step ∧
      step.roots = (derivation p).leaves.eraseDupsBy Formula.same) (roots : List Formula) :
    premises.foldl (fun roots p =>
      match reached[p.1]? with
      | some r => r.roots.foldl addRoot roots
      | none => roots ++ [p.2]) roots =
    (premises.flatMap fun p => (derivation p).leaves).foldl addRoot roots := by
  induction premises generalizing roots with
  | nil => rfl
  | cons p premises ih =>
    obtain ⟨⟨step, found, here⟩, later⟩ := List.forall_mem_cons.mp rests
    rw [List.foldl_cons, ih later, List.flatMap_cons, List.foldl_append, found]
    simp only [here]
    rw [← foldl_addRoot_nil, foldl_addRoot_foldl, List.nil_append]

/-- A step that a rule returned, from premises that were reached, is recorded: its premises have
derivations, and it adds a node to these. -/
theorem step_traced {d : Deduction} {last : Step} (traced : reached.Traced known returned)
    (here : returned d.rule d)
    (there : ∀ f ∈ d.dependencies, ∃ form, f.regularForm = .ok form ∧ form ∈ reached)
    (ok : step reached d = .ok last) :
    last.formula = d.formula ∧ ∃ premises : List (Formula × Derivation),
      premises.map Prod.fst = last.premises ∧ (∀ p ∈ premises, Builds reached p.1 p.2) ∧
      (∀ n ∈ (Derivation.node last.rule last.formula (premises.map Prod.snd)).nodes,
        n.Recorded known returned) ∧
      last.roots = (Derivation.node last.rule last.formula
        (premises.map Prod.snd)).leaves.eraseDupsBy Formula.same := by
  simp only [step, bind_eq_ok, pure_eq_ok] at ok
  obtain ⟨pairs, okp, rfl⟩ := ok
  obtain ⟨dependencies, forms⟩ := mem_withForms okp
  have entries (p : Formula × Formula) (member : p ∈ pairs) :
      ∃ d step, reached[p.1]? = some step ∧ step.Traced known returned reached p.1 d := by
    have dependency : p.2 ∈ d.dependencies := dependencies ▸ List.mem_map_of_mem member
    obtain ⟨form, ok, inside⟩ := there p.2 dependency
    obtain rfl := Except.ok.inj ((forms p member).symm.trans ok)
    obtain ⟨step, found⟩ := mem_iff_exists_entry.mp inside
    obtain ⟨d, entry⟩ := traced p.1 step found
    exact ⟨d, step, found, entry⟩
  choose! derivation entry using entries
  refine ⟨rfl, pairs.map fun p => (p.1, derivation p), by simp, ?_, ?_, ?_⟩
  · intro q member
    obtain ⟨p, inside, rfl⟩ := List.mem_map.mp member
    obtain ⟨step, -, entry⟩ := entry p inside
    exact entry.builds
  · intro n member
    rw [Derivation.nodes, List.map_map] at member
    rcases List.mem_cons.mp member with rfl | inside
    · refine ⟨d, here, rfl, ?_⟩
      rw [← dependencies, List.forall₂_map_left_iff, List.forall₂_map_right_iff, List.forall₂_same]
      intro p member
      obtain ⟨step, -, entry⟩ := entry p member
      obtain ⟨form', regular, same⟩ := entry.regular
      exact ⟨p.1, form', forms p member, regular, Formula.same_iff.mpr same.symm⟩
    · obtain ⟨c, premise, inside⟩ := List.mem_flatMap.mp inside
      obtain ⟨p, member, rfl⟩ := List.mem_map.mp premise
      obtain ⟨step, -, entry⟩ := entry p member
      exact entry.recorded n inside
  · have rests (p : Formula × Formula) (member : p ∈ pairs) : ∃ step, reached[p.1]? = some step ∧
        step.roots = (derivation p).leaves.eraseDupsBy Formula.same := by
      obtain ⟨step, found, entry⟩ := entry p member
      exact ⟨step, found, entry.roots⟩
    calc rootsOf reached pairs
      _ = (pairs.flatMap fun p => (derivation p).leaves).foldl addRoot [] := rootsOf_eq rests []
      _ = _ := by
        rw [foldl_addRoot_nil, Derivation.leaves_step, List.map_map, List.flatMap_map]
        rfl

/-- The derivation of a goal is recorded, and what it starts from are the dependencies. -/
structure Concluded (known : List Formula) (returned : Name → Deduction → Prop) (goal : Formula)
    (d : Deduction) : Prop where
  built : d.derivation = some d.tree
  formula : d.tree.formula = goal
  recorded : ∀ n ∈ d.tree.nodes, n.Recorded known returned
  dependencies : d.dependencies = d.tree.leaves.eraseDupsBy Formula.same

/-- The dependencies of a goal are among the known formulas. -/
theorem Concluded.mem_known {d : Deduction} (concluded : Concluded known returned goal d)
    (member : f ∈ d.dependencies) : f ∈ known := by
  rw [concluded.dependencies, ← foldl_addRoot_nil] at member
  rcases mem_of_mem_foldl_addRoot [] member with none | leaf
  · cases none
  · obtain ⟨n, inside, rfl⟩ := List.mem_map.mp leaf
    obtain ⟨node, start⟩ := List.mem_filter.mp inside
    obtain ⟨rule, f, premises⟩ := n
    obtain rfl := Option.isNone_iff_eq_none.mp start
    exact (concluded.recorded _ node).2

structure Progress.Traced (known : List Formula) (returned : Name → Deduction → Prop)
    (facts : Facts) (p : Progress) : Prop where
  reached : p.reached.Traced known returned
  mem_reached : ∀ form ∈ facts.forms, form ∈ p.reached
  fresh : ∀ f ∈ p.fresh.toList, f.regularForm = .ok f ∧ f ∈ p.reached

theorem enter_traced {p p' : Progress} {ds : List Deduction}
    (traced : p.Traced known returned facts) (here : ∀ d ∈ ds, returned d.rule d)
    (there : ∀ d ∈ ds, ∀ f ∈ d.dependencies, facts.Knows f) (ok : enter p ds = .ok p') :
    p'.Traced known returned facts := by
  induction ds generalizing p with
  | nil =>
    obtain rfl := Except.ok.inj ok
    exact traced
  | cons d ds ih =>
    obtain ⟨first, rest⟩ := List.forall_mem_cons.mp here
    obtain ⟨depends, depend⟩ := List.forall_mem_cons.mp there
    simp only [enter, bind_eq_ok] at ok
    obtain ⟨form, okf, ok⟩ := ok
    split at ok
    · exact ih traced rest depend ok
    · rename_i absent
      simp only [bind_eq_ok] at ok
      obtain ⟨r, oks, ok⟩ := ok
      have premises (f : Formula) (member : f ∈ d.dependencies) :
          ∃ form, f.regularForm = .ok form ∧ form ∈ p.reached := by
        obtain ⟨form, okf, known⟩ := depends f member
        exact ⟨form, okf, traced.mem_reached form known⟩
      have new : form ∉ p.reached := by simpa using absent
      obtain ⟨formula, derivations, forms, below, recorded, roots⟩ :=
        step_traced traced.reached first premises oks
      have grows (f : Formula) (inside : f ∈ p.reached) : f ∈ p.reached.insert form r :=
        Std.TreeMap.mem_insert.mpr (.inr inside)
      refine ih ⟨fun target entry found => ?_, fun f known => ?_, fun f member => ?_⟩ rest depend ok
      · by_cases equal : form.compare target = .eq
        · have same := Formula.compare_eq_iff.mp equal
          obtain rfl : r = entry := by
            rw [Std.TreeMap.getElem?_insert, if_pos equal] at found
            exact Option.some.inj found
          refine ⟨_, .node found forms fun q member => (below q member).insert new, recorded, ?_, roots⟩
          exact ⟨form, by rw [Derivation.formula, formula, okf], same⟩
        · rw [Std.TreeMap.getElem?_insert, if_neg equal] at found
          obtain ⟨d, earlier⟩ := traced.reached target entry found
          exact ⟨d, earlier.builds.insert new, earlier.recorded, earlier.regular, earlier.roots⟩
      · exact grows f (traced.mem_reached f known)
      · rcases FormulaSet.mem_toList_insert member with rfl | earlier
        · exact ⟨Formula.regularForm_regular okf, Std.TreeMap.mem_insert_self⟩
        · exact ⟨(traced.fresh f earlier).1, grows f (traced.fresh f earlier).2⟩

theorem conclude_concluded {p : Progress} {d last : Deduction}
    (traced : p.Traced known returned facts) (here : returned d.rule d)
    (there : ∀ f ∈ d.dependencies, facts.Knows f) (ok : conclude p.reached d = .ok last) :
    Concluded known returned d.formula last := by
  simp only [conclude, bind_eq_ok, pure_eq_ok] at ok
  obtain ⟨r, oks, rfl⟩ := ok
  obtain ⟨formula, premises, forms, below, recorded, roots⟩ :=
    step_traced traced.reached here (fun f member => by
      obtain ⟨form, okf, known⟩ := there f member
      exact ⟨form, okf, traced.mem_reached form known⟩) oks
  have empty : Matches p.reached {} := fun form d found => by simp at found
  obtain ⟨built, okb, -⟩ :=
    buildAll_eq (fun q member _ right => build_eq (below q member) (pending_keys p.reached q.2) right)
      empty
  rw [forms] at okb
  rw [okb]
  exact ⟨rfl, formula, recorded, roots⟩

theorem round_append {p between : Progress} {before after : List Inference}
    (ok : round facts frontier hints goal p before = .ok (.inr between)) :
    round facts frontier hints goal p (before ++ after) =
      round facts frontier hints goal between after := by
  induction before generalizing p with
  | nil =>
    obtain rfl := Sum.inr.inj (Except.ok.inj ok)
    rfl
  | cons rule before ih =>
    simp only [round, bind_eq_ok] at ok
    obtain ⟨outcome, oka, ok⟩ := ok
    cases outcome with
    | reached d =>
      simp only [bind_eq_ok, pure_eq_ok] at ok
      obtain ⟨_, _, impossible⟩ := ok
      cases impossible
    | candidates ds =>
      simp only [bind_eq_ok] at ok
      obtain ⟨next, oke, ok⟩ := ok
      simp only [List.cons_append, round, oka]
      simp only [bind, Except.bind, oke]
      exact ih ok

/-- What a round comes to: the goal with its derivation, or more that is reached. -/
def RoundTraced (known : List Formula) (returned : Name → Deduction → Prop) (facts : Facts)
    (goal : Formula) : Deduction ⊕ Progress → Prop
  | .inl d => Concluded known returned goal d
  | .inr p => p.Traced known returned facts

/-- What is left of a round, after some of its rules. -/
theorem round_traced {start p : Progress} {before after : List Inference}
    {result : Deduction ⊕ Progress} (recent : facts.Recent frontier)
    (returns : ∀ before rule after p outcome, before ++ rule :: after = rules →
      round facts frontier hints goal start before = .ok (.inr p) →
      rule.advance facts frontier hints goal = .ok outcome →
      ∀ d ∈ outcome.deductions, returned rule.name d)
    (traced : p.Traced known returned facts) (split : before ++ after = rules)
    (earlier : round facts frontier hints goal start before = .ok (.inr p))
    (ok : round facts frontier hints goal p after = .ok result) :
    RoundTraced known returned facts goal result := by
  induction after generalizing p before with
  | nil =>
    obtain rfl := Except.ok.inj ok
    exact traced
  | cons rule after ih =>
    simp only [round, bind_eq_ok] at ok
    obtain ⟨outcome, oka, ok⟩ := ok
    have here := returns before rule after p outcome split earlier oka
    have sought := Inference.advance_sought oka
    cases outcome with
    | reached d =>
      simp only [bind_eq_ok, pure_eq_ok] at ok
      obtain ⟨last, okc, rfl⟩ := ok
      obtain ⟨e, tries, -, rfl⟩ := sought
      have named : returned e.rule { e with formula := goal } := by
        have last := here _ (List.mem_singleton_self _)
        rwa [← tries.name] at last
      have depends : ∀ f ∈ e.dependencies, facts.Knows f := tries.known recent
      exact conclude_concluded (d := { e with formula := goal }) traced named depends okc
    | candidates ds =>
      simp only [bind_eq_ok] at ok
      obtain ⟨next, oke, ok⟩ := ok
      have named (d : Deduction) (member : d ∈ ds) : returned d.rule d :=
        (sought.1 d member).name ▸ here d member
      have entered := enter_traced traced named (fun d member => (sought.1 d member).known recent) oke
      have first : round facts frontier hints goal start (before ++ [rule]) = .ok (.inr next) := by
        rw [round_append earlier, round, oka]
        simp only [bind, Except.bind, oke]
        rfl
      exact ih entered (by simpa using split) first ok

theorem start_traced (filed : facts.Filed) :
    (start facts).Traced facts.formulas returned := by
  intro form step found
  obtain ⟨key, equal, member⟩ :=
    Std.TreeMap.getElem?_eq_some_iff_exists_compare_eq_eq_and_mem_toList.mp found
  rw [start, Std.TreeMap.toList_map] at member
  obtain ⟨⟨key, f⟩, there, rfl, rfl⟩ := List.mem_map.mp member
  obtain ⟨known, regular⟩ := filed.form _ there
  refine ⟨.leaf f, .node found List.map_nil (by simp), fun n inside => ?_, ?_, ?_⟩
  · rw [Derivation.nodes_leaf, List.mem_singleton] at inside
    rw [inside]
    exact ⟨rfl, known⟩
  · exact ⟨key, regular, (Formula.compare_eq_iff.mp equal).symm⟩
  · rw [Derivation.leaves_leaf]
    rfl

/-- After a round that obtains something new, the next one starts from known formulas as well. -/
theorem Progress.Traced.recent {p : Progress} {count : Nat}
    (traced : p.Traced known returned facts) (filed : facts.Filed)
    (ok : facts.addAll p.fresh.toList = .ok (facts', count)) :
    facts'.Recent p.fresh ∧ ∀ form ∈ facts'.forms, form ∈ p.reached := by
  have key (f : Formula) (member : f ∈ p.fresh.toList) : f.key = f.bare :=
    Formula.key_eq (traced.fresh f member).1
  refine ⟨⟨filed.addAll ok, fun f member => (traced.fresh f member).1, fun f member => ?_⟩, ?_⟩
  · exact (Facts.mem_forms_addAll ok).mpr (.inr ⟨f, member, key f member⟩)
  · intro form member
    rcases (Facts.mem_forms_addAll ok).mp member with known | ⟨f, inside, same⟩
    · exact traced.mem_reached form known
    · have equal : f.compare form = .eq :=
        Formula.compare_eq_iff.mpr ((key f inside).symm.trans same)
      exact (Std.TreeMap.mem_congr equal).mp (traced.fresh f inside).2

theorem rounds_concluded {depth : Nat} {d : Deduction} (recent : facts.Recent frontier)
    (traced : reached.Traced known returned) (there : ∀ form ∈ facts.forms, form ∈ reached)
    (returns : ∀ rule outcome, Applies rules hints goal depth facts frontier reached rule outcome →
      ∀ d ∈ outcome.deductions, returned rule.name d)
    (ok : rounds rules hints goal depth facts frontier reached = .ok (some d)) :
    Concluded known returned goal d := by
  induction depth generalizing facts frontier reached with
  | zero => cases ok
  | succ depth ih =>
    have start : (⟨reached, {}⟩ : Progress).Traced known returned facts :=
      ⟨traced, there, fun f member => by cases member⟩
    simp only [rounds, bind_eq_ok] at ok
    obtain ⟨result, okr, ok⟩ := ok
    have here := round_traced recent
      (fun _ rule _ _ outcome split earlier oka => returns rule outcome (.now split earlier oka))
      start (List.nil_append rules) rfl okr
    cases result with
    | inl last =>
      obtain rfl := Option.some.inj (pure_eq_ok.mp ok)
      exact here
    | inr p =>
      simp only at ok
      split at ok
      · cases ok
      · rename_i fresh
        simp only [bind_eq_ok] at ok
        obtain ⟨⟨facts', count⟩, oka, ok⟩ := ok
        obtain ⟨recent', there'⟩ := here.recent recent.filed oka
        refine ih recent' here.reached there' (fun rule outcome applies => ?_) ok
        exact returns rule outcome (.later okr (by simpa using fresh) oka applies)

/-- What a search reaches has a derivation: building it from the recorded steps comes to an end. It
ends in the goal. Every formula in it without a rule is a known formula and has no premises. Every
other one was returned by a rule of that name in some round of this search, from dependencies that
have the regular forms of its premises, one for one. And the dependencies are the known formulas in
the derivation, from left to right and without repetition. -/
theorem towards_provenance {s : Search} {fs : List Formula} {d : Deduction}
    (known : Facts.ofList fs = .ok facts)
    (reached : s.towards facts hints goal = .ok (.reached d)) :
    d.derivation = some d.tree ∧ d.tree.formula = goal ∧
      (∀ n ∈ d.tree.nodes, n.Recorded facts.formulas (s.Returns facts hints goal)) ∧
      d.dependencies = d.tree.leaves.eraseDupsBy Formula.same := by
  have filed := Facts.Filed.ofList known
  simp only [towards, run, bind_eq_ok] at reached
  obtain ⟨found, ok, reached⟩ := reached
  cases found with
  | none => cases reached
  | some last =>
    obtain rfl := Outcome.reached.inj (pure_eq_ok.mp reached)
    have concluded : Concluded facts.formulas (s.Returns facts hints goal) goal last := by
      refine rounds_concluded filed.recent (start_traced filed)
        (fun form member => Std.TreeMap.mem_map.mpr member) (fun rule outcome applies d member => ?_) ok
      exact ⟨rule, applies.mem, rfl, outcome, member, applies⟩
    exact ⟨concluded.built, concluded.formula, concluded.recorded, concluded.dependencies⟩

end Search

namespace Rule

def towardsFrom (rule : Rule) (fs : List Formula) (hints : Hints) (goal : Formula) :
    Except Error Outcome := do rule.towards (← Facts.ofList fs) hints goal

/-- `C` from `A → C` and from `A`, which is from `A ∧ B`. -/
def composed : Deduction where
  rule := Search.name
  formula := .prop "C"
  dependencies := [.imply (.prop "A") (.prop "C"), .and [.prop "A", .prop "B"]]
  derivation := some (.node (some ModusPonens.name) (.prop "C")
    [.leaf (.imply (.prop "A") (.prop "C")),
      .node (some Catalogue.andProject.name) (.prop "A") [.leaf (.and [.prop "A", .prop "B"])]])

end Rule

namespace Search

/-- From `A ∧ B` and `A → C`, two rounds reach `C`. -/
theorem exists_composed :
    ∃ facts, Facts.ofList [.and [.prop "A", .prop "B"], .imply (.prop "A") (.prop "C")] = .ok facts ∧
      (Search.mk Catalogue.combined 2).towards facts {} (.prop "C") =
        .ok (.reached Rule.composed) := by
  have reached : ((Rule.search Catalogue.search).withDepth 2).towardsFrom
      [.and [.prop "A", .prop "B"], .imply (.prop "A") (.prop "C")] {} (.prop "C") =
    .ok (.reached Rule.composed) := by cbv
  exact bind_eq_ok.mp reached

/-- The two rounds use both. -/
theorem towards_provenance_composed :
    ∃ facts, Facts.ofList [.and [.prop "A", .prop "B"], .imply (.prop "A") (.prop "C")] = .ok facts ∧
      (Search.mk Catalogue.combined 2).towards facts {} (.prop "C") = .ok (.reached Rule.composed) ∧
      Rule.composed.derivation = some Rule.composed.tree ∧ Rule.composed.tree.formula = .prop "C" ∧
      (∀ n ∈ Rule.composed.tree.nodes, n.Recorded facts.formulas
        ((Search.mk Catalogue.combined 2).Returns facts {} (.prop "C"))) ∧
      Rule.composed.dependencies = Rule.composed.tree.leaves.eraseDupsBy Formula.same := by
  obtain ⟨facts, known, reached⟩ := exists_composed
  exact ⟨facts, known, reached, towards_provenance known reached⟩

end Search

end Sequitur
