import Mathlib.Logic.Function.Iterate
import Sequitur.Proofs.Overflow
import Sequitur.Proofs.Premises
import Sequitur.Proofs.Provenance

/-! A search against saturation. Saturation applies every rule to everything that is known, at each
level; a search applies it to what the round before obtained. They reach the same goals at the same
depth: a rule that needs two premises finds them when the later one is obtained, and what follows from
older premises alone was obtained before. -/

namespace Sequitur

def Outcome.isReached : Outcome → Bool
  | .reached _ => true
  | .candidates _ => false

def Outcome.found : Outcome → List Deduction
  | .reached _ => []
  | .candidates ds => ds

/-- Whether some rule reaches the goal from everything that is known, at one of the first `depth`
levels. Each level adds the regular forms of all candidates that the rules find from everything known
at the level before. -/
def Search.saturate (rules : List Inference) (hints : Hints) (goal : Formula) :
    Nat → Facts → Except Error Bool
  | 0, _ => .ok false
  | depth + 1, facts => do
    let outcomes ← rules.mapM fun rule => rule.advance facts facts.regularForms hints goal
    if outcomes.any Outcome.isReached then return true
    let forms ← (outcomes.flatMap Outcome.found).mapM fun d => d.formula.regularForm
    let (facts, _) ← facts.addAll forms
    saturate rules hints goal depth facts

variable {f g form goal : Formula} {hints : Hints} {rule : Inference} {rules : List Inference}
  {P : Symbol → Prop} {facts facts' : Facts} {frontier : FormulaSet} {K : Formula → Prop}

namespace Facts

theorem mem_regularForms (known : f ∈ facts.forms) : f ∈ facts.regularForms := by
  obtain ⟨form, source, filed, same⟩ := exists_filed known
  have key : form ∈ facts.forms.keys := by
    rw [← Std.TreeMap.map_fst_toList_eq_keys]
    exact List.mem_map_of_mem filed
  exact (FormulaSet.mem_congr same).mp (FormulaSet.mem_ofList key)

/-- Everything known as the frontier. -/
theorem Filed.madeOf (filed : facts.Filed) (known : ∀ f ∈ facts.formulas, ∀ s ∈ f.symbols, P s) :
    facts.MadeOf P facts.regularForms := by
  refine ⟨filed.recent, known, fun f member s occurs => ?_⟩
  obtain ⟨g, source, regular⟩ := filed.exists_known member
  exact known g source s (Formula.mem_symbols_of_regularForm regular occurs)

theorem mem_of_ofList {fs : List Formula} (ok : Facts.ofList fs = .ok facts)
    (member : f ∈ facts.formulas) : f ∈ fs := by
  obtain ⟨count, added⟩ := ofList_eq_ok.mp ok
  exact (mem_formulas_addAll added member).resolve_left (by simp [empty])

/-- What is known after regular forms are added. -/
theorem mem_forms_addRegular {fs : List Formula} {count : Nat} (regular : ∀ f ∈ fs, f.Regular P)
    (ok : facts.addAll fs = .ok (facts', count)) :
    form ∈ facts'.forms ↔ form ∈ facts.forms ∨ ∃ f ∈ fs, f.bare = form.bare := by
  rw [mem_forms_addAll ok]
  exact or_congr_right (exists_congr fun f => and_congr_right fun member => by
    rw [(regular f member).key_eq])

end Facts

namespace Saturation

/-- A rule yields this from regular forms that are known. -/
def Obtains (P : Symbol → Prop) (rules : List Inference) (hints : Hints) (goal : Formula)
    (K : Formula → Prop) (rule : Inference) (g : Formula) : Prop :=
  rule ∈ rules ∧ ∃ fs, (∀ f ∈ fs, f.Regular P ∧ K f) ∧ rule.Yields hints goal fs g

def Met (P : Symbol → Prop) (rules : List Inference) (hints : Hints) (goal : Formula)
    (K : Formula → Prop) : Prop :=
  ∃ rule g, Obtains P rules hints goal K rule g ∧ rule.Meets goal g

def next (P : Symbol → Prop) (rules : List Inference) (hints : Hints) (goal : Formula)
    (K : Formula → Prop) (form : Formula) : Prop :=
  K form ∨ ∃ rule g, Obtains P rules hints goal K rule g ∧ g.key = form.bare

/-- The goal follows in one step from what is known after fewer than `depth` steps. -/
def MetWithin (P : Symbol → Prop) (rules : List Inference) (hints : Hints) (goal : Formula)
    (depth : Nat) (K : Formula → Prop) : Prop :=
  ∃ k < depth, Met P rules hints goal ((next P rules hints goal)^[k] K)

theorem metWithin_zero : ¬ MetWithin P rules hints goal 0 K := by
  rintro ⟨k, low, -⟩
  exact absurd low (Nat.not_lt_zero k)

theorem metWithin_of_met {depth : Nat} (met : Met P rules hints goal K) :
    MetWithin P rules hints goal (depth + 1) K := ⟨0, Nat.succ_pos depth, met⟩

theorem metWithin_succ {depth : Nat} (apart : ¬ Met P rules hints goal K) :
    MetWithin P rules hints goal (depth + 1) K ↔
      MetWithin P rules hints goal depth (next P rules hints goal K) := by
  constructor
  · rintro ⟨k, low, met⟩
    cases k with
    | zero => exact absurd met apart
    | succ k => exact ⟨k, Nat.lt_of_succ_lt_succ low, met⟩
  · rintro ⟨k, low, met⟩
    exact ⟨k + 1, Nat.succ_lt_succ low, met⟩

/-- Where a step adds nothing, no number of steps does. -/
theorem not_metWithin_of_fixed {depth : Nat} (apart : ¬ Met P rules hints goal K)
    (fixed : next P rules hints goal K = K) : ¬ MetWithin P rules hints goal depth K := by
  rintro ⟨k, -, met⟩
  rw [Function.iterate_fixed fixed k] at met
  exact apart met

def Settled (P : Symbol → Prop) (rules : List Inference) (hints : Hints) (goal : Formula)
    (facts : Facts) (frontier : FormulaSet) : Prop :=
  ∀ rule ∈ rules, ∀ fs g, fs ≠ [] → (∀ f ∈ fs, f.Regular P ∧ f ∈ facts.forms) →
    (∀ f ∈ fs, f ∉ frontier) → rule.Yields hints goal fs g →
    ¬ rule.Meets goal g ∧ g.key ∈ facts.forms

/-- Nothing is older than everything known. -/
theorem settled_regularForms : Settled P rules hints goal facts facts.regularForms := by
  intro rule _ fs g some known older _
  obtain ⟨f, fs, rfl⟩ := List.exists_cons_of_ne_nil some
  exact absurd (Facts.mem_regularForms (known f List.mem_cons_self).2) (older f List.mem_cons_self)

/-- After a step that does not reach the goal, what follows from what was known before it is no goal
and is known. -/
theorem settled_of_next {fresh : FormulaSet} (apart : ¬ Met P rules hints goal (· ∈ facts.forms))
    (known : next P rules hints goal (· ∈ facts.forms) = (· ∈ facts'.forms))
    (older : ∀ form ∈ facts'.forms, form ∈ facts.forms ∨ form ∈ fresh) :
    Settled P rules hints goal facts' fresh := by
  intro rule member fs g _ all old yields
  have before (f : Formula) (inside : f ∈ fs) : f.Regular P ∧ f ∈ facts.forms :=
    ⟨(all f inside).1, (older f (all f inside).2).resolve_right (old f inside)⟩
  have obtains : Obtains P rules hints goal (· ∈ facts.forms) rule g := ⟨member, fs, before, yields⟩
  refine ⟨fun meets => apart ⟨rule, g, obtains, meets⟩, ?_⟩
  change (fun form => form ∈ facts'.forms) g.key
  rw [← known]
  exact .inr ⟨rule, g, obtains, g.bare_key.symm⟩

/-- No rule reaches the goal, and these are the candidates that they return. -/
structure Returned (rules : List Inference) (facts : Facts) (frontier : FormulaSet) (hints : Hints)
    (goal : Formula) (ds : List Deduction) : Prop where
  each : ∀ rule ∈ rules, ∃ own, rule.advance facts frontier hints goal = .ok (.candidates own) ∧
    ∀ d ∈ own, d ∈ ds
  some : ∀ d ∈ ds, ∃ rule ∈ rules, ∃ own,
    rule.advance facts frontier hints goal = .ok (.candidates own) ∧ d ∈ own

namespace Returned

variable {ds own : List Deduction}

theorem nil : Returned [] facts frontier hints goal [] := ⟨by simp, by simp⟩

theorem cons (ok : rule.advance facts frontier hints goal = .ok (.candidates own))
    (returned : Returned rules facts frontier hints goal ds) :
    Returned (rule :: rules) facts frontier hints goal (own ++ ds) := by
  constructor
  · refine List.forall_mem_cons.mpr ⟨⟨own, ok, fun d => List.mem_append_left ds⟩, fun r member => ?_⟩
    obtain ⟨others, ok', inside⟩ := returned.each r member
    exact ⟨others, ok', fun d there => List.mem_append_right own (inside d there)⟩
  · intro d member
    rcases List.mem_append.mp member with here | later
    · exact ⟨rule, List.mem_cons_self, own, ok, here⟩
    · obtain ⟨r, inside, rest⟩ := returned.some d later
      exact ⟨r, List.mem_cons_of_mem rule inside, rest⟩

theorem symbols (returned : Returned rules facts frontier hints goal ds)
    (made : facts.MadeOf P frontier) (uniform : ∀ rule ∈ rules, rule.Uniform) {d : Deduction}
    (member : d ∈ ds) : ∀ s ∈ d.formula.symbols, P s := by
  obtain ⟨rule, inside, own, ok, there⟩ := returned.some d member
  exact (Inference.exists_yields_of_candidate made (uniform rule inside) ok there).1

/-- Whatever the frontier, the candidates are what one more step makes known, and the goal does not
follow in one step. -/
theorem next_iff (returned : Returned rules facts frontier hints goal ds)
    (made : facts.MadeOf P frontier) (single : Symbol.Single P)
    (uniform : ∀ rule ∈ rules, rule.Uniform)
    (settled : Settled P rules hints goal facts frontier) :
    ¬ Met P rules hints goal (· ∈ facts.forms) ∧
      ∀ form, next P rules hints goal (· ∈ facts.forms) form ↔
        form ∈ facts.forms ∨ ∃ d ∈ ds, d.formula.key = form.bare := by
  have step {rule : Inference} {g : Formula}
      (obtains : Obtains P rules hints goal (· ∈ facts.forms) rule g) :
      ¬ rule.Meets goal g ∧ (g.key ∈ facts.forms ∨ ∃ d ∈ ds, d.formula.key = g.key) := by
    obtain ⟨member, fs, known, yields⟩ := obtains
    by_cases touches : fs = [] ∨ ∃ f ∈ fs, f ∈ frontier
    · obtain ⟨own, ok, inside⟩ := returned.each rule member
      obtain ⟨apart, found⟩ :=
        Inference.candidates_of_yields made single (uniform rule member) ok yields known touches
      exact ⟨apart, found.imp_right fun ⟨d, there, same⟩ => ⟨d, inside d there, same⟩⟩
    · -- older premises alone
      simp only [not_or, not_exists, not_and] at touches
      obtain ⟨apart, there⟩ := settled rule member fs g touches.1 known touches.2 yields
      exact ⟨apart, .inl there⟩
  refine ⟨fun ⟨rule, g, obtains, meets⟩ => (step obtains).1 meets, fun form => ?_⟩
  constructor
  · rintro (there | ⟨rule, g, obtains, same⟩)
    · exact .inl there
    · rcases (step obtains).2 with there | ⟨d, member, equal⟩
      · exact .inl ((Facts.mem_forms_congr (by rw [same, Formula.bare_bare])).mp there)
      · exact .inr ⟨d, member, equal.trans same⟩
  · rintro (there | ⟨d, member, same⟩)
    · exact .inl there
    · obtain ⟨rule, inside, own, ok, found⟩ := returned.some d member
      obtain ⟨-, fs, g, known, yields, equal⟩ :=
        Inference.exists_yields_of_candidate made (uniform rule inside) ok found
      exact .inr ⟨rule, g, ⟨inside, fs, known, yields⟩, equal.trans same⟩

end Returned

theorem met_of_reached {d : Deduction} (made : facts.MadeOf P frontier) (member : rule ∈ rules)
    (ok : rule.advance facts frontier hints goal = .ok (.reached d)) :
    Met P rules hints goal (· ∈ facts.forms) := by
  obtain ⟨fs, g, known, yields, meets⟩ := Inference.exists_yields_of_reached made ok
  exact ⟨rule, g, ⟨member, fs, known, yields⟩, meets⟩

end Saturation

namespace Search

open Saturation

/-- The outcomes at one level of saturation: some rule reaches the goal, or all return candidates. -/
theorem level_cases {outcomes : List Outcome}
    (ok : rules.mapM (fun rule => rule.advance facts frontier hints goal) = .ok outcomes) :
    if outcomes.any Outcome.isReached then
      ∃ rule ∈ rules, ∃ d, rule.advance facts frontier hints goal = .ok (.reached d)
    else Returned rules facts frontier hints goal (outcomes.flatMap Outcome.found) := by
  split
  · rename_i reached
    obtain ⟨outcome, member, here⟩ := List.any_eq_true.mp reached
    obtain ⟨rule, inside, oka⟩ := exists_of_mapM ok member
    cases outcome with
    | reached d => exact ⟨rule, inside, d, oka⟩
    | candidates ds => cases here
  · rename_i none
    have candidates (outcome : Outcome) (member : outcome ∈ outcomes) :
        outcome = .candidates outcome.found := by
      cases outcome with
      | reached d => exact absurd (List.any_eq_true.mpr ⟨_, member, rfl⟩) none
      | candidates ds => rfl
    constructor
    · intro rule inside
      obtain ⟨outcome, member, oka⟩ := exists_mem_mapM ok inside
      refine ⟨outcome.found, by rw [oka, ← candidates outcome member], fun d there => ?_⟩
      exact List.mem_flatMap.mpr ⟨outcome, member, there⟩
    · intro d member
      obtain ⟨outcome, inside, there⟩ := List.mem_flatMap.mp member
      obtain ⟨rule, applied, oka⟩ := exists_of_mapM ok inside
      exact ⟨rule, applied, outcome.found, by rw [oka, ← candidates outcome inside], there⟩

/-- Saturation reaches a goal that follows in one step from what is known at one of its levels. -/
theorem saturate_iff {depth : Nat} {found : Bool} (single : Symbol.Single P)
    (uniform : ∀ rule ∈ rules, rule.Uniform) (filed : facts.Filed)
    (known : ∀ f ∈ facts.formulas, ∀ s ∈ f.symbols, P s)
    (ok : saturate rules hints goal depth facts = .ok found) :
    found = true ↔ MetWithin P rules hints goal depth (· ∈ facts.forms) := by
  induction depth generalizing facts with
  | zero =>
    obtain rfl := Except.ok.inj ok
    simpa using metWithin_zero
  | succ depth ih =>
    have made := filed.madeOf known
    simp only [saturate, bind_eq_ok] at ok
    obtain ⟨outcomes, okm, ok⟩ := ok
    have cases := level_cases okm
    split at ok
    · rename_i reached
      obtain rfl := pure_eq_ok.mp ok
      rw [if_pos reached] at cases
      obtain ⟨rule, member, d, oka⟩ := cases
      exact iff_of_true rfl (metWithin_of_met (met_of_reached made member oka))
    · rename_i none
      rw [if_neg none] at cases
      simp only [bind_eq_ok] at ok
      obtain ⟨forms, okf, ⟨facts', count⟩, oka, ok⟩ := ok
      obtain ⟨apart, more⟩ := cases.next_iff made single uniform settled_regularForms
      have regular (form : Formula) (member : form ∈ forms) : form.Regular P := by
        obtain ⟨d, inside, okd⟩ := exists_of_mapM okf member
        refine ⟨Formula.regularForm_regular okd, fun s occurs => ?_⟩
        exact cases.symbols made uniform inside s (Formula.mem_symbols_of_regularForm okd occurs)
      have grown : next P rules hints goal (· ∈ facts.forms) = (· ∈ facts'.forms) := by
        funext form
        rw [eq_iff_iff, more, Facts.mem_forms_addRegular regular oka]
        refine or_congr_right ⟨?_, ?_⟩
        · rintro ⟨d, inside, same⟩
          obtain ⟨form', member, okd⟩ := exists_mem_mapM okf inside
          exact ⟨form', member, by rw [← Formula.key_eq okd, same]⟩
        · rintro ⟨form', member, same⟩
          obtain ⟨d, inside, okd⟩ := exists_of_mapM okf member
          exact ⟨d, inside, by rw [Formula.key_eq okd, same]⟩
      rw [metWithin_succ apart, grown]
      refine ih (filed.addAll oka) (fun f member => ?_) ok
      exact (Facts.mem_formulas_addAll oka member).elim (known f) fun new => (regular f new).symbols

variable {p p' : Progress} {ds : List Deduction}

/-- During a round: what is reached was known or is new in this round, and what is new is a regular
form. -/
structure Progress.Within (P : Symbol → Prop) (facts : Facts) (p : Progress) : Prop where
  mem_reached : ∀ form, form ∈ p.reached ↔ form ∈ facts.forms ∨ form ∈ p.fresh
  regular : ∀ f ∈ p.fresh.toList, f.Regular P

/-- What entering candidates makes reached. -/
theorem mem_reached_enter (ok : enter p ds = .ok p') :
    form ∈ p'.reached ↔ form ∈ p.reached ∨ ∃ d ∈ ds, d.formula.key = form.bare := by
  induction ds generalizing p with
  | nil =>
    obtain rfl := Except.ok.inj ok
    simp
  | cons d ds ih =>
    simp only [enter, bind_eq_ok] at ok
    obtain ⟨here, okf, ok⟩ := ok
    rw [List.exists_mem_cons_iff, Formula.key_eq okf]
    split at ok
    · rename_i there
      rw [ih ok]
      refine or_congr_right' fun missing => (or_iff_right ?_).symm
      exact fun same => missing ((Std.TreeMap.mem_congr (Formula.compare_eq_iff.mpr same)).mp
        (Std.TreeMap.contains_iff_mem.mp there))
    · simp only [bind_eq_ok] at ok
      obtain ⟨r, -, ok⟩ := ok
      rw [ih ok, Std.TreeMap.mem_insert, Formula.compare_eq_iff]
      tauto

theorem Progress.Within.enter (within : p.Within P facts)
    (symbols : ∀ d ∈ ds, ∀ s ∈ d.formula.symbols, P s) (ok : enter p ds = .ok p') :
    p'.Within P facts := by
  induction ds generalizing p with
  | nil =>
    obtain rfl := Except.ok.inj ok
    exact within
  | cons d ds ih =>
    obtain ⟨first, rest⟩ := List.forall_mem_cons.mp symbols
    simp only [Search.enter, bind_eq_ok] at ok
    obtain ⟨here, okf, ok⟩ := ok
    split at ok
    · exact ih within rest ok
    · simp only [bind_eq_ok] at ok
      obtain ⟨r, -, ok⟩ := ok
      refine ih ⟨fun form => ?_, fun f member => ?_⟩ rest ok
      · rw [Std.TreeMap.mem_insert, Std.TreeSet.mem_insert, within.mem_reached]
        tauto
      · rcases FormulaSet.mem_toList_insert member with rfl | earlier
        · exact ⟨Formula.regularForm_regular okf, fun s occurs =>
            first s (Formula.mem_symbols_of_regularForm okf occurs)⟩
        · exact within.regular f earlier

/-- What is new in a round is the frontier of the next, and all that is reached is known then. -/
theorem Progress.Within.madeOf {count : Nat} (within : p.Within P facts)
    (made : facts.MadeOf P frontier) (ok : facts.addAll p.fresh.toList = .ok (facts', count)) :
    facts'.MadeOf P p.fresh ∧ ∀ form, form ∈ p.reached ↔ form ∈ facts'.forms := by
  have keys (form : Formula) : form ∈ p.reached ↔ form ∈ facts'.forms := by
    rw [Facts.mem_forms_addRegular within.regular ok, within.mem_reached, FormulaSet.mem_iff]
  refine ⟨⟨⟨made.filed.addAll ok, fun f member => (within.regular f member).regular,
    fun f member => ?_⟩, fun f member => ?_, fun f member => (within.regular f member).symbols⟩, keys⟩
  · rw [← keys, within.mem_reached]
    exact .inr (FormulaSet.mem_iff.mpr ⟨f, member, rfl⟩)
  · exact (Facts.mem_formulas_addAll ok member).elim (made.known f)
      fun new => (within.regular f new).symbols

theorem enter_append {before after : List Deduction} {between : Progress}
    (first : enter p before = .ok between) : enter p (before ++ after) = enter between after := by
  induction before generalizing p with
  | nil =>
    obtain rfl := Except.ok.inj first
    rfl
  | cons d before ih =>
    simp only [enter, bind_eq_ok] at first
    obtain ⟨form, okf, first⟩ := first
    simp only [List.cons_append, enter, okf]
    simp only [bind, Except.bind]
    split at first
    · rename_i there
      rw [if_pos there]
      exact ih first
    · rename_i missing
      simp only [bind_eq_ok] at first
      obtain ⟨r, oks, first⟩ := first
      rw [if_neg missing]
      simp only [oks]
      exact ih first

/-- What a round comes to: a rule reaches the goal, or the candidates of all rules are entered. -/
theorem round_cases {result : Deduction ⊕ Progress}
    (ok : round facts frontier hints goal p rules = .ok result) :
    match result with
    | .inl _ => ∃ rule ∈ rules, ∃ d, rule.advance facts frontier hints goal = .ok (.reached d)
    | .inr p' => ∃ ds, Returned rules facts frontier hints goal ds ∧ enter p ds = .ok p' := by
  induction rules generalizing p with
  | nil =>
    obtain rfl := Except.ok.inj ok
    exact ⟨[], .nil, rfl⟩
  | cons rule rules ih =>
    simp only [round, bind_eq_ok] at ok
    obtain ⟨outcome, oka, ok⟩ := ok
    cases outcome with
    | reached d =>
      simp only [bind_eq_ok, pure_eq_ok] at ok
      obtain ⟨last, -, rfl⟩ := ok
      exact ⟨rule, List.mem_cons_self, d, oka⟩
    | candidates own =>
      simp only [bind_eq_ok] at ok
      obtain ⟨between, oke, ok⟩ := ok
      have rest := ih ok
      cases result with
      | inl last =>
        obtain ⟨r, member, found⟩ := rest
        exact ⟨r, List.mem_cons_of_mem rule member, found⟩
      | inr p' =>
        obtain ⟨ds, returned, entered⟩ := rest
        exact ⟨own ++ ds, returned.cons oka, by rw [enter_append oke, entered]⟩

/-- Before a round: what follows from older premises alone is settled, and what is reached is what is
known. -/
structure Begins (P : Symbol → Prop) (rules : List Inference) (hints : Hints) (goal : Formula)
    (facts : Facts) (frontier : FormulaSet) (reached : ReachedForms) : Prop where
  made : facts.MadeOf P frontier
  settled : Settled P rules hints goal facts frontier
  there : ∀ form, form ∈ reached ↔ form ∈ facts.forms

namespace Begins

variable {reached : ReachedForms}

/-- The first round. -/
theorem start (filed : facts.Filed) (known : ∀ f ∈ facts.formulas, ∀ s ∈ f.symbols, P s) :
    Begins P rules hints goal facts facts.regularForms (start facts) :=
  ⟨filed.madeOf known, settled_regularForms, fun _ => Std.TreeMap.mem_map⟩

/-- A round that does not reach the goal makes one more step. -/
theorem next_iff (begins : Begins P rules hints goal facts frontier reached)
    (single : Symbol.Single P) (uniform : ∀ rule ∈ rules, rule.Uniform)
    (ok : round facts frontier hints goal ⟨reached, {}⟩ rules = .ok (.inr p)) :
    ¬ Met P rules hints goal (· ∈ facts.forms) ∧ p.Within P facts ∧
      ∀ form, next P rules hints goal (· ∈ facts.forms) form ↔ form ∈ p.reached := by
  obtain ⟨ds, returned, oke⟩ := round_cases ok
  obtain ⟨apart, more⟩ := returned.next_iff begins.made single uniform begins.settled
  have start : (⟨reached, {}⟩ : Progress).Within P facts :=
    ⟨fun form => by simp [begins.there], fun f member => by cases member⟩
  refine ⟨apart, start.enter (fun d => returned.symbols begins.made uniform) oke, fun form => ?_⟩
  rw [more, mem_reached_enter oke, begins.there]

/-- What a round obtains is the frontier of the next. -/
theorem next {count : Nat} (begins : Begins P rules hints goal facts frontier reached)
    (single : Symbol.Single P) (uniform : ∀ rule ∈ rules, rule.Uniform)
    (ok : round facts frontier hints goal ⟨reached, {}⟩ rules = .ok (.inr p))
    (added : facts.addAll p.fresh.toList = .ok (facts', count)) :
    Saturation.next P rules hints goal (· ∈ facts.forms) = (· ∈ facts'.forms) ∧
      Begins P rules hints goal facts' p.fresh p.reached := by
  obtain ⟨apart, within, grown⟩ := begins.next_iff single uniform ok
  obtain ⟨made', there'⟩ := within.madeOf begins.made added
  have known : Saturation.next P rules hints goal (· ∈ facts.forms) = (· ∈ facts'.forms) := by
    funext form
    rw [eq_iff_iff, grown, there']
  refine ⟨known, made', settled_of_next apart known fun form member => ?_, there'⟩
  exact (within.mem_reached form).mp ((there' form).mpr member)

end Begins

/-- So do rounds. -/
theorem rounds_iff {depth : Nat} {found : Option Deduction} {reached : ReachedForms}
    (single : Symbol.Single P) (uniform : ∀ rule ∈ rules, rule.Uniform)
    (begins : Begins P rules hints goal facts frontier reached)
    (ok : rounds rules hints goal depth facts frontier reached = .ok found) :
    found.isSome = true ↔ MetWithin P rules hints goal depth (· ∈ facts.forms) := by
  induction depth generalizing facts frontier reached with
  | zero =>
    obtain rfl := Except.ok.inj ok
    simpa using metWithin_zero
  | succ depth ih =>
    simp only [rounds, bind_eq_ok] at ok
    obtain ⟨result, okr, ok⟩ := ok
    cases result with
    | inl d =>
      obtain rfl := pure_eq_ok.mp ok
      obtain ⟨rule, member, d', oka⟩ := round_cases okr
      exact iff_of_true rfl (metWithin_of_met (met_of_reached begins.made member oka))
    | inr p =>
      obtain ⟨apart, within, grown⟩ := begins.next_iff single uniform okr
      simp only at ok
      split at ok
      · rename_i empty
        obtain rfl := pure_eq_ok.mp ok
        have fixed : next P rules hints goal (· ∈ facts.forms) = (· ∈ facts.forms) := by
          funext form
          rw [eq_iff_iff, grown, within.mem_reached, or_iff_left]
          exact Std.TreeSet.isEmpty_iff_forall_not_mem.mp empty form
        exact iff_of_false (by simp) (not_metWithin_of_fixed apart fixed)
      · simp only [bind_eq_ok] at ok
        obtain ⟨⟨facts', count⟩, oka, ok⟩ := ok
        obtain ⟨known, begins'⟩ := begins.next single uniform okr oka
        rw [metWithin_succ apart, known]
        exact ih begins' ok

theorem towards_iff {s : Search} {outcome : Outcome} (single : Symbol.Single P)
    (uniform : ∀ rule ∈ s.rules, rule.Uniform) (filed : facts.Filed)
    (known : ∀ f ∈ facts.formulas, ∀ s ∈ f.symbols, P s)
    (ok : s.towards facts hints goal = .ok outcome) :
    outcome.isReached = true ↔ MetWithin P s.rules hints goal s.depth (· ∈ facts.forms) := by
  simp only [towards, run, bind_eq_ok] at ok
  obtain ⟨found, okr, ok⟩ := ok
  rw [← rounds_iff single uniform (.start filed known) okr]
  cases found with
  | some d =>
    obtain rfl := pure_eq_ok.mp ok
    rfl
  | none =>
    obtain rfl := pure_eq_ok.mp ok
    rfl

theorem onlyOverflows_saturate (uniform : ∀ rule ∈ rules, rule.Uniform) (depth : Nat) :
    OnlyOverflows (saturate rules hints goal depth facts) := by
  induction depth generalizing facts with
  | zero => exact .ok _
  | succ depth ih =>
    refine .bind (.mapM fun rule member => Inference.onlyOverflows_advance
      (uniform rule member).total) fun outcomes => ?_
    split
    · exact .pure _
    · refine .bind (.mapM fun d _ => d.formula.onlyOverflows_regularForm) fun forms => ?_
      exact .bind (Facts.onlyOverflows_addAll forms) fun _ => ih

/-- A search by rules of the catalogue, over known formulas in which every name has a single flag,
reaches a goal exactly when saturation to the same depth does, where no index overflows. -/
theorem towards_eq_saturate {s : Search} {fs : List Formula}
    (catalogued : ∀ rule ∈ s.rules, rule ∈ Catalogue.rules) (single : Formula.SingleOrder fs)
    (known : Facts.ofList fs = .ok facts)
    (fits : s.towards facts hints goal ≠ .error .indexOverflow)
    (fits' : saturate s.rules hints goal s.depth facts ≠ .error .indexOverflow) :
    ∃ outcome, s.towards facts hints goal = .ok outcome ∧
      saturate s.rules hints goal s.depth facts = .ok outcome.isReached := by
  have uniform (rule : Inference) (member : rule ∈ s.rules) : rule.Uniform :=
    Catalogue.uniform rule (catalogued rule member)
  have flags : Symbol.Single fun n => ∃ f ∈ fs, n ∈ f.symbols := by
    rintro n n' ⟨f, member, occurs⟩ ⟨f', member', occurs'⟩
    exact single f member f' member' n occurs n' occurs'
  have symbols : ∀ f ∈ facts.formulas, ∀ n ∈ f.symbols, ∃ g ∈ fs, n ∈ g.symbols := by
    intro f member n occurs
    exact ⟨f, Facts.mem_of_ofList known member, occurs⟩
  have filed := Facts.Filed.ofList known
  obtain ⟨outcome, okt⟩ := (onlyOverflows_towards uniform).exists_ok fits
  obtain ⟨found, oks⟩ := (onlyOverflows_saturate uniform s.depth).exists_ok fits'
  refine ⟨outcome, okt, oks.trans (congrArg Except.ok ?_)⟩
  rw [Bool.eq_iff_iff, saturate_iff flags uniform filed symbols oks,
    towards_iff flags uniform filed symbols okt]

/-- From `A ∧ B` and `A → C`, two rounds reach `C`: the premise of the older implication is new in the
second. -/
theorem towards_eq_saturate_composed :
    ∃ facts, (∀ rule ∈ Catalogue.combined, rule ∈ Catalogue.rules) ∧
      Formula.SingleOrder [.and [.prop "A", .prop "B"], .imply (.prop "A") (.prop "C")] ∧
      Facts.ofList [.and [.prop "A", .prop "B"], .imply (.prop "A") (.prop "C")] = .ok facts ∧
      (Search.mk Catalogue.combined 2).towards facts {} (.prop "C") = .ok (.reached Rule.composed) ∧
      saturate Catalogue.combined {} (.prop "C") 2 facts = .ok true := by
  have catalogued : ∀ rule ∈ Catalogue.combined, rule ∈ Catalogue.rules :=
    fun rule member => List.mem_append_left _ member
  have single :
      Formula.SingleOrder [.and [.prop "A", .prop "B"], .imply (.prop "A") (.prop "C")] := by
    simp [Formula.SingleOrder, Formula.symbols, Formula.prop, Formula.and, Formula.imply, Symbol.same,
      Symbol.ordered, Relation.same, Predicate.same, Relation.ordered]
  have saturated : (Facts.ofList [.and [.prop "A", .prop "B"], .imply (.prop "A") (.prop "C")] >>=
      saturate Catalogue.combined {} (.prop "C") 2) = .ok true := by cbv
  obtain ⟨facts, known, reached⟩ := exists_composed
  rw [known] at saturated
  have fits : (Search.mk Catalogue.combined 2).towards facts {} (.prop "C") ≠
      .error .indexOverflow := by simp [reached]
  have fits' : saturate Catalogue.combined {} (.prop "C") 2 facts ≠ .error .indexOverflow := by
    intro failed
    cases failed.symm.trans saturated
  obtain ⟨outcome, same, agrees⟩ := towards_eq_saturate (s := ⟨Catalogue.combined, 2⟩) catalogued
    single known fits fits'
  obtain rfl := Except.ok.inj (reached.symm.trans same)
  exact ⟨facts, catalogued, single, known, reached, agrees⟩

end Search

end Sequitur
