import Sequitur.Proofs.Room

/-! The order in which abstractions are tried. All that is known is gone through, what the last round
obtained comes after what is older, and it comes in the order of formulas. There was room for the
abstractions of everything before the formula whose abstraction is the goal, and of that formula. -/

namespace Sequitur

open Inference

variable {f g h goal target : Formula} {hints : Hints} {rules : List Inference} {P : Symbol → Prop}
  {facts facts' : Facts} {frontier : FormulaSet} {fs gs : List Formula} {d e : Deduction}
  {ds ds' : List Deduction}

namespace Existential

def attempts (hints : Hints) (fs : List Formula) : List Deduction :=
  fs.flatMap fun f => (abstractions (hinted hints) f).map fun (g, c) => deduction f g c

theorem attempts_append : attempts hints (fs ++ gs) = attempts hints fs ++ attempts hints gs :=
  List.flatMap_append

theorem mem_attempts :
    d ∈ attempts hints fs ↔ ∃ f ∈ fs, ∃ g c, (g, c) ∈ abstractions (hinted hints) f ∧
      deduction f g c = d := by
  simp [attempts]

theorem fits_attempts_iff :
    (∀ d ∈ attempts hints fs, d.formula.Fits) ↔ ∀ f ∈ fs, Roomy hints .existential f := by
  constructor
  · intro fits f member g c abstraction
    exact fits (deduction f g c) (mem_attempts.mpr ⟨f, member, g, c, abstraction, rfl⟩)
  · intro roomy d member
    obtain ⟨f, inside, g, c, abstraction, rfl⟩ := mem_attempts.mp member
    exact roomy f inside g c abstraction

def Finds (hints : Hints) (goal f : Formula) : Prop :=
  ∃ g c, (g, c) ∈ abstractions (hinted hints) f ∧ g.Fits ∧ g.key = goal.key

/-- Where there is room for one abstraction there is for all. -/
theorem Finds.roomy (finds : Finds hints goal f) : Roomy hints .existential f := by
  obtain ⟨g, c, abstraction, fits, -⟩ := finds
  intro g' c' abstraction'
  exact (fits_iff abstraction').mpr ((fits_iff abstraction).mp fits)

theorem Finds.of_twin (finds : Finds hints goal f) (twin : f.TwinInstance g) :
    Finds hints goal g := by
  obtain ⟨h, c, abstraction, fits, same⟩ := finds
  obtain ⟨h', c', abstraction', inst⟩ := abstractions_twin twin abstraction
  exact ⟨h', c', abstraction', inst.fits_iff.mp fits, inst.key_eq.symm.trans same⟩

/-- The goal is found among the first deductions, or there is room for them and it is found later. -/
theorem seek_append (okt : goal.regularForm = .ok target)
    (ok : seek frontier goal target (ds ++ ds') = .ok (.reached e)) :
    (∃ d ∈ ds, d.formula.Fits ∧ d.formula.key = goal.key ∧ e = { d with formula := goal }) ∨
      (∀ d ∈ ds, d.formula.Fits) ∧ seek frontier goal target ds' = .ok (.reached e) := by
  induction ds with
  | nil => exact .inr ⟨by simp, ok⟩
  | cons d ds ih =>
    simp only [List.cons_append, seek, bind_eq_ok] at ok
    obtain ⟨form, okf, ok⟩ := ok
    have here : d.formula.Fits := Formula.fits_iff.mpr ⟨form, okf⟩
    split at ok
    · rename_i same
      obtain rfl := Outcome.reached.inj (pure_eq_ok.mp ok)
      exact .inl ⟨d, List.mem_cons_self, here, (Formula.same_iff_key okf okt).mp same, rfl⟩
    · simp only [bind_eq_ok, pure_eq_ok] at ok
      obtain ⟨later, okl, equal⟩ := ok
      have found : later = .reached e := by
        cases later with
        | reached d => split at equal <;> exact equal
        | candidates ds => split at equal <;> cases equal
      rw [found] at okl
      rcases ih okl with ⟨d', member, rest⟩ | ⟨fits, later⟩
      · exact .inl ⟨d', List.mem_cons_of_mem d member, rest⟩
      · exact .inr ⟨List.forall_mem_cons.mpr ⟨here, fits⟩, later⟩

theorem seek_attempts_append (okt : goal.regularForm = .ok target)
    (ok : seek frontier goal target (attempts hints (fs ++ gs)) = .ok (.reached e)) :
    (∃ f ∈ fs, Finds hints goal f ∧ e.dependencies = [f]) ∨
      (∀ f ∈ fs, Roomy hints .existential f) ∧
        seek frontier goal target (attempts hints gs) = .ok (.reached e) := by
  rw [attempts_append] at ok
  refine (seek_append okt ok).imp ?_ (.imp_left fits_attempts_iff.mp)
  rintro ⟨d, member, fits, same, rfl⟩
  obtain ⟨f, inside, g, c, abstraction, rfl⟩ := mem_attempts.mp member
  exact ⟨f, inside, ⟨g, c, abstraction, fits, same⟩, rfl⟩

theorem exists_finds (okt : goal.regularForm = .ok target)
    (ok : seek frontier goal target (attempts hints fs) = .ok (.reached e)) :
    ∃ f ∈ fs, Finds hints goal f ∧ e.dependencies = [f] := by
  rw [← List.append_nil fs] at ok
  exact (seek_attempts_append okt ok).resolve_right fun later => nomatch later.2

/-- Of formulas in their order, there is room for the abstractions of those before the one that is
found. -/
theorem seek_sorted (okt : goal.regularForm = .ok target)
    (sorted : fs.Pairwise fun f g => f.compare g = .lt)
    (ok : seek frontier goal target (attempts hints (fs ++ gs)) = .ok (.reached e)) :
    (∃ f ∈ fs, Finds hints goal f ∧ e.dependencies = [f] ∧
      ∀ h ∈ fs, h.compare f = .lt → Roomy hints .existential h) ∨
      (∀ f ∈ fs, Roomy hints .existential f) ∧
        seek frontier goal target (attempts hints gs) = .ok (.reached e) := by
  induction fs with
  | nil => exact .inr ⟨by simp, ok⟩
  | cons f fs ih =>
    obtain ⟨first, rest⟩ := List.pairwise_cons.mp sorted
    rw [List.cons_append, ← List.singleton_append] at ok
    rcases seek_attempts_append okt ok with ⟨f', here, finds, depends⟩ | ⟨roomy, later⟩
    · obtain rfl := List.mem_singleton.mp here
      refine .inl ⟨f', List.mem_cons_self, finds, depends, List.forall_mem_cons.mpr ⟨?_, ?_⟩⟩
      · exact fun _ => finds.roomy
      · intro h member before
        have loop : h.compare h = .lt := Std.TransCmp.lt_trans before (first h member)
        rw [Formula.compare_eq_iff.mpr rfl] at loop
        cases loop
    · have here : Roomy hints .existential f := roomy f List.mem_cons_self
      rcases ih rest later with ⟨f', member, finds, depends, before⟩ | ⟨others, later⟩
      · exact .inl ⟨f', List.mem_cons_of_mem f member, finds, depends,
          List.forall_mem_cons.mpr ⟨fun _ => here, before⟩⟩
      · exact .inr ⟨List.forall_mem_cons.mpr ⟨here, others⟩, later⟩

/-- What comes after the goal is not looked at. -/
theorem succeeds_seek_append (okt : goal.regularForm = .ok target)
    (fits : ∀ d ∈ ds, d.formula.Fits) (met : ∃ d ∈ ds, d.formula.key = goal.key) :
    Succeeds (seek frontier goal target (ds ++ ds')) := by
  induction ds with
  | nil => simp at met
  | cons d ds ih =>
    obtain ⟨here, others⟩ := List.forall_mem_cons.mp fits
    refine .bind here.succeeds fun form okf => ?_
    split
    · exact .pure _
    · rename_i apart
      rw [Formula.same_iff_key okf okt] at apart
      have later := ((List.exists_mem_cons_iff ..).mp met).resolve_left apart
      exact (ih others later).bind fun _ _ => .pure _

theorem succeeds_seek_attempts (okt : goal.regularForm = .ok target)
    (roomy : ∀ f ∈ fs, Roomy hints .existential f) (found : ∃ f ∈ fs, Finds hints goal f) :
    Succeeds (seek frontier goal target (attempts hints (fs ++ gs))) := by
  rw [attempts_append]
  refine succeeds_seek_append okt (fits_attempts_iff.mpr roomy) ?_
  obtain ⟨f, member, g, c, abstraction, -, same⟩ := found
  exact ⟨deduction f g c, mem_attempts.mpr ⟨f, member, g, c, abstraction, rfl⟩, same⟩

end Existential

namespace Facts

/-- What abstractions are tried of. -/
theorem MadeOf.of_source (made : facts.MadeOf P frontier)
    (source : f ∈ facts.formulas ++ frontier.toList) : facts.Knows f ∧ ∀ s ∈ f.symbols, P s := by
  rcases List.mem_append.mp source with known | recent
  · exact ⟨made.filed.formula f known, made.known f known⟩
  · exact ⟨made.knows recent, made.obtained f recent⟩

/-- What was just obtained is known after all that is older, in the order of formulas. -/
def Queued (facts : Facts) (frontier : FormulaSet) : Prop :=
  ∃ older, facts.formulas = older ++ frontier.toList ∧ ∀ f ∈ older, f.key ∉ frontier

/-- Regular forms that are new and distinct are added as they stand. -/
theorem formulas_addAll {count : Nat} (regular : ∀ f ∈ fs, f.regularForm = .ok f)
    (new : ∀ f ∈ fs, f ∉ facts.forms) (distinct : fs.Pairwise fun f g => f.compare g ≠ .eq)
    (ok : facts.addAll fs = .ok (facts', count)) : facts'.formulas = facts.formulas ++ fs := by
  induction fs generalizing facts count with
  | nil =>
    obtain ⟨rfl, -⟩ := Prod.mk.inj (Except.ok.inj ok)
    simp
  | cons f fs ih =>
    obtain ⟨form, forms⟩ := List.forall_mem_cons.mp regular
    obtain ⟨missing, others⟩ := List.forall_mem_cons.mp new
    obtain ⟨apart, distinct⟩ := List.pairwise_cons.mp distinct
    simp only [addAll, add, form, bind_eq_ok, pure_eq_ok] at ok
    obtain ⟨⟨between, added⟩, ⟨_, equal, first⟩, ⟨last, more⟩, rest, same⟩ := ok
    obtain rfl := Except.ok.inj equal
    obtain ⟨rfl, -⟩ := Prod.mk.inj same
    rw [if_neg (by rwa [Std.TreeMap.contains_iff_mem])] at first
    obtain ⟨rfl, -⟩ := Prod.mk.inj (pure_eq_ok.mp first)
    rw [ih forms (fun g member => ?_) distinct rest, List.append_assoc, List.singleton_append]
    rw [Std.TreeMap.mem_insert, not_or]
    exact ⟨apart g member, others g member⟩

end Facts

namespace Search

variable {reached : ReachedForms} {p p' : Progress}

/-- What a round adds was not reached before. -/
theorem not_mem_of_enter (ok : enter p ds = .ok p') (added : f ∈ p'.fresh) :
    f ∈ p.fresh ∨ f ∉ p.reached := by
  induction ds generalizing p with
  | nil =>
    obtain rfl := Except.ok.inj ok
    exact .inl added
  | cons d ds ih =>
    simp only [enter, bind_eq_ok] at ok
    obtain ⟨form, okf, ok⟩ := ok
    split at ok
    · exact ih ok
    · rename_i missing
      simp only [bind_eq_ok] at ok
      obtain ⟨r, -, ok⟩ := ok
      rcases ih ok with fresh | apart
      · rw [Std.TreeSet.mem_insert] at fresh
        refine fresh.symm.imp_right fun same there => missing ?_
        rw [Std.TreeMap.contains_congr same]
        exact Std.TreeMap.contains_iff_mem.mpr there
      · exact .inr fun there => apart (Std.TreeMap.mem_insert.mpr (.inr there))

theorem Begins.not_mem_of_fresh (begins : Begins P rules hints goal facts frontier reached)
    (ok : round facts frontier hints goal ⟨reached, {}⟩ rules = .ok (.inr p)) (added : f ∈ p.fresh) :
    f ∉ facts.forms := by
  obtain ⟨ds, -, oke⟩ := round_cases ok
  have apart := (not_mem_of_enter oke added).resolve_left (by simp)
  exact fun known => apart ((begins.there f).mpr known)

/-- What a round obtains is known after all that was known before it. -/
theorem Begins.queued {count : Nat} (begins : Begins P rules hints goal facts frontier reached)
    (single : Symbol.Single P) (uniform : ∀ rule ∈ rules, rule.Uniform)
    (ok : round facts frontier hints goal ⟨reached, {}⟩ rules = .ok (.inr p))
    (added : facts.addAll p.fresh.toList = .ok (facts', count)) : facts'.Queued p.fresh := by
  have within := (begins.next_iff single uniform ok).2.1
  refine ⟨facts.formulas, Facts.formulas_addAll (fun f member => (within.regular f member).regular)
    (fun f member => ?_) Std.TreeSet.distinct_toList added, fun f member fresh => ?_⟩
  · exact begins.not_mem_of_fresh ok (FormulaSet.mem_iff.mpr ⟨f, member, rfl⟩)
  · exact begins.not_mem_of_fresh ok fresh (begins.made.filed.formula f member).key_mem

/-- The goal is no abstraction of anything older. -/
theorem Begins.not_finds (begins : Begins P rules hints goal facts frontier reached)
    (member : .existential ∈ rules) (known : f ∈ facts.formulas) (older : f.key ∉ frontier) :
    ¬ Existential.Finds hints goal f := by
  obtain ⟨form, okf, regular, there⟩ := begins.made.exists_form known
  rw [Formula.key_eq okf, FormulaSet.mem_congr form.bare_bare] at older
  intro finds
  obtain ⟨g, c, abstraction, -, same⟩ := finds.of_twin (Formula.twinInstance_regularForm okf)
  exact (begins.settled .existential member [form] g (by simp) (by simp [regular, there])
    (by simpa using older) (.existential abstraction)).1 same

/-- Where an abstraction is the goal, it is one of what was just obtained, and there is room for the
abstractions of all that comes before. -/
theorem Begins.exists_first (begins : Begins P rules hints goal facts frontier reached)
    (queued : facts.Queued frontier) (member : .existential ∈ rules)
    (ok : Inference.existential.advance facts frontier hints goal = .ok (.reached e)) :
    ∃ f ∈ frontier.toList, Existential.Finds hints goal f ∧ e.dependencies = [f] ∧
      ∀ h ∈ frontier.toList, h.compare f = .lt → Roomy hints .existential h := by
  obtain ⟨target, okt, ok⟩ := bind_eq_ok.mp ok
  obtain ⟨older, split, apart⟩ := queued
  have none (f : Formula) (inside : f ∈ older) : ¬ Existential.Finds hints goal f :=
    begins.not_finds member (split ▸ List.mem_append_left _ inside) (apart f inside)
  rw [split, List.append_assoc] at ok
  rcases Existential.seek_attempts_append okt ok with ⟨f, inside, finds, -⟩ | ⟨-, ok⟩
  · exact absurd finds (none f inside)
  rcases Existential.seek_sorted okt Std.TreeSet.ordered_toList ok with found | ⟨roomy, ok⟩
  · exact found
  · obtain ⟨f, inside, finds, depends⟩ := Existential.exists_finds okt ok
    exact ⟨f, inside, finds, depends, fun h recent _ => roomy h recent⟩

end Search

end Sequitur
