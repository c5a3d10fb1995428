import Sequitur.Proofs.Steps

/-! What an attempt at a goal tries. Each inference step goes through the formulas that it could
obtain, up to the first that meets the goal, and it obtains them from known formulas. -/

namespace Sequitur

variable {f g form goal : Formula} {facts facts' : Facts} {frontier : FormulaSet} {hints : Hints}
  {outcome : Outcome}

namespace Formula

/-- What the regular form is known by: it leaves out what is shown and recorded of names, and it
exists whether or not an index overflows. -/
def key (f : Formula) : Formula := (f.number id f.startIndex).formula.bare

theorem key_eq (ok : f.regularForm = .ok form) : f.key = form.bare := by
  obtain ⟨-, rfl⟩ := regularForm_eq_ok ok
  rfl

@[simp] theorem bare_key (f : Formula) : f.key.bare = f.key := bare_bare _

theorem same_iff_key {target : Formula} (okf : f.regularForm = .ok form)
    (okg : g.regularForm = .ok target) : form.same target = true ↔ f.key = g.key := by
  rw [same_iff, key_eq okf, key_eq okg]

end Formula

/-- The set has a formula with this key. -/
theorem FormulaSet.mem_iff {t : FormulaSet} : f ∈ t ↔ ∃ g ∈ t.toList, g.bare = f.bare := by
  let _ : BEq Formula := ⟨Formula.same⟩
  have _ : Std.LawfulBEqCmp Formula.compare :=
    ⟨fun {f g} => Formula.compare_eq_iff.trans Formula.same_iff.symm⟩
  rw [← Std.TreeSet.contains_iff_mem, ← Std.TreeSet.contains_toList, List.contains_iff_exists_mem_beq]
  constructor
  · rintro ⟨g, member, same⟩
    exact ⟨g, member, (Formula.same_iff.mp same).symm⟩
  · rintro ⟨g, member, same⟩
    exact ⟨g, member, Formula.same_iff.mpr same.symm⟩

theorem FormulaSet.mem_congr {t : FormulaSet} (same : f.bare = g.bare) : f ∈ t ↔ g ∈ t :=
  Std.TreeSet.mem_congr (Formula.compare_eq_iff.mpr same)

theorem FormulaSet.mem_ofList {fs : List Formula} (member : f ∈ fs) : f ∈ FormulaSet.ofList fs := by
  induction fs with
  | nil => cases member
  | cons g fs ih =>
    rw [FormulaSet.ofList, List.foldr_cons, Std.TreeSet.mem_insert, Formula.compare_eq_iff]
    rcases List.mem_cons.mp member with rfl | later
    · exact .inl rfl
    · exact .inr (ih later)

/-- Under a key there is an entry. -/
theorem mem_iff_exists_entry {α : Type} {m : Std.TreeMap Formula α Formula.compare} :
    f ∈ m ↔ ∃ entry, m[f]? = some entry :=
  Std.TreeMap.mem_iff_isSome_getElem?.trans Option.isSome_iff_exists

namespace Facts

theorem mem_forms_congr (same : f.bare = g.bare) : f ∈ facts.forms ↔ g ∈ facts.forms :=
  Std.TreeMap.mem_congr (Formula.compare_eq_iff.mpr same)

/-- The formula has the regular form of a known one. -/
def Knows (facts : Facts) (f : Formula) : Prop :=
  ∃ form, f.regularForm = .ok form ∧ form ∈ facts.forms

/-- Every known formula is filed under its regular form, and nothing else is filed. -/
structure Filed (facts : Facts) : Prop where
  formula : ∀ f ∈ facts.formulas, facts.Knows f
  form : ∀ p ∈ facts.forms.toList, p.2 ∈ facts.formulas ∧ p.2.regularForm = .ok p.1

theorem ofList_eq_ok {fs : List Formula} :
    Facts.ofList fs = .ok facts ↔ ∃ count, empty.addAll fs = .ok (facts, count) := by
  simp only [ofList, bind_eq_ok, pure_eq_ok]
  constructor
  · rintro ⟨⟨facts, count⟩, added, rfl⟩
    exact ⟨count, added⟩
  · rintro ⟨count, added⟩
    exact ⟨_, added, rfl⟩

theorem filed_empty : Facts.empty.Filed := ⟨by simp [Facts.empty], by simp [Facts.empty]⟩

/-- What adding a formula does to the keys. -/
theorem mem_forms_add {new : Bool} (ok : facts.add f = .ok (facts', new)) :
    form ∈ facts'.forms ↔ form ∈ facts.forms ∨ f.key = form.bare := by
  simp only [add, bind_eq_ok] at ok
  obtain ⟨key, okf, ok⟩ := ok
  rw [Formula.key_eq okf]
  split at ok
  · rename_i there
    obtain ⟨rfl, -⟩ := Prod.mk.inj (pure_eq_ok.mp ok)
    refine ⟨.inl, fun known => known.elim id fun same => ?_⟩
    exact (mem_forms_congr same).mp (Std.TreeMap.contains_iff_mem.mp there)
  · obtain ⟨rfl, -⟩ := Prod.mk.inj (pure_eq_ok.mp ok)
    rw [Std.TreeMap.mem_insert, Formula.compare_eq_iff, or_comm]

theorem mem_forms_addAll {fs : List Formula} {count : Nat}
    (ok : facts.addAll fs = .ok (facts', count)) :
    form ∈ facts'.forms ↔ form ∈ facts.forms ∨ ∃ f ∈ fs, f.key = form.bare := by
  induction fs generalizing facts count with
  | nil =>
    obtain ⟨rfl, -⟩ := Prod.mk.inj (Except.ok.inj ok)
    simp
  | cons f fs ih =>
    simp only [addAll, bind_eq_ok, pure_eq_ok] at ok
    obtain ⟨⟨between, new⟩, first, ⟨last, more⟩, rest, equal⟩ := ok
    obtain ⟨rfl, -⟩ := Prod.mk.inj equal
    rw [ih rest, mem_forms_add first, List.exists_mem_cons_iff, or_assoc]

theorem mem_formulas_addAll {fs : List Formula} {count : Nat}
    (ok : facts.addAll fs = .ok (facts', count)) (member : f ∈ facts'.formulas) :
    f ∈ facts.formulas ∨ f ∈ fs := by
  induction fs generalizing facts count with
  | nil =>
    obtain ⟨rfl, -⟩ := Prod.mk.inj (Except.ok.inj ok)
    exact .inl member
  | cons g fs ih =>
    simp only [addAll, bind_eq_ok, pure_eq_ok] at ok
    obtain ⟨⟨between, new⟩, first, ⟨last, more⟩, rest, equal⟩ := ok
    obtain ⟨rfl, -⟩ := Prod.mk.inj equal
    rcases ih rest with earlier | later
    · simp only [add, bind_eq_ok] at first
      obtain ⟨form, -, first⟩ := first
      split at first
      · obtain ⟨rfl, -⟩ := Prod.mk.inj (pure_eq_ok.mp first)
        exact .inl earlier
      · obtain ⟨rfl, -⟩ := Prod.mk.inj (pure_eq_ok.mp first)
        rcases List.mem_append.mp earlier with known | new
        · exact .inl known
        · exact .inr (by simp [List.mem_singleton.mp new])
    · exact .inr (List.mem_cons_of_mem g later)

namespace Filed

theorem add {new : Bool} (filed : facts.Filed) (ok : facts.add f = .ok (facts', new)) :
    facts'.Filed := by
  have keys (form : Formula) : form ∈ facts'.forms ↔ form ∈ facts.forms ∨ f.key = form.bare :=
    mem_forms_add ok
  have grows {g : Formula} : facts.Knows g → facts'.Knows g := by
    rintro ⟨form, okg, known⟩
    exact ⟨form, okg, (keys form).mpr (.inl known)⟩
  simp only [Facts.add, bind_eq_ok] at ok
  obtain ⟨form, okf, ok⟩ := ok
  have here : facts'.Knows f := ⟨form, okf, (keys form).mpr (.inr (Formula.key_eq okf))⟩
  split at ok
  · obtain ⟨rfl, -⟩ := Prod.mk.inj (pure_eq_ok.mp ok)
    exact filed
  · obtain ⟨rfl, -⟩ := Prod.mk.inj (pure_eq_ok.mp ok)
    constructor
    · intro g member
      rcases List.mem_append.mp member with known | new
      · exact grows (filed.formula g known)
      · rwa [List.mem_singleton.mp new]
    · intro p member
      rcases mem_toList_insert member with rfl | earlier
      · exact ⟨by simp, okf⟩
      · obtain ⟨known, regular⟩ := filed.form p earlier
        exact ⟨by simp [known], regular⟩

theorem addAll {fs : List Formula} {count : Nat} (filed : facts.Filed)
    (ok : facts.addAll fs = .ok (facts', count)) : facts'.Filed := by
  induction fs generalizing facts count with
  | nil =>
    obtain ⟨rfl, -⟩ := Prod.mk.inj (Except.ok.inj ok)
    exact filed
  | cons f fs ih =>
    simp only [Facts.addAll, bind_eq_ok, pure_eq_ok] at ok
    obtain ⟨⟨between, new⟩, first, ⟨last, more⟩, rest, equal⟩ := ok
    obtain ⟨rfl, -⟩ := Prod.mk.inj equal
    exact ih (filed.add first) rest

theorem ofList {fs : List Formula} (ok : Facts.ofList fs = .ok facts) : facts.Filed := by
  obtain ⟨count, added⟩ := ofList_eq_ok.mp ok
  exact filed_empty.addAll added

/-- What is found under a form has that form, but for what is shown and recorded. -/
theorem find? (filed : facts.Filed) (found : facts.find? form = some f) :
    f ∈ facts.formulas ∧ f.key = form.bare := by
  obtain ⟨filedAs, equal, member⟩ :=
    Std.TreeMap.getElem?_eq_some_iff_exists_compare_eq_eq_and_mem_toList.mp found
  obtain ⟨known, regular⟩ := filed.form (filedAs, f) member
  exact ⟨known, by rw [Formula.key_eq regular, Formula.compare_eq_iff.mp equal]⟩

theorem findIdentical? (filed : facts.Filed) (found : facts.findIdentical? f = .ok (some g)) :
    g ∈ facts.formulas ∧ g.key = f.key := by
  simp only [Facts.findIdentical?, bind_eq_ok, pure_eq_ok] at found
  obtain ⟨form, ok, found⟩ := found
  rw [Formula.key_eq ok]
  exact filed.find? found

end Filed

structure Recent (facts : Facts) (frontier : FormulaSet) : Prop where
  filed : facts.Filed
  regular : ∀ f ∈ frontier.toList, f.regularForm = .ok f
  mem_forms : ∀ f ∈ frontier.toList, f ∈ facts.forms

namespace Recent

theorem knows (recent : facts.Recent frontier) (member : f ∈ frontier.toList) : facts.Knows f :=
  ⟨f, recent.regular f member, recent.mem_forms f member⟩

theorem knows_of_mem (recent : facts.Recent frontier) (ok : f.regularForm = .ok form)
    (member : form ∈ frontier) : facts.Knows f := by
  obtain ⟨g, inside, same⟩ := FormulaSet.mem_iff.mp member
  exact ⟨form, ok, (mem_forms_congr same).mp (recent.mem_forms g inside)⟩

end Recent

/-- The regular forms are those of known formulas. -/
theorem Filed.exists_known (filed : facts.Filed) (member : form ∈ facts.regularForms.toList) :
    ∃ f ∈ facts.formulas, f.regularForm = .ok form := by
  have key : form ∈ facts.forms.keys := FormulaSet.mem_of_mem_ofList member
  rw [← Std.TreeMap.map_fst_toList_eq_keys] at key
  obtain ⟨p, there, rfl⟩ := List.mem_map.mp key
  obtain ⟨known, regular⟩ := filed.form p there
  exact ⟨p.2, known, regular⟩

/-- At the start everything known was just obtained. -/
theorem Filed.recent (filed : facts.Filed) : facts.Recent facts.regularForms := by
  refine ⟨filed, fun f member => ?_, fun f member => ?_⟩
  · obtain ⟨g, -, regular⟩ := filed.exists_known member
    exact Formula.regularForm_regular regular
  · exact Std.TreeMap.mem_of_mem_keys (FormulaSet.mem_of_mem_ofList member)

end Facts

namespace Inference

/-- What a step tries to obtain, each deduction as it would be if its formula were no goal. -/
inductive Tries (facts : Facts) (frontier : FormulaSet) (hints : Hints) (goal : Formula) :
    Inference → Deduction → Prop
  | pattern {rule : PatternRule} {f g : Formula} {gs : List Formula} : f ∈ frontier.toList →
      rule.results f = .ok gs → g ∈ gs →
      Tries facts frontier hints goal (.pattern rule) (rule.deduction f g)
  | flattening {f : Formula} : f ∈ frontier.toList →
      Tries facts frontier hints goal .flattening (Flattening.deduction f f.flatten)
  | conjunction {fs gs : List Formula} : goal = .and fs →
      Conjunction.sources facts frontier fs = .ok (some gs) →
      Tries facts frontier hints goal .conjunction ⟨Conjunction.name, goal, gs, [], none⟩
  | implication {a b p : Formula} : .imply a b ∈ frontier.toList →
      facts.findIdentical? a = .ok (some p) →
      Tries facts frontier hints goal .modusPonens (ModusPonens.deduction (.imply a b) p b)
  | premise {form a b p : Formula} : (form, .imply a b) ∈ facts.forms.toList → form ∉ frontier →
      a.regularForm = .ok p → p ∈ frontier →
      Tries facts frontier hints goal .modusPonens (ModusPonens.deduction (.imply a b) p b)
  | excludedMiddle : ExcludedMiddle.pattern.matcher goal .empty ≠ [] →
      Tries facts frontier hints goal .excludedMiddle (ExcludedMiddle.deduction goal)
  | existential {f g : Formula} {c : Term} : f ∈ facts.formulas ∨ f ∈ frontier.toList →
      (g, c) ∈ Existential.abstractions (Existential.hinted hints) f →
      Tries facts frontier hints goal .existential (Existential.deduction f g c)

def Meets (goal : Formula) : Inference → Formula → Prop
  | .pattern _, g => g.identical goal = true
  | .flattening, g => g.key = goal.flatten.key
  | .conjunction, _ => True
  | .modusPonens, g => g.key = goal.key
  | .excludedMiddle, _ => True
  | .existential, g => g.key = goal.key

end Inference

/-- Such a formula was just obtained, so it is not obtained again. -/
def Deduction.Repeats (frontier : FormulaSet) (d : Deduction) : Prop :=
  ∃ f ∈ frontier.toList, f.bare = d.formula.bare ∨ f.bare = d.formula.key

/-- What comes of trying: the goal, from something tried that meets it; or else everything tried
that is no repetition, and nothing tried meets the goal. -/
def Outcome.Sought (goal : Formula) (tried meets repeats : Deduction → Prop) : Outcome → Prop
  | .reached d => ∃ e, tried e ∧ meets e ∧ d = { e with formula := goal }
  | .candidates ds => (∀ d ∈ ds, tried d) ∧ ∀ e, tried e → ¬ meets e ∧ (repeats e ∨ e ∈ ds)

namespace Outcome.Sought

variable {tried tried' meets repeats repeats' : Deduction → Prop} {ds : List Deduction}

theorem congr (sought : outcome.Sought goal tried meets repeats)
    (same : ∀ e, tried e ↔ tried' e) (skips : ∀ e, repeats e → repeats' e) :
    outcome.Sought goal tried' meets repeats' := by
  cases outcome with
  | reached d =>
    obtain ⟨e, here, rest⟩ := sought
    exact ⟨e, (same e).mp here, rest⟩
  | candidates ds =>
    refine ⟨fun d member => (same d).mp (sought.1 d member), fun e tries => ?_⟩
    obtain ⟨apart, found⟩ := sought.2 e ((same e).mpr tries)
    exact ⟨apart, found.imp_left (skips e)⟩

/-- First these candidates, then what comes of the rest. -/
theorem after (first : (Outcome.candidates ds).Sought goal tried meets repeats)
    (later : outcome.Sought goal tried' meets repeats) :
    (outcome.after ds).Sought goal (fun e => tried e ∨ tried' e) meets repeats := by
  cases outcome with
  | reached d =>
    obtain ⟨e, here, rest⟩ := later
    exact ⟨e, .inr here, rest⟩
  | candidates more =>
    constructor
    · intro d member
      exact (List.mem_append.mp member).imp (first.1 d) (later.1 d)
    · rintro e (tries | tries)
      · obtain ⟨apart, found⟩ := first.2 e tries
        exact ⟨apart, found.imp_right fun member => List.mem_append_left _ member⟩
      · obtain ⟨apart, found⟩ := later.2 e tries
        exact ⟨apart, found.imp_right fun member => List.mem_append_right _ member⟩

/-- Something tried that does not meet the goal is left out if it is a repetition. -/
theorem before {d : Deduction} {skip : Bool} (later : outcome.Sought goal tried meets repeats)
    (apart : ¬ meets d) (repeated : skip = true → repeats d) :
    (if skip then outcome else outcome.after [d]).Sought goal (fun e => d = e ∨ tried e) meets
      repeats := by
  cases skip with
  | true =>
    cases outcome with
    | reached e =>
      obtain ⟨e', here, rest⟩ := later
      exact ⟨e', .inr here, rest⟩
    | candidates ds =>
      refine ⟨fun e member => .inr (later.1 e member), ?_⟩
      rintro e (rfl | tries)
      · exact ⟨apart, .inl (repeated rfl)⟩
      · exact later.2 e tries
  | false =>
    have here : (Outcome.candidates [d]).Sought goal (fun e => d = e) meets repeats := by
      refine ⟨by simp, ?_⟩
      rintro e rfl
      exact ⟨apart, .inr (by simp)⟩
    exact here.after later

end Outcome.Sought

theorem PatternRule.seek_sought {rule : PatternRule} {fs : List Formula}
    (ok : rule.seek goal fs = .ok outcome) :
    outcome.Sought goal
      (fun d => ∃ f ∈ fs, ∃ gs, rule.results f = .ok gs ∧ ∃ g ∈ gs, rule.deduction f g = d)
      (fun d => d.formula.identical goal = true) fun _ => False := by
  induction fs generalizing outcome with
  | nil =>
    obtain rfl := Except.ok.inj ok
    exact ⟨by simp, by simp⟩
  | cons f fs ih =>
    simp only [seek, bind_eq_ok] at ok
    obtain ⟨gs, okg, ok⟩ := ok
    split at ok
    · rename_i found
      obtain rfl := pure_eq_ok.mp ok
      obtain ⟨g, member, identical⟩ := List.any_eq_true.mp found
      exact ⟨rule.deduction f g, ⟨f, by simp, gs, okg, g, member, rfl⟩, identical, rfl⟩
    · rename_i none
      simp only [bind_eq_ok, pure_eq_ok] at ok
      obtain ⟨later, okl, rfl⟩ := ok
      have here : (Outcome.candidates (gs.map (rule.deduction f))).Sought goal
          (fun d => d ∈ gs.map (rule.deduction f)) (fun d => d.formula.identical goal = true)
          fun _ => False := by
        refine ⟨fun _ => id, fun e member => ⟨?_, .inr member⟩⟩
        obtain ⟨g, result, rfl⟩ := List.mem_map.mp member
        exact fun identical => none (List.any_eq_true.mpr ⟨g, result, identical⟩)
      refine (here.after (ih okl)).congr (fun e => ?_) fun _ => id
      simp [okg]

/-- Every form that is gone through is flattened, and the result depends on the formula it stands
for. -/
theorem Flattening.seek_sought {target : Formula} {pairs : List (Formula × Formula)}
    (flat : goal.flatten.regularForm = .ok target) (ok : seek goal target pairs = .ok outcome) :
    outcome.Sought goal (fun d => ∃ p ∈ pairs, deduction p.2 p.1.flatten = d)
      (fun d => d.formula.key = goal.flatten.key) fun d => ∃ p ∈ pairs, p.1.bare = d.formula.bare := by
  induction pairs generalizing outcome with
  | nil =>
    obtain rfl := Except.ok.inj ok
    exact ⟨by simp, by simp⟩
  | cons p pairs ih =>
    obtain ⟨form, source⟩ := p
    simp only [seek, bind_eq_ok] at ok
    obtain ⟨flattened, okf, ok⟩ := ok
    have meets := Formula.same_iff_key okf flat
    split at ok
    · rename_i same
      obtain rfl := pure_eq_ok.mp ok
      exact ⟨deduction source form.flatten, ⟨_, List.mem_cons_self, rfl⟩, meets.mp same, rfl⟩
    · rename_i apart
      simp only [bind_eq_ok, pure_eq_ok] at ok
      obtain ⟨later, okl, rfl⟩ := ok
      have rest : later.Sought goal (fun d => ∃ p ∈ pairs, deduction p.2 p.1.flatten = d)
          (fun d => d.formula.key = goal.flatten.key)
          fun d => ∃ p ∈ (form, source) :: pairs, p.1.bare = d.formula.bare := by
        refine (ih okl).congr (fun _ => Iff.rfl) ?_
        rintro e ⟨p, member, same⟩
        exact ⟨p, by simp [member], same⟩
      have repeated (same : form.flatten.same form = true) :
          ∃ p ∈ (form, source) :: pairs, p.1.bare = (deduction source form.flatten).formula.bare :=
        ⟨_, List.mem_cons_self, (Formula.same_iff.mp same).symm⟩
      exact (rest.before (mt meets.mpr apart) repeated).congr (fun e => by simp) fun _ => id

theorem Existential.seek_sought {target : Formula} {ds : List Deduction}
    (okg : goal.regularForm = .ok target)
    (ok : Existential.seek frontier goal target ds = .ok outcome) :
    outcome.Sought goal (fun d => d ∈ ds) (fun d => d.formula.key = goal.key)
      fun d => ∃ f ∈ frontier.toList, f.bare = d.formula.key := by
  induction ds generalizing outcome with
  | nil =>
    obtain rfl := Except.ok.inj ok
    exact ⟨by simp, by simp⟩
  | cons d ds ih =>
    simp only [Existential.seek, bind_eq_ok] at ok
    obtain ⟨form, okf, ok⟩ := ok
    have meets := Formula.same_iff_key okf okg
    split at ok
    · rename_i same
      obtain rfl := pure_eq_ok.mp ok
      exact ⟨d, by simp, meets.mp same, rfl⟩
    · rename_i apart
      simp only [bind_eq_ok, pure_eq_ok] at ok
      obtain ⟨later, okl, rfl⟩ := ok
      have repeated (recent : frontier.contains form = true) :
          ∃ f ∈ frontier.toList, f.bare = d.formula.key := by
        rw [Formula.key_eq okf]
        exact FormulaSet.mem_iff.mp (Std.TreeSet.contains_iff_mem.mp recent)
      exact ((ih okl).before (mt meets.mpr apart) repeated).congr (fun e => by simp [eq_comm])
        fun _ => id

namespace ModusPonens

theorem mem_ofImplications {fs : List Formula} {ds : List Deduction} {d : Deduction}
    (ok : ofImplications facts fs = .ok ds) :
    d ∈ ds ↔ ∃ a b p, .imply a b ∈ fs ∧ facts.findIdentical? a = .ok (some p) ∧
      deduction (.imply a b) p b = d := by
  fun_induction ofImplications facts fs generalizing ds with
  | case1 =>
    obtain rfl := Except.ok.inj ok
    simp
  | case2 a b fs ih =>
    simp only [bind_eq_ok] at ok
    obtain ⟨premise, okp, later, okl, ok⟩ := ok
    have rest := ih okl
    cases premise with
    | some p =>
      obtain rfl := pure_eq_ok.mp ok
      rw [List.mem_cons, rest]
      constructor
      · rintro (rfl | ⟨a', b', q, member, found⟩)
        · exact ⟨a, b, p, by simp, okp, rfl⟩
        · exact ⟨a', b', q, by simp [member], found⟩
      · rintro ⟨a', b', q, member, found, rfl⟩
        rcases List.mem_cons.mp member with here | later
        · obtain ⟨-, rfl, rfl⟩ := Formula.link.inj here
          obtain rfl := Option.some.inj (Except.ok.inj (okp.symm.trans found))
          exact .inl rfl
        · exact .inr ⟨a', b', q, later, found, rfl⟩
    | none =>
      obtain rfl := pure_eq_ok.mp ok
      rw [rest]
      constructor
      · rintro ⟨a', b', q, member, found⟩
        exact ⟨a', b', q, by simp [member], found⟩
      · rintro ⟨a', b', q, member, found, rfl⟩
        rcases List.mem_cons.mp member with here | later
        · obtain ⟨-, rfl, rfl⟩ := Formula.link.inj here
          cases okp.symm.trans found
        · exact ⟨a', b', q, later, found, rfl⟩
  | case3 f fs other ih =>
    rw [ih ok]
    constructor
    · rintro ⟨a, b, p, member, found⟩
      exact ⟨a, b, p, by simp [member], found⟩
    · rintro ⟨a, b, p, member, found⟩
      rcases List.mem_cons.mp member with rfl | later
      · exact absurd rfl (other a b)
      · exact ⟨a, b, p, later, found⟩

theorem mem_ofPremises {pairs : List (Formula × Formula)} {ds : List Deduction} {d : Deduction}
    (ok : ofPremises frontier pairs = .ok ds) :
    d ∈ ds ↔ ∃ form a b p, (form, .imply a b) ∈ pairs ∧ form ∉ frontier ∧
      a.regularForm = .ok p ∧ p ∈ frontier ∧ deduction (.imply a b) p b = d := by
  fun_induction ofPremises frontier pairs generalizing ds with
  | case1 =>
    obtain rfl := Except.ok.inj ok
    simp
  | case2 form a b rest recent ih =>
    rw [ih ok]
    constructor
    · rintro ⟨form', a', b', p, member, found⟩
      exact ⟨form', a', b', p, by simp [member], found⟩
    · rintro ⟨form', a', b', p, member, old, found⟩
      rcases List.mem_cons.mp member with here | later
      · obtain ⟨rfl, -⟩ := Prod.mk.inj here
        exact absurd (Std.TreeSet.contains_iff_mem.mp recent) old
      · exact ⟨form', a', b', p, later, old, found⟩
  | case3 form a b rest old ih =>
    simp only [bind_eq_ok] at ok
    obtain ⟨premise, okp, later, okl, ok⟩ := ok
    have rest := ih okl
    rw [Std.TreeSet.contains_iff_mem] at old
    split at ok
    · rename_i recent
      obtain rfl := pure_eq_ok.mp ok
      rw [List.mem_cons, rest]
      constructor
      · rintro (rfl | ⟨form', a', b', p, member, found⟩)
        · exact ⟨form, a, b, premise, by simp, old, okp, Std.TreeSet.contains_iff_mem.mp recent, rfl⟩
        · exact ⟨form', a', b', p, by simp [member], found⟩
      · rintro ⟨form', a', b', p, member, old', okp', found⟩
        rcases List.mem_cons.mp member with here | later
        · obtain ⟨rfl, same⟩ := Prod.mk.inj here
          obtain ⟨-, rfl, rfl⟩ := Formula.link.inj same
          obtain rfl := Except.ok.inj (okp.symm.trans okp')
          exact .inl found.2.symm
        · exact .inr ⟨form', a', b', p, later, old', okp', found⟩
    · rename_i missing
      obtain rfl := pure_eq_ok.mp ok
      rw [rest]
      constructor
      · rintro ⟨form', a', b', p, member, found⟩
        exact ⟨form', a', b', p, by simp [member], found⟩
      · rintro ⟨form', a', b', p, member, old', okp', inside, found⟩
        rcases List.mem_cons.mp member with here | later
        · obtain ⟨rfl, same⟩ := Prod.mk.inj here
          obtain ⟨-, rfl, rfl⟩ := Formula.link.inj same
          obtain rfl := Except.ok.inj (okp.symm.trans okp')
          exact absurd (Std.TreeSet.contains_iff_mem.mpr inside) missing
        · exact ⟨form', a', b', p, later, old', okp', inside, found⟩
  | case4 p rest other ih =>
    rw [ih ok]
    constructor
    · rintro ⟨form, a, b, q, member, found⟩
      exact ⟨form, a, b, q, by simp [member], found⟩
    · rintro ⟨form, a, b, q, member, found⟩
      rcases List.mem_cons.mp member with rfl | later
      · exact absurd rfl (other form a b)
      · exact ⟨form, a, b, q, later, found⟩

end ModusPonens

namespace Conjunction

variable {fs gs : List Formula}

/-- Sources are known, and have the regular forms of the members. -/
theorem sources_some (recent : facts.Recent frontier)
    (ok : sources facts frontier fs = .ok (some gs)) :
    gs.map Formula.key = fs.map Formula.key ∧ ∀ g ∈ gs, facts.Knows g := by
  induction fs generalizing gs with
  | nil =>
    obtain rfl := Option.some.inj (Except.ok.inj ok)
    simp
  | cons f fs ih =>
    simp only [sources, bind_eq_ok] at ok
    obtain ⟨form, okf, ok⟩ := ok
    have source : ∃ g rest, gs = g :: rest ∧ sources facts frontier fs = .ok (some rest) ∧
        g.key = f.key ∧ facts.Knows g := by
      rw [Formula.key_eq okf]
      split at ok
      · rename_i g found
        obtain ⟨known, same⟩ := recent.filed.find? found
        simp only [bind_eq_ok, pure_eq_ok, Option.map_eq_some_iff] at ok
        obtain ⟨_, rest, gs, rfl, rfl⟩ := ok
        exact ⟨g, gs, rfl, rest, same, recent.filed.formula g known⟩
      · split at ok
        · rename_i inside
          simp only [bind_eq_ok, pure_eq_ok, Option.map_eq_some_iff] at ok
          obtain ⟨_, rest, gs, rfl, rfl⟩ := ok
          have regular := Formula.regularForm_regular okf
          exact ⟨form, gs, rfl, rest, Formula.key_eq regular,
            recent.knows_of_mem regular (Std.TreeSet.contains_iff_mem.mp inside)⟩
        · cases ok
    obtain ⟨g, rest, rfl, okr, same, known⟩ := source
    obtain ⟨sames, all⟩ := ih okr
    exact ⟨by simp [same, sames], List.forall_mem_cons.mpr ⟨known, all⟩⟩

theorem sources_none (ok : sources facts frontier fs = .ok none) : ∃ f ∈ fs, f.key ∉ facts.forms := by
  induction fs with
  | nil => cases ok
  | cons f fs ih =>
    simp only [sources, bind_eq_ok] at ok
    obtain ⟨form, okf, ok⟩ := ok
    have later (rest : sources facts frontier fs = .ok none) :
        ∃ g ∈ f :: fs, g.key ∉ facts.forms := by
      obtain ⟨g, member, missing⟩ := ih rest
      exact ⟨g, by simp [member], missing⟩
    split at ok
    · simp only [bind_eq_ok, pure_eq_ok, Option.map_eq_none_iff] at ok
      obtain ⟨_, rest, rfl⟩ := ok
      exact later rest
    · rename_i missing
      refine ⟨f, by simp, fun known => ?_⟩
      rw [Formula.key_eq okf, Facts.mem_forms_congr form.bare_bare,
        Std.TreeMap.mem_iff_isSome_getElem?] at known
      simp only [Facts.find?] at missing
      simp [missing] at known

end Conjunction

namespace Inference

variable {rule : Inference} {d : Deduction}

theorem Tries.name (tries : rule.Tries facts frontier hints goal d) : d.rule = rule.name := by
  cases tries <;> rfl

/-- Whatever a step tries, it tries it from known formulas. -/
theorem Tries.known (recent : facts.Recent frontier)
    (tries : rule.Tries facts frontier hints goal d) : ∀ f ∈ d.dependencies, facts.Knows f := by
  intro f dependency
  cases tries with
  | pattern member _ _ =>
    obtain rfl := List.mem_singleton.mp dependency
    exact recent.knows member
  | flattening member =>
    obtain rfl := List.mem_singleton.mp dependency
    exact recent.knows member
  | conjunction _ found => exact (Conjunction.sources_some recent found).2 f dependency
  | implication member found =>
    rcases List.mem_pair.mp dependency with rfl | rfl
    · exact recent.knows member
    · exact recent.filed.formula _ (recent.filed.findIdentical? found).1
  | premise filed _ ok member =>
    rcases List.mem_pair.mp dependency with rfl | rfl
    · exact recent.filed.formula _ (recent.filed.form _ filed).1
    · exact recent.knows_of_mem (Formula.regularForm_regular ok) member
  | excludedMiddle _ => cases dependency
  | existential source _ =>
    obtain rfl := List.mem_singleton.mp dependency
    exact source.elim (recent.filed.formula _) recent.knows

/-- An attempt at a goal goes through everything that the step tries. -/
theorem advance_sought (ok : rule.advance facts frontier hints goal = .ok outcome) :
    outcome.Sought goal (rule.Tries facts frontier hints goal) (fun d => rule.Meets goal d.formula)
      (Deduction.Repeats frontier) := by
  cases rule with
  | pattern rule =>
    refine (PatternRule.seek_sought ok).congr (fun d => ?_) fun _ => False.elim
    constructor
    · rintro ⟨f, member, gs, results, g, result, rfl⟩
      exact .pattern member results result
    · intro tries
      cases tries with
      | pattern member results result => exact ⟨_, member, _, results, _, result, rfl⟩
  | flattening =>
    simp only [advance, Flattening.advance, bind_eq_ok] at ok
    obtain ⟨target, flat, ok⟩ := ok
    refine (Flattening.seek_sought flat ok).congr (fun d => ?_) ?_
    · constructor
      · rintro ⟨p, member, rfl⟩
        obtain ⟨f, inside, rfl⟩ := List.mem_map.mp member
        exact .flattening inside
      · intro tries
        cases tries with
        | flattening member => exact ⟨_, List.mem_map_of_mem member, rfl⟩
    · rintro d ⟨p, member, same⟩
      obtain ⟨f, inside, rfl⟩ := List.mem_map.mp member
      exact ⟨f, inside, .inl same⟩
  | conjunction =>
    simp only [advance, Conjunction.advance] at ok
    split at ok
    · rename_i fs
      simp only [bind_eq_ok] at ok
      obtain ⟨found, oks, ok⟩ := ok
      cases found with
      | some gs =>
        obtain rfl := pure_eq_ok.mp ok
        exact ⟨_, .conjunction rfl oks, trivial, rfl⟩
      | none =>
        obtain rfl := pure_eq_ok.mp ok
        refine ⟨by simp, fun d tries => ?_⟩
        cases tries with
        | conjunction equal found =>
          obtain ⟨-, rfl⟩ := Formula.multi.inj equal
          cases oks.symm.trans found
    · rename_i other
      obtain rfl := pure_eq_ok.mp ok
      refine ⟨by simp, fun d tries => ?_⟩
      cases tries with
      | conjunction equal _ => exact absurd equal (other _)
  | modusPonens =>
    simp only [advance, ModusPonens.advance, bind_eq_ok] at ok
    obtain ⟨target, okg, fresh, okf, older, oko, ok⟩ := ok
    rw [ModusPonens.seek_eq] at ok
    refine (Existential.seek_sought okg ok).congr (fun d => ?_) ?_
    · rw [List.mem_append, ModusPonens.mem_ofImplications okf, ModusPonens.mem_ofPremises oko]
      constructor
      · rintro (⟨a, b, p, member, found, rfl⟩ | ⟨form, a, b, p, filed, old, okp, member, rfl⟩)
        · exact .implication member found
        · exact .premise filed old okp member
      · intro tries
        cases tries with
        | implication member found => exact .inl ⟨_, _, _, member, found, rfl⟩
        | premise filed old okp member => exact .inr ⟨_, _, _, _, filed, old, okp, member, rfl⟩
    · rintro d ⟨f, member, -⟩
      cases member
  | excludedMiddle =>
    obtain rfl := Except.ok.inj ok
    rw [ExcludedMiddle.advance]
    split
    · rename_i none
      refine ⟨by simp, fun d tries => ?_⟩
      cases tries with
      | excludedMiddle found => exact absurd (List.isEmpty_iff.mp none) found
    · rename_i found
      exact ⟨_, .excludedMiddle (mt List.isEmpty_iff.mpr found), trivial, rfl⟩
  | existential =>
    simp only [advance, Existential.advance, bind_eq_ok] at ok
    obtain ⟨target, okg, ok⟩ := ok
    refine (Existential.seek_sought okg ok).congr (fun d => ?_) ?_
    · simp only [List.mem_flatMap, List.mem_append, List.mem_map]
      constructor
      · rintro ⟨f, source, ⟨g, c⟩, member, rfl⟩
        exact .existential source member
      · intro tries
        cases tries with
        | existential source member => exact ⟨_, source, _, member, rfl⟩
    · rintro d ⟨f, member, same⟩
      exact ⟨f, member, .inr same⟩

end Inference

end Sequitur
