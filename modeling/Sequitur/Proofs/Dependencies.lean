import Sequitur.Proofs.Saturation

/-! The dependencies of a goal suffice. What rests on some of the known formulas alone is obtained
from these at the latest in the same round, whatever else was known. -/

namespace Sequitur

open Saturation

variable {f g form goal : Formula} {hints : Hints} {rule : Inference} {rules : List Inference}
  {P : Symbol → Prop} {facts facts' : Facts} {frontier : FormulaSet} {K : Formula → Prop}
  {reached : ReachedForms} {deps : List Formula}

def Formula.Among (deps : List Formula) (f : Formula) : Prop := ∃ g ∈ deps, g.same f = true

theorem Formula.Among.congr (among : f.Among deps) (same : f.same g = true) : g.Among deps := by
  obtain ⟨h, member, equal⟩ := among
  rw [same_iff] at same equal
  exact ⟨h, member, same_iff.mpr (equal.trans same)⟩

/-- What was reached from roots among these holds. -/
def ReachedForms.Rooted (deps : List Formula) (K : Formula → Prop) (reached : ReachedForms) : Prop :=
  ∀ form r, reached[form]? = some r → (∀ f ∈ r.roots, f.Among deps) → K form

namespace Search

/-- No root of a premise is lost. -/
theorem exists_same_root {premises : List (Formula × Formula)} (roots : List Formula)
    (member : f ∈ roots ∨ ∃ p ∈ premises, ∃ r, reached[p.1]? = some r ∧ f ∈ r.roots) :
    ∃ g ∈ premises.foldl (fun roots p =>
      match reached[p.1]? with
      | some r => r.roots.foldl addRoot roots
      | none => roots ++ [p.2]) roots, g.same f = true := by
  induction premises generalizing f roots with
  | nil => exact ⟨f, by simpa using member, Formula.same_iff.mpr rfl⟩
  | cons p premises ih =>
    rw [List.foldl_cons]
    have here (known : f ∈ roots ∨ ∃ r, reached[p.1]? = some r ∧ f ∈ r.roots) :
        ∃ g ∈ (match reached[p.1]? with
          | some r => r.roots.foldl addRoot roots
          | none => roots ++ [p.2]), g.same f = true := by
      cases found : reached[p.1]? with
      | some r =>
        refine exists_same_of_mem roots (known.imp_right ?_)
        rintro ⟨r', equal, inside⟩
        obtain rfl := Option.some.inj (found.symm.trans equal)
        exact inside
      | none =>
        have earlier : f ∈ roots := known.resolve_right (by simp [found])
        exact ⟨f, List.mem_append_left _ earlier, Formula.same_iff.mpr rfl⟩
    rw [List.exists_mem_cons_iff, ← or_assoc] at member
    rcases member with first | later
    · obtain ⟨g, inside, same⟩ := here first
      obtain ⟨h, kept, same'⟩ := ih _ (.inl inside)
      rw [Formula.same_iff] at same same'
      exact ⟨h, kept, Formula.same_iff.mpr (same'.trans same)⟩
    · exact ih _ (.inr later)

/-- If a step rests on these alone, so do its premises. -/
theorem among_of_step {d : Deduction} {r entry : Step} (ok : step reached d = .ok r)
    (all : ∀ f ∈ r.roots, f.Among deps) (member : f ∈ d.dependencies)
    (okf : f.regularForm = .ok form) (found : reached[form]? = some entry) :
    ∀ root ∈ entry.roots, root.Among deps := by
  intro root inside
  simp only [step, bind_eq_ok, pure_eq_ok] at ok
  obtain ⟨premises, okp, rfl⟩ := ok
  obtain ⟨dependencies, forms⟩ := mem_withForms okp
  rw [dependencies.symm] at member
  obtain ⟨p, premise, rfl⟩ := List.mem_map.mp member
  obtain rfl := Except.ok.inj (okf.symm.trans (forms p premise))
  obtain ⟨g, kept, same⟩ := exists_same_root [] (.inr ⟨p, premise, entry, found, inside⟩)
  exact (all g kept).congr same

variable {p p' : Progress} {ds : List Deduction}

/-- If a step rests on these alone, its premises are among what they lead to. -/
theorem known_of_step {d : Deduction} {r : Step} (rooted : reached.Rooted deps K)
    (kept : ∀ form ∈ reached, p.reached[form]? = reached[form]?) (ok : step p.reached d = .ok r)
    (all : ∀ f ∈ r.roots, f.Among deps) (member : f ∈ d.dependencies)
    (okf : f.regularForm = .ok form) (there : form ∈ reached) (same : form.bare = g.bare) : K g := by
  obtain ⟨entry, found⟩ := mem_iff_exists_entry.mp there
  refine rooted g entry ?_ (among_of_step ok all member okf ?_)
  · rw [← found, Std.TreeMap.getElem?_congr (Formula.compare_eq_iff.mpr same)]
  · rw [kept form there, found]

/-- A step that was tried and rests on these alone can be taken from what they lead to. -/
theorem obtains_of_step {d e : Deduction} {r : Step} (made : facts.MadeOf P frontier)
    (there : ∀ form ∈ facts.forms, form ∈ reached) (rooted : reached.Rooted deps K)
    (kept : ∀ form ∈ reached, p.reached[form]? = reached[form]?) (member : rule ∈ rules)
    (tries : rule.Tries facts frontier hints goal e) (ok : step p.reached d = .ok r)
    (depend : d.dependencies = e.dependencies) (all : ∀ f ∈ r.roots, f.Among deps) :
    ∃ g, Obtains P rules hints goal K rule g ∧ rule.Agrees goal g e.formula := by
  obtain ⟨fs, g, premises, yields, agrees⟩ := tries.exists_yields_of_dependencies made
  refine ⟨g, ⟨member, fs, fun f inside => ?_, yields⟩, agrees⟩
  obtain ⟨regular, h, dependency, same⟩ := premises f inside
  obtain ⟨form, okh, known⟩ := tries.known made.toRecent h dependency
  refine ⟨regular, known_of_step rooted kept ok all (depend ▸ dependency) okh (there form known) ?_⟩
  rw [← Formula.key_eq okh, same, regular.key_eq]

/-- During a round: entries are kept, and the new ones that rest on these are one step away. -/
structure Progress.Rooted (deps : List Formula) (reached : ReachedForms) (K : Formula → Prop)
    (p : Progress) : Prop where
  kept : ∀ form ∈ reached, p.reached[form]? = reached[form]?
  rooted : p.reached.Rooted deps K

theorem Progress.Rooted.enter (made : facts.MadeOf P frontier)
    (there : ∀ form ∈ facts.forms, form ∈ reached) (before : reached.Rooted deps K)
    (tried : ∀ d ∈ ds, ∃ rule ∈ rules, rule.Tries facts frontier hints goal d)
    (rooted : p.Rooted deps reached (next P rules hints goal K)) (ok : Search.enter p ds = .ok p') :
    p'.Rooted deps reached (next P rules hints goal K) := by
  induction ds generalizing p with
  | nil =>
    obtain rfl := Except.ok.inj ok
    exact rooted
  | cons d ds ih =>
    obtain ⟨⟨rule, member, tries⟩, later⟩ := List.forall_mem_cons.mp tried
    simp only [Search.enter, bind_eq_ok] at ok
    obtain ⟨form, okf, ok⟩ := ok
    split at ok
    · exact ih later rooted ok
    · rename_i missing
      simp only [bind_eq_ok] at ok
      obtain ⟨r, oks, ok⟩ := ok
      refine ih later ⟨fun form' inside => ?_, fun form' r' found all => ?_⟩ ok
      · rw [Std.TreeMap.getElem?_insert, if_neg, rooted.kept form' inside]
        intro equal
        apply missing
        rw [Std.TreeMap.contains_congr equal, Std.TreeMap.contains_eq_isSome_getElem?,
          rooted.kept form' inside]
        exact Std.TreeMap.mem_iff_isSome_getElem?.mp inside
      · rw [Std.TreeMap.getElem?_insert] at found
        split at found
        · rename_i equal
          obtain rfl := Option.some.inj found
          obtain ⟨g, obtains, same, -⟩ :=
            obtains_of_step made there before rooted.kept member tries oks rfl all
          refine .inr ⟨rule, g, obtains, ?_⟩
          rw [same, Formula.key_eq okf, Formula.compare_eq_iff.mp equal]
        · exact rooted.rooted form' r' found all

/-- A round that reaches the goal: the rules before return candidates, and one reaches it. -/
theorem exists_last {last : Deduction}
    (ok : round facts frontier hints goal p rules = .ok (.inl last)) :
    ∃ before rule after between d, before ++ rule :: after = rules ∧
      round facts frontier hints goal p before = .ok (.inr between) ∧
      rule.advance facts frontier hints goal = .ok (.reached d) ∧
      conclude between.reached d = .ok last := by
  induction rules generalizing p with
  | nil => cases ok
  | cons rule rules ih =>
    simp only [round, bind_eq_ok] at ok
    obtain ⟨outcome, oka, ok⟩ := ok
    cases outcome with
    | reached d =>
      simp only [bind_eq_ok, pure_eq_ok] at ok
      obtain ⟨last', okc, equal⟩ := ok
      obtain rfl := Sum.inl.inj equal
      exact ⟨[], rule, rules, p, d, rfl, rfl, oka, okc⟩
    | candidates ds =>
      simp only [bind_eq_ok] at ok
      obtain ⟨next, oke, ok⟩ := ok
      obtain ⟨before, last, after, between, d, rfl, first, rest⟩ := ih ok
      refine ⟨rule :: before, last, after, between, d, rfl, ?_, rest⟩
      rw [round, oka]
      simp only [bind, Except.bind, oke]
      exact first

theorem Returned.tried (returned : Returned rules facts frontier hints goal ds) :
    ∀ d ∈ ds, ∃ rule ∈ rules, rule.Tries facts frontier hints goal d := by
  intro d member
  obtain ⟨rule, inside, own, ok, found⟩ := returned.some d member
  exact ⟨rule, inside, (Inference.advance_sought ok).1 d found⟩

theorem Begins.round_rooted (begins : Begins P rules hints goal facts frontier reached)
    (rooted : reached.Rooted deps K) {first : List Inference} (fewer : ∀ rule ∈ first, rule ∈ rules)
    (ok : round facts frontier hints goal ⟨reached, {}⟩ first = .ok (.inr p)) :
    p.Rooted deps reached (Saturation.next P rules hints goal K) := by
  obtain ⟨ds, returned, oke⟩ := round_cases ok
  have there : ∀ form ∈ facts.forms, form ∈ reached := fun form => (begins.there form).mpr
  refine Progress.Rooted.enter begins.made there rooted (fun d member => ?_)
    ⟨fun _ _ => rfl, fun form r found all => .inl (rooted form r found all)⟩ oke
  obtain ⟨rule, inside, tries⟩ := Returned.tried returned d member
  exact ⟨rule, fewer rule inside, tries⟩

/-- What the last step starts from is among what the dependencies lead to. -/
theorem Begins.known_last {last d : Deduction} {first : List Inference}
    (begins : Begins P rules hints goal facts frontier reached) (rooted : reached.Rooted deps K)
    (fewer : ∀ rule ∈ first, rule ∈ rules)
    (okb : round facts frontier hints goal ⟨reached, {}⟩ first = .ok (.inr p))
    (oka : rule.advance facts frontier hints goal = .ok (.reached d))
    (okc : conclude p.reached d = .ok last) (all : ∀ f ∈ last.dependencies, f.Among deps) :
    ∀ f ∈ d.dependencies, ∀ form, f.regularForm = .ok form → K form := by
  intro f member form okf
  simp only [conclude, bind_eq_ok, pure_eq_ok] at okc
  obtain ⟨r, oks, rfl⟩ := okc
  obtain ⟨e, tries, -, rfl⟩ := Inference.advance_sought oka
  obtain ⟨form', okf', known⟩ := tries.known begins.made.toRecent f member
  obtain rfl := Except.ok.inj (okf.symm.trans okf')
  exact known_of_step rooted (begins.round_rooted rooted fewer okb).kept oks all member okf
    ((begins.there form).mpr known) rfl

/-- The rule that reaches the goal could do so from what the dependencies lead to. -/
theorem Begins.obtains_last {last d : Deduction} {before after : List Inference}
    (begins : Begins P rules hints goal facts frontier reached) (rooted : reached.Rooted deps K)
    (split : before ++ rule :: after = rules)
    (first : round facts frontier hints goal ⟨reached, {}⟩ before = .ok (.inr p))
    (oka : rule.advance facts frontier hints goal = .ok (.reached d))
    (okc : conclude p.reached d = .ok last) (all : ∀ f ∈ last.dependencies, f.Among deps) :
    ∃ g, Obtains P rules hints goal K rule g ∧ rule.Meets goal g := by
  have fewer : ∀ r ∈ before, r ∈ rules := fun r member => split ▸ List.mem_append_left _ member
  have member : rule ∈ rules := split ▸ List.mem_append_right before List.mem_cons_self
  simp only [conclude, bind_eq_ok, pure_eq_ok] at okc
  obtain ⟨r, oks, rfl⟩ := okc
  obtain ⟨e, tries, meets, rfl⟩ := Inference.advance_sought oka
  obtain ⟨g, obtains, -, agrees⟩ := obtains_of_step begins.made
    (fun form => (begins.there form).mpr) rooted (begins.round_rooted rooted fewer first).kept
    member tries oks rfl all
  exact ⟨g, obtains, agrees.mpr meets⟩

/-- A goal that is reached with dependencies among these is reached from what they lead to. -/
theorem rounds_rooted {depth : Nat} {d : Deduction} (single : Symbol.Single P)
    (uniform : ∀ rule ∈ rules, rule.Uniform)
    (begins : Begins P rules hints goal facts frontier reached) (rooted : reached.Rooted deps K)
    (ok : rounds rules hints goal depth facts frontier reached = .ok (some d))
    (all : ∀ f ∈ d.dependencies, f.Among deps) : MetWithin P rules hints goal depth K := by
  induction depth generalizing facts frontier reached K with
  | zero => cases ok
  | succ depth ih =>
    simp only [rounds, bind_eq_ok] at ok
    obtain ⟨result, okr, ok⟩ := ok
    cases result with
    | inl last =>
      obtain rfl := Option.some.inj (pure_eq_ok.mp ok)
      obtain ⟨before, rule, after, p, e, split, first, oka, okc⟩ := exists_last okr
      obtain ⟨g, obtains, meets⟩ := begins.obtains_last rooted split first oka okc all
      exact metWithin_of_met ⟨rule, g, obtains, meets⟩
    | inr p =>
      simp only at ok
      split at ok
      · cases ok
      · simp only [bind_eq_ok] at ok
        obtain ⟨⟨facts', count⟩, oka, ok⟩ := ok
        have begins' := (begins.next single uniform okr oka).2
        have rooted' := (begins.round_rooted rooted (fun _ => id) okr).rooted
        obtain ⟨k, low, met⟩ := ih begins' rooted' ok
        exact ⟨k + 1, Nat.succ_lt_succ low, met⟩

end Search

end Sequitur
