import Sequitur.Proofs.Facts
import Sequitur.Proofs.Saturation

/-! A search looks at the known formulas and at the goal only up to identity, and it is monotone.
Where more is known, an identical goal is reached at the latest at the same depth. Neither the order
in which formulas were added nor the names of their bound variables matter. -/

namespace Sequitur

open Arrangement

/-- Counterparts may be replaced by lists whose items are counterparts. -/
theorem Arrangement.Pairing.flatMap {α β α' β' : Type} {fits : α' × β' → Prop}
    {pairs : List (α × β)} {xs : List α} {ys : List β} {h : α → List α'} {k : β → List β'}
    (pairing : Pairing false pairs xs ys)
    (inner : ∀ p ∈ pairs, ∃ more, Pairing false more (h p.1) (k p.2) ∧ ∀ q ∈ more, fits q) :
    ∃ more, Pairing false more (xs.flatMap h) (ys.flatMap k) ∧ ∀ q ∈ more, fits q := by
  obtain ⟨rfl, perm⟩ := pairing
  have aligned : ∃ more, Pairing false more ((pairs.map Prod.fst).flatMap h)
      ((pairs.map Prod.snd).flatMap k) ∧ ∀ q ∈ more, fits q := by
    clear perm
    induction pairs with
    | nil => exact ⟨[], ⟨rfl, .refl _⟩, by simp⟩
    | cons p pairs ih =>
      obtain ⟨here, later⟩ := List.forall_mem_cons.mp inner
      obtain ⟨first, ⟨left, right⟩, all⟩ := here
      obtain ⟨rest, ⟨left', right'⟩, all'⟩ := ih later
      refine ⟨first ++ rest, ⟨by simp [left, left'], ?_⟩, List.forall_mem_append.mpr ⟨all, all'⟩⟩
      rw [List.map_append]
      exact right.append right'
  obtain ⟨more, ⟨left, right⟩, all⟩ := aligned
  exact ⟨more, ⟨left, right.trans (perm.flatMap_right k)⟩, all⟩

namespace Formula

variable {f g : Formula} {R : Symbol → Symbol → Prop} {E : Change}

theorem Instance.members (inst : Instance R E f g) (c : Junction) :
    ∃ pairs, Pairing false pairs (f.members c) (g.members c) ∧
      ∀ p ∈ pairs, Instance R E p.1 p.2 := by
  have alone {f g : Formula} (inst : Instance R E f g) : ∃ pairs, Pairing false pairs [f] [g] ∧
      ∀ p ∈ pairs, Instance R E p.1 p.2 := ⟨[(f, g)], ⟨rfl, .refl _⟩, by simpa using inst⟩
  cases inst with
  | @multi _ d fs gs pairs pairing all =>
    simp only [Formula.members]
    split
    · exact ⟨pairs, pairing, all⟩
    · exact alone (.multi pairing all)
  | atom same pairing all => exact alone (.atom same pairing all)
  | not inst => exact alone (.not inst)
  | imply left right => exact alone (.imply left right)
  | equiv pairing all => exact alone (.equiv pairing all)
  | bind inst => exact alone (.bind inst)

/-- Flattening keeps instances. -/
theorem Instance.flatten (inst : Instance R E f g) : Instance R E f.flatten g.flatten := by
  induction inst with
  | atom same pairing all =>
    rw [Formula.flatten, Formula.flatten]
    exact .atom same pairing all
  | not _ ih =>
    rw [Formula.flatten, Formula.flatten]
    exact .not ih
  | @multi _ c fs gs pairs pairing _ ih =>
    rw [Formula.flatten, Formula.flatten]
    obtain ⟨more, paired, all⟩ := pairing.flatMap (h := fun f => f.flatten.members c)
      (k := fun g => g.flatten.members c) fun p pair => (ih p pair).members c
    exact .multi paired all
  | imply _ _ left right =>
    rw [Formula.flatten, Formula.flatten]
    exact .imply left right
  | equiv pairing _ ih =>
    rw [Formula.flatten, Formula.flatten]
    refine .equiv (pairing.map Formula.flatten Formula.flatten) fun p mapped => ?_
    obtain ⟨q, pair, rfl⟩ := List.mem_map.mp mapped
    exact ih q pair
  | bind _ ih =>
    rw [Formula.flatten, Formula.flatten]
    exact .bind ih

end Formula

variable {f g goal goal' : Formula} {hints : Hints} {rule : Inference} {rules : List Inference}
  {P : Symbol → Prop} {fs : List Formula} {K K' : Formula → Prop}

namespace ExcludedMiddle

/-- The matches of one member once the other is bound: it has to be its negation. -/
def beside (f g : Formula) : List Bindings :=
  Pattern.matcherWith Pattern.matchRefAt (.not (.ref "P")) g (Bindings.empty.insertFormula "P" ⟨[], f⟩)

theorem beside_ne_nil : beside f g ≠ [] ↔ ∃ a, g = .not a ∧ f.identical a = true := by
  unfold beside
  cases g with
  | not a => simp [Pattern.matcherWith, Pattern.matchRef, Bindings.formula?_insertFormula]
  | _ => simp [Pattern.matcherWith]

theorem matcher_pair (f g : Formula) :
    pattern.matcher (.or [f, g]) .empty = beside f g ++ beside g f := by
  simp [pattern, Pattern.matcher, Pattern.exactly, Pattern.matcherWith, Pattern.matchersWith,
    Pattern.isNothing, Pattern.matchRef, Formula.or, Matcher.withOthers, Matcher.inAnyOrder,
    Matcher.assignments, picks, beside, List.map_flatMap]

theorem exists_pair (found : pattern.matcher goal .empty ≠ []) : ∃ f g, goal = .or [f, g] := by
  cases goal with
  | multi c fs =>
    have shape : .or = c ∧ 2 = fs.length := by
      by_contra apart
      apply found
      simp only [pattern, Pattern.matcher, Pattern.exactly, Pattern.matcherWith, Pattern.matchersWith,
        Pattern.isNothing, Matcher.withOthers, Matcher.inAnyOrder]
      split
      · rename_i same
        exact if_neg fun length => apart ⟨same, length⟩
      · rfl
    obtain ⟨rfl, length⟩ := shape
    obtain ⟨f, g, rfl⟩ := List.length_eq_two.mp length.symm
    exact ⟨f, g, rfl⟩
  | _ => simp [pattern, Pattern.matcher, Pattern.exactly, Pattern.matcherWith] at found

/-- Whether a goal is found depends on it up to identity. -/
theorem matcher_twin (single : Symbol.Single P) (symbols : ∀ s ∈ goal.symbols, P s)
    (twin : goal.TwinInstance goal') (found : pattern.matcher goal .empty ≠ []) :
    pattern.matcher goal' .empty ≠ [] := by
  obtain ⟨f, g, rfl⟩ := exists_pair found
  have side {f g f' g' : Formula} (known : ∀ h ∈ [f, g], ∀ s ∈ h.symbols, P s)
      (left : f.TwinInstance f') (right : g.TwinInstance g') (here : beside f g ≠ []) :
      beside f' g' ≠ [] := by
    obtain ⟨a, rfl, identical⟩ := beside_ne_nil.mp here
    cases right with
    | @not _ _ a' inst =>
      have negated (s : Symbol) (occurs : s ∈ a.symbols) : P s :=
        known (.not a) (by simp) s (Formula.mem_symbols_not.mpr occurs)
      have same : f.TwinInstance a :=
        Formula.twinInstance_of_identical single (known f (by simp)) negated identical
      exact beside_ne_nil.mpr ⟨a', rfl, ((left.symm.trans same).trans inst).identical⟩
  have known : ∀ h ∈ [f, g], ∀ s ∈ h.symbols, P s := fun h member s occurs =>
    symbols s (Formula.mem_symbols_multi.mpr ⟨h, member, occurs⟩)
  have swapped : ∀ h ∈ [g, f], ∀ s ∈ h.symbols, P s := fun h member =>
    known h ((List.Perm.swap f g []).mem_iff.mp member)
  cases twin with
  | @multi _ _ _ gs pairs pairing all =>
    obtain ⟨f', g', rfl⟩ := List.length_eq_two.mp pairing.length_eq.symm
    rw [matcher_pair, ne_eq, List.append_eq_nil_iff, not_and_or] at found
    change pattern.matcher (.or [f', g']) .empty ≠ []
    rw [matcher_pair, ne_eq, List.append_eq_nil_iff, not_and_or]
    rcases Pairing.exists_two.mp ⟨pairs, pairing, all⟩ with ⟨left, right⟩ | ⟨left, right⟩
    · exact found.imp (side known left right) (side swapped right left)
    · exact found.symm.imp (side swapped right left) (side known left right)

end ExcludedMiddle

/-- For an identical goal a step yields the same from the same premises, and meets the goal as well.
A conjunction takes its premises in the order of the members. -/
theorem Inference.Yields.retarget (single : Symbol.Single P) (uniform : rule.Uniform)
    (twin : goal.TwinInstance goal') (symbols : ∀ s ∈ goal.symbols, P s)
    (symbols' : ∀ s ∈ goal'.symbols, P s) (known : ∀ f ∈ fs, ∀ s ∈ f.symbols, P s)
    (yields : rule.Yields hints goal fs g) :
    ∃ fs' g', (∀ f ∈ fs', f ∈ fs) ∧ rule.Yields hints goal' fs' g' ∧ g.key = g'.key ∧
      (rule.Meets goal g → rule.Meets goal' g') := by
  cases yields with
  | @pattern rule f g gs results member =>
    have made := symbols_of_results uniform (known f (List.mem_singleton_self f)) results member
    refine ⟨[f], g, fun _ => id, .pattern results member, rfl, fun identical => ?_⟩
    exact ((Formula.twinInstance_of_identical single made symbols identical).trans twin).identical
  | @flattening f =>
    refine ⟨[f], _, fun _ => id, .flattening, rfl, fun same => ?_⟩
    exact same.trans (Formula.TwinInstance.key_eq (Formula.Instance.flatten twin))
  | @conjunction fs gs equal keys =>
    subst equal
    have goals := twin.key_eq
    cases twin with
    | @multi _ _ _ gs' pairs pairing all =>
      have perm : (gs.map Formula.key).Perm (gs'.map Formula.key) :=
        pairing.perm_keys fun p pair => Formula.TwinInstance.key_eq (all p pair)
      obtain ⟨fs', moved, keys'⟩ := Pairing.exists_reordering Formula.key perm keys
      exact ⟨fs', _, fun f => moved.mem_iff.mp, .conjunction rfl keys', goals, fun _ => trivial⟩
  | @modusPonens a b p same =>
    refine ⟨[.imply a g, p], g, fun _ => id, .modusPonens same, rfl, fun same => ?_⟩
    exact same.trans twin.key_eq
  | excludedMiddle found =>
    exact ⟨[], goal', by simp, .excludedMiddle (ExcludedMiddle.matcher_twin single symbols twin found),
      twin.key_eq, fun _ => trivial⟩
  | @existential f g c member =>
    refine ⟨[f], g, fun _ => id, .existential member, rfl, fun same => ?_⟩
    exact same.trans twin.key_eq

namespace Saturation

structure Twins (P : Symbol → Prop) (goal goal' : Formula) : Prop where
  twin : goal.TwinInstance goal'
  symbols : ∀ s ∈ goal.symbols, P s
  symbols' : ∀ s ∈ goal'.symbols, P s

variable (single : Symbol.Single P) (uniform : ∀ rule ∈ rules, rule.Uniform)
  (twins : Twins P goal goal') (more : ∀ form, K form → K' form)

include single uniform twins more

theorem Obtains.mono (obtains : Obtains P rules hints goal K rule g) :
    ∃ g', Obtains P rules hints goal' K' rule g' ∧ g.key = g'.key ∧
      (rule.Meets goal g → rule.Meets goal' g') := by
  obtain ⟨member, fs, known, yields⟩ := obtains
  obtain ⟨fs', g', fewer, yields', same, meets⟩ := yields.retarget single (uniform rule member)
    twins.twin twins.symbols twins.symbols' fun f inside => (known f inside).1.symbols
  refine ⟨g', ⟨member, fs', fun f inside => ?_, yields'⟩, same, meets⟩
  exact (known f (fewer f inside)).imp_right (more f)

theorem Met.mono (met : Met P rules hints goal K) : Met P rules hints goal' K' := by
  obtain ⟨rule, g, obtains, meets⟩ := met
  obtain ⟨g', obtains', -, meets'⟩ := obtains.mono single uniform twins more
  exact ⟨rule, g', obtains', meets' meets⟩

theorem next_mono (form : Formula) (there : next P rules hints goal K form) :
    next P rules hints goal' K' form := by
  rcases there with known | ⟨rule, g, obtains, same⟩
  · exact .inl (more form known)
  · obtain ⟨g', obtains', equal, -⟩ := obtains.mono single uniform twins more
    exact .inr ⟨rule, g', obtains', equal.symm.trans same⟩

theorem iterate_next_mono (k : Nat) (form : Formula)
    (there : (next P rules hints goal)^[k] K form) : (next P rules hints goal')^[k] K' form := by
  induction k generalizing K K' with
  | zero => exact more form there
  | succ k ih => exact ih (next_mono single uniform twins more) there

/-- From more, and at a greater depth. -/
theorem MetWithin.mono {n n' : Nat} (deeper : n ≤ n') (met : MetWithin P rules hints goal n K) :
    MetWithin P rules hints goal' n' K' := by
  obtain ⟨k, low, met⟩ := met
  exact ⟨k, Nat.lt_of_lt_of_le low deeper, met.mono single uniform twins
    (iterate_next_mono single uniform twins more k)⟩

end Saturation

namespace Facts

variable {facts facts' : Facts} {fs' : List Formula}

theorem mem_forms_ofList {form : Formula} (ok : Facts.ofList fs = .ok facts) :
    form ∈ facts.forms ↔ ∃ f ∈ fs, f.key = form.bare := by
  obtain ⟨count, added⟩ := ofList_eq_ok.mp ok
  rw [mem_forms_addAll added, or_iff_right]
  simp [empty]

/-- Formulas that are identical to formulas of another list have no other regular forms. -/
theorem mem_forms_of_identical (single : Formula.SingleOrder (fs ++ fs'))
    (known : Facts.ofList fs = .ok facts) (known' : Facts.ofList fs' = .ok facts')
    (identical : ∀ f ∈ fs, ∃ g ∈ fs', f.identical g = true) (form : Formula)
    (there : form ∈ facts.forms) : form ∈ facts'.forms := by
  obtain ⟨f, member, key⟩ := (mem_forms_ofList known).mp there
  obtain ⟨g, member', same⟩ := identical f member
  have twin := (single.pair (List.mem_append_left fs' member)
    (List.mem_append_right fs member')).twinInstance same
  exact (mem_forms_ofList known').mpr ⟨g, member', twin.key_eq.symm.trans key⟩

end Facts

def Outcome.reached? : Outcome → Option Deduction
  | .reached d => some d
  | .candidates _ => none

namespace Search

variable {facts facts' : Facts} {fs' : List Formula}

/-- Let two searches by the same rules of the catalogue be given, with the same hints. What the first
reaches the second reaches as well, if its depth is no smaller, its goal is identical, and the regular
forms that the first starts from are among those of the second. So they are if every formula that was
added for the first is identical to one that was added for the second, wherever that stands. -/
theorem towards_monotone {s s' : Search} {d : Deduction} (same : s.rules = s'.rules)
    (catalogued : ∀ rule ∈ s.rules, rule ∈ Catalogue.rules)
    (single : Formula.SingleOrder (goal :: goal' :: (fs ++ fs')))
    (known : Facts.ofList fs = .ok facts) (known' : Facts.ofList fs' = .ok facts')
    (fits : s'.towards facts' hints goal' ≠ .error .indexOverflow)
    (more : (∀ form ∈ facts.forms, form ∈ facts'.forms) ∨
      ∀ f ∈ fs, ∃ g ∈ fs', f.identical g = true)
    (identical : goal.identical goal' = true) (deeper : s.depth ≤ s'.depth)
    (reached : s.towards facts hints goal = .ok (.reached d)) :
    ∃ d', s'.towards facts' hints goal' = .ok (.reached d') := by
  have uniform (rule : Inference) (member : rule ∈ s.rules) : rule.Uniform :=
    Catalogue.uniform rule (catalogued rule member)
  have inside : ∀ f ∈ fs ++ fs', f ∈ goal :: goal' :: (fs ++ fs') := fun f member => by simp [member]
  have symbols {f : Formula} (member : f ∈ goal :: goal' :: (fs ++ fs')) :
      ∀ n ∈ f.symbols, ∃ g ∈ goal :: goal' :: (fs ++ fs'), n ∈ g.symbols :=
    fun n occurs => ⟨f, member, occurs⟩
  have twins : Saturation.Twins (fun n => ∃ g ∈ goal :: goal' :: (fs ++ fs'), n ∈ g.symbols)
      goal goal' :=
    ⟨(single.pair (by simp) (by simp)).twinInstance identical, symbols (by simp), symbols (by simp)⟩
  have included : ∀ form ∈ facts.forms, form ∈ facts'.forms := by
    refine more.elim id fun each => Facts.mem_forms_of_identical ?_ known known' each
    exact fun f member g member' => single f (inside f member) g (inside g member')
  obtain ⟨outcome, ok⟩ := (onlyOverflows_towards (same ▸ uniform)).exists_ok fits
  have met := (towards_iff single.symbols uniform (.ofList known) (fun f member => symbols
    (inside f (List.mem_append_left fs' (Facts.mem_of_ofList known member)))) reached).mp rfl
  have met' := met.mono single.symbols uniform twins included deeper
  rw [same] at met'
  have meets := (towards_iff single.symbols (same ▸ uniform) (.ofList known') (fun f member => symbols
    (inside f (List.mem_append_right fs (Facts.mem_of_ofList known' member)))) ok).mpr met'
  cases outcome with
  | reached d' => exact ⟨d', ok⟩
  | candidates ds => cases meets

/-- A run that reaches its goal, by what is seen of the deduction. -/
theorem exists_reached {s : Search} {α : Type} {view : Deduction → α} {seen : α}
    (ok : ((Rule.search s).towardsFrom fs hints goal).map (fun o => o.reached?.map view) =
      .ok (some seen)) :
    ∃ facts d, Facts.ofList fs = .ok facts ∧ s.towards facts hints goal = .ok (.reached d) ∧
      view d = seen := by
  cases found : (Rule.search s).towardsFrom fs hints goal with
  | error e =>
    rw [found] at ok
    cases ok
  | ok outcome =>
    rw [found] at ok
    obtain ⟨facts, known, ran⟩ := bind_eq_ok.mp found
    cases outcome with
    | reached d => exact ⟨facts, d, known, ran, Option.some.inj (Except.ok.inj ok)⟩
    | candidates ds => cases ok

def quantified (q : Quantifier) (v : String) : Formula :=
  .bind q ⟨v⟩ (.atom (.pred ⟨.plain "P", 1, true⟩) [.var ⟨v⟩])

/-- `∀x P(x) ∧ B` and `∀y P(y) → ∃x P(x)`. -/
def variants : List Formula :=
  [.and [quantified .all "x", .prop "B"], .imply (quantified .all "y") (quantified .ex "x")]

def variants' : List Formula :=
  [.prop "D", .imply (quantified .all "z") (quantified .ex "y"),
    .and [.prop "B", quantified .all "y"]]

def projecting (depth : Nat) : Search := ⟨[Catalogue.andProject, .modusPonens], depth⟩

/-- Two rounds reach `∃x P(x)`, and with other names and more known three rounds reach `∃z P(z)`. -/
theorem towards_monotone_variants :
    Formula.SingleOrder (quantified .ex "x" :: quantified .ex "z" :: (variants ++ variants')) ∧
      (∀ f ∈ variants, ∃ g ∈ variants', f.identical g = true) ∧
      (quantified .ex "x").identical (quantified .ex "z") = true ∧
      ∃ facts facts' d d', Facts.ofList variants = .ok facts ∧ Facts.ofList variants' = .ok facts' ∧
        (projecting 2).towards facts {} (quantified .ex "x") = .ok (.reached d) ∧
        (projecting 3).towards facts' {} (quantified .ex "z") = .ok (.reached d') := by
  have single :
      Formula.SingleOrder (quantified .ex "x" :: quantified .ex "z" :: (variants ++ variants')) := by
    apply Formula.SingleOrder.of_ordered
    simp [variants, variants', quantified, Formula.prop, Formula.and, Formula.imply, Term.symbols,
      Symbol.ordered, Relation.ordered]
  have each : ∀ f ∈ variants, ∃ g ∈ variants', f.identical g = true := by
    intro f member
    rcases List.mem_pair.mp member with rfl | rfl
    · exact ⟨.and [.prop "B", quantified .all "y"], by simp [variants'], by cbv⟩
    · exact ⟨.imply (quantified .all "z") (quantified .ex "y"), by simp [variants'], by cbv⟩
  have identical : (quantified .ex "x").identical (quantified .ex "z") = true := by cbv
  have first : ((Rule.search (projecting 2)).towardsFrom variants {}
      (quantified .ex "x")).map (fun o => o.reached?.map Deduction.formula) =
        .ok (some (quantified .ex "x")) := by cbv
  have second : ((Rule.search (projecting 3)).towardsFrom variants' {}
      (quantified .ex "z")).map (fun o => o.reached?.map Deduction.formula) =
        .ok (some (quantified .ex "z")) := by cbv
  obtain ⟨facts, d, known, reached, -⟩ := exists_reached first
  obtain ⟨facts', e, known', fits, -⟩ := exists_reached second
  have catalogued : ∀ rule ∈ (projecting 2).rules, rule ∈ Catalogue.rules := by
    simp [projecting, Catalogue.rules, Catalogue.combined]
  have shallow : (projecting 2).depth ≤ (projecting 3).depth := by decide
  have same : (projecting 2).rules = (projecting 3).rules := rfl
  obtain ⟨d', reached'⟩ := towards_monotone same catalogued single known known'
    (fun failed => by cases failed.symm.trans fits) (.inr each) identical shallow reached
  exact ⟨single, each, identical, facts, facts', d, d', known, known', reached, reached'⟩

end Search

end Sequitur
