import Sequitur.Proofs.Attempt
import Sequitur.Proofs.Totality

/-! What a step obtains depends on its premises only up to identity. A premise may be given by any
formula that has its regular form, and with any labels: what is obtained has the same regular form,
and meets the goal or does not. An attempt tries exactly what follows from known premises one of which
was just obtained. -/

namespace Sequitur

open Arrangement

variable {f g goal : Formula} {hints : Hints} {rule : Inference} {P : Symbol → Prop}

section Existential

variable {c d : Constant} {x y : Variable}

theorem Term.const_replace (c c' : Constant) (new : Term) :
    (Term.const c').replace (.const c) new = if c'.same c then new else .const c' := by
  rw [replace.eq_def, same]

theorem Term.Instance.replace_const {E : Change} {t u : Term} (inst : Instance Symbol.Twin E t u)
    (same : c.bare = d.bare) (left : x ∉ t.vars) (right : y ∉ u.vars)
    (renames : ∀ v s, E v s → ∃ w, s = .var w) :
    Instance Symbol.Twin (E.under x y) (t.replace (.const c) (.var x))
      (u.replace (.const d) (.var y)) := by
  induction inst with
  | @var v s becomes =>
    obtain ⟨w, rfl⟩ := renames v s becomes
    have other : v ≠ x := Ne.symm (by simpa using left)
    have plain (v : Variable) (c : Constant) (new : Term) :
        (Term.var v).replace (.const c) new = .var v := by
      rw [replace.eq_def]
      simp [Term.same]
    rw [plain, plain]
    exact .var (.inr ⟨other, right, becomes⟩)
  | @const c' d' twin =>
    have bares : c'.bare = d'.bare := Constant.same_iff.mp twin.1
    have both : c'.same c = d'.same d := by
      rw [Bool.eq_iff_iff, Constant.same_iff, Constant.same_iff, bares, same]
    rw [const_replace, const_replace, both]
    split
    · exact .var (.inl ⟨rfl, rfl⟩)
    · exact .const twin
  | @app f g ts us pairs twin pairing _ ih =>
    rw [replace_app (by simp [Term.same]), replace_app (by simp [Term.same])]
    refine .app twin (pairing.map _ _) fun p mapped => ?_
    obtain ⟨q, pair, rfl⟩ := List.mem_map.mp mapped
    obtain ⟨inside, inside'⟩ := pairing.mem pair
    exact ih q pair (fun occurs => left (mem_vars_app.mpr ⟨q.1, inside, occurs⟩))
      fun occurs => right (mem_vars_app.mpr ⟨q.2, inside', occurs⟩)

theorem Change.under_under {E : Change} {v w x y : Variable} (left : x ≠ v) (right : y ≠ w)
    {z : Variable} {s : Term} (becomes : (E.under v w).under x y z s) :
    (E.under x y).under v w z s := by
  rcases becomes with ⟨rfl, rfl⟩ | ⟨apart, clear, ⟨rfl, rfl⟩ | ⟨apart', clear', becomes⟩⟩
  · exact .inr ⟨left, by simpa using Ne.symm right, .inl ⟨rfl, rfl⟩⟩
  · exact .inl ⟨rfl, rfl⟩
  · exact .inr ⟨apart', clear', .inr ⟨apart, clear, becomes⟩⟩

theorem Formula.bind_replace {q : Quantifier} {v : Variable} (c : Constant) (other : x ≠ v) :
    (Formula.bind q v f).replace (.const c) (.var x) =
      .bind q v (f.replace (.const c) (.var x)) := by
  rw [replace]
  simp [Term.vars, Ne.symm other]

/-- Replacing a constant by a new variable, in a formula and in an instance of it. -/
theorem Formula.Instance.replace_const {E : Change} (inst : Instance Symbol.Twin E f g)
    (same : c.bare = d.bare) (left : x ∉ f.allVars) (right : y ∉ g.allVars)
    (renames : ∀ v s, E v s → ∃ w, s = .var w) :
    Instance Symbol.Twin (E.under x y) (f.replace (.const c) (.var x))
      (g.replace (.const d) (.var y)) := by
  induction inst with
  | atom twin pairing all =>
    rw [replace, replace]
    refine .atom twin (pairing.map _ _) fun p mapped => ?_
    obtain ⟨q, pair, rfl⟩ := List.mem_map.mp mapped
    obtain ⟨inside, inside'⟩ := pairing.mem pair
    exact (all q pair).replace_const same
      (fun occurs => left (mem_allVars_atom.mpr ⟨q.1, inside, occurs⟩))
      (fun occurs => right (mem_allVars_atom.mpr ⟨q.2, inside', occurs⟩)) renames
  | not _ ih =>
    rw [replace, replace]
    exact .not (ih (by simpa using left) (by simpa using right) renames)
  | multi pairing _ ih =>
    rw [replace, replace]
    refine .multi (pairing.map _ _) fun p mapped => ?_
    obtain ⟨q, pair, rfl⟩ := List.mem_map.mp mapped
    obtain ⟨inside, inside'⟩ := pairing.mem pair
    exact ih q pair (fun occurs => left (mem_allVars_multi.mpr ⟨q.1, inside, occurs⟩))
      (fun occurs => right (mem_allVars_multi.mpr ⟨q.2, inside', occurs⟩)) renames
  | imply _ _ iha ihb =>
    simp only [mem_allVars_link, not_or] at left right
    rw [replace, replace]
    exact .imply (iha left.1 right.1 renames) (ihb left.2 right.2 renames)
  | @equiv _ a b a' b' pairs pairing _ ih =>
    simp only [mem_allVars_link, not_or] at left right
    have outside : ∀ h ∈ [a, b], x ∉ h.allVars := by simp [left]
    have outside' : ∀ h ∈ [a', b'], y ∉ h.allVars := by simp [right]
    rw [replace, replace]
    refine .equiv (pairing.map _ _) fun p mapped => ?_
    obtain ⟨q, pair, rfl⟩ := List.mem_map.mp mapped
    obtain ⟨inside, inside'⟩ := pairing.mem pair
    exact ih q pair (outside _ inside) (outside' _ inside') renames
  | @bind E q v w f g _ ih =>
    simp only [mem_allVars_bind, not_or] at left right
    rw [bind_replace c left.1, bind_replace d right.1]
    have inner : ∀ v' s, E.under v w v' s → ∃ z, s = .var z := by
      rintro v' s (⟨-, rfl⟩ | ⟨-, -, becomes⟩)
      · exact ⟨w, rfl⟩
      · exact renames v' s becomes
    refine .bind ((ih left.2 right.2 inner).mono (fun _ _ _ _ twin => twin) ?_)
    exact fun z _ s _ becomes => Change.under_under left.1 right.1 becomes

theorem Term.mem_constantOccurrences {t : Term} :
    c ∈ t.constantOccurrences ↔ .constant c ∈ t.symbols := by
  induction t with
  | var v => simp [constantOccurrences, symbols]
  | const c' => simp [constantOccurrences]
  | app op ts ih =>
    simp only [constantOccurrences, List.mem_flatMap, mem_symbols_app, reduceCtorEq, false_or]
    exact exists_congr fun t => and_congr_right (ih t)

theorem Formula.mem_constantOccurrences : c ∈ f.constantOccurrences ↔ .constant c ∈ f.symbols := by
  induction f with
  | atom r ts =>
    simp only [constantOccurrences, List.mem_flatMap, mem_symbols_atom, reduceCtorEq, false_or,
      Term.mem_constantOccurrences]
  | not f ih => simpa [constantOccurrences] using ih
  | multi c fs ih =>
    simp only [constantOccurrences, List.mem_flatMap, mem_symbols_multi]
    exact exists_congr fun f => and_congr_right (ih f)
  | link c a b iha ihb => simp [constantOccurrences, iha, ihb]
  | bind q v f ih => simpa [constantOccurrences] using ih

/-- Of equal constants the first is kept. -/
theorem mem_eraseDupsBy_same (cs : List Constant) :
    (∀ c ∈ cs.eraseDupsBy Constant.same, c ∈ cs) ∧
      ∀ c ∈ cs, ∃ d ∈ cs.eraseDupsBy Constant.same, d.bare = c.bare := by
  induction length : cs.length using Nat.strongRecOn generalizing cs with
  | ind n ih =>
    subst length
    cases cs with
    | nil => simp
    | cons e cs =>
      have shorter : (cs.filter fun b => b.same e = false).length < (e :: cs).length :=
        Nat.lt_succ_of_le (List.length_filter_le _ _)
      obtain ⟨inside, kept⟩ := ih _ shorter _ rfl
      rw [List.eraseDupsBy_cons]
      constructor
      · intro c member
        rcases List.mem_cons.mp member with rfl | later
        · exact List.mem_cons_self
        · exact List.mem_cons_of_mem e (List.mem_filter.mp (inside c later)).1
      · intro c member
        by_cases same : c.same e = true
        · exact ⟨e, List.mem_cons_self, (Constant.same_iff.mp same).symm⟩
        · rcases List.mem_cons.mp member with rfl | later
          · exact absurd (Constant.same_iff.mpr rfl) same
          · obtain ⟨d, there, equal⟩ := kept c (List.mem_filter.mpr ⟨later, by simpa using same⟩)
            exact ⟨d, List.mem_cons_of_mem e there, equal⟩

theorem Formula.TwinInstance.exists_constant (inst : f.TwinInstance g) (member : c ∈ f.constants) :
    ∃ d ∈ g.constants, d.bare = c.bare := by
  have occurs := Formula.mem_constantOccurrences.mp ((mem_eraseDupsBy_same _).1 c member)
  rcases inst.symm.exists_symbol occurs with ⟨s, inside, twin⟩ | ⟨v, -, t, rfl, within⟩
  · cases s with
    | constant d =>
      obtain ⟨e, kept, equal⟩ :=
        (mem_eraseDupsBy_same _).2 d (Formula.mem_constantOccurrences.mpr inside)
      exact ⟨e, kept, equal.trans (Constant.same_iff.mp twin.1)⟩
    | _ => cases twin.1
  · simp [Term.symbols] at within

/-- What holds of a constant holds of something, whichever formula says it. -/
theorem Existential.abstractions_twin {t : Term} (inst : f.TwinInstance g) {h : Formula}
    (member : (h, t) ∈ abstractions (hinted hints) f) :
    ∃ h' t', (h', t') ∈ abstractions (hinted hints) g ∧ h.TwinInstance h' := by
  have fresh : f.freshVar ∉ f.allVars := Variable.fresh_not_mem _ _
  have fresh' : g.freshVar ∉ g.allVars := Variable.fresh_not_mem _ _
  have bound {c d : Constant} (same : c.bare = d.bare) :
      Formula.TwinInstance (.ex f.freshVar (f.replace (.const c) (.var f.freshVar)))
        (.ex g.freshVar (g.replace (.const d) (.var g.freshVar))) :=
    .bind (inst.replace_const same fresh fresh' fun v s keeps => ⟨v, keeps⟩)
  obtain ⟨t, chosen, equal⟩ := List.mem_map.mp member
  obtain ⟨rfl, rfl⟩ := Prod.mk.inj equal
  split at chosen
  · rename_i none
    obtain ⟨c, constant, rfl⟩ := List.mem_map.mp chosen
    obtain ⟨d, constant', same⟩ := inst.exists_constant constant
    refine ⟨_, .const d, List.mem_map.mpr ⟨.const d, ?_, rfl⟩, bound same.symm⟩
    rw [if_pos none]
    exact List.mem_map_of_mem constant'
  · rename_i some
    obtain ⟨c, rfl⟩ : ∃ c, t = .const c := by
      obtain ⟨-, constant⟩ := List.mem_filter.mp chosen
      cases t with
      | const c => exact ⟨c, rfl⟩
      | _ => cases constant
    refine ⟨_, .const c, List.mem_map.mpr ⟨.const c, ?_, rfl⟩, bound rfl⟩
    rwa [if_neg some]

end Existential

namespace Formula

theorem TwinInstance.key_eq (inst : f.TwinInstance g) : f.key = g.key := by
  rw [key, key, ← Instance.startIndex_eq inst]
  exact number_bare inst fun x _ s keeps => ⟨x, keeps, rfl⟩

@[simp] theorem key_relabel (m : Relabelling) (f : Formula) : (f.relabel m).key = f.key :=
  (f.twinInstance_relabel m).key_eq.symm

theorem twinInstance_regularForm {form : Formula} (ok : f.regularForm = .ok form) :
    f.TwinInstance form := .of_eq (instance_regularForm ok)

/-- The indices of free variables leave room for one to each quantifier. -/
def Fits (f : Formula) : Prop := f.startIndex + f.quantifiers < Text.indexBound

theorem fits_iff : f.Fits ↔ ∃ form, f.regularForm = .ok form := by
  constructor
  · intro fits
    refine ⟨(f.number id f.startIndex).formula, ?_⟩
    rw [regularForm_eq]
    exact if_pos fits
  · rintro ⟨form, ok⟩
    exact (regularForm_eq_ok ok).1

/-- Fewer free variables and no more quantifiers. -/
theorem Fits.of_le (fits : f.Fits) (free : ∀ v ∈ g.freeVars, v ∈ f.freeVars)
    (fewer : g.quantifiers ≤ f.quantifiers) : g.Fits := by
  have below : g.startIndex ≤ f.startIndex :=
    startIndex_le fun v inside i index => le_startIndex (free v inside) index
  exact Nat.lt_of_le_of_lt (Nat.add_le_add below fewer) fits

theorem Fits.left {c : Arrow} (fits : (Formula.link c f g).Fits) : f.Fits :=
  fits.of_le (fun _ free => mem_freeVars_link.mpr (.inl free)) (by simp [quantifiers])

theorem Fits.right {c : Arrow} (fits : (Formula.link c f g).Fits) : g.Fits :=
  fits.of_le (fun _ free => mem_freeVars_link.mpr (.inr free)) (by simp [quantifiers])

def Alike (f g : Formula) : Prop := f.relabel .plain = g.relabel .plain

theorem Alike.key_eq (alike : f.Alike g) : f.key = g.key := by
  rw [← key_relabel .plain f, alike, key_relabel]

theorem Alike.identical_eq (alike : f.Alike g) (goal : Formula) :
    f.identical goal = g.identical goal := by
  rw [← identical_relabel_left (m := .plain) f, alike, identical_relabel_left]

theorem Alike.twinInstance (alike : f.Alike g) : f.TwinInstance g := by
  have right : (g.relabel .plain).TwinInstance g := (g.twinInstance_relabel .plain).symm
  rw [← alike] at right
  exact (f.twinInstance_relabel .plain).trans right

theorem Alike.flatten (alike : f.Alike g) : f.flatten.Alike g.flatten := by
  rw [Alike, ← flatten_relabel, alike, flatten_relabel]

/-- A regular form made of these symbols. -/
structure Regular (P : Symbol → Prop) (f : Formula) : Prop where
  regular : f.regularForm = .ok f
  symbols : ∀ s ∈ f.symbols, P s

theorem Regular.key_eq (regular : f.Regular P) : f.key = f.bare := Formula.key_eq regular.regular

theorem Regular.alike (single : Symbol.Single P) (left : f.Regular P) (right : g.Regular P)
    (same : f.bare = g.bare) : f.Alike g :=
  relabel_plain_eq single left.symbols right.symbols same

theorem TwinInstance.exists_imply {a b : Formula} (inst : TwinInstance (.imply a b) g) :
    ∃ a' b', g = .imply a' b' ∧ a.key = a'.key ∧ b.key = b'.key := by
  cases inst with
  | imply left right => exact ⟨_, _, rfl, TwinInstance.key_eq left, TwinInstance.key_eq right⟩

end Formula

namespace Inference

/-- What a step obtains from premises, whether or not they were just obtained. -/
inductive Yields (hints : Hints) (goal : Formula) : Inference → List Formula → Formula → Prop
  | pattern {rule : PatternRule} {f g : Formula} {gs : List Formula} : rule.results f = .ok gs →
      g ∈ gs → Yields hints goal (.pattern rule) [f] g
  | flattening {f : Formula} : Yields hints goal .flattening [f] f.flatten
  | conjunction {fs gs : List Formula} : goal = .and gs → fs.map Formula.key = gs.map Formula.key →
      Yields hints goal .conjunction fs goal
  | modusPonens {a b p : Formula} : p.key = a.key →
      Yields hints goal .modusPonens [.imply a b, p] b
  | excludedMiddle : ExcludedMiddle.pattern.matcher goal .empty ≠ [] →
      Yields hints goal .excludedMiddle [] goal
  | existential {f g : Formula} {c : Term} :
      (g, c) ∈ Existential.abstractions (Existential.hinted hints) f →
      Yields hints goal .existential [f] g

def Agrees (goal : Formula) (rule : Inference) (g g' : Formula) : Prop :=
  g.key = g'.key ∧ (rule.Meets goal g ↔ rule.Meets goal g')

theorem agrees_of_alike (alike : f.Alike g) : rule.Agrees goal f g := by
  refine ⟨alike.key_eq, ?_⟩
  cases rule <;> simp only [Meets, alike.key_eq, alike.identical_eq]

theorem agrees_of_key (exact : ∀ r, rule ≠ .pattern r) (same : f.key = g.key) :
    rule.Agrees goal f g := by
  refine ⟨same, ?_⟩
  cases rule with
  | pattern r => exact absurd rfl (exact r)
  | _ => simp only [Meets, same]

/-- A premise with other labels has the same results, up to labels. -/
theorem exists_result_of_alike {rule : PatternRule} {f' : Formula} {gs : List Formula}
    (uniform : (Inference.pattern rule).Uniform) (alike : f.Alike f')
    (results : rule.results f = .ok gs) (member : g ∈ gs) :
    ∃ gs' g', rule.results f' = .ok gs' ∧ g' ∈ gs' ∧ g.Alike g' := by
  obtain ⟨gs₁, ok, left⟩ := PatternRule.uniform_results (m := .plain) uniform f
  obtain ⟨gs', ok', right⟩ := PatternRule.uniform_results (m := .plain) uniform f'
  obtain rfl := Except.ok.inj (results.symm.trans ok)
  have equal : gs.map (Formula.relabel .plain) = gs'.map (Formula.relabel .plain) := by
    rw [show f.relabel .plain = f'.relabel .plain from alike, right] at left
    exact (Except.ok.inj left).symm
  have inside : g.relabel .plain ∈ gs'.map (Formula.relabel .plain) :=
    equal ▸ List.mem_map_of_mem member
  obtain ⟨g', member', same⟩ := List.mem_map.mp inside
  exact ⟨gs', g', ok', member', same.symm⟩

/-- Premises with other labels yield the same, up to labels. -/
theorem Yields.relabel {fs fs' : List Formula} (uniform : rule.Uniform)
    (yields : rule.Yields hints goal fs g) (alike : List.Forall₂ Formula.Alike fs fs') :
    ∃ g', rule.Yields hints goal fs' g' ∧ rule.Agrees goal g g' := by
  cases yields with
  | @pattern rule f g gs results member =>
    cases alike with
    | @cons _ f' _ _ here rest =>
      cases rest
      obtain ⟨gs', g', ok', member', same⟩ := exists_result_of_alike uniform here results member
      exact ⟨g', .pattern ok' member', agrees_of_alike same⟩
  | flattening =>
    cases alike with
    | cons here rest =>
      cases rest
      exact ⟨_, .flattening, agrees_of_alike here.flatten⟩
  | @conjunction fs gs equal keys =>
    have same : fs'.map Formula.key = fs.map Formula.key := by
      rw [← List.forall₂_eq_eq_eq, List.forall₂_map_left_iff, List.forall₂_map_right_iff]
      exact alike.flip.imp fun _ _ here => (Formula.Alike.key_eq here).symm
    exact ⟨_, .conjunction equal (same.trans keys), rfl, Iff.rfl⟩
  | modusPonens same =>
    cases alike with
    | cons first rest =>
      cases rest with
      | cons second rest =>
        cases rest
        obtain ⟨a', b', rfl, left, right⟩ := first.twinInstance.exists_imply
        refine ⟨b', .modusPonens ?_, agrees_of_key (by simp) right⟩
        rw [← second.key_eq, same, left]
  | excludedMiddle found =>
    cases alike
    exact ⟨_, .excludedMiddle found, rfl, Iff.rfl⟩
  | existential member =>
    cases alike with
    | cons here rest =>
      cases rest
      obtain ⟨g', c', member', inst⟩ := Existential.abstractions_twin here.twinInstance member
      exact ⟨g', .existential member', agrees_of_key (by simp) inst.key_eq⟩

end Inference

variable {facts : Facts} {frontier : FormulaSet} {d : Deduction} {fs : List Formula}

theorem Formula.Regular.key_mem (regular : f.Regular P) (known : f ∈ facts.forms) :
    f.key ∈ facts.forms := by
  rwa [regular.key_eq, Facts.mem_forms_congr f.bare_bare]

structure Facts.MadeOf (P : Symbol → Prop) (facts : Facts) (frontier : FormulaSet) : Prop
    extends facts.Recent frontier where
  known : ∀ f ∈ facts.formulas, ∀ s ∈ f.symbols, P s
  obtained : ∀ f ∈ frontier.toList, ∀ s ∈ f.symbols, P s

namespace Facts

theorem Knows.key_mem (knows : facts.Knows f) : f.key ∈ facts.forms := by
  obtain ⟨form, ok, known⟩ := knows
  rwa [Formula.key_eq ok, mem_forms_congr form.bare_bare]

theorem exists_findIdentical {form : Formula} (ok : f.regularForm = .ok form)
    (known : f.key ∈ facts.forms) : ∃ source, facts.findIdentical? f = .ok (some source) := by
  rw [Formula.key_eq ok, mem_forms_congr form.bare_bare] at known
  obtain ⟨source, found⟩ := mem_iff_exists_entry.mp known
  refine ⟨source, ?_⟩
  simp only [findIdentical?, bind_eq_ok, pure_eq_ok]
  exact ⟨form, ok, found⟩

/-- Under a key that is known a formula is filed. -/
theorem exists_filed (known : f ∈ facts.forms) :
    ∃ form source, (form, source) ∈ facts.forms.toList ∧ form.bare = f.bare := by
  obtain ⟨source, found⟩ := mem_iff_exists_entry.mp known
  obtain ⟨form, equal, inside⟩ :=
    Std.TreeMap.getElem?_eq_some_iff_exists_compare_eq_eq_and_mem_toList.mp found
  exact ⟨form, source, inside, (Formula.compare_eq_iff.mp equal).symm⟩

namespace MadeOf

theorem regular_of_mem (made : facts.MadeOf P frontier) (member : f ∈ frontier.toList) :
    f.Regular P := ⟨made.regular f member, made.obtained f member⟩

theorem exists_form (made : facts.MadeOf P frontier) (member : f ∈ facts.formulas) :
    ∃ form, f.regularForm = .ok form ∧ form.Regular P ∧ form ∈ facts.forms := by
  obtain ⟨form, ok, known⟩ := made.filed.formula f member
  refine ⟨form, ok, ⟨Formula.regularForm_regular ok, fun s occurs => ?_⟩, known⟩
  exact made.known f member s (Formula.mem_symbols_of_regularForm ok occurs)

/-- What was just obtained, by the formula that stands in the frontier for it. -/
theorem exists_recent (made : facts.MadeOf P frontier) (member : f ∈ frontier) :
    ∃ f' ∈ frontier.toList, f'.Regular P ∧ f'.bare = f.bare := by
  obtain ⟨f', inside, same⟩ := FormulaSet.mem_iff.mp member
  exact ⟨f', inside, made.regular_of_mem inside, same⟩

/-- Everything known has a regular form made of the symbols. -/
theorem exists_regular (made : facts.MadeOf P frontier) (known : f.key ∈ facts.forms) :
    ∃ form, form.Regular P ∧ form ∈ facts.forms ∧ form.key = f.key := by
  obtain ⟨filedAs, source, filed, same⟩ := exists_filed known
  obtain ⟨member, ok⟩ := made.filed.form _ filed
  obtain ⟨form, ok', regular, inside⟩ := made.exists_form member
  obtain rfl := Except.ok.inj (ok.symm.trans ok')
  exact ⟨filedAs, regular, inside, by rw [regular.key_eq, same, Formula.bare_key]⟩

theorem exists_regulars (made : facts.MadeOf P frontier) {gs : List Formula}
    (known : ∀ g ∈ gs, g.key ∈ facts.forms) :
    ∃ fs : List Formula, fs.map Formula.key = gs.map Formula.key ∧
      ∀ f ∈ fs, f.Regular P ∧ f ∈ facts.forms := by
  induction gs with
  | nil => exact ⟨[], rfl, by simp⟩
  | cons g gs ih =>
    obtain ⟨here, later⟩ := List.forall_mem_cons.mp known
    obtain ⟨form, regular, inside, same⟩ := made.exists_regular here
    obtain ⟨fs, keys, all⟩ := ih later
    exact ⟨form :: fs, by simp [same, keys], List.forall_mem_cons.mpr ⟨⟨regular, inside⟩, all⟩⟩

end MadeOf

end Facts

theorem Existential.symbols_of_abstraction {given : List Term} {t : Term}
    (known : ∀ s ∈ f.symbols, P s) (member : (g, t) ∈ Existential.abstractions given f) :
    ∀ s ∈ g.symbols, P s := by
  obtain ⟨t, -, equal⟩ := List.mem_map.mp member
  obtain ⟨rfl, rfl⟩ := Prod.mk.inj equal
  intro s occurs
  rcases Formula.mem_symbols_replace (Formula.mem_symbols_bind.mp occurs) with inside | none
  · exact known s inside
  · simp [Term.symbols] at none

namespace Inference

/-- Whatever a step tries, it obtains it from regular forms of what it depends on. -/
theorem Tries.exists_yields_of_dependencies (made : facts.MadeOf P frontier)
    (tries : rule.Tries facts frontier hints goal d) :
    ∃ fs g, (∀ f ∈ fs, f.Regular P ∧ ∃ h ∈ d.dependencies, h.key = f.key) ∧
      rule.Yields hints goal fs g ∧ rule.Agrees goal g d.formula := by
  have recent {f : Formula} (member : f ∈ frontier.toList) : f.Regular P :=
    made.regular_of_mem member
  cases tries with
  | @pattern rule f g gs member results result =>
    exact ⟨[f], g, by simpa [PatternRule.deduction] using recent member, .pattern results result,
      rfl, Iff.rfl⟩
  | @flattening f member =>
    exact ⟨[f], _, by simpa [Flattening.deduction] using recent member, .flattening, rfl, Iff.rfl⟩
  | @conjunction fs gs equal found =>
    obtain ⟨keys, known⟩ := Conjunction.sources_some made.toRecent found
    obtain ⟨forms, same, all⟩ := made.exists_regulars fun g member => (known g member).key_mem
    refine ⟨forms, goal, fun f member => ⟨(all f member).1, ?_⟩, .conjunction equal (same.trans keys),
      rfl, Iff.rfl⟩
    exact List.mem_map.mp (same ▸ List.mem_map_of_mem member)
  | @implication a b p member found =>
    obtain ⟨known, same⟩ := made.filed.findIdentical? found
    obtain ⟨form, regular, -, equal⟩ := made.exists_regular (made.filed.formula p known).key_mem
    exact ⟨[.imply a b, form], b, by simp [ModusPonens.deduction, recent member, regular, equal],
      .modusPonens (equal.trans same), rfl, Iff.rfl⟩
  | @premise form a b p filed _ ok member =>
    obtain ⟨known, regular⟩ := made.filed.form _ filed
    obtain ⟨form', ok', made', -⟩ := made.exists_form known
    have source := (Formula.twinInstance_regularForm ok').key_eq
    obtain ⟨a', b', rfl, left, right⟩ := (Formula.twinInstance_regularForm ok').exists_imply
    obtain ⟨p', recently, regular', same⟩ := made.exists_recent member
    have premise : p'.key = a'.key := by rw [regular'.key_eq, same, ← Formula.key_eq ok, left]
    have given : p.key = p'.key := by
      rw [premise, ← left]
      exact (Formula.twinInstance_regularForm ok).key_eq.symm
    exact ⟨[.imply a' b', p'], b', by simp [ModusPonens.deduction, made', regular', source, given],
      .modusPonens premise, agrees_of_key (by simp) right.symm⟩
  | excludedMiddle found => exact ⟨[], goal, by simp, .excludedMiddle found, rfl, Iff.rfl⟩
  | @existential f g c source member =>
    rcases source with known | recently
    · obtain ⟨form, ok, regular, -⟩ := made.exists_form known
      have twin := Formula.twinInstance_regularForm ok
      obtain ⟨g', c', member', inst⟩ := Existential.abstractions_twin twin member
      exact ⟨[form], g', by simp [Existential.deduction, regular, twin.key_eq], .existential member',
        agrees_of_key (by simp) inst.key_eq.symm⟩
    · exact ⟨[f], g, by simpa [Existential.deduction] using recent recently, .existential member, rfl,
        Iff.rfl⟩

/-- Whatever a step tries, it obtains it from regular forms of known formulas. -/
theorem Tries.exists_yields (made : facts.MadeOf P frontier)
    (tries : rule.Tries facts frontier hints goal d) :
    ∃ fs g, (∀ f ∈ fs, f.Regular P ∧ f ∈ facts.forms) ∧ rule.Yields hints goal fs g ∧
      rule.Agrees goal g d.formula := by
  obtain ⟨fs, g, depend, yields, agrees⟩ := tries.exists_yields_of_dependencies made
  refine ⟨fs, g, fun f member => ?_, yields, agrees⟩
  obtain ⟨regular, h, dependency, same⟩ := depend f member
  have known := (tries.known made.toRecent h dependency).key_mem
  refine ⟨regular, (Facts.mem_forms_congr ?_).mp known⟩
  rw [Formula.bare_key, same, regular.key_eq]

/-- What follows from regular forms of known formulas is tried if one of them was just obtained. -/
theorem Yields.exists_tries {outcome : Outcome} (made : facts.MadeOf P frontier)
    (single : Symbol.Single P) (uniform : rule.Uniform)
    (ok : rule.advance facts frontier hints goal = .ok outcome)
    (yields : rule.Yields hints goal fs g) (known : ∀ f ∈ fs, f.Regular P ∧ f ∈ facts.forms)
    (touches : fs = [] ∨ ∃ f ∈ fs, f ∈ frontier) :
    ∃ d, rule.Tries facts frontier hints goal d ∧ rule.Agrees goal g d.formula := by
  -- a single premise was itself just obtained
  have one {f : Formula} (known : ∀ h ∈ [f], h.Regular P ∧ h ∈ facts.forms)
      (touches : [f] = [] ∨ ∃ h ∈ [f], h ∈ frontier) : ∃ f' ∈ frontier.toList, f.Alike f' := by
    have member : f ∈ frontier := by simpa using touches
    obtain ⟨f', inside, regular, same⟩ := made.exists_recent member
    exact ⟨f', inside, (known f (by simp)).1.alike single regular same.symm⟩
  cases yields with
  | @pattern rule f _ gs results member =>
    obtain ⟨f', inside, alike⟩ := one known touches
    have yields : (Inference.pattern rule).Yields hints goal [f] g := .pattern results member
    obtain ⟨g', yields', agrees⟩ := yields.relabel uniform (.cons alike .nil)
    cases yields' with
    | pattern results' member' => exact ⟨_, .pattern inside results' member', agrees⟩
  | flattening =>
    obtain ⟨f', inside, alike⟩ := one known touches
    exact ⟨_, .flattening inside, agrees_of_alike alike.flatten⟩
  | @conjunction fs gs equal keys =>
    subst equal
    simp only [advance, Conjunction.advance, bind_eq_ok] at ok
    obtain ⟨found, oks, -⟩ := ok
    cases found with
    | some sources => exact ⟨_, .conjunction rfl oks, rfl, Iff.rfl⟩
    | none =>
      obtain ⟨h, member, missing⟩ := Conjunction.sources_none oks
      have premise : h.key ∈ fs.map Formula.key := keys ▸ List.mem_map_of_mem member
      obtain ⟨f, inside, equal⟩ := List.mem_map.mp premise
      exact absurd (equal ▸ (known f inside).1.key_mem (known f inside).2) missing
  | @modusPonens a _ p same =>
    obtain ⟨⟨regular, filed⟩, regular', filed'⟩ : ((Formula.imply a g).Regular P ∧
      .imply a g ∈ facts.forms) ∧ p.Regular P ∧ p ∈ facts.forms := by simpa using known
    by_cases recent : .imply a g ∈ frontier
    · obtain ⟨f', inside, regularf, equal⟩ := made.exists_recent recent
      obtain ⟨a', g', rfl, left, right⟩ :=
        (regular.alike single regularf equal.symm).twinInstance.exists_imply
      obtain ⟨premise, ok⟩ := Formula.fits_iff.mp (Formula.fits_iff.mpr ⟨_, regularf.regular⟩).left
      have known : a'.key ∈ facts.forms := left ▸ same ▸ regular'.key_mem filed'
      obtain ⟨source, found⟩ := Facts.exists_findIdentical ok known
      exact ⟨_, .implication inside found, agrees_of_key (by simp) right⟩
    · -- the implication is older, so its premise was just obtained
      have member : p ∈ frontier := by simpa [recent] using touches
      obtain ⟨form, source, inside, equal⟩ := Facts.exists_filed filed
      obtain ⟨known, ok⟩ := made.filed.form _ inside
      obtain ⟨form', ok', regularf, -⟩ := made.exists_form known
      obtain rfl := Except.ok.inj (ok.symm.trans ok')
      have alike := regular.alike single regularf equal.symm
      obtain ⟨a', g', rfl, left, right⟩ :=
        (alike.twinInstance.trans (Formula.twinInstance_regularForm ok).symm).exists_imply
      obtain ⟨premise, okp⟩ := Formula.fits_iff.mp (Formula.fits_iff.mpr ⟨_, ok⟩).left
      have older : form ∉ frontier := fun there => recent ((FormulaSet.mem_congr equal).mp there)
      have here : premise.bare = p.bare := by
        rw [← Formula.key_eq okp, ← left, ← same, regular'.key_eq]
      exact ⟨_, .premise inside older okp ((FormulaSet.mem_congr here).mpr member),
        agrees_of_key (by simp) right⟩
  | excludedMiddle found => exact ⟨_, .excludedMiddle found, rfl, Iff.rfl⟩
  | existential member =>
    obtain ⟨f', inside, alike⟩ := one known touches
    obtain ⟨g', c', member', inst⟩ := Existential.abstractions_twin alike.twinInstance member
    exact ⟨_, .existential (.inr inside) member', agrees_of_key (by simp) inst.key_eq⟩

/-- A rule makes nothing of other symbols: marking these leaves the premise as it is, and so the
results. -/
theorem symbols_of_results {rule : PatternRule} {gs : List Formula}
    (uniform : (Inference.pattern rule).Uniform) (known : ∀ s ∈ f.symbols, P s)
    (results : rule.results f = .ok gs) (member : g ∈ gs) : ∀ s ∈ g.symbols, P s := by
  obtain ⟨gs', ok, marked⟩ := PatternRule.uniform_results (m := .marking P) uniform f
  obtain rfl := Except.ok.inj (results.symm.trans ok)
  rw [Formula.relabel_marking_iff.mpr known, results] at marked
  exact Formula.relabel_marking_iff.mp (map_eq_self_iff.mp (Except.ok.inj marked).symm g member)

/-- What is tried and is no goal has no other symbols. -/
theorem Tries.symbols (made : facts.MadeOf P frontier) (uniform : rule.Uniform)
    (tries : rule.Tries facts frontier hints goal d) (apart : ¬ rule.Meets goal d.formula) :
    ∀ s ∈ d.formula.symbols, P s := by
  cases tries with
  | @pattern rule f g gs member results result =>
    exact symbols_of_results uniform (made.obtained f member) results result
  | @flattening f member => exact Formula.symbols_flatten (made.obtained f member)
  | conjunction _ _ => exact absurd trivial apart
  | @implication a b p member _ =>
    exact fun s occurs => made.obtained _ member s (Formula.mem_symbols_link.mpr (.inr occurs))
  | @premise form a b p filed _ _ _ =>
    have known := (made.filed.form _ filed).1
    exact fun s occurs => made.known _ known s (Formula.mem_symbols_link.mpr (.inr occurs))
  | excludedMiddle _ => exact absurd trivial apart
  | @existential f g c source member =>
    exact Existential.symbols_of_abstraction (source.elim (made.known f) (made.obtained f)) member

variable {ds : List Deduction}

/-- A step that does not reach the goal returns everything new that follows with what was just
obtained, and nothing that follows is the goal. -/
theorem candidates_of_yields (made : facts.MadeOf P frontier) (single : Symbol.Single P)
    (uniform : rule.Uniform) (ok : rule.advance facts frontier hints goal = .ok (.candidates ds))
    (yields : rule.Yields hints goal fs g) (known : ∀ f ∈ fs, f.Regular P ∧ f ∈ facts.forms)
    (touches : fs = [] ∨ ∃ f ∈ fs, f ∈ frontier) :
    ¬ rule.Meets goal g ∧ (g.key ∈ facts.forms ∨ ∃ d ∈ ds, d.formula.key = g.key) := by
  obtain ⟨d, tries, same, meets⟩ := yields.exists_tries made single uniform ok known touches
  obtain ⟨apart, found⟩ := (advance_sought ok).2 d tries
  refine ⟨mt meets.mp apart, ?_⟩
  rcases found with ⟨f, inside, repeats⟩ | member
  · have regular := made.regular_of_mem inside
    have equal : f.key = d.formula.key := by
      rcases repeats with bares | keys
      · exact Formula.Alike.key_eq (Formula.relabel_plain_eq single regular.symbols
          (tries.symbols made uniform apart) bares)
      · rw [regular.key_eq, keys]
    exact .inl (same ▸ equal ▸ regular.key_mem (made.mem_forms f inside))
  · exact .inr ⟨d, member, same.symm⟩

/-- What a step returns follows from known formulas, and has no other symbols. -/
theorem exists_yields_of_candidate (made : facts.MadeOf P frontier) (uniform : rule.Uniform)
    (ok : rule.advance facts frontier hints goal = .ok (.candidates ds)) (member : d ∈ ds) :
    (∀ s ∈ d.formula.symbols, P s) ∧ ∃ fs g, (∀ f ∈ fs, f.Regular P ∧ f ∈ facts.forms) ∧
      rule.Yields hints goal fs g ∧ g.key = d.formula.key := by
  have sought := advance_sought ok
  have tries := sought.1 d member
  obtain ⟨fs, g, known, yields, same, -⟩ := tries.exists_yields made
  exact ⟨tries.symbols made uniform (sought.2 d tries).1, fs, g, known, yields, same⟩

/-- A goal that a step reaches follows from known formulas. -/
theorem exists_yields_of_reached (made : facts.MadeOf P frontier)
    (ok : rule.advance facts frontier hints goal = .ok (.reached d)) :
    ∃ fs g, (∀ f ∈ fs, f.Regular P ∧ f ∈ facts.forms) ∧ rule.Yields hints goal fs g ∧
      rule.Meets goal g := by
  obtain ⟨e, tries, meets, -⟩ := advance_sought ok
  obtain ⟨fs, g, known, yields, -, alike⟩ := tries.exists_yields made
  exact ⟨fs, g, known, yields, alike.mpr meets⟩

end Inference

end Sequitur
