import Sequitur.Proofs.Filling

/-! When a template can be filled in, and what the result says. It is true if the template is true
with the values of the bound terms for its variables and the truth of the bound formulas for its bare
names, as long as its binders, some of them under new names, do not catch each other's variables. -/

namespace Sequitur

open Arrangement

universe u

variable {r : Bindings} {scope : TemplateScope}

/-- The term has a value for each variable that no binder of the template has renamed. -/
theorem Term.succeeds_fill_iff {t : Term} : Succeeds (t.fill r scope) ↔
    ∀ x ∈ t.vars, scope.lookup x = none → ∃ s, r.term? x.name = some s := by
  induction t with
  | var v =>
    simp only [mem_vars_var, forall_eq, fill]
    cases scope.lookup v with
    | some w => simp [Succeeds]
    | none => cases r.term? v.name <;> simp [Succeeds]
  | const c => simp [fill, Succeeds]
  | app op ts ih =>
    rw [fill, Succeeds.bind_pure_iff, fillAll_eq, Succeeds.mapM_iff]
    constructor
    · intro each x occurs
      obtain ⟨t, member, occurs⟩ := mem_vars_app.mp occurs
      exact (ih t member).mp (each t member) x occurs
    · intro bound t member
      exact (ih t member).mpr fun x occurs => bound x (mem_vars_app.mpr ⟨t, member, occurs⟩)

/-- Everything that a template asks for is bound: the variables that no binder has renamed, and the
bare names, with as many parameters as they have arguments. -/
structure Bindings.Provides (r : Bindings) (scope : TemplateScope) (template : Formula) : Prop where
  term : ∀ x ∈ template.freeVars, scope.lookup x = none → ∃ t, r.term? x.name = some t
  formula : ∀ a ∈ template.applications,
    ∃ b, r.formula? a.1.full = some b ∧ a.2.length = b.params.length

namespace Bindings.Provides

variable {f a b : Formula} {fs : List Formula} {c : Junction} {d : Arrow} {q : Quantifier}
  {v w : Variable} {n : Name} {p : Predicate} {ts : List Term}

theorem pred : r.Provides scope (.atom (.pred p) ts) ↔
    ∀ t ∈ ts, Succeeds (t.fill r scope) := by
  simp only [Term.succeeds_fill_iff]
  constructor
  · intro provides t member x occurs
    exact provides.term x (Formula.mem_freeVars_atom.mpr ⟨t, member, occurs⟩)
  · intro bound
    refine ⟨fun x free => ?_, by simp [Formula.applications]⟩
    obtain ⟨t, member, occurs⟩ := Formula.mem_freeVars_atom.mp free
    exact bound t member x occurs

theorem named : r.Provides scope (.atom (.named n) ts) ↔
    (∀ t ∈ ts, Succeeds (t.fill r scope)) ∧
      ∃ b, r.formula? n.full = some b ∧ ts.length = b.params.length := by
  simp only [Term.succeeds_fill_iff]
  constructor
  · intro provides
    refine ⟨fun t member x occurs => ?_, provides.formula (n, ts) (by simp [Formula.applications])⟩
    exact provides.term x (Formula.mem_freeVars_atom.mpr ⟨t, member, occurs⟩)
  · rintro ⟨bound, applied⟩
    refine ⟨fun x free => ?_, by simpa [Formula.applications] using applied⟩
    obtain ⟨t, member, occurs⟩ := Formula.mem_freeVars_atom.mp free
    exact bound t member x occurs

theorem not : r.Provides scope (.not f) ↔ r.Provides scope f := by
  constructor
  · intro provides
    exact ⟨by simpa using provides.term, by simpa [Formula.applications] using provides.formula⟩
  · intro provides
    exact ⟨by simpa using provides.term, by simpa [Formula.applications] using provides.formula⟩

theorem multi : r.Provides scope (.multi c fs) ↔ ∀ f ∈ fs, r.Provides scope f := by
  constructor
  · intro provides f member
    exact ⟨fun x free => provides.term x (Formula.mem_freeVars_multi.mpr ⟨f, member, free⟩),
      fun a used => provides.formula a ((Formula.Part.member c member).application a used)⟩
  · intro provides
    constructor
    · intro x free
      obtain ⟨f, member, free⟩ := Formula.mem_freeVars_multi.mp free
      exact (provides f member).term x free
    · intro a used
      rw [Formula.applications] at used
      obtain ⟨f, member, used⟩ := List.mem_flatMap.mp used
      exact (provides f member).formula a used

theorem link : r.Provides scope (.link d a b) ↔ r.Provides scope a ∧ r.Provides scope b := by
  constructor
  · intro provides
    exact ⟨⟨fun x free => provides.term x (Formula.mem_freeVars_link.mpr (.inl free)),
        fun a' used => provides.formula a' ((Formula.Part.left d a b).application a' used)⟩,
      ⟨fun x free => provides.term x (Formula.mem_freeVars_link.mpr (.inr free)),
        fun a' used => provides.formula a' ((Formula.Part.right d a b).application a' used)⟩⟩
  · rintro ⟨left, right⟩
    constructor
    · intro x free
      exact (Formula.mem_freeVars_link.mp free).elim (left.term x) (right.term x)
    · rw [Formula.applications]
      exact List.forall_mem_append.mpr ⟨left.formula, right.formula⟩

theorem bind : r.Provides scope (.bind q v f) ↔ r.Provides ((v, w) :: scope) f := by
  constructor
  · intro provides
    refine ⟨fun x free outside => ?_, by simpa [Formula.applications] using provides.formula⟩
    rw [Subst.lookup_cons] at outside
    split at outside
    · cases outside
    · exact provides.term x (Formula.mem_freeVars_bind.mpr ⟨free, ‹_›⟩) outside
  · intro provides
    refine ⟨fun x free outside => ?_, by simpa [Formula.applications] using provides.formula⟩
    obtain ⟨free, other⟩ := Formula.mem_freeVars_bind.mp free
    exact provides.term x free (by rwa [Subst.lookup_cons, if_neg other])

end Bindings.Provides

namespace Formula

variable {template g : Formula} {taken : VarSet}

/-- A template can be filled in exactly if everything it asks for is bound. -/
theorem succeeds_fillUnder_iff :
    Succeeds (template.fillUnder r taken scope) ↔ r.Provides scope template := by
  induction template generalizing scope with
  | atom s ts =>
    cases s with
    | pred p =>
      rw [fillUnder, Succeeds.bind_pure_iff, Term.fillAll_eq, Succeeds.mapM_iff, Bindings.Provides.pred]
    | named n =>
      rw [Bindings.Provides.named, ← Succeeds.mapM_iff, fillUnder, Term.fillAll_eq]
      constructor
      · rintro ⟨g, ok⟩
        obtain ⟨us, filled, ok⟩ := bind_eq_ok.mp ok
        obtain ⟨pairs, ⟨rfl, rfl⟩, -⟩ := exists_pairing_of_mapM filled
        split at ok
        · rename_i b bound
          obtain ⟨length, -⟩ := Abstraction.instantiate_eq_ok.mp ok
          exact ⟨⟨_, filled⟩, b, bound, by simpa using length⟩
        · cases ok
      · rintro ⟨arguments, b, bound, length⟩
        refine arguments.bind fun us filled => ?_
        obtain ⟨pairs, ⟨rfl, rfl⟩, -⟩ := exists_pairing_of_mapM filled
        simp only [bound]
        exact ⟨_, Abstraction.instantiate_eq_ok.mpr ⟨by simpa using length, rfl⟩⟩
  | not f ih =>
    rw [fillUnder, Succeeds.bind_pure_iff, ih, Bindings.Provides.not]
  | multi c fs ih =>
    rw [fillUnder, Succeeds.bind_pure_iff, fillAllUnder_eq, Succeeds.mapM_iff, Bindings.Provides.multi]
    exact forall₂_congr fun f member => ih f member
  | link c a b iha ihb =>
    rw [Bindings.Provides.link, ← iha, ← ihb, fillUnder]
    constructor
    · rintro ⟨_, ok⟩
      simp only [bind_eq_ok] at ok
      obtain ⟨a', oka, b', okb, -⟩ := ok
      exact ⟨⟨a', oka⟩, b', okb⟩
    · rintro ⟨left, right⟩
      exact left.bind fun a' _ => right.bind fun b' _ => .pure (link c a' b')
  | bind q v f ih =>
    rw [fillUnder, Succeeds.bind_pure_iff, ih, Bindings.Provides.bind]

/-- Filling in avoids capture. Every free variable and every bare name of a template that is filled in
is bound, and the result is true if the template is true with the values of the bound terms for its
variables and the truth of the bound formulas for its bare names: provided that the binders of the
template, renamed, do not catch each other's variables. -/
theorem holds_fill (ok : template.fill r = .ok g) (apart : template.RenamedApart r.vars []) :
    (∀ x ∈ template.freeVars, ∃ t, r.term? x.name = some t) ∧
    (∀ a ∈ template.applications,
      ∃ b, r.formula? a.1.full = some b ∧ a.2.length = b.params.length) ∧
    ∀ {D : Type u} (I : Interpretation D) (ρ : Variable → D),
      g.holds I ρ ↔ template.holds (I.filled r ρ) (r.values I ρ) := by
  have provides : r.Provides [] template := succeeds_fillUnder_iff.mp ⟨g, ok⟩
  refine ⟨fun x free => provides.term x free rfl, provides.formula, fun I ρ => ?_⟩
  exact holds_of_fillUnder (fun _ inside => inside) apart ok fun x _ => r.determines_values I ρ x

namespace Above

def scheme : Formula :=
  .bind .all ⟨"x"⟩ (.bind .ex ⟨"z"⟩ (.and [.atom (.named (.plain "φ")) [.var ⟨"x"⟩, .var ⟨"y"⟩],
    .atom (.pred ⟨.plain "p", 2, true⟩) [.var ⟨"z"⟩, .var ⟨"x"⟩]]))

def above (x : Variable) : Term := .app (.fn ⟨.plain "g", some 1, true⟩) [.var x]

def body (a b : Term) (v : Variable) : Formula :=
  .bind .all v (.atom (.pred ⟨.plain "q", 3, true⟩) [a, b, .var v])

def bindings : Bindings := (Bindings.empty.insertTerm "y" (above ⟨"x"⟩)).insertFormula "φ"
  ⟨[⟨"a"⟩, ⟨"b"⟩], body (.var ⟨"a"⟩) (.var ⟨"b"⟩) ⟨"x"⟩⟩

def filled : Formula :=
  .bind .all ⟨"x1"⟩ (.bind .ex ⟨"z"⟩ (.and [body (.var ⟨"x1"⟩) (above ⟨"x"⟩) ⟨"x2"⟩,
    .atom (.pred ⟨.plain "p", 2, true⟩) [.var ⟨"z"⟩, .var ⟨"x1"⟩]]))

theorem renamedApart : scheme.RenamedApart bindings.vars [] := by
  have taken : bindings.vars = [⟨"a"⟩, ⟨"b"⟩, ⟨"x"⟩] := by cbv
  have outer : templateBinder [⟨"a"⟩, ⟨"b"⟩, ⟨"x"⟩] ⟨"x"⟩ = ⟨"x1"⟩ := by cbv
  have inner : templateBinder [⟨"a"⟩, ⟨"b"⟩, ⟨"x"⟩] ⟨"z"⟩ = ⟨"z"⟩ := by cbv
  rw [taken]
  simp [scheme, RenamedApart, outer, inner]

end Above

/-- With `g(x)` for `y`, the binder of `x` becomes a binder of `x1`, and so `x` in `g(x)` stays free. The
formula for `φ` has a binder of `x` too, which gives way in turn. -/
theorem holds_fill_above : Above.scheme.fill Above.bindings = .ok Above.filled ∧
    Above.scheme.RenamedApart Above.bindings.vars [] ∧
    ∀ {D : Type u} (I : Interpretation D) (ρ : Variable → D), Above.filled.holds I ρ ↔
      Above.scheme.holds (I.filled Above.bindings ρ) (Above.bindings.values I ρ) := by
  have ok : Above.scheme.fill Above.bindings = .ok Above.filled := by cbv
  exact ⟨ok, Above.renamedApart, (holds_fill ok Above.renamedApart).2.2⟩

def allRelated (x y : Variable) : Formula :=
  .bind .all x (.bind .all y (.atom (.pred ⟨.plain "p", 2, true⟩) [.var x, .var y]))

/-- A binder of `x` that is renamed to `x1` is caught by a binder of `x1` inside. Equality on two values
tells the results apart. -/
theorem fill_captures :
    (allRelated ⟨"x"⟩ ⟨"x1"⟩).fill (.insertTerm .empty "t" (.var ⟨"x"⟩)) =
      .ok (allRelated ⟨"x1"⟩ ⟨"x1"⟩) ∧
    ∃ (I : Interpretation Bool) (ρ : Variable → Bool),
      (allRelated ⟨"x1"⟩ ⟨"x1"⟩).holds I ρ ∧
      ¬ (allRelated ⟨"x"⟩ ⟨"x1"⟩).holds (I.filled (.insertTerm .empty "t" (.var ⟨"x"⟩)) ρ)
        (Bindings.values I (.insertTerm .empty "t" (.var ⟨"x"⟩)) ρ) := by
  refine ⟨by cbv, ⟨fun _ _ => True, fun _ ds => ∃ d, ds = [d, d], fun _ _ => true, fun _ _ => true,
    fun _ => true⟩, fun _ => true, ?_, ?_⟩
  · simp [allRelated, holds_atom, holds_all, Interpretation.relation, Term.value]
  · simp [allRelated, holds_atom, holds_all, Interpretation.relation, Term.value,
      Interpretation.filled, Function.update]

end Formula

end Sequitur
