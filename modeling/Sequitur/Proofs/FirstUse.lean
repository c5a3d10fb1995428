import Mathlib
import Sequitur.Proofs.Abstraction

/-! The first use of a parametrized reference. The formula it meets becomes an abstraction over the
arguments, and the abstraction applied to what the arguments stand for is that formula again, unless
a parameter that was made up for one argument turns up in a later one. -/

namespace Sequitur

open Arrangement

namespace TermPattern

variable {r : Bindings} {args : List TermPattern}

def value (r : Bindings) (arg : TermPattern) : Term := (arg.resolve r).getD default

theorem resolve_value {arg : TermPattern} (resolves : ∃ t, arg.resolve r = some t) :
    arg.resolve r = some (arg.value r) := by
  obtain ⟨t, resolved⟩ := resolves
  rw [value, resolved]
  rfl

theorem resolveAll_value (resolves : ∀ arg ∈ args, ∃ t, arg.resolve r = some t) :
    resolveAll r args = some (args.map (value r)) := by
  induction args with
  | nil => rw [resolveAll, List.map_nil]
  | cons arg args ih =>
    obtain ⟨here, later⟩ := List.forall_mem_cons.mp resolves
    rw [resolveAll, resolve_value here, ih later]
    rfl

end TermPattern

namespace Pattern

open TermPattern (Scope)

variable {r before : Bindings} {f body : Formula} {args : List TermPattern}
  {params : List Variable} {name : String}

/-- An abstraction of a formula, applied to what the arguments stand for, is the formula. -/
theorem Abstracts.identical_subst (abstracts : Abstracts r f args body params)
    (apart : ParametersApart r params args) :
    (body.subst (.ofList (params.zip (args.map (TermPattern.value r))))).identical f = true := by
  refine Formula.identical_of_span (body.instance_subst _) (abstracts.expands apart).inst
    (fun _ _ => Symbol.same_of_eq) ?_
  rintro x - m n image becomes
  obtain ⟨t, resolved, same⟩ := becomes
  -- the parameter and its argument are found at the same place
  rw [Subst.change, Subst.image, Subst.lookup_ofList, List.zip_map_right, ← List.map_reverse,
    Subst.lookup_map] at image
  rw [TermPattern.ofInstance] at resolved
  refine Term.identical_iff.mpr (Term.instance_of_bare (Eq.trans (congrArg Term.bare ?_) same.symm))
  cases found : (params.zip args).reverse.lookup x with
  | none =>
    rw [found] at image resolved
    exact image.trans (Option.some.inj resolved)
  | some arg =>
    rw [found] at image resolved
    rw [image]
    show arg.value r = t
    rw [TermPattern.value, show arg.resolve r = some t from resolved]
    rfl

/-- On its first use a parametrized reference abstracts the formula over its arguments: all of them
stand for terms, the reference can be applied to these, and that gives the formula again if no
parameter that was made up for an argument occurs in a later one. -/
theorem first_use_abstracts (unbound : before.formula? name = none)
    (found : r ∈ (refAt name args).matcher f before) :
    ∃ ts g a, TermPattern.resolveAll r args = some ts ∧ r.apply name ts = .ok g ∧
      r.formula? name = some a ∧ (ParametersApart r a.params args → g.identical f = true) := by
  have allows : Supply.Allows ⟨fun _ => True, fun _ => True, fun _ _ => True⟩ (refAt name args) :=
    fun _ _ => trivial
  rw [matcher, matcherWith] at found
  obtain ⟨-, params, body, bound, abstracts⟩ := mem_matchRefAt_of_unbound allows
    ⟨fun _ _ => trivial, fun _ _ => trivial⟩ unbound found
  refine ⟨_, _, _, TermPattern.resolveAll_value abstracts.exists_resolve, ?_, bound,
    abstracts.identical_subst⟩
  rw [Bindings.apply, bound]
  exact if_pos (by simp [abstracts.length_eq])

def triple (a b c : Term) : Formula := .atom (.pred ⟨.plain "q", 3, true⟩) [a, b, c]

namespace Triple

def constant : Constant := ⟨.plain "c"⟩

def value : Term := .app (.fn ⟨.plain "g", some 1, true⟩) [.const constant]

def arguments : List TermPattern := [.ref "y", .ref "z", .const constant]

def formula : Formula := triple value (.var ⟨"w"⟩) (.const constant)

def given : Bindings := .insertTerm .empty "y" value

def abstraction : Abstraction :=
  ⟨[⟨"p1"⟩, ⟨"w"⟩, ⟨"p2"⟩], triple (.var ⟨"p1"⟩) (.var ⟨"w"⟩) (.var ⟨"p2"⟩)⟩

def found : Bindings := (given.insertTerm "z" (.var ⟨"w"⟩)).insertFormula "φ" abstraction

theorem parametersApart : ParametersApart found abstraction.params arguments := by
  have second : (TermPattern.ref "z").resolve found = some (.var ⟨"w"⟩) := by
    simp [TermPattern.resolve, found, Bindings.term?_insertTerm]
  have third : (TermPattern.const constant).resolve found = some (.const constant) := by
    rw [TermPattern.resolve]
  simp [ParametersApart, abstraction, arguments, second, third]

end Triple

/-- With `g(c)` for `y`, nothing yet for `z`, and the constant `c` itself: `g(c)` is replaced before
`c` is, and the reference `z` takes the only free variable. -/
theorem first_use_abstracts_triple :
    Triple.given.formula? "φ" = none ∧
    Triple.found ∈ (refAt "φ" Triple.arguments).matcher Triple.formula Triple.given ∧
    ParametersApart Triple.found Triple.abstraction.params Triple.arguments ∧
    ∃ ts g, TermPattern.resolveAll Triple.found Triple.arguments = some ts ∧
      Triple.found.apply "φ" ts = .ok g ∧ g.identical Triple.formula = true := by
  have unbound : Triple.given.formula? "φ" = none := by simp [Triple.given]
  have found : Triple.found ∈ (refAt "φ" Triple.arguments).matcher Triple.formula Triple.given := by
    have only : (refAt "φ" Triple.arguments).matcher Triple.formula Triple.given =
      [Triple.found] := by cbv
    simp [only]
  refine ⟨unbound, found, Triple.parametersApart, ?_⟩
  obtain ⟨ts, g, a, resolved, applied, bound, identical⟩ := first_use_abstracts unbound found
  have same : Triple.found.formula? "φ" = some Triple.abstraction := by
    rw [Triple.found, Bindings.formula?_insertFormula, if_pos rfl]
  obtain rfl := Option.some.inj (same.symm.trans bound)
  exact ⟨ts, g, resolved, applied, identical Triple.parametersApart⟩

def single (t : Term) : Formula := .atom (.pred ⟨.plain "q", 1, true⟩) [t]

namespace Mistaken

def arguments : List TermPattern := [.const ⟨.plain "c"⟩, .var ⟨"p1"⟩]

def found : Bindings := .insertFormula .empty "φ" ⟨[⟨"p1"⟩, ⟨"p1"⟩], single (.var ⟨"p1"⟩)⟩

end Mistaken

/-- The parameter `p1` is made up for `c`, and then the variable `p1` is an argument of its own: what
the abstraction says of `c` is said of `p1`. -/
theorem first_use_mistakes_parameter :
    (refAt "φ" Mistaken.arguments).matcher (single (.const ⟨.plain "c"⟩)) .empty =
      [Mistaken.found] ∧
    TermPattern.resolveAll Mistaken.found Mistaken.arguments =
      some [.const ⟨.plain "c"⟩, .var ⟨"p1"⟩] ∧
    Mistaken.found.apply "φ" [.const ⟨.plain "c"⟩, .var ⟨"p1"⟩] = .ok (single (.var ⟨"p1"⟩)) ∧
    (single (.var ⟨"p1"⟩)).identical (single (.const ⟨.plain "c"⟩)) = false := by
  exact ⟨by cbv, by cbv, by cbv, by cbv⟩

end Pattern

end Sequitur
