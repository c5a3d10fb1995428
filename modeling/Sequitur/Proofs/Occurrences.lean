import Mathlib
import Sequitur.Proofs.Replacement
import Sequitur.Rule.Existential

/-! A term can be taken out of a formula and put back. When a new variable takes its place, no free
occurrence of the term is left, and substituting the term for the variable gives the formula back,
binder for binder. An existential statement that names what a constant stands for therefore has the
statement about the constant as an instance. -/

namespace Sequitur

variable {target : Term} {p : Variable} {E : Change} {s : Subst}

namespace Term

variable {t u : Term}

inductive OccursIn (target : Term) : Term → Prop
  | whole {t : Term} : t.same target = true → OccursIn target t
  | argument {op : Operator} {ts : List Term} {t : Term} : t ∈ ts → OccursIn target t →
      OccursIn target (.app op ts)

/-- `target` stands in the formula where none of its variables is bound. -/
inductive FreeIn (target : Term) : Formula → Prop
  | atom {r : Relation} {ts : List Term} {t : Term} : t ∈ ts → target.OccursIn t →
      FreeIn target (.atom r ts)
  | not {f : Formula} : FreeIn target f → FreeIn target (.not f)
  | member {c : Junction} {fs : List Formula} {f : Formula} : f ∈ fs → FreeIn target f →
      FreeIn target (.multi c fs)
  | left {c : Arrow} {a b : Formula} : FreeIn target a → FreeIn target (.link c a b)
  | right {c : Arrow} {a b : Formula} : FreeIn target b → FreeIn target (.link c a b)
  | body {q : Quantifier} {v : Variable} {f : Formula} : v ∉ target.vars → FreeIn target f →
      FreeIn target (.bind q v f)

/-- Where the new variable does not turn up, nothing was replaced. -/
theorem replace_eq_self (absent : p ∉ (t.replace target (.var p)).vars) :
    t.replace target (.var p) = t := by
  have other {t : Term} (absent : p ∉ (t.replace target (.var p)).vars) :
      ¬ t.same target = true := by
    intro same
    rw [replace_of_same same] at absent
    exact absent (by simp)
  induction t with
  | var v => exact replace_var (other absent)
  | const c => exact replace_const (other absent)
  | app op ts ih =>
    have apart := other absent
    rw [replace_app apart] at absent ⊢
    have each : ∀ t ∈ ts, t.replace target (.var p) = id t := by
      refine fun t member => ih t member fun occurs => absent ?_
      exact mem_vars_app.mpr ⟨_, List.mem_map_of_mem member, occurs⟩
    rw [List.map_congr_left each, List.map_id]

theorem not_same_replace (apart : p ∉ target.vars) (t : Term) :
    ¬ (t.replace target (.var p)).same target = true := by
  intro same
  -- the new variable is not in the target, so the term is the old one
  have absent : p ∉ (t.replace target (.var p)).vars :=
    fun occurs => apart (mem_vars_of_bare (same_iff.mp same) occurs)
  rw [replace_eq_self absent] at same
  rw [replace_of_same same] at absent
  exact absent (by simp)

theorem not_occursIn_replace (apart : p ∉ target.vars) (t : Term) :
    ¬ target.OccursIn (t.replace target (.var p)) := by
  have whole {t : Term} (same : t.same target = true) :
      ¬ target.OccursIn (t.replace target (.var p)) := by
    rw [replace_of_same same]
    intro occurs
    cases occurs with
    | whole here => exact apart (mem_vars_of_bare (same_iff.mp here) (by simp))
  induction t with
  | var v =>
    by_cases same : (Term.var v).same target = true
    · exact whole same
    · rw [replace_var same]
      intro occurs
      cases occurs with
      | whole here => exact same here
  | const c =>
    by_cases same : (Term.const c).same target = true
    · exact whole same
    · rw [replace_const same]
      intro occurs
      cases occurs with
      | whole here => exact same here
  | app op ts ih =>
    by_cases same : (Term.app op ts).same target = true
    · exact whole same
    · have result : (Term.app op ts).replace target (.var p) =
          .app op (ts.map fun t => t.replace target (.var p)) := replace_app same
      intro occurs
      rw [result] at occurs
      cases occurs with
      | whole here => exact not_same_replace apart (.app op ts) (result ▸ here)
      | argument member inside =>
        obtain ⟨t, source, rfl⟩ := List.mem_map.mp member
        exact ih t source inside

/-- Substitution makes the expansion in which every variable becomes the term substituted for it. -/
theorem Expands.bare_subst (expands : Expands E t u)
    (terms : ∀ x ∈ t.vars, ∀ m, E x m → m.bare = (s.image x).bare) :
    (t.subst s).bare = u.bare := by
  induction expands with
  | var becomes =>
    rw [subst_var]
    exact (terms _ (by simp) _ becomes).symm
  | const => rw [subst]
  | @app op ts us pairs pairing _ ih =>
    rw [subst, bare, bare, List.map_map]
    refine congrArg (Term.app op.bare) (pairing.map_eq fun p pair => ?_)
    exact ih p pair fun x occurs => terms x (mem_vars_app.mpr ⟨p.1, (pairing.mem pair).1, occurs⟩)

end Term

namespace Formula

variable {f g : Formula}

theorem not_freeIn_replace (apart : p ∉ target.vars) (f : Formula) :
    ¬ target.FreeIn (f.replace target (.var p)) := by
  generalize new_eq : Term.var p = new
  fun_induction Formula.replace target new f with
  | case1 r ts =>
    subst new_eq
    intro free
    cases free with
    | atom member occurs =>
      obtain ⟨t, -, rfl⟩ := List.mem_map.mp member
      exact Term.not_occursIn_replace apart t occurs
  | case2 f ih =>
    intro free
    cases free with
    | not free => exact ih free
  | case3 c fs ih =>
    intro free
    cases free with
    | member inside free =>
      obtain ⟨f, source, rfl⟩ := List.mem_map.mp inside
      exact ih f source free
  | case4 c a b iha ihb =>
    intro free
    cases free with
    | left free => exact iha free
    | right free => exact ihb free
  | case5 q v f bound =>
    intro free
    cases free with
    | body outside => exact outside (by simpa using bound)
  | case6 q v f _ _ w ih =>
    intro free
    cases free with
    | body _ free => exact ih free
  | case7 q v f _ _ ih =>
    intro free
    cases free with
    | body _ free => exact ih free

/-- Substitution makes the expansion in which every free variable becomes the term substituted for
it. As there no binder catches a variable, none gives way. -/
theorem Expands.bare_subst (expands : Expands E f g) (once : ∀ b ∈ s, s.lookup b.1 = some b.2)
    (terms : ∀ x ∈ f.freeVars, ∀ t, E x t → t.bare = (s.image x).bare) :
    (f.subst s).bare = g.bare := by
  induction expands generalizing s with
  | @atom E r ts us pairs pairing all =>
    rw [subst, bare, bare, List.map_map]
    refine congrArg (Formula.atom r.bare) (pairing.map_eq fun p pair => ?_)
    refine (all p pair).bare_subst fun x occurs => terms x ?_
    exact mem_freeVars_atom.mpr ⟨p.1, (pairing.mem pair).1, occurs⟩
  | not _ ih => rw [subst, bare, bare, ih once (by simpa using terms)]
  | @multi E c fs gs pairs pairing _ ih =>
    rw [subst, bare, bare, List.map_map]
    refine congrArg (Formula.multi c) (pairing.map_eq fun p pair => ?_)
    refine ih p pair once fun x free => terms x ?_
    exact mem_freeVars_multi.mpr ⟨p.1, (pairing.mem pair).1, free⟩
  | link _ _ iha ihb =>
    rw [subst, bare, bare, iha once fun x free => terms x (mem_freeVars_link.mpr (.inl free)),
      ihb once fun x free => terms x (mem_freeVars_link.mpr (.inr free))]
  | @bind E q v f g expands ih =>
    have below {b : Variable × Term} (member : b ∈ s.without v) : b ∈ s ∧ b.1 ≠ v := by
      simpa [Subst.without] using member
    have free : ¬ (s.without v).captures v f = true := by
      intro captures
      obtain ⟨⟨x, t⟩, member, caught⟩ := List.any_eq_true.mp captures
      obtain ⟨inside, occurs⟩ : x ∈ f.freeVars ∧ v ∈ t.vars := by simpa using caught
      obtain ⟨listed, other⟩ := below member
      obtain ⟨u, ⟨here, -⟩ | ⟨-, clear, becomes⟩, -⟩ := expands.inst.exists_target inside
      · exact other here
      · have same := terms x (mem_freeVars_bind.mpr ⟨inside, other⟩) u becomes
        rw [Subst.image, once _ listed] at same
        exact clear (Term.mem_vars_of_bare same.symm occurs)
    simp only [subst, if_neg free]
    rw [bare, bare, ih ?_ ?_]
    · intro b member
      obtain ⟨listed, other⟩ := below member
      rw [Subst.lookup_without, if_neg other, once b listed]
    · rintro x inside t (⟨rfl, rfl⟩ | ⟨other, clear, becomes⟩)
      · rw [Subst.image_without_self]
      · rw [Subst.image_without other]
        exact terms x (mem_freeVars_bind.mpr ⟨inside, other⟩) t becomes

theorem subst_replace (fresh : p ∉ f.allVars) (target : Term) :
    ((f.replace target (.var p)).subst [(p, target)]).same f = true := by
  refine same_iff.mpr ((expands_replace fresh).bare_subst (by simp) ?_)
  rintro x - t (⟨rfl, same⟩ | ⟨other, rfl⟩)
  · simpa [Subst.image] using same
  · simp [Subst.image, Subst.lookup_cons, other]

/-- Taking a term out is undone by putting it back. When a variable that occurs neither in the
formula nor in the term takes its place, no free occurrence of the term is left, and substituting
the term for the variable gives the formula back, with every binder as it was. So an existential
statement made from a constant has the statement about the constant as an instance. -/
theorem replace_undone (f : Formula) :
    (∀ t p, p ∉ f.allVars → p ∉ t.vars →
      ¬ t.FreeIn (f.replace t (.var p)) ∧
        ((f.replace t (.var p)).subst [(p, t)]).same f = true) ∧
    ∀ given g c, (g, .const c) ∈ Existential.abstractions given f →
      ∃ x body, g = .ex x body ∧ ¬ (Term.const c).FreeIn body ∧
        (body.subst [(x, .const c)]).same f = true := by
  constructor
  · intro t p fresh apart
    exact ⟨not_freeIn_replace apart f, subst_replace fresh t⟩
  · intro given g c member
    obtain ⟨t, -, made⟩ := List.mem_map.mp member
    obtain ⟨rfl, rfl⟩ := Prod.mk.inj made
    have fresh : f.freshVar ∉ f.allVars := Variable.fresh_not_mem _ _
    exact ⟨_, _, rfl, not_freeIn_replace (by simp) f, subst_replace fresh (.const c)⟩

namespace TakenOut

def next (t : Term) : Term := .app (.fn ⟨.plain "g", some 1, true⟩) [t]

def below (t u : Term) : Formula := .atom (.pred ⟨.plain "q", 2, true⟩) [t, u]

def zero : Term := .const ⟨.plain "c"⟩

def successor : Term := next (.var ⟨"y"⟩)

/-- `q(g(g(y)), c) ∧ (∀y. q(g(y), y)) ∧ ∃z. q(g(y), z)`. -/
def formula : Formula :=
  .and [below (next successor) zero, .all ⟨"y"⟩ (below successor (.var ⟨"y"⟩)),
    .ex ⟨"z"⟩ (below successor (.var ⟨"z"⟩))]

def opened : Formula :=
  .and [below (next (.var ⟨"p"⟩)) zero, .all ⟨"y"⟩ (below successor (.var ⟨"y"⟩)),
    .ex ⟨"z"⟩ (below (.var ⟨"p"⟩) (.var ⟨"z"⟩))]

def about : Formula :=
  .and [below (next successor) (.var ⟨"x1"⟩), .all ⟨"y"⟩ (below successor (.var ⟨"y"⟩)),
    .ex ⟨"z"⟩ (below successor (.var ⟨"z"⟩))]

end TakenOut

/-- The variable takes the place of `g(y)` inside a larger term and under the binder of `z`, and not
under the binder of `y`. -/
theorem replace_undone_inside :
    ⟨"p"⟩ ∉ TakenOut.formula.allVars ∧ ⟨"p"⟩ ∉ TakenOut.successor.vars ∧
    TakenOut.formula.replace TakenOut.successor (.var ⟨"p"⟩) = TakenOut.opened ∧
    ¬ TakenOut.successor.FreeIn TakenOut.opened ∧
    (TakenOut.opened.subst [(⟨"p"⟩, TakenOut.successor)]).same TakenOut.formula = true ∧
    (.ex ⟨"x1"⟩ TakenOut.about, TakenOut.zero) ∈ Existential.abstractions [] TakenOut.formula ∧
    (TakenOut.about.subst [(⟨"x1"⟩, TakenOut.zero)]).same TakenOut.formula = true := by
  have fresh : (⟨"p"⟩ : Variable) ∉ TakenOut.formula.allVars := by
    rw [show TakenOut.formula.allVars = [⟨"y"⟩, ⟨"z"⟩] by cbv]
    simp
  have apart : (⟨"p"⟩ : Variable) ∉ TakenOut.successor.vars := by
    rw [show TakenOut.successor.vars = [⟨"y"⟩] by cbv]
    simp
  have result : TakenOut.formula.replace TakenOut.successor (.var ⟨"p"⟩) = TakenOut.opened := by cbv
  have made : Existential.abstractions [] TakenOut.formula =
      [(.ex ⟨"x1"⟩ TakenOut.about, TakenOut.zero)] := by cbv
  have member : (.ex ⟨"x1"⟩ TakenOut.about, TakenOut.zero) ∈
      Existential.abstractions [] TakenOut.formula := by simp [made]
  obtain ⟨undone, instances⟩ := replace_undone TakenOut.formula
  have back := undone _ _ fresh apart
  obtain ⟨x, body, same, -, named⟩ := instances _ _ _ member
  obtain ⟨-, rfl, rfl⟩ := Formula.bind.inj same
  rw [result] at back
  exact ⟨fresh, apart, result, back.1, back.2, member, named⟩

end Formula

end Sequitur
