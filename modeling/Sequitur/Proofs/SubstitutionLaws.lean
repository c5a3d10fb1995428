import Mathlib
import Sequitur.Proofs.Renaming
import Sequitur.Proofs.Substitution

/-! Substitution on classes of identical formulas. Identical formulas stay identical when identical
terms are substituted, and one substitution after another is a single substitution. Renaming all
variables, bound ones too, is a substitution for the free ones unless two variables fall together. In
these laws the two sides may rename different binders to different names: all that counts is that both
are instances of one formula in which its free variables have become the same. -/

namespace Sequitur

/-- What becomes of a variable under `m`: one that `m` does not map stays. -/
def Variable.extend (m : Variable → Option Variable) (x : Variable) : Variable := (m x).getD x

namespace Subst

variable {s s₁ s₂ s' : Subst}

theorem image_identical (domain : ∀ x, s.lookup x = none ↔ s'.lookup x = none)
    (terms : ∀ x t u, s.lookup x = some t → s'.lookup x = some u → t.identical u = true)
    (x : Variable) : (s.image x).identical (s'.image x) = true := by
  cases found : s.lookup x with
  | none =>
    have absent := (domain x).mp found
    rw [image, image, found, absent]
    exact Term.identical_refl _
  | some t =>
    cases found' : s'.lookup x with
    | none => simp [(domain x).mpr found'] at found
    | some u =>
      rw [image, image, found, found']
      exact terms x t u found found'

/-- What the first substitution makes of a variable, the second one changes in turn. -/
theorem image_of_composed
    (composed : ∀ x, s.lookup x = ((s₁.lookup x).map (Term.subst s₂)).or (s₂.lookup x))
    (x : Variable) : s.image x = (s₁.image x).subst s₂ := by
  rw [image, image, composed]
  cases s₁.lookup x with
  | none => exact (Term.subst_var s₂ x).symm
  | some t => rfl

/-- The substitution of `m v` for `v`, for the variables `v` of a set that `m` maps. -/
def ofMap (m : Variable → Option Variable) (vs : VarSet) : Subst :=
  vs.filterMap fun v => (m v).map fun w => (v, .var w)

theorem mem_ofMap {m : Variable → Option Variable} {vs : VarSet} {x : Variable} {t : Term} :
    (x, t) ∈ ofMap m vs ↔ x ∈ vs ∧ ∃ w, m x = some w ∧ t = .var w := by
  simp only [ofMap, List.mem_filterMap, Option.map_eq_some_iff, Prod.mk.injEq]
  constructor
  · rintro ⟨v, inside, w, mapped, rfl, rfl⟩
    exact ⟨inside, w, mapped, rfl⟩
  · rintro ⟨inside, w, mapped, rfl⟩
    exact ⟨x, inside, w, mapped, rfl, rfl⟩

theorem image_ofMap {m : Variable → Option Variable} {vs : VarSet} {x : Variable} (inside : x ∈ vs) :
    (ofMap m vs).image x = .var (x.extend m) := by
  cases found : (ofMap m vs).lookup x with
  | none =>
    have unmapped : m x = none := by
      rw [Option.eq_none_iff_forall_ne_some]
      intro w mapped
      have member : (x, .var w) ∈ ofMap m vs := mem_ofMap.mpr ⟨inside, w, mapped, rfl⟩
      exact not_mem_of_lookup found (List.mem_map_of_mem member)
    rw [image, found, Variable.extend, unmapped, Option.getD_none, Option.getD_none]
  | some t =>
    obtain ⟨-, w, mapped, rfl⟩ := mem_ofMap.mp (mem_of_lookup found)
    rw [image, found, Variable.extend, mapped, Option.getD_some, Option.getD_some]

end Subst

namespace Formula

/-- Substitution is well defined on classes of identical formulas: if the same variables are
replaced by identical terms in identical formulas, the results are identical. Symbols may even be
flagged as unordered on one side only. -/
theorem subst_identical {f g : Formula} {s s' : Subst} (identical : f.identical g = true)
    (domain : ∀ x, s.lookup x = none ↔ s'.lookup x = none)
    (terms : ∀ x t u, s.lookup x = some t → s'.lookup x = some u → t.identical u = true) :
    (f.subst s).identical (g.subst s') = true := by
  have across := (identical_iff.mp identical).subst s'
  refine identical_of_span (f.instance_subst s) across (fun _ _ same => same) ?_
  rintro x - t u rfl ⟨_, rfl, rfl⟩
  rw [Term.subst_var]
  exact Subst.image_identical domain terms x

namespace Renamed

def relation (t u : Term) : Formula := .atom (.pred ⟨.plain "q", 2, true⟩) [t, u]

def universal : Formula := .all ⟨"y"⟩ (relation (.var ⟨"x"⟩) (.var ⟨"y"⟩))

/-- A sum, whose two terms may stand in either order. -/
def sum (t u : Term) : Term := .app (.fn ⟨.plain "sum", some 2, false⟩) [t, u]

def first : Formula := .and [.prop "A", universal]

def second : Formula := .and [.all ⟨"u"⟩ (relation (.var ⟨"x"⟩) (.var ⟨"u"⟩)), .prop "A"]

def sums : Subst := [(⟨"x"⟩, sum (.var ⟨"y"⟩) (.var ⟨"z"⟩))]

def swapped : Subst := [(⟨"x"⟩, sum (.var ⟨"z"⟩) (.var ⟨"y"⟩))]

end Renamed

/-- The binder of `y` gives way, and the binder of `u` does not have to. -/
theorem subst_identical_renamed :
    Renamed.first.identical Renamed.second = true ∧
    (∀ x, Renamed.sums.lookup x = none ↔ Renamed.swapped.lookup x = none) ∧
    (∀ x t u, Renamed.sums.lookup x = some t → Renamed.swapped.lookup x = some u →
      t.identical u = true) ∧
    Renamed.first.subst Renamed.sums = .and [.prop "A",
      .all ⟨"y1"⟩ (Renamed.relation (Renamed.sum (.var ⟨"y"⟩) (.var ⟨"z"⟩)) (.var ⟨"y1"⟩))] ∧
    Renamed.second.subst Renamed.swapped = .and [
      .all ⟨"u"⟩ (Renamed.relation (Renamed.sum (.var ⟨"z"⟩) (.var ⟨"y"⟩)) (.var ⟨"u"⟩)), .prop "A"] ∧
    (Renamed.first.subst Renamed.sums).identical (Renamed.second.subst Renamed.swapped) = true := by
  have identical : Renamed.first.identical Renamed.second = true := by cbv
  have domain : ∀ x, Renamed.sums.lookup x = none ↔ Renamed.swapped.lookup x = none := by
    intro x
    by_cases here : x = ⟨"x"⟩
    · simp [Renamed.sums, Renamed.swapped, here]
    · simp [Renamed.sums, Renamed.swapped, Subst.lookup_cons, here]
  have terms : ∀ x t u, Renamed.sums.lookup x = some t → Renamed.swapped.lookup x = some u →
      t.identical u = true := by
    intro x t u found found'
    obtain ⟨-, rfl⟩ := Prod.mk.inj (List.mem_singleton.mp (Subst.mem_of_lookup found))
    obtain ⟨-, rfl⟩ := Prod.mk.inj (List.mem_singleton.mp (Subst.mem_of_lookup found'))
    cbv
  exact ⟨identical, domain, terms, by cbv, by cbv, subst_identical identical domain terms⟩

/-- Substituting twice is substituting once, each term of the first substitution with the second one
made in it, and the second one for all other variables. -/
theorem subst_composes {s₁ s₂ s : Subst}
    (composed : ∀ x, s.lookup x = ((s₁.lookup x).map (Term.subst s₂)).or (s₂.lookup x))
    (f : Formula) :
    ((f.subst s₁).subst s₂).identical (f.subst s) = true ∧
      (f.subst s).identical ((f.subst s₁).subst s₂) = true := by
  have twice := (f.instance_subst s₁).subst s₂
  have once := f.instance_subst s
  constructor
  · refine identical_of_span twice once (fun _ _ => Symbol.same_of_eq) ?_
    rintro x - t u ⟨_, rfl, rfl⟩ rfl
    rw [Subst.image_of_composed composed]
    exact Term.identical_refl _
  · refine identical_of_span once twice (fun _ _ => Symbol.same_of_eq) ?_
    rintro x - t u rfl ⟨_, rfl, rfl⟩
    rw [Subst.image_of_composed composed]
    exact Term.identical_refl _

namespace Renamed

def before : Subst := [(⟨"x"⟩, .var ⟨"y"⟩)]

def after : Subst := [(⟨"y"⟩, .var ⟨"y1"⟩)]

def both : Subst := [(⟨"x"⟩, .var ⟨"y1"⟩), (⟨"y"⟩, .var ⟨"y1"⟩)]

end Renamed

/-- The binder gives way to `y` first and then to `y1`, but at once it does not have to. -/
theorem subst_composes_renamed :
    (∀ x, Renamed.both.lookup x =
      ((Renamed.before.lookup x).map (Term.subst Renamed.after)).or (Renamed.after.lookup x)) ∧
    (Renamed.universal.subst Renamed.before).subst Renamed.after =
      .all ⟨"y11"⟩ (Renamed.relation (.var ⟨"y1"⟩) (.var ⟨"y11"⟩)) ∧
    Renamed.universal.subst Renamed.both =
      .all ⟨"y"⟩ (Renamed.relation (.var ⟨"y1"⟩) (.var ⟨"y"⟩)) ∧
    ((Renamed.universal.subst Renamed.before).subst Renamed.after).identical
      (Renamed.universal.subst Renamed.both) = true := by
  have image : Term.subst Renamed.after (.var ⟨"y"⟩) = .var ⟨"y1"⟩ := by cbv
  have composed : ∀ x, Renamed.both.lookup x =
      ((Renamed.before.lookup x).map (Term.subst Renamed.after)).or (Renamed.after.lookup x) := by
    intro x
    by_cases here : x = ⟨"x"⟩
    · simp [Renamed.both, Renamed.before, here, image]
    · simp [Renamed.both, Renamed.before, Renamed.after, Subst.lookup_cons, here]
  exact ⟨composed, by cbv, by cbv, (subst_composes composed Renamed.universal).1⟩

/-- Renaming all variables at once, bound or free and without regard to capture, is harmless as long as
no two variables of the formula fall together: it gives what substituting the new names for the free
variables gives, also where a bound and a free variable change places. -/
theorem renameAll_identical_subst {m : Variable → Option Variable} {f : Formula}
    (injective : Set.InjOn (Variable.extend m) {x | x ∈ f.allVars}) :
    (f.renameAll (Variable.extend m)).identical (f.subst (.ofMap m f.freeVars)) = true ∧
      (f.subst (.ofMap m f.freeVars)).identical (f.renameAll (Variable.extend m)) = true := by
  have everywhere : Instance Eq (.rename (Variable.extend m)) f (f.renameAll (Variable.extend m)) :=
    instance_renameAll fun x left y right same => injective left right same
  have free := f.instance_subst (.ofMap m f.freeVars)
  constructor
  · refine identical_of_span everywhere free (fun _ _ => Symbol.same_of_eq) ?_
    rintro x occurs t u rfl rfl
    rw [Subst.image_ofMap occurs]
    exact Term.identical_refl _
  · refine identical_of_span free everywhere (fun _ _ => Symbol.same_of_eq) ?_
    rintro x occurs t u rfl rfl
    rw [Subst.image_ofMap occurs]
    exact Term.identical_refl _

namespace Renamed

def swap (v : Variable) : Option Variable := [(⟨"x"⟩, ⟨"y"⟩), (⟨"y"⟩, ⟨"x"⟩)].lookup v

def merge (v : Variable) : Option Variable := [(⟨"x"⟩, ⟨"y"⟩)].lookup v

end Renamed

/-- The bound `y` and the free `x` change places, or the binder of `y` gives way. -/
theorem renameAll_identical_subst_swapped :
    Set.InjOn (Variable.extend Renamed.swap) {x | x ∈ Renamed.universal.allVars} ∧
    Renamed.universal.renameAll (Variable.extend Renamed.swap) =
      .all ⟨"x"⟩ (Renamed.relation (.var ⟨"y"⟩) (.var ⟨"x"⟩)) ∧
    Renamed.universal.subst (.ofMap Renamed.swap Renamed.universal.freeVars) =
      .all ⟨"y1"⟩ (Renamed.relation (.var ⟨"y"⟩) (.var ⟨"y1"⟩)) ∧
    (Renamed.universal.renameAll (Variable.extend Renamed.swap)).identical
      (Renamed.universal.subst (.ofMap Renamed.swap Renamed.universal.freeVars)) = true := by
  have vars : Renamed.universal.allVars = [⟨"x"⟩, ⟨"y"⟩] := by cbv
  have apart : ∀ x ∈ [⟨"x"⟩, ⟨"y"⟩], ∀ y ∈ [⟨"x"⟩, ⟨"y"⟩],
      Variable.extend Renamed.swap x = Variable.extend Renamed.swap y → x = y := by decide
  have injective : Set.InjOn (Variable.extend Renamed.swap) {x | x ∈ Renamed.universal.allVars} := by
    rw [vars]
    exact fun x left y right => apart x left y right
  exact ⟨injective, by cbv, by cbv, (renameAll_identical_subst injective).1⟩

/-- A free variable that takes the name of a bound one is caught. -/
example : (Renamed.universal.renameAll (Variable.extend Renamed.merge)).identical
    (Renamed.universal.subst (.ofMap Renamed.merge Renamed.universal.freeVars)) = false := by cbv

end Formula

end Sequitur
