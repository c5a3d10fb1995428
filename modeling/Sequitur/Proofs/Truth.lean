import Mathlib.Logic.Function.Basic
import Sequitur.Proofs.Identity

/-! Truth in first-order interpretations. A formula and its instance have the same truth value
when what a free variable becomes has the value of that variable. Identical formulas are
therefore true in the same interpretations, as long as unordered symbols are interpreted
without regard to the order of their arguments. -/

namespace Sequitur

open Arrangement

universe u

/-- What names stand for over the domain `D`. A bare name and a declared symbol of the same text
are two names. -/
structure Interpretation (D : Type u) where
  named : String → List D → Prop
  pred : String → List D → Prop
  namedTerm : String → List D → D
  fn : String → List D → D
  const : String → D

namespace Interpretation

variable {D : Type u} (I : Interpretation D)

def relation : Relation → List D → Prop
  | .named n => I.named n.full
  | .pred p => I.pred p.name.full

def operator : Operator → List D → D
  | .named n => I.namedTerm n.full
  | .fn f => I.fn f.name.full

/-- Equality is interpreted by equality. -/
def Standard : Prop := ∀ a b : D, I.pred Predicate.equality.name.full [a, b] ↔ a = b

/-- If the symbol is unordered, the order of its arguments makes no difference. -/
def Respects : Symbol → Prop
  | .relation r => r.ordered = false →
      ∀ xs ys : List D, xs.Perm ys → (I.relation r xs ↔ I.relation r ys)
  | .operator f => f.ordered = false →
      ∀ xs ys : List D, xs.Perm ys → I.operator f xs = I.operator f ys
  | .constant _ => True

theorem relation_congr {r s : Relation} (same : r.same s = true) : I.relation r = I.relation s := by
  cases r <;> cases s <;> simp_all [Relation.same, Predicate.same, relation]

theorem operator_congr {f g : Operator} (same : f.same g = true) : I.operator f = I.operator g := by
  cases f <;> cases g <;> simp_all [Operator.same, FunctionSymbol.same, operator]

/-- Arguments with the same values, in the order that the symbol asks for. -/
theorem apply_pairing {α β : Type} {f : Operator} {value : α → D} {value' : β → D}
    {pairs : List (α × β)} {xs : List α} {ys : List β} (respects : I.Respects (.operator f))
    (pairing : Pairing f.ordered pairs xs ys) (same : ∀ p ∈ pairs, value p.1 = value' p.2) :
    I.operator f (xs.map value) = I.operator f (ys.map value') := by
  by_cases ordered : f.ordered = true
  · rw [ordered] at pairing
    rw [pairing.map_eq same]
  · exact respects (by simpa using ordered) _ _ (pairing.perm_keys same)

theorem relate_pairing {α β : Type} {r : Relation} {value : α → D} {value' : β → D}
    {pairs : List (α × β)} {xs : List α} {ys : List β} (respects : I.Respects (.relation r))
    (pairing : Pairing r.ordered pairs xs ys) (same : ∀ p ∈ pairs, value p.1 = value' p.2) :
    I.relation r (xs.map value) ↔ I.relation r (ys.map value') := by
  by_cases ordered : r.ordered = true
  · rw [ordered] at pairing
    rw [pairing.map_eq same]
  · exact respects (by simpa using ordered) _ _ (pairing.perm_keys same)

end Interpretation

variable {D : Type u} {I : Interpretation D}

def Term.value (I : Interpretation D) (ρ : Variable → D) : Term → D
  | .var v => ρ v
  | .const c => I.const c.name.full
  | .app op ts => I.operator op (ts.map fun t => t.value I ρ)

/-- The formula is true under the valuation. An empty conjunction is true and an empty
disjunction is false. -/
def Formula.holds (I : Interpretation D) (ρ : Variable → D) : Formula → Prop
  | .atom r ts => I.relation r (ts.map (Term.value I ρ))
  | .not f => ¬ f.holds I ρ
  | .multi .and fs => ∀ p ∈ fs.map fun f => f.holds I ρ, p
  | .multi .or fs => ∃ p ∈ fs.map fun f => f.holds I ρ, p
  | .link .imply a b => a.holds I ρ → b.holds I ρ
  | .link .equiv a b => a.holds I ρ ↔ b.holds I ρ
  | .bind .all v f => ∀ d, f.holds I (Function.update ρ v d)
  | .bind .ex v f => ∃ d, f.holds I (Function.update ρ v d)

def Term.Respected (I : Interpretation D) (t : Term) : Prop := ∀ s ∈ t.symbols, I.Respects s

/-- Every unordered symbol of the formula is interpreted as such. -/
def Formula.Respected (I : Interpretation D) (f : Formula) : Prop := ∀ s ∈ f.symbols, I.Respects s

namespace Term

theorem respected_var (x : Variable) : (var x).Respected I := by simp [Respected, symbols]

theorem respected_app {op : Operator} {ts : List Term} :
    (app op ts).Respected I ↔ I.Respects (.operator op) ∧ ∀ t ∈ ts, t.Respected I := by
  simp only [Respected, mem_symbols_app]
  constructor
  · intro all
    exact ⟨all _ (.inl rfl), fun t member s occurs => all s (.inr ⟨t, member, occurs⟩)⟩
  · rintro ⟨head, args⟩ s (rfl | ⟨t, member, occurs⟩)
    · exact head
    · exact args t member s occurs

end Term

section Connectives

variable {ρ : Variable → D} {f a b : Formula} {fs : List Formula} {v : Variable} {r : Relation}
  {ts : List Term} {c : Junction} {q : Quantifier} {d : Arrow}

namespace Formula

@[simp] theorem holds_atom : (atom r ts).holds I ρ ↔ I.relation r (ts.map (Term.value I ρ)) := by
  simp [holds]

@[simp] theorem holds_not : (Formula.not f).holds I ρ ↔ ¬ f.holds I ρ := by simp [holds]

@[simp] theorem holds_and : (multi .and fs).holds I ρ ↔ ∀ f ∈ fs, f.holds I ρ := by
  rw [holds]
  exact List.forall_mem_map

@[simp] theorem holds_or : (multi .or fs).holds I ρ ↔ ∃ f ∈ fs, f.holds I ρ := by
  rw [holds]
  constructor
  · rintro ⟨p, member, true⟩
    obtain ⟨f, source, rfl⟩ := List.mem_map.mp member
    exact ⟨f, source, true⟩
  · rintro ⟨f, member, true⟩
    exact ⟨_, List.mem_map_of_mem member, true⟩

@[simp] theorem holds_imply : (link .imply a b).holds I ρ ↔ (a.holds I ρ → b.holds I ρ) := by
  simp [holds]

@[simp] theorem holds_equiv : (link .equiv a b).holds I ρ ↔ (a.holds I ρ ↔ b.holds I ρ) := by
  simp [holds]

@[simp] theorem holds_all :
    (bind .all v f).holds I ρ ↔ ∀ d, f.holds I (Function.update ρ v d) := by simp [holds]

@[simp] theorem holds_ex :
    (bind .ex v f).holds I ρ ↔ ∃ d, f.holds I (Function.update ρ v d) := by simp [holds]

theorem respected_atom :
    (atom r ts).Respected I ↔ I.Respects (.relation r) ∧ ∀ t ∈ ts, t.Respected I := by
  simp only [Respected, mem_symbols_atom]
  constructor
  · intro all
    exact ⟨all _ (.inl rfl), fun t member s occurs => all s (.inr ⟨t, member, occurs⟩)⟩
  · rintro ⟨head, args⟩ s (rfl | ⟨t, member, occurs⟩)
    · exact head
    · exact args t member s occurs

theorem respected_not : (Formula.not f).Respected I ↔ f.Respected I := by simp [Respected]

theorem respected_multi : (multi c fs).Respected I ↔ ∀ f ∈ fs, f.Respected I := by
  simp only [Respected, mem_symbols_multi]
  constructor
  · exact fun all f member s occurs => all s ⟨f, member, occurs⟩
  · rintro all s ⟨f, member, occurs⟩
    exact all f member s occurs

theorem respected_link : (link d a b).Respected I ↔ a.Respected I ∧ b.Respected I := by
  simp only [Respected, mem_symbols_link]
  constructor
  · exact fun all => ⟨fun s occurs => all s (.inl occurs), fun s occurs => all s (.inr occurs)⟩
  · rintro ⟨left, right⟩ s (occurs | occurs)
    · exact left s occurs
    · exact right s occurs

theorem respected_bind : (bind q v f).Respected I ↔ f.Respected I := by simp [Respected]

/-- The connective decides from the truth values of the members, in any order. -/
theorem holds_multi_congr {J : Interpretation D} {σ : Variable → D} {gs : List Formula}
    {pairs : List (Formula × Formula)}
    (pairing : Pairing false pairs fs gs)
    (same : ∀ p ∈ pairs, (p.1.holds I ρ ↔ p.2.holds J σ)) :
    (multi c fs).holds I ρ ↔ (multi c gs).holds J σ := by
  cases c with
  | and =>
    rw [holds_and, holds_and]
    constructor
    · intro all g member
      obtain ⟨f, source, pair⟩ := pairing.exists_left member
      exact (same _ pair).mp (all f source)
    · intro all f member
      obtain ⟨g, target, pair⟩ := pairing.exists_right member
      exact (same _ pair).mpr (all g target)
  | or =>
    rw [holds_or, holds_or]
    constructor
    · rintro ⟨f, member, holds⟩
      obtain ⟨g, target, pair⟩ := pairing.exists_right member
      exact ⟨g, target, (same _ pair).mp holds⟩
    · rintro ⟨g, member, holds⟩
      obtain ⟨f, source, pair⟩ := pairing.exists_left member
      exact ⟨f, source, (same _ pair).mpr holds⟩

theorem holds_bind_congr {J : Interpretation D} {σ : Variable → D} {g : Formula} {w : Variable}
    (same : ∀ d, f.holds I (Function.update ρ v d) ↔ g.holds J (Function.update σ w d)) :
    (bind q v f).holds I ρ ↔ (bind q w g).holds J σ := by
  cases q with
  | all =>
    rw [holds_all, holds_all]
    exact forall_congr' same
  | ex =>
    rw [holds_ex, holds_ex]
    exact exists_congr same

end Formula

end Connectives

namespace Term.Instance

variable {R : Symbol → Symbol → Prop} {E : Change} {ρ σ : Variable → D}

theorem value_eq {t u : Term} (inst : Instance R E t u) (names : ∀ s m, R s m → s.Same m)
    (respected : t.Respected I)
    (values : ∀ x ∈ t.vars, ∀ s, (∀ y ∈ s.vars, y ∈ u.vars) → E x s → ρ x = s.value I σ) :
    t.value I ρ = u.value I σ := by
  induction inst with
  | var becomes =>
    rw [Term.value]
    exact values _ (by simp) _ (fun _ inside => inside) becomes
  | @const c d same =>
    have name : c.name.full = d.name.full := Name.same_iff.mp (names _ _ same)
    rw [Term.value, Term.value, name]
  | @app f g ts us pairs same pairing _ ih =>
    have each : ∀ p ∈ pairs, p.1.value I ρ = p.2.value I σ := by
      intro p pair
      obtain ⟨first, second⟩ := pairing.mem pair
      apply ih p pair
      · exact fun s occurs => respected s (Term.mem_symbols_app.mpr (.inr ⟨p.1, first, occurs⟩))
      · intro x occurs s inside
        exact values x (Term.mem_vars_app.mpr ⟨p.1, first, occurs⟩) s
          fun y within => Term.mem_vars_app.mpr ⟨p.2, second, inside y within⟩
    rw [Term.value, Term.value, ← I.operator_congr (names _ _ same)]
    exact I.apply_pairing (respected _ (by simp)) pairing each

end Term.Instance

theorem Term.value_congr {ρ σ : Variable → D} {t : Term} (same : ∀ x ∈ t.vars, ρ x = σ x) :
    t.value I ρ = t.value I σ := by
  induction t with
  | var v => simpa [value] using same v (by simp)
  | const c => simp [value]
  | app op ts ih =>
    rw [value, value]
    congr 1
    refine List.map_congr_left fun t member => ih t member fun x occurs => ?_
    exact same x (mem_vars_app.mpr ⟨t, member, occurs⟩)

theorem Term.value_bare (t : Term) (ρ : Variable → D) : t.bare.value I ρ = t.value I ρ := by
  induction t with
  | var v => simp [bare]
  | const c => simp [bare, value, Constant.bare, Name.bare, Name.plain]
  | app op ts ih =>
    have name : I.operator op.bare = I.operator op :=
      I.operator_congr (Operator.same_iff.mpr op.bare_bare)
    rw [bare, value, value, name, List.map_map]
    congr 1
    exact List.map_congr_left ih

/-- The meaning of bare names of formulas does not count. -/
theorem Term.value_named (named : String → List D → Prop) (t : Term) (ρ : Variable → D) :
    t.value { I with named } ρ = t.value I ρ := by
  induction t with
  | var v => rw [value, value]
  | const c => rw [value, value]
  | app op ts ih =>
    have operator : { I with named }.operator op = I.operator op := by cases op <;> rfl
    rw [value, value, operator]
    exact congrArg _ (List.map_congr_left ih)

theorem Term.value_update {ρ : Variable → D} {t : Term} {v : Variable} (clear : v ∉ t.vars) (d : D) :
    t.value I (Function.update ρ v d) = t.value I ρ := by
  refine value_congr fun x occurs => Function.update_of_ne ?_ d ρ
  rintro rfl
  exact clear occurs

namespace Formula.Instance

variable {R : Symbol → Symbol → Prop} {E : Change} {ρ σ : Variable → D} {f g : Formula}

/-- A formula and its instance are true together. -/
theorem holds_iff (inst : Instance R E f g) (names : ∀ s m, R s m → s.Same m)
    (respected : f.Respected I)
    (values : ∀ x ∈ f.freeVars, ∀ s, (∀ y ∈ s.vars, y ∈ g.freeVars) → E x s → ρ x = s.value I σ) :
    f.holds I ρ ↔ g.holds I σ := by
  induction inst generalizing ρ σ with
  | @atom _ r s ts us pairs same pairing all =>
    have each : ∀ p ∈ pairs, p.1.value I ρ = p.2.value I σ := by
      intro p pair
      obtain ⟨first, second⟩ := pairing.mem pair
      apply (all p pair).value_eq names
      · exact fun s occurs => respected s (mem_symbols_atom.mpr (.inr ⟨p.1, first, occurs⟩))
      · intro x occurs s inside
        exact values x (mem_freeVars_atom.mpr ⟨p.1, first, occurs⟩) s
          fun y within => mem_freeVars_atom.mpr ⟨p.2, second, inside y within⟩
    rw [holds_atom, holds_atom, ← I.relation_congr (names _ _ same)]
    exact I.relate_pairing (respected _ (by simp)) pairing each
  | not _ ih =>
    rw [holds_not, holds_not]
    exact not_congr (ih (respected_not.mp respected) (by simpa using values))
  | multi pairing _ ih =>
    refine holds_multi_congr pairing fun p pair => ?_
    obtain ⟨first, second⟩ := pairing.mem pair
    refine ih p pair (respected_multi.mp respected p.1 first) fun x free s inside => ?_
    exact values x (mem_freeVars_multi.mpr ⟨p.1, first, free⟩) s
      fun y within => mem_freeVars_multi.mpr ⟨p.2, second, inside y within⟩
  | imply _ _ iha ihb =>
    obtain ⟨left, right⟩ := respected_link.mp respected
    simp only [mem_freeVars_link] at values
    rw [holds_imply, holds_imply]
    refine imp_congr (iha left fun x free s inside => ?_) (ihb right fun x free s inside => ?_)
    · exact values x (.inl free) s fun y within => .inl (inside y within)
    · exact values x (.inr free) s fun y within => .inr (inside y within)
  | @equiv _ a b a' b' pairs pairing _ ih =>
    have each : ∀ p ∈ pairs, (p.1.holds I ρ ↔ p.2.holds I σ) := by
      intro p pair
      obtain ⟨first, second⟩ := pairing.mem pair
      refine ih p pair ?_ fun x free s inside => ?_
      · exact fun s occurs => respected s (mem_symbols_sides.mpr ⟨p.1, first, occurs⟩)
      · exact values x (mem_freeVars_sides.mpr ⟨p.1, first, free⟩) s
          fun y within => mem_freeVars_sides.mpr ⟨p.2, second, inside y within⟩
    rw [holds_equiv, holds_equiv]
    rcases Pairing.exists_two.mp ⟨pairs, pairing, each⟩ with ⟨left, right⟩ | ⟨left, right⟩
    · exact iff_congr left right
    · rw [left, right]
      exact iff_comm
  | @bind E q v w f g _ ih =>
    refine holds_bind_congr fun d => ih (respected_bind.mp respected) fun x free s inside => ?_
    rintro (⟨rfl, rfl⟩ | ⟨apart, clear, becomes⟩)
    · simp [Term.value]
    · rw [Function.update_of_ne apart, Term.value_update clear]
      refine values x (mem_freeVars_bind.mpr ⟨free, apart⟩) s (fun y within => ?_) becomes
      refine mem_freeVars_bind.mpr ⟨inside y within, ?_⟩
      rintro rfl
      exact clear within

end Formula.Instance

namespace Formula

variable {ρ σ : Variable → D} {f g : Formula}

/-- Only the values of the free variables count. -/
theorem holds_congr (same : ∀ x ∈ f.freeVars, ρ x = σ x) : f.holds I ρ ↔ f.holds I σ := by
  induction f generalizing ρ σ with
  | atom r ts =>
    have values : ts.map (Term.value I ρ) = ts.map (Term.value I σ) :=
      List.map_congr_left fun t member => Term.value_congr fun x occurs =>
        same x (mem_freeVars_atom.mpr ⟨t, member, occurs⟩)
    rw [holds_atom, holds_atom, values]
  | not f ih =>
    rw [holds_not, holds_not, ih (by simpa using same)]
  | multi c fs ih =>
    refine holds_multi_congr (.refl _ fs) fun p pair => ?_
    obtain ⟨f, member, rfl⟩ := List.mem_map.mp pair
    exact ih f member fun x free => same x (mem_freeVars_multi.mpr ⟨f, member, free⟩)
  | link c a b iha ihb =>
    have left : a.holds I ρ ↔ a.holds I σ :=
      iha fun x free => same x (mem_freeVars_link.mpr (.inl free))
    have right : b.holds I ρ ↔ b.holds I σ :=
      ihb fun x free => same x (mem_freeVars_link.mpr (.inr free))
    cases c with
    | imply => rw [holds_imply, holds_imply, left, right]
    | equiv => rw [holds_equiv, holds_equiv, left, right]
  | bind q v f ih =>
    refine holds_bind_congr fun d => ih fun x free => ?_
    by_cases here : x = v
    · simp [here]
    · rw [Function.update_of_ne here, Function.update_of_ne here]
      exact same x (mem_freeVars_bind.mpr ⟨free, here⟩)

theorem holds_update {v : Variable} (clear : v ∉ f.freeVars) (d : D) :
    f.holds I (Function.update ρ v d) ↔ f.holds I ρ := by
  refine holds_congr fun x free => Function.update_of_ne ?_ d ρ
  rintro rfl
  exact clear free

/-- Identical formulas are true together. -/
theorem holds_of_identical (identical : f.identical g = true) (respected : f.Respected I) :
    f.holds I ρ ↔ g.holds I ρ := by
  refine (identical_iff.mp identical).holds_iff (fun _ _ same => same) respected ?_
  rintro x - s - rfl
  rw [Term.value]

theorem holds_bare (f : Formula) (ρ : Variable → D) : f.bare.holds I ρ ↔ f.holds I ρ := by
  induction f generalizing ρ with
  | atom r ts =>
    have name : I.relation r.bare = I.relation r :=
      I.relation_congr (Relation.same_iff.mpr r.bare_bare)
    have values : (ts.map Term.bare).map (Term.value I ρ) = ts.map (Term.value I ρ) := by
      rw [List.map_map]
      exact List.map_congr_left fun t _ => t.value_bare ρ
    rw [bare, holds_atom, holds_atom, name, values]
  | not f ih => rw [bare, holds_not, holds_not, ih]
  | multi c fs ih =>
    rw [bare]
    refine (holds_multi_congr (.map_right _ fs _) fun p pair => ?_).symm
    obtain ⟨f, member, rfl⟩ := List.mem_map.mp pair
    exact (ih f member ρ).symm
  | link c a b iha ihb =>
    cases c with
    | imply => rw [bare, holds_imply, holds_imply, iha, ihb]
    | equiv => rw [bare, holds_equiv, holds_equiv, iha, ihb]
  | bind q v f ih =>
    rw [bare]
    exact holds_bind_congr fun d => ih _

/-- What is shown and recorded does not count. -/
theorem holds_of_same (same : f.same g = true) : f.holds I ρ ↔ g.holds I ρ := by
  rw [← holds_bare f, same_iff.mp same, holds_bare]

end Formula

end Sequitur
