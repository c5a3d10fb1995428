import Mathlib.Algebra.GroupWithZero.Nat
import Sequitur.Formula

/-! Induction on terms and formulas, and what occurs in them: variables, binders and symbols. -/

namespace Sequitur

@[elab_as_elim, induction_eliminator]
theorem Term.induction {motive : Term → Prop} (var : ∀ v, motive (.var v))
    (const : ∀ c, motive (.const c))
    (app : ∀ op ts, (∀ t ∈ ts, motive t) → motive (.app op ts)) : ∀ t, motive t
  | .var v => var v
  | .const c => const c
  | .app op ts => app op ts fun t _ => Term.induction var const app t

@[elab_as_elim, induction_eliminator]
theorem Formula.induction {motive : Formula → Prop} (atom : ∀ r ts, motive (.atom r ts))
    (not : ∀ f, motive f → motive (.not f))
    (multi : ∀ c fs, (∀ f ∈ fs, motive f) → motive (.multi c fs))
    (link : ∀ c a b, motive a → motive b → motive (.link c a b))
    (bind : ∀ q v f, motive f → motive (.bind q v f)) : ∀ f, motive f
  | .atom r ts => atom r ts
  | .not f => not f (Formula.induction atom not multi link bind f)
  | .multi c fs => multi c fs fun f _ => Formula.induction atom not multi link bind f
  | .link c a b => link c a b (Formula.induction atom not multi link bind a)
      (Formula.induction atom not multi link bind b)
  | .bind q v f => bind q v f (Formula.induction atom not multi link bind f)

theorem VarSet.mem_unions_map {α : Type} {w : Variable} {xs : List α} {sets : α → VarSet} :
    w ∈ unions (xs.map sets) ↔ ∃ x ∈ xs, w ∈ sets x := by
  simp only [mem_unions, List.mem_map]
  constructor
  · rintro ⟨_, ⟨x, member, rfl⟩, inside⟩
    exact ⟨x, member, inside⟩
  · rintro ⟨x, member, inside⟩
    exact ⟨_, ⟨x, member, rfl⟩, inside⟩

namespace Term

variable {x v : Variable} {c : Constant} {op : Operator} {ts : List Term}

@[simp] theorem mem_vars_var : x ∈ (var v).vars ↔ x = v := by simp [vars]

@[simp] theorem not_mem_vars_const : x ∉ (const c).vars := by simp [vars]

@[simp] theorem mem_vars_app : x ∈ (app op ts).vars ↔ ∃ t ∈ ts, x ∈ t.vars := by
  simp [vars, VarSet.mem_unions_map]

end Term

namespace Formula

variable {x v : Variable} {r : Relation} {ts : List Term} {c : Junction} {d : Arrow}
  {q : Quantifier} {f a b : Formula} {fs : List Formula}

@[simp] theorem mem_freeVars_atom : x ∈ (atom r ts).freeVars ↔ ∃ t ∈ ts, x ∈ t.vars := by
  simp [freeVars, VarSet.mem_unions_map]

@[simp] theorem mem_freeVars_not : x ∈ (Formula.not f).freeVars ↔ x ∈ f.freeVars := by
  simp [freeVars]

@[simp] theorem mem_freeVars_multi : x ∈ (multi c fs).freeVars ↔ ∃ f ∈ fs, x ∈ f.freeVars := by
  simp [freeVars, VarSet.mem_unions_map]

@[simp] theorem mem_freeVars_link :
    x ∈ (link d a b).freeVars ↔ x ∈ a.freeVars ∨ x ∈ b.freeVars := by
  simp [freeVars, VarSet.mem_union]

@[simp] theorem mem_freeVars_bind : x ∈ (bind q v f).freeVars ↔ x ∈ f.freeVars ∧ x ≠ v := by
  simp [freeVars, VarSet.mem_remove]

@[simp] theorem mem_allVars_atom : x ∈ (atom r ts).allVars ↔ ∃ t ∈ ts, x ∈ t.vars := by
  simp [allVars, VarSet.mem_unions_map]

@[simp] theorem mem_allVars_not : x ∈ (Formula.not f).allVars ↔ x ∈ f.allVars := by
  simp [allVars]

@[simp] theorem mem_allVars_multi : x ∈ (multi c fs).allVars ↔ ∃ f ∈ fs, x ∈ f.allVars := by
  simp [allVars, VarSet.mem_unions_map]

@[simp] theorem mem_allVars_link :
    x ∈ (link d a b).allVars ↔ x ∈ a.allVars ∨ x ∈ b.allVars := by
  simp [allVars, VarSet.mem_union]

@[simp] theorem mem_allVars_bind : x ∈ (bind q v f).allVars ↔ x = v ∨ x ∈ f.allVars := by
  simp [allVars, VarSet.mem_insert]

theorem mem_allVars_of_free (free : x ∈ f.freeVars) : x ∈ f.allVars := by
  induction f with
  | atom r ts => simpa using free
  | not f ih => simpa using ih (by simpa using free)
  | multi c fs ih =>
    obtain ⟨f, member, free⟩ := mem_freeVars_multi.mp free
    exact mem_allVars_multi.mpr ⟨f, member, ih f member free⟩
  | link c a b iha ihb => exact mem_allVars_link.mpr ((mem_freeVars_link.mp free).imp iha ihb)
  | bind q v f ih => exact mem_allVars_bind.mpr (.inr (ih (mem_freeVars_bind.mp free).1))

def binders : Formula → List Variable
  | .atom _ _ => []
  | .not f => f.binders
  | .multi _ fs => fs.flatMap fun f => f.binders
  | .link _ a b => a.binders ++ b.binders
  | .bind _ v f => v :: f.binders

def quantifiers : Formula → Nat
  | .atom _ _ => 0
  | .not f => f.quantifiers
  | .multi _ fs => (fs.map fun f => f.quantifiers).sum
  | .link _ a b => a.quantifiers + b.quantifiers
  | .bind _ _ f => f.quantifiers + 1

theorem quantifiers_le_of_mem (member : f ∈ fs) : f.quantifiers ≤ (multi c fs).quantifiers := by
  rw [quantifiers]
  induction fs with
  | nil => cases member
  | cons g fs ih =>
    rw [List.map_cons, List.sum_cons]
    rcases List.mem_cons.mp member with rfl | later
    · omega
    · have := ih later
      omega

end Formula

/-- What a term or formula is built with: the head of an atom, the head of an application, or
a constant. -/
inductive Symbol where
  | relation (r : Relation)
  | operator (op : Operator)
  | constant (c : Constant)
  deriving DecidableEq

namespace Symbol

def same : Symbol → Symbol → Bool
  | .relation r, .relation s => r.same s
  | .operator f, .operator g => f.same g
  | .constant c, .constant d => c.same d
  | _, _ => false

def ordered : Symbol → Bool
  | .relation r => r.ordered
  | .operator f => f.ordered
  | .constant _ => true

end Symbol

def Term.symbols : Term → List Symbol
  | .var _ => []
  | .const c => [.constant c]
  | .app op ts => .operator op :: ts.flatMap fun t => t.symbols

namespace Formula

def symbols : Formula → List Symbol
  | .atom r ts => .relation r :: ts.flatMap Term.symbols
  | .not f => f.symbols
  | .multi _ fs => fs.flatMap fun f => f.symbols
  | .link _ a b => a.symbols ++ b.symbols
  | .bind _ _ f => f.symbols

/-- Every predicate name and every function name occurs with a single orderedness flag in all
of these formulas. Constants and bare names carry no flag. -/
def SingleOrder (fs : List Formula) : Prop :=
  ∀ f ∈ fs, ∀ g ∈ fs, ∀ s ∈ f.symbols, ∀ t ∈ g.symbols, s.same t = true → s.ordered = t.ordered

end Formula

end Sequitur
