import Sequitur.Formula

/-! A total order on terms and formulas: by the kind of the root, then by its name or bound
variable, then by the parts from left to right. Kinds come in the order
`named < predicate < ¬ < → < ↔ < ∀ < ∃ < ∧ < ∨`. -/

namespace Sequitur

def lexicographic {α : Type} (cmp : α → α → Ordering) : List α → List α → Ordering
  | [], [] => .eq
  | [], _ :: _ => .lt
  | _ :: _, [] => .gt
  | x :: xs, y :: ys => (cmp x y).then (lexicographic cmp xs ys)

def Operator.compare : Operator → Operator → Ordering
  | .named m, .named n => m.compare n
  | .named _, .fn _ => .lt
  | .fn _, .named _ => .gt
  | .fn f, .fn g => f.compare g

def Relation.compare : Relation → Relation → Ordering
  | .named m, .named n => m.compare n
  | .named _, .pred _ => .lt
  | .pred _, .named _ => .gt
  | .pred p, .pred q => p.compare q

namespace Term

mutual

def compare : Term → Term → Ordering
  | .var v, .var w => v.compare w
  | .var _, _ => .lt
  | .const _, .var _ => .gt
  | .const c, .const d => c.compare d
  | .const _, .app _ _ => .lt
  | .app f ts, .app g us => (f.compare g).then (compareAll ts us)
  | .app _ _, _ => .gt

def compareAll : List Term → List Term → Ordering
  | [], [] => .eq
  | [], _ :: _ => .lt
  | _ :: _, [] => .gt
  | t :: ts, u :: us => (t.compare u).then (compareAll ts us)

end

theorem compareAll_eq (ts us : List Term) : compareAll ts us = lexicographic compare ts us := by
  induction ts generalizing us with
  | nil => cases us <;> rfl
  | cons t ts ih =>
    cases us with
    | nil => rfl
    | cons u us => simp only [compareAll, lexicographic, ih]

/-- Sorted, terms that compare equal staying in their order. -/
def sort (ts : List Term) : List Term := ts.mergeSort fun a b => (a.compare b).isLE

end Term

namespace Formula

/-- The place of a root's kind, up to the choice of its symbol or connective. -/
def rank : Formula → Nat
  | .atom _ _ => 0
  | .not _ => 1
  | .link _ _ _ => 2
  | .bind _ _ _ => 3
  | .multi _ _ => 4

mutual

def compare : Formula → Formula → Ordering
  | .atom r ts, .atom s us => (r.compare s).then (Term.compareAll ts us)
  | .not f, .not g => f.compare g
  | .link c a b, .link d a' b' =>
    (Ord.compare c d).then ((a.compare a').then (b.compare b'))
  | .bind q v f, .bind q' w g =>
    (Ord.compare q q').then ((v.compare w).then (f.compare g))
  | .multi c fs, .multi d gs => (Ord.compare c d).then (compareAll fs gs)
  | f, g => Ord.compare f.rank g.rank

def compareAll : List Formula → List Formula → Ordering
  | [], [] => .eq
  | [], _ :: _ => .lt
  | _ :: _, [] => .gt
  | f :: fs, g :: gs => (f.compare g).then (compareAll fs gs)

end

theorem compareAll_eq (fs gs : List Formula) :
    compareAll fs gs = lexicographic compare fs gs := by
  induction fs generalizing gs with
  | nil => cases gs <;> rfl
  | cons f fs ih =>
    cases gs with
    | nil => rfl
    | cons g gs => simp only [compareAll, lexicographic, ih]

def sort (fs : List Formula) : List Formula := fs.mergeSort fun a b => (a.compare b).isLE

end Formula

end Sequitur
