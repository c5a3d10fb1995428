import Sequitur.Arrangement
import Sequitur.Formula

/-! Two formulas are identical when they differ only in the names of bound variables and in
the order of commutative parts: the members of a junction, the sides of an equivalence, the
arguments of an unordered symbol. Whether a symbol is unordered is read off the first of the
two formulas.

The comparison goes down both formulas at once and remembers which binders it has passed. -/

namespace Sequitur

/-- The binders passed so far, innermost first, each with its counterpart. -/
abbrev BinderPairs := List (Variable × Variable)

/-- Two occurrences agree when the same passed binder binds both, or none binds either and
they have the same name. -/
def BinderPairs.agree : BinderPairs → Variable → Variable → Bool
  | [], x, y => x == y
  | (v, w) :: outer, x, y => if x = v ∨ y = w then x == v && y == w else agree outer x y

namespace Term

mutual

def identicalUnder (bound : BinderPairs) : Term → Term → Bool
  | .var x, .var y => bound.agree x y
  | .const c, .const d => c.same d
  | .app f ts, .app g us =>
    f.same g &&
      if f.ordered then identicalInOrder bound ts us
      else ts.length == us.length && identicalAssignable bound ts us
  | _, _ => false

def identicalInOrder (bound : BinderPairs) : List Term → List Term → Bool
  | [], [] => true
  | t :: ts, u :: us => t.identicalUnder bound u && identicalInOrder bound ts us
  | _, _ => false

def identicalAssignable (bound : BinderPairs) : List Term → List Term → Bool
  | [], _ => true
  | t :: ts, us => (Arrangement.picks us).any fun p =>
      t.identicalUnder bound p.1 && identicalAssignable bound ts p.2

end

theorem identicalInOrder_eq (bound : BinderPairs) (ts us : List Term) :
    identicalInOrder bound ts us = Arrangement.inOrder (identicalUnder bound) ts us := by
  induction ts generalizing us with
  | nil => cases us <;> rfl
  | cons t ts ih =>
    cases us with
    | nil => rfl
    | cons u us => simp only [identicalInOrder, Arrangement.inOrder, ih]

theorem identicalAssignable_eq (bound : BinderPairs) (ts us : List Term) :
    identicalAssignable bound ts us = Arrangement.assignable (identicalUnder bound) ts us := by
  induction ts generalizing us with
  | nil => rfl
  | cons t ts ih => simp only [identicalAssignable, Arrangement.assignable, ih]

def identicalArgs (bound : BinderPairs) (ordered : Bool) (ts us : List Term) : Bool :=
  if ordered then identicalInOrder bound ts us
  else ts.length == us.length && identicalAssignable bound ts us

def identical (t u : Term) : Bool := t.identicalUnder [] u

end Term

namespace Formula

mutual

def identicalUnder (bound : BinderPairs) : Formula → Formula → Bool
  | .atom r ts, .atom s us => r.same s && Term.identicalArgs bound r.ordered ts us
  | .not f, .not g => f.identicalUnder bound g
  | .multi c fs, .multi d gs =>
    c == d && (fs.length == gs.length && identicalAssignable bound fs gs)
  | .link .imply a b, .link .imply a' b' =>
    a.identicalUnder bound a' && b.identicalUnder bound b'
  | .link .equiv a b, .link .equiv a' b' =>
    (a.identicalUnder bound a' && b.identicalUnder bound b') ||
      (a.identicalUnder bound b' && b.identicalUnder bound a')
  | .bind q v f, .bind q' w g => q == q' && f.identicalUnder ((v, w) :: bound) g
  | _, _ => false

def identicalAssignable (bound : BinderPairs) : List Formula → List Formula → Bool
  | [], _ => true
  | f :: fs, gs => (Arrangement.picks gs).any fun p =>
      f.identicalUnder bound p.1 && identicalAssignable bound fs p.2

end

theorem identicalAssignable_eq (bound : BinderPairs) (fs gs : List Formula) :
    identicalAssignable bound fs gs = Arrangement.assignable (identicalUnder bound) fs gs := by
  induction fs generalizing gs with
  | nil => rfl
  | cons f fs ih => simp only [identicalAssignable, Arrangement.assignable, ih]

def identical (f g : Formula) : Bool := f.identicalUnder [] g

end Formula

end Sequitur
