import Sequitur.Error
import Sequitur.Order
import Sequitur.Replacement

/-! The regular form of a formula stands for all formulas identical to it. Binders are
numbered `$1`, `$2`, … in the order in which they are read, above every canonical variable
that is free, and commutative parts are sorted.

A binder takes the next index, and its body is renamed accordingly. The parts of a
commutative node are numbered from the same index first, then sorted, and then the binders
of each part are moved up past those of the parts before it. An index is a 64-bit number; a
sum that does not fit is an error, so a formula with too many binders has no regular form. -/

namespace Sequitur

namespace Term

def arrange (ordered : Bool) (ts : List Term) : List Term :=
  if ordered then ts else sort ts

def sorted : Term → Term
  | .var v => .var v
  | .const c => .const c
  | .app op ts => .app op (arrange op.ordered (ts.map fun t => t.sorted))

end Term

namespace Formula

def addIndex (i j : Nat) : Except Error Nat :=
  if i + j < Text.indexBound then .ok (i + j) else .error .indexOverflow

/-- A formula whose binders are numbered, with the last index in use. -/
structure Numbered where
  formula : Formula
  last : Nat
  deriving Inhabited

def Numbered.sort (parts : List Numbered) : List Numbered :=
  parts.mergeSort fun a b => (a.formula.compare b.formula).isLE

/-- Moves the canonical variables above `start` up by `offset`. -/
def raise (start offset : Nat) (f : Formula) : Except Error Formula :=
  if offset = 0 then .ok f
  else do
    let above := f.allVars.filterMap fun v => (v.index?.filter (start < ·)).map (v, ·)
    let moved ← above.mapM fun p => return (p.1, Variable.canonical (← addIndex p.2 offset))
    return f.renameAll fun v => (moved.lookup v).getD v

/-- Puts parts that were all numbered from `start` one after the other, the first from
`next`. The second result is the last index in use. -/
def lineUp (start next : Nat) : List Numbered → Except Error (List Formula × Nat)
  | [] => .ok ([], next)
  | part :: parts => do
    let f ← part.formula.raise start (next - start)
    let next ← addIndex next (part.last - start)
    let (fs, last) ← lineUp start next parts
    return (f :: fs, last)

mutual

/-- Numbers the binders from `start + 1` and sorts commutative parts. -/
def numberFrom (start : Nat) : Formula → Except Error Numbered
  | .atom r ts => .ok ⟨.atom r (Term.arrange r.ordered (ts.map Term.sorted)), start⟩
  | .not f => do
    let part ← f.numberFrom start
    return ⟨.not part.formula, part.last⟩
  | .multi c fs => do
    let parts ← numberEach start fs
    let (gs, last) ← lineUp start start (Numbered.sort parts)
    return ⟨.multi c gs, last⟩
  | .link .imply a b => do
    let left ← a.numberFrom start
    let right ← b.numberFrom left.last
    return ⟨.link .imply left.formula right.formula, right.last⟩
  | .link .equiv a b => do
    let left ← a.numberFrom start
    let right ← b.numberFrom start
    match ← lineUp start start (Numbered.sort [left, right]) with
    | ([first, second], last) => return ⟨.link .equiv first second, last⟩
    | _ => return ⟨.link .equiv a b, start⟩
  | .bind q v f => do
    let next ← addIndex start 1
    let w := Variable.canonical next
    let part ← (f.rename [(v, w)]).numberFrom next
    return ⟨.bind q w part.formula, part.last⟩
termination_by f => 2 * f.size
decreasing_by
  all_goals simp only [size, size_rename]; omega

def numberEach (start : Nat) : List Formula → Except Error (List Numbered)
  | [] => .ok []
  | f :: fs => do
    let part ← f.numberFrom start
    let parts ← numberEach start fs
    return part :: parts
termination_by fs => 2 * fs.foldr (fun f n => f.size + n) 0 + 1
decreasing_by
  · simp only [List.foldr_cons]; omega
  · have := f.size_pos
    simp only [List.foldr_cons]; omega

end

mutual

/-- Gives binders that are canonical variables other names, which are added to those to
avoid. -/
def clearBinders (avoid : VarSet) : Formula → Formula × VarSet
  | .atom r ts => (.atom r ts, avoid)
  | .not f =>
    let (f, avoid) := f.clearBinders avoid
    (.not f, avoid)
  | .multi c fs =>
    let (fs, avoid) := clearEach avoid fs
    (.multi c fs, avoid)
  | .link c a b =>
    let (a, avoid) := a.clearBinders avoid
    let (b, avoid) := b.clearBinders avoid
    (.link c a b, avoid)
  | .bind q v f =>
    let (f, avoid) := f.clearBinders avoid
    if v.index?.isSome then
      let w := Variable.fresh "%" avoid
      (.bind q w (f.rename [(v, w)]), .insert w avoid)
    else (.bind q v f, avoid)

def clearEach (avoid : VarSet) : List Formula → List Formula × VarSet
  | [] => ([], avoid)
  | f :: fs =>
    let (f, avoid) := f.clearBinders avoid
    let (fs, avoid) := clearEach avoid fs
    (f :: fs, avoid)

end

/-- The largest index of a free canonical variable. -/
def startIndex (f : Formula) : Nat :=
  (f.freeVars.filterMap Variable.index?).foldl max 0

def regularForm (f : Formula) : Except Error Formula :=
  if f.allVars.all fun v => v.index?.isNone then return (← f.numberFrom 0).formula
  else return (← (f.clearBinders f.allVars).1.numberFrom f.startIndex).formula

end Formula

end Sequitur
