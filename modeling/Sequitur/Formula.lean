import Sequitur.Term

/-! Formulas. Conjunction and disjunction take any number of formulas, in no particular
order. An atom has a predicate or a bare name at its head; a bare name stands for a formula
that is not spelled out. -/

namespace Sequitur

/-- What stands at the head of an atom. -/
inductive Relation where
  | named (name : Name)
  | pred (symbol : Predicate)
  deriving DecidableEq, Inhabited

inductive Junction where
  | and
  | or
  deriving DecidableEq, Ord, Inhabited

inductive Arrow where
  | imply
  | equiv
  deriving DecidableEq, Ord, Inhabited

inductive Quantifier where
  | all
  | ex
  deriving DecidableEq, Ord, Inhabited

inductive Formula where
  | atom (r : Relation) (args : List Term)
  | not (f : Formula)
  | multi (c : Junction) (fs : List Formula)
  | link (c : Arrow) (a b : Formula)
  | bind (q : Quantifier) (v : Variable) (body : Formula)
  deriving Inhabited

namespace Relation

def ordered : Relation → Bool
  | .named _ => true
  | .pred p => p.ordered

def same : Relation → Relation → Bool
  | .named m, .named n => m.same n
  | .pred p, .pred q => p.same q
  | _, _ => false

end Relation

namespace Formula

@[match_pattern] abbrev prop (s : String) : Formula := .atom (.named ⟨s, s⟩) []

abbrev and (fs : List Formula) : Formula := .multi .and fs

abbrev or (fs : List Formula) : Formula := .multi .or fs

@[match_pattern] abbrev imply (a b : Formula) : Formula := .link .imply a b

@[match_pattern] abbrev equiv (a b : Formula) : Formula := .link .equiv a b

abbrev all (v : Variable) (body : Formula) : Formula := .bind .all v body

abbrev ex (v : Variable) (body : Formula) : Formula := .bind .ex v body

def equal (a b : Term) : Formula := .atom (.pred .equality) [a, b]

/-- Negation, except that a negated formula loses its negation. -/
def negate : Formula → Formula
  | .not f => f
  | f => .not f

/-- One formula needs no connective. -/
def junctionOf (c : Junction) : List Formula → Formula
  | [f] => f
  | fs => .multi c fs

def isAtomic : Formula → Bool
  | .atom _ _ => true
  | _ => false

/-- An equation: equality applied to two terms. -/
def isEquation : Formula → Bool
  | .atom (.pred p) [_, _] => p.same .equality
  | _ => false

def isQuantified : Formula → Bool
  | .bind _ _ _ => true
  | _ => false

def isCompound : Formula → Bool
  | .multi _ _ | .link _ _ _ => true
  | _ => false

def children : Formula → List Formula
  | .atom _ _ => []
  | .not f => [f]
  | .multi _ fs => fs
  | .link _ a b => [a, b]
  | .bind _ _ f => [f]

/-- The same root over other children; a wrong number of children changes nothing. -/
def rebuild : Formula → List Formula → Formula
  | .not _, [f] => .not f
  | .multi c _, fs => .multi c fs
  | .link c _ _, [a, b] => .link c a b
  | .bind q v _, [f] => .bind q v f
  | f, _ => f

def onChildren (change : Formula → Formula) : Formula → Formula
  | .atom r ts => .atom r ts
  | .not f => .not (change f)
  | .multi c fs => .multi c (fs.map change)
  | .link c a b => .link c (change a) (change b)
  | .bind q v f => .bind q v (change f)

/-- The number of nodes; terms do not count. -/
def size : Formula → Nat
  | .atom _ _ => 1
  | .not f => 1 + f.size
  | .multi _ fs => 1 + fs.foldr (fun f n => f.size + n) 0
  | .link _ a b => 1 + (a.size + b.size)
  | .bind _ _ f => 1 + f.size

def freeVars : Formula → VarSet
  | .atom _ ts => .unions (ts.map Term.vars)
  | .not f => f.freeVars
  | .multi _ fs => .unions (fs.map fun f => f.freeVars)
  | .link _ a b => .union a.freeVars b.freeVars
  | .bind _ v f => .remove v f.freeVars

/-- The free variables and the bound ones, also those bound where they do not occur. -/
def allVars : Formula → VarSet
  | .atom _ ts => .unions (ts.map Term.vars)
  | .not f => f.allVars
  | .multi _ fs => .unions (fs.map fun f => f.allVars)
  | .link _ a b => .union a.allVars b.allVars
  | .bind _ v f => .insert v f.allVars

def freshVar (f : Formula) : Variable := .fresh "x" f.allVars

def constantOccurrences : Formula → List Constant
  | .atom _ ts => ts.flatMap Term.constantOccurrences
  | .not f => f.constantOccurrences
  | .multi _ fs => fs.flatMap fun f => f.constantOccurrences
  | .link _ a b => a.constantOccurrences ++ b.constantOccurrences
  | .bind _ _ f => f.constantOccurrences

/-- The constants of the formula, in the order of their first occurrence. -/
def constants (f : Formula) : List Constant :=
  f.constantOccurrences.eraseDupsBy Constant.same

/-- The members of a junction of the given kind, and any other formula by itself. -/
def members (c : Junction) : Formula → List Formula
  | .multi d fs => if d = c then fs else [.multi d fs]
  | f => [f]

/-- Splices conjunctions into conjunctions and disjunctions into disjunctions, everywhere. -/
def flatten : Formula → Formula
  | .atom r ts => .atom r ts
  | .not f => .not f.flatten
  | .multi c fs => .multi c (fs.flatMap fun f => f.flatten.members c)
  | .link c a b => .link c a.flatten b.flatten
  | .bind q v f => .bind q v f.flatten

mutual

/-- Equal but for what is shown and for the recorded arities and orders: names are compared
by their full texts. Bound variables and the order of children count. -/
def same : Formula → Formula → Bool
  | .atom r ts, .atom s us => r.same s && Term.sameAll ts us
  | .not f, .not g => f.same g
  | .multi c fs, .multi d gs => c == d && sameAll fs gs
  | .link c a b, .link d a' b' => c == d && a.same a' && b.same b'
  | .bind q v f, .bind q' w g => q == q' && v == w && f.same g
  | _, _ => false

def sameAll : List Formula → List Formula → Bool
  | [], [] => true
  | f :: fs, g :: gs => f.same g && sameAll fs gs
  | _, _ => false

end

theorem size_pos (f : Formula) : 0 < f.size := by
  cases f <;> rw [size] <;> omega

theorem size_lt_of_mem {f : Formula} {fs : List Formula} (c : Junction) (member : f ∈ fs) :
    f.size < (multi c fs).size := by
  rw [size]
  induction fs with
  | nil => cases member
  | cons g gs ih =>
    rw [List.foldr_cons]
    rcases List.mem_cons.mp member with rfl | later
    · omega
    · have := ih later
      omega

end Formula

end Sequitur
