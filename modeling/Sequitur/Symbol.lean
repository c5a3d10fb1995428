import Sequitur.Name

/-! Symbols: predicates, functions and constants. The arity is only recorded. An unordered
symbol does not distinguish the order of its arguments. -/

namespace Sequitur

structure Predicate where
  name : Name
  arity : Nat
  ordered : Bool
  deriving DecidableEq, Inhabited

structure FunctionSymbol where
  name : Name
  /-- Absent for a function of any number of arguments. -/
  arity : Option Nat
  ordered : Bool
  deriving DecidableEq, Inhabited

structure Constant where
  name : Name
  deriving DecidableEq, Inhabited

namespace Predicate

def equality : Predicate := ⟨.plain "equals", 2, false⟩

def same (p q : Predicate) : Bool := p.name.same q.name

def compare (p q : Predicate) : Ordering := p.name.compare q.name

def describe (p : Predicate) : String :=
  "pred(" ++ p.name.full ++ "/" ++ toString p.arity ++ ")"

end Predicate

namespace FunctionSymbol

def same (f g : FunctionSymbol) : Bool := f.name.same g.name

def compare (f g : FunctionSymbol) : Ordering := f.name.compare g.name

def describe (f : FunctionSymbol) : String :=
  let arity := match f.arity with
    | some n => toString n
    | none => "*"
  "fun(" ++ f.name.full ++ "/" ++ arity ++ ")"

end FunctionSymbol

namespace Constant

def same (c d : Constant) : Bool := c.name.same d.name

def compare (c d : Constant) : Ordering := c.name.compare d.name

def describe (c : Constant) : String := "const(" ++ c.name.full ++ ")"

end Constant

end Sequitur
