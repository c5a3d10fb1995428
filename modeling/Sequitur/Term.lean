import Sequitur.Symbol
import Sequitur.Variable

/-! Terms have no binders. An application has a function symbol or a bare name at its head;
only an unordered function symbol forgets the order of the arguments. -/

namespace Sequitur

/-- What stands at the head of an application. -/
inductive Operator where
  | named (name : Name)
  | fn (symbol : FunctionSymbol)
  deriving DecidableEq, Inhabited

inductive Term where
  | var (v : Variable)
  | const (c : Constant)
  | app (op : Operator) (args : List Term)
  deriving Inhabited

namespace Operator

def ordered : Operator → Bool
  | .named _ => true
  | .fn f => f.ordered

def same : Operator → Operator → Bool
  | .named m, .named n => m.same n
  | .fn f, .fn g => f.same g
  | _, _ => false

end Operator

namespace Term

/-- The variable a term consists of. -/
def asVar : Term → Option Variable
  | .var v => some v
  | _ => none

def args : Term → List Term
  | .app _ ts => ts
  | _ => []

def ordered : Term → Bool
  | .app op _ => op.ordered
  | _ => true

/-- The same head on other arguments. Variables and constants have no head. -/
def rebuild : Term → List Term → Term
  | .app op _, ts => .app op ts
  | t, _ => t

def vars : Term → VarSet
  | .var v => [v]
  | .const _ => []
  | .app _ ts => .unions (ts.map fun t => t.vars)

def constantOccurrences : Term → List Constant
  | .var _ => []
  | .const c => [c]
  | .app _ ts => ts.flatMap fun t => t.constantOccurrences

def constants (t : Term) : List Constant :=
  t.constantOccurrences.eraseDupsBy Constant.same

/-- A bare name without arguments is shown alone. -/
def render : Term → String
  | .var v => v.name
  | .const c => c.name.display
  | .app (.named n) [] => n.display
  | .app (.named n) ts => n.display ++ "(" ++ ", ".intercalate (ts.map fun t => t.render) ++ ")"
  | .app (.fn f) ts => f.name.display ++ "(" ++ ", ".intercalate (ts.map fun t => t.render) ++ ")"

mutual

/-- Equal but for what is shown and for the recorded arities and orders: names are compared
by their full texts. -/
def same : Term → Term → Bool
  | .var v, .var w => v == w
  | .const c, .const d => c.same d
  | .app f ts, .app g us => f.same g && sameAll ts us
  | _, _ => false

def sameAll : List Term → List Term → Bool
  | [], [] => true
  | t :: ts, u :: us => t.same u && sameAll ts us
  | _, _ => false

end

end Term

end Sequitur
