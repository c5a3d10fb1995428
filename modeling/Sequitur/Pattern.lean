import Sequitur.Formula
import Sequitur.Text.Quoted

/-! Patterns for terms and formulas. A reference stands for whatever it meets first and then
for that alone. A parametrized reference stands for a formula seen as depending on its
arguments. A junction pattern claims some of the members in any order and leaves the others
to its last part. -/

namespace Sequitur

inductive TermPattern where
  | ref (name : String)
  /-- Exactly this variable. -/
  | var (v : Variable)
  | const (c : Constant)
  | app (op : Operator) (args : List TermPattern)
  deriving Inhabited

inductive Pattern where
  /-- Matches no formula. As the last part of a junction it lets no member be left over. -/
  | nothing
  | ref (name : String)
  | refAt (name : String) (args : List TermPattern)
  | atom (r : Relation) (args : List TermPattern)
  | not (p : Pattern)
  | multi (c : Junction) (members : List Pattern) (others : Pattern)
  | link (c : Arrow) (p q : Pattern)
  /-- The term reference `name` is the bound variable inside the body, and there alone. -/
  | bind (q : Quantifier) (name : String) (body : Pattern)
  deriving Inhabited

namespace TermPattern

/-- The pattern of a template term: variables become references. -/
def ofTerm : Term → TermPattern
  | .var v => .ref v.name
  | .const c => .const c
  | .app op ts => .app op (ts.map fun t => ofTerm t)

/-- Names given to terms by what binds them, innermost first. -/
abbrev Scope := List (Variable × TermPattern)

/-- The pattern of the instances of a term: a variable in scope matches what the scope says,
any other one only itself. -/
def ofInstance (scope : Scope) : Term → TermPattern
  | .var v => (scope.lookup v).getD (.var v)
  | .const c => .const c
  | .app op ts => .app op (ts.map fun t => ofInstance scope t)

def describe : TermPattern → String
  | .ref name => "Ref(" ++ Text.quote name ++ ")"
  | .var v => "Var(" ++ v.name ++ ")"
  | .const c => "Const(" ++ c.describe ++ ")"
  | .app (.named n) ps =>
    "Named(" ++ n.describe ++ ", " ++ Text.bracketed (ps.map fun p => p.describe) ++ ")"
  | .app (.fn f) ps =>
    "Fun(" ++ f.describe ++ ", " ++ Text.bracketed (ps.map fun p => p.describe) ++ ")"

end TermPattern

namespace Pattern

def equal (a b : String) : Pattern := .atom (.pred .equality) [.ref a, .ref b]

/-- These members and no other. -/
def exactly (c : Junction) (members : List Pattern) : Pattern := .multi c members .nothing

def isNothing : Pattern → Bool
  | .nothing => true
  | _ => false

/-- The pattern of a template: bare names become formula references, parametrized ones if
they have arguments, and variables become term references. -/
def ofTemplate : Formula → Pattern
  | .atom (.named n) [] => .ref n.full
  | .atom (.named n) ts => .refAt n.full (ts.map TermPattern.ofTerm)
  | .atom (.pred p) ts => .atom (.pred p) (ts.map TermPattern.ofTerm)
  | .not f => .not (ofTemplate f)
  | .multi c fs => exactly c (fs.map fun f => ofTemplate f)
  | .link c a b => .link c (ofTemplate a) (ofTemplate b)
  | .bind q v f => .bind q v.name (ofTemplate f)

/-- The pattern of the instances of a formula whose parameters are in scope. A bound variable
becomes a term reference of its own, named by its depth, so that bound names do not matter. -/
def ofInstance (scope : TermPattern.Scope) : Formula → Pattern
  | .atom r ts => .atom r (ts.map (TermPattern.ofInstance scope))
  | .not f => .not (ofInstance scope f)
  | .multi c fs => exactly c (fs.map fun f => ofInstance scope f)
  | .link c a b => .link c (ofInstance scope a) (ofInstance scope b)
  | .bind q v f =>
    let name := "#" ++ toString scope.length
    .bind q name (ofInstance ((v, .ref name) :: scope) f)

def describe : Pattern → String
  | .nothing => "Empty"
  | .ref name => "Ref(" ++ Text.quote name ++ ")"
  | .refAt name ps =>
    "VarRef(" ++ Text.quote name ++ ", " ++ Text.bracketed (ps.map TermPattern.describe) ++ ")"
  | .atom (.named n) ps =>
    "Named(" ++ n.describe ++ ", " ++ Text.bracketed (ps.map TermPattern.describe) ++ ")"
  | .atom (.pred p) ps =>
    "Pred(" ++ p.describe ++ ", " ++ Text.bracketed (ps.map TermPattern.describe) ++ ")"
  | .not p => "Not(" ++ p.describe ++ ")"
  | .multi .and ps others =>
    "And(" ++ Text.bracketed (ps.map fun p => p.describe) ++ ", " ++ others.describe ++ ")"
  | .multi .or ps others =>
    "Or(" ++ Text.bracketed (ps.map fun p => p.describe) ++ ", " ++ others.describe ++ ")"
  | .link .imply p q => "Imply(" ++ p.describe ++ ", " ++ q.describe ++ ")"
  | .link .equiv p q => "Equiv(" ++ p.describe ++ ", " ++ q.describe ++ ")"
  | .bind .all name p => "ForAll(" ++ Text.quote name ++ ", " ++ p.describe ++ ")"
  | .bind .ex name p => "Exists(" ++ Text.quote name ++ ", " ++ p.describe ++ ")"

end Pattern

end Sequitur
