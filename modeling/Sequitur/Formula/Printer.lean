import Sequitur.Formula
import Sequitur.Text.Quoted

/-! The text of a formula. Parentheses go around a connective or a quantifier that stands
under a connective, and around an equation under a negation. -/

namespace Sequitur

def Junction.sign : Junction → String
  | .and => " ∧ "
  | .or => " ∨ "

def Arrow.sign : Arrow → String
  | .imply => " → "
  | .equiv => " ↔ "

def Quantifier.sign : Quantifier → String
  | .all => "∀"
  | .ex => "∃"

namespace Formula

def parenthesize (needed : Bool) (s : String) : String :=
  if needed then "(" ++ s ++ ")" else s

/-- Whether the formula is parenthesized under a connective. -/
def isGrouped (f : Formula) : Bool := f.isCompound || f.isQuantified

/-- The text of an atom. A bare name without arguments is shown alone. -/
def renderAtom (r : Relation) (args : List Term) : String :=
  let applied (head : String) := head ++ "(" ++ ", ".intercalate (args.map Term.render) ++ ")"
  match r, args with
  | .pred p, [a, b] =>
    if p.same .equality then a.render ++ " = " ++ b.render else applied p.name.display
  | .pred p, _ => applied p.name.display
  | .named n, [] => n.display
  | .named n, _ => applied n.display

def render : Formula → String
  | .atom r ts => renderAtom r ts
  | .not f => "¬" ++ parenthesize (f.isGrouped || f.isEquation) f.render
  | .multi c fs => c.sign.intercalate (fs.map fun f => parenthesize f.isGrouped f.render)
  | .link c a b =>
    parenthesize a.isGrouped a.render ++ c.sign ++ parenthesize b.isGrouped b.render
  | .bind q v f => q.sign ++ v.name ++ ". " ++ parenthesize f.isCompound f.render

def describeRoot : Formula → String
  | .atom (.pred p) ts =>
    "FPred(" ++ p.describe ++ ", " ++ Text.bracketed (ts.map Term.render) ++ ")"
  | .atom (.named n) ts =>
    "FNamed(" ++ n.describe ++ ", " ++ Text.bracketed (ts.map Term.render) ++ ")"
  | .not f => "FNot(" ++ f.render ++ ")"
  | .multi .and fs => "FAnd(" ++ Text.bracketed (fs.map render) ++ ")"
  | .multi .or fs => "FOr(" ++ Text.bracketed (fs.map render) ++ ")"
  | .link .imply a b => "FImply(" ++ a.render ++ ", " ++ b.render ++ ")"
  | .link .equiv a b => "FEquiv(" ++ a.render ++ ", " ++ b.render ++ ")"
  | .bind .all v f => "FForAll(" ++ v.name ++ ", " ++ f.render ++ ")"
  | .bind .ex v f => "FExists(" ++ v.name ++ ", " ++ f.render ++ ")"

end Formula

end Sequitur
