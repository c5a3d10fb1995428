import Sequitur.Deduction
import Sequitur.Pattern.Match

/-! A formula or its negation, from nothing. -/

namespace Sequitur.ExcludedMiddle

def name : Name := .qualified ["logic"] "ExcludeMiddle"

def description : String := "⇒ P∨¬P"

def pattern : Pattern := .exactly .or [.ref "P", .not (.ref "P")]

def deduction (g : Formula) : Deduction := { rule := name, formula := g, dependencies := [] }

def apply (hints : Hints) : List Deduction :=
  hints.formulas.map fun f => deduction (.or [f, .not f])

def advance (goal : Formula) : Outcome :=
  if (pattern.matcher goal .empty).isEmpty then .candidates [] else .reached (deduction goal)

end Sequitur.ExcludedMiddle
