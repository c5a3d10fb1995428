import Sequitur.Pattern.Match
import Sequitur.Template

/-! Transformations of formulas. Where a pattern matches, the match yields a new formula that
takes the place of the old one. Results are flattened. -/

namespace Sequitur

structure Transformation where
  pattern : Pattern
  result : Bindings → Except Error Formula

namespace Transformation

/-- Instances of the first formula become instances of the second. -/
def ofTemplates (source target : Formula) : Transformation := ⟨.ofTemplate source, target.fill⟩

def atRoot (w : Transformation) (f : Formula) : Except Error (List Formula) :=
  (w.pattern.matcher f .empty).mapM w.result

def firstAtRoot (w : Transformation) (f : Formula) : Except Error Formula :=
  match w.pattern.matcher f .empty with
  | r :: _ => w.result r
  | [] => .ok f

mutual

/-- The results at a single place: the root first, then inside the children from left to
right. -/
def atOnePlace (w : Transformation) : Formula → Except Error (List Formula)
  | .atom r ts => w.atRoot (.atom r ts)
  | .not f => do
    let here ← w.atRoot (.not f)
    let inside ← atOnePlace w f
    return here ++ inside.map .not
  | .multi c fs => do
    let here ← w.atRoot (.multi c fs)
    let inside ← atOneMember w fs
    return here ++ inside.map (.multi c)
  | .link c a b => do
    let here ← w.atRoot (.link c a b)
    let left ← atOnePlace w a
    let right ← atOnePlace w b
    return here ++ left.map (.link c · b) ++ right.map (.link c a ·)
  | .bind q v f => do
    let here ← w.atRoot (.bind q v f)
    let inside ← atOnePlace w f
    return here ++ inside.map (.bind q v)

def atOneMember (w : Transformation) : List Formula → Except Error (List (List Formula))
  | [] => .ok []
  | f :: fs => do
    let first ← atOnePlace w f
    let later ← atOneMember w fs
    return first.map (· :: fs) ++ later.map (f :: ·)

end

mutual

/-- The result at every place at once, from the leaves up, by the first match of each. -/
def everywhere (w : Transformation) : Formula → Except Error Formula
  | .atom r ts => w.firstAtRoot (.atom r ts)
  | .not f => do w.firstAtRoot (.not (← everywhere w f))
  | .multi c fs => do w.firstAtRoot (.multi c (← everywhereInAll w fs))
  | .link c a b => do
    let a' ← everywhere w a
    let b' ← everywhere w b
    w.firstAtRoot (.link c a' b')
  | .bind q v f => do w.firstAtRoot (.bind q v (← everywhere w f))

def everywhereInAll (w : Transformation) : List Formula → Except Error (List Formula)
  | [] => .ok []
  | f :: fs => do
    let g ← everywhere w f
    let gs ← everywhereInAll w fs
    return g :: gs

end

def one (w : Transformation) (f : Formula) : Except Error (List Formula) :=
  return (← w.atOnePlace f).map Formula.flatten

def all (w : Transformation) (f : Formula) : Except Error Formula :=
  return (← w.everywhere f).flatten

/-- Adds a formula unless one identical to it is there. -/
def addNew (fs : List Formula) (g : Formula) : List Formula :=
  if fs.any (·.identical g) then fs else fs ++ [g]

/-- Adds the results for a formula to a list: those at one place, then the one at every place
if it differs from the formula. -/
def addResults (w : Transformation) (known : List Formula) (f : Formula) :
    Except Error (List Formula) := do
  let single ← w.one f
  let known := single.foldl addNew known
  let complete ← w.all f
  return if complete.identical f then known else addNew known complete

end Transformation

end Sequitur
