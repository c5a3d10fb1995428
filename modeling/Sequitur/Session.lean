import Sequitur.Name.Parser
import Sequitur.Settings
import Sequitur.Theory

/-! A session is a stack of frames. Opening a scope copies the innermost frame and adds
assumptions to it; closing it hands one of its formulas down, with the assumptions as its
premise. What happens in a scope never changes the frames below it. Every operation returns the
session it leaves behind, whether it succeeds or fails. -/

namespace Sequitur

structure Frame where
  /-- What was assumed when the frame was opened; the base frame assumes nothing. -/
  assumptions : Option (List Formula)
  theory : Theory
  facts : Facts

structure Session where
  base : Frame
  /-- The open scopes, innermost first. -/
  scopes : List Frame
  settings : Settings

namespace Frame

def base (theory : Theory) : Frame := ⟨none, theory, .empty⟩

/-- A frame on top of this one in which further formulas hold. -/
def assume (frame : Frame) (fs : List Formula) : Except Error Frame := do
  let (facts, _) ← frame.facts.addAll fs
  return ⟨some fs, frame.theory, facts⟩

def isBase (frame : Frame) : Bool := frame.assumptions.isNone

def hypotheses (frame : Frame) : List Formula := frame.assumptions.getD []

/-- What holds below a frame once `f` holds in it. -/
def discharge (frame : Frame) (f : Formula) : Formula :=
  match frame.hypotheses with
  | [] => f
  | fs => (Formula.imply (.junctionOf .and fs) f).flatten

end Frame

namespace Session

def start (theory : Theory) (settings : Settings) : Session :=
  ⟨.base (theory.withSearchDepth settings.searchDepth), [], settings⟩

def frame (s : Session) : Frame := s.scopes.headD s.base

def setFrame (s : Session) (frame : Frame) : Session :=
  match s.scopes with
  | [] => { s with base := frame }
  | _ :: outer => { s with scopes := frame :: outer }

def depth (s : Session) : Nat := s.scopes.length

def formulas (s : Session) : List Formula := s.frame.facts.formulas

def contains (s : Session) (f : Formula) : Except Error Bool := s.frame.facts.contains f

def add (s : Session) (f : Formula) : Session × Except Error Bool :=
  match s.frame.facts.add f with
  | .error e => (s, .error e)
  | .ok (facts, isNew) => (s.setFrame { s.frame with facts }, .ok isNew)

def assume (s : Session) (fs : List Formula) : Session × Except Error Unit :=
  match s.frame.assume fs with
  | .error e => (s, .error e)
  | .ok scope => ({ s with scopes := scope :: s.scopes }, .ok ())

/-- Closes the innermost scope if `f` is known in it. Otherwise the scope stays open. -/
def yield (s : Session) (f : Formula) : Session × Except Error (Option Formula) :=
  match s.scopes with
  | [] => (s, .error .noOpenScope)
  | scope :: outer =>
    match scope.facts.contains f with
    | .error e => (s, .error e)
    | .ok false => (s, .ok none)
    | .ok true =>
      -- The scope is gone before its result is added below.
      let result := scope.discharge f
      let (closed, added) := { s with scopes := outer }.add result
      (closed, added.map fun _ => some result)

def attempt (facts : Facts) (goal : Formula) : List Rule → Except Error (Option Deduction)
  | [] => .ok none
  | rule :: rules => do
    match ← rule.towards facts {} goal with
    | .reached d => return some d
    | .candidates _ => attempt facts goal rules

/-- The named rule. Without a name, or when no rule has it, the default rules. -/
def tried (s : Session) (rule : Option String) : List Rule :=
  match rule.bind s.frame.theory.rule? with
  | some r => [r]
  | none => s.frame.theory.defaults

/-- Tries to obtain a formula in the innermost frame. If it is obtained, it becomes known. -/
def deduce (s : Session) (f : Formula) (rule : Option String) :
    Session × Except Error (Option Deduction) :=
  match attempt s.frame.facts f (s.tried rule) with
  | .error e => (s, .error e)
  | .ok none => (s, .ok none)
  | .ok (some d) =>
    let (grown, added) := s.add f
    (grown, added.map fun _ => some d)

def addRule (s : Session) (rule : Rule) : Session × Except Error Unit :=
  match s.frame.theory.addRule rule with
  | .error e => (s, .error e)
  | .ok theory => (s.setFrame { s.frame with theory }, .ok ())

def definitionRule (name : String) (lhs rhs : Formula) (description : String) :
    Except Error Rule := do
  let parsed ← Name.parse name
  match PatternRule.define parsed description lhs rhs with
  | .ok rule => return .inference (.pattern rule)
  | .error e => throw (.cannotDefine name e)

def addToSearches (s : Session) (rule : Rule) : Session × Except Error Unit :=
  match s.frame.theory.addToSearches rule with
  | .error e => (s, .error e)
  | .ok theory => (s.setFrame { s.frame with theory }, .ok ())

/-- Defines one formula by another in the innermost frame. The rule is registered first and
then, if the settings say so, added to the searches; it stays registered when a search
refuses it. -/
def define (s : Session) (name : String) (lhs rhs : Formula) (description : String) :
    Session × Except Error Rule :=
  match definitionRule name lhs rhs description with
  | .error e => (s, .error e)
  | .ok rule =>
    match s.addRule rule with
    | (registered, .error e) => (registered, .error e)
    | (registered, .ok ()) =>
      if s.settings.extendOnDefine then
        let (extended, added) := registered.addToSearches rule
        (extended, added.map fun _ => rule)
      else (registered, .ok rule)

end Session

end Sequitur
