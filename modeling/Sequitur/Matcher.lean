import Sequitur.Arrangement
import Sequitur.Bindings

/-! A matcher extends bindings in every way in which an item fits it. Lists of matchers are
laid against lists of items in order or in any order. -/

namespace Sequitur

/-- From an item and the bindings so far, all bindings under which the item fits. -/
abbrev Matcher (α : Type) := α → Bindings → List Bindings

namespace Matcher

variable {α : Type}

def onEach (m : Matcher α) (x : α) (rs : List Bindings) : List Bindings := rs.flatMap (m x)

/-- The first matcher on the first item, and so on; there must be as many of each. -/
def inOrder : List (Matcher α) → List α → Bindings → List Bindings
  | [], [], r => [r]
  | m :: ms, x :: xs, r => (m x r).flatMap (inOrder ms xs)
  | _, _, _ => []

/-- Gives every matcher an item of its own, in all ways. Each result comes with the items
that are left, in their order. -/
def assignments : List (Matcher α) → List α → Bindings → List (Bindings × List α)
  | [], xs, r => [(r, xs)]
  | m :: ms, xs, r =>
    (Arrangement.picks xs).flatMap fun p => (m p.1 r).flatMap (assignments ms p.2)

/-- Every item goes to exactly one matcher. -/
def inAnyOrder (ms : List (Matcher α)) (xs : List α) (r : Bindings) : List Bindings :=
  if ms.length = xs.length then (assignments ms xs r).map (·.1) else []

/-- What is left over goes to a further matcher, several items joined into one. -/
def others (rest : Matcher α) (join : List α → α) : Bindings × List α → List Bindings
  | (r, []) => [r]
  | (r, [x]) => rest x r
  | (r, xs) => rest (join xs) r

/-- Every matcher gets an item; without a further matcher none may be left over. -/
def withOthers (ms : List (Matcher α)) (rest : Option (Matcher α)) (join : List α → α)
    (xs : List α) (r : Bindings) : List Bindings :=
  match rest with
  | none => inAnyOrder ms xs r
  | some m => if ms.length ≤ xs.length then (assignments ms xs r).flatMap (others m join) else []

end Matcher

end Sequitur
