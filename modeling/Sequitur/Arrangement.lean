/-! Relating two lists item by item, in the given order or in any order. -/

namespace Sequitur.Arrangement

variable {α β : Type}

/-- Each way to take one item out of a list, with the items that remain, from the first item
to the last. -/
def picks : List α → List (α × List α)
  | [] => []
  | x :: xs => (x, xs) :: (picks xs).map fun p => (p.1, x :: p.2)

def inOrder (related : α → β → Bool) : List α → List β → Bool
  | [], [] => true
  | x :: xs, y :: ys => related x y && inOrder related xs ys
  | _, _ => false

/-- Every item of the first list takes an item of the second that is not yet taken. -/
def assignable (related : α → β → Bool) : List α → List β → Bool
  | [], _ => true
  | x :: xs, ys => (picks ys).any fun p => related x p.1 && assignable related xs p.2

def inAnyOrder (related : α → β → Bool) (xs : List α) (ys : List β) : Bool :=
  xs.length == ys.length && assignable related xs ys

end Sequitur.Arrangement
