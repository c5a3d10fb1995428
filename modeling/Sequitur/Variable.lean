import Sequitur.Text.Numeral

/-! Variables, the canonical ones among them, and fresh ones. Sets of variables are kept as
strictly increasing lists, so that they are listed in the order of their names. -/

namespace Sequitur

structure Variable where
  name : String
  deriving DecidableEq, Inhabited

namespace Variable

def compare (a b : Variable) : Ordering := Ord.compare a.name b.name

def canonical (i : Nat) : Variable := ⟨"$" ++ toString i⟩

/-- The index of a variable written as a dollar sign and digits. A number that does not fit
64 bits is no index: such a variable is an ordinary one. -/
def index? (v : Variable) : Option Nat :=
  match v.name.toList with
  | '$' :: digits => Text.readIndex digits
  | _ => none

def numbered (stem : String) (i : Nat) : Variable := ⟨stem ++ toString i⟩

/-- The first of `stem1`, `stem2`, … that is not taken. Among one more candidates than there
are taken variables, one is free. -/
def fresh (stem : String) (taken : List Variable) : Variable :=
  numbered stem
    (((List.range' 1 (taken.length + 1)).find? fun i => numbered stem i ∉ taken).getD 1)

end Variable

/-- A strictly increasing list of variables. -/
abbrev VarSet := List Variable

namespace VarSet

def insert (v : Variable) : VarSet → VarSet
  | [] => [v]
  | u :: us =>
    match v.compare u with
    | .lt => v :: u :: us
    | .eq => u :: us
    | .gt => u :: insert v us

def union (us vs : VarSet) : VarSet := us.foldr insert vs

def unions (sets : List VarSet) : VarSet := sets.foldr union []

def remove (v : Variable) (us : VarSet) : VarSet := us.filter (· ≠ v)

theorem mem_insert {v w : Variable} {us : VarSet} :
    w ∈ insert v us ↔ w = v ∨ w ∈ us := by
  induction us with
  | nil => simp [insert]
  | cons u us ih =>
    simp only [insert]
    split
    · simp
    · rename_i same
      have equal : v = u := by
        cases v; cases u
        simpa [Variable.compare] using same
      simp [equal]
    · simp only [List.mem_cons, ih]
      constructor <;> rintro (h | h | h) <;> simp [h]

theorem mem_union {w : Variable} {us vs : VarSet} :
    w ∈ union us vs ↔ w ∈ us ∨ w ∈ vs := by
  induction us with
  | nil => simp [union]
  | cons u us ih =>
    simp only [union, List.foldr_cons] at ih ⊢
    simp [mem_insert, ih, or_assoc]

theorem mem_unions {w : Variable} {sets : List VarSet} :
    w ∈ unions sets ↔ ∃ us ∈ sets, w ∈ us := by
  induction sets with
  | nil => simp [unions]
  | cons us sets ih =>
    simp only [unions, List.foldr_cons] at ih ⊢
    simp [mem_union, ih]

theorem mem_remove {v w : Variable} {us : VarSet} :
    w ∈ remove v us ↔ w ∈ us ∧ w ≠ v := by
  simp [remove]

end VarSet

end Sequitur
