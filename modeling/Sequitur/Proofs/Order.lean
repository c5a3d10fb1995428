import Sequitur.Order
import Sequitur.Proofs.Syntax
import Sequitur.Proofs.Variable

/-! The comparison of terms and formulas is a total order up to what names show and what
symbols record. Sorting therefore depends only on which formulas there are. -/

namespace Sequitur

/-- What three comparisons, of `a` with `b`, of `b` with `c` and of `a` with `c`, have to do with
each other. -/
def Composes : Ordering → Ordering → Ordering → Prop
  | .eq, y, z => z = y
  | x, .eq, z => z = x
  | .lt, .lt, z => z = .lt
  | .gt, .gt, z => z = .gt
  | _, _, _ => True

namespace Composes

variable {α : Type} {cmp : α → α → Ordering}

theorem of_trans [Std.TransCmp cmp] (a b c : α) : Composes (cmp a b) (cmp b c) (cmp a c) := by
  cases first : cmp a b with
  | eq => exact Std.TransCmp.congr_left first
  | lt =>
    cases second : cmp b c with
    | eq => exact (Std.TransCmp.congr_right second).symm.trans first
    | lt => exact Std.TransCmp.lt_trans first second
    | gt => trivial
  | gt =>
    cases second : cmp b c with
    | eq => exact (Std.TransCmp.congr_right second).symm.trans first
    | lt => trivial
    | gt => exact Std.TransCmp.gt_trans first second

theorem first_decides {x : Ordering} (decided : x ≠ .eq) (y : Ordering) : Composes x y x := by
  cases x <;> cases y <;> trivial

theorem second_decides {y : Ordering} (decided : y ≠ .eq) (x : Ordering) : Composes x y y := by
  cases x <;> cases y <;> trivial

/-- The second criterion counts only where the first one decides nothing. -/
theorem andThen {x y z x' y' z' : Ordering} (first : Composes x y z)
    (second : x = .eq → y = .eq → Composes x' y' z') :
    Composes (x.then x') (y.then y') (z.then z') := by
  cases x with
  | eq =>
    obtain rfl : z = y := first
    cases z with
    | eq => exact second rfl rfl
    | lt => exact second_decides (by simp) _
    | gt => exact second_decides (by simp) _
  | lt =>
    cases y with
    | gt => trivial
    | _ =>
      obtain rfl : z = .lt := first
      exact first_decides (by simp) _
  | gt =>
    cases y with
    | lt => trivial
    | _ =>
      obtain rfl : z = .gt := first
      exact first_decides (by simp) _

theorem lexicographic {xs ys zs : List α}
    (composes : ∀ x ∈ xs, ∀ y z, Composes (cmp x y) (cmp y z) (cmp x z)) :
    Composes (Sequitur.lexicographic cmp xs ys) (Sequitur.lexicographic cmp ys zs)
      (Sequitur.lexicographic cmp xs zs) := by
  induction xs generalizing ys zs with
  | nil =>
    cases ys with
    | nil => rfl
    | cons y ys =>
      cases zs with
      | nil => trivial
      | cons z zs => exact first_decides (by simp [Sequitur.lexicographic]) _
  | cons x xs ih =>
    cases ys with
    | nil => cases zs <;> trivial
    | cons y ys =>
      cases zs with
      | nil => exact second_decides (by simp [Sequitur.lexicographic]) _
      | cons z zs =>
        refine (composes x (by simp) y z).andThen fun _ _ => ?_
        exact ih fun x member => composes x (by simp [member])

theorem eq_swap {x y : Ordering} (loop : Composes x y .eq) : x = y.swap := by
  cases x with
  | eq => exact (show Ordering.eq = y from loop) ▸ rfl
  | lt => cases y <;> first | rfl | cases loop
  | gt => cases y <;> first | rfl | cases loop

theorem isLE {x y z : Ordering} (path : Composes x y z) (first : x.isLE = true)
    (second : y.isLE = true) : z.isLE = true := by
  cases x with
  | eq => exact (show z = y from path) ▸ second
  | gt => cases first
  | lt =>
    cases y with
    | gt => cases second
    | _ => exact (show z = .lt from path) ▸ rfl

/-- Comparisons that compose, and find everything equal to itself, make an order. -/
theorem transCmp (refl : ∀ a, cmp a a = .eq)
    (composes : ∀ a b c, Composes (cmp a b) (cmp b c) (cmp a c)) : Std.TransCmp cmp where
  eq_swap {a b} := eq_swap (refl a ▸ composes a b a)
  isLE_trans {a b c} := isLE (composes a b c)

end Composes

theorem lexicographic_eq_iff {α β : Type} {cmp : α → α → Ordering} {key : α → β}
    {xs ys : List α} (eq_iff : ∀ x ∈ xs, ∀ y, cmp x y = .eq ↔ key x = key y) :
    lexicographic cmp xs ys = .eq ↔ xs.map key = ys.map key := by
  induction xs generalizing ys with
  | nil => cases ys <;> simp [lexicographic]
  | cons x xs ih =>
    cases ys with
    | nil => simp [lexicographic]
    | cons y ys =>
      simp only [lexicographic, Ordering.then_eq_eq, List.map_cons, List.cons.injEq]
      rw [eq_iff x (by simp), ih fun x member => eq_iff x (by simp [member])]

/-! The bare form keeps the full text of a name and forgets everything else that a symbol
carries. -/

def Name.bare (n : Name) : Name := .plain n.full

instance : Std.TransCmp Name.compare := inferInstanceAs (Std.TransCmp (compareOn Name.full))

instance : Std.TransCmp FunctionSymbol.compare :=
  inferInstanceAs (Std.TransCmp (compareOn fun f : FunctionSymbol => f.name.full))

instance : Std.TransCmp Predicate.compare :=
  inferInstanceAs (Std.TransCmp (compareOn fun p : Predicate => p.name.full))

instance : Std.TransCmp Constant.compare :=
  inferInstanceAs (Std.TransCmp (compareOn fun c : Constant => c.name.full))

def Constant.bare (c : Constant) : Constant := ⟨c.name.bare⟩

namespace Operator

def bare : Operator → Operator
  | .named n => .named n.bare
  | .fn f => .fn ⟨f.name.bare, none, true⟩

theorem same_iff {f g : Operator} : f.same g = true ↔ f.bare = g.bare := by
  cases f <;> cases g <;> simp [same, bare, FunctionSymbol.same, Name.bare, Name.plain]

theorem compare_eq_iff {f g : Operator} : f.compare g = .eq ↔ f.bare = g.bare := by
  cases f <;> cases g <;>
    simp [compare, bare, FunctionSymbol.compare, Name.compare, Name.bare, Name.plain]

instance : Std.TransCmp Operator.compare := by
  refine Composes.transCmp (fun _ => compare_eq_iff.mpr rfl) ?_
  intro a b c
  cases a <;> cases b <;> cases c <;> simp only [compare]
  case named.named.named m n k => exact .of_trans m n k
  case fn.fn.fn a b c => exact .of_trans a b c
  all_goals first
    | trivial
    | exact .first_decides (by simp) _
    | exact .second_decides (by simp) _

theorem bare_bare (f : Operator) : f.bare.bare = f.bare := by
  cases f <;> rfl

end Operator

namespace Relation

def bare : Relation → Relation
  | .named n => .named n.bare
  | .pred p => .pred ⟨p.name.bare, 0, true⟩

theorem same_iff {r s : Relation} : r.same s = true ↔ r.bare = s.bare := by
  cases r <;> cases s <;> simp [same, bare, Predicate.same, Name.bare, Name.plain]

theorem compare_eq_iff {r s : Relation} : r.compare s = .eq ↔ r.bare = s.bare := by
  cases r <;> cases s <;>
    simp [compare, bare, Predicate.compare, Name.compare, Name.bare, Name.plain]

instance : Std.TransCmp Relation.compare := by
  refine Composes.transCmp (fun _ => compare_eq_iff.mpr rfl) ?_
  intro a b c
  cases a <;> cases b <;> cases c <;> simp only [compare]
  case named.named.named m n k => exact .of_trans m n k
  case pred.pred.pred a b c => exact .of_trans a b c
  all_goals first
    | trivial
    | exact .first_decides (by simp) _
    | exact .second_decides (by simp) _

theorem bare_bare (r : Relation) : r.bare.bare = r.bare := by
  cases r <;> rfl

end Relation

namespace Constant

theorem same_iff {c d : Constant} : c.same d = true ↔ c.bare = d.bare := by
  simp [same, bare, Name.bare, Name.plain]

theorem compare_eq_iff {c d : Constant} : c.compare d = .eq ↔ c.bare = d.bare := by
  simp [compare, bare, Name.compare, Name.bare, Name.plain]

end Constant

namespace Term

def bare : Term → Term
  | .var v => .var v
  | .const c => .const c.bare
  | .app op ts => .app op.bare (ts.map fun t => t.bare)

theorem bare_bare (t : Term) : t.bare.bare = t.bare := by
  induction t with
  | var v => simp [bare]
  | const c => simp [bare, Constant.bare, Name.bare, Name.plain]
  | app op ts ih =>
    simp only [bare, Operator.bare_bare, List.map_map, app.injEq, true_and]
    exact List.map_congr_left ih

theorem sameAll_iff {ts us : List Term}
    (same_iff : ∀ t ∈ ts, ∀ u, t.same u = true ↔ t.bare = u.bare) :
    sameAll ts us = true ↔ ts.map bare = us.map bare := by
  induction ts generalizing us with
  | nil => cases us <;> simp [sameAll]
  | cons t ts ih =>
    cases us with
    | nil => simp [sameAll]
    | cons u us =>
      simp only [sameAll, Bool.and_eq_true, List.map_cons, List.cons.injEq]
      rw [same_iff t (by simp), ih fun t member => same_iff t (by simp [member])]

theorem same_iff {t u : Term} : t.same u = true ↔ t.bare = u.bare := by
  induction t generalizing u with
  | var v => cases u <;> simp [same, bare]
  | const c => cases u <;> simp [same, bare, Constant.same_iff]
  | app op ts ih =>
    cases u with
    | app op' us =>
      simp only [same, bare, Bool.and_eq_true, app.injEq, Operator.same_iff]
      rw [sameAll_iff fun t member u => ih t member]
    | _ => simp [same, bare]

theorem compare_eq_iff {t u : Term} : t.compare u = .eq ↔ t.bare = u.bare := by
  induction t generalizing u with
  | var v => cases u <;> simp [compare, bare]
  | const c => cases u <;> simp [compare, bare, Constant.compare_eq_iff]
  | app op ts ih =>
    cases u with
    | app op' us =>
      simp only [compare, bare, Ordering.then_eq_eq, app.injEq, Operator.compare_eq_iff,
        compareAll_eq]
      rw [lexicographic_eq_iff fun t member u => ih t member]
    | _ => simp [compare, bare]

theorem compare_composes (a b c : Term) :
    Composes (a.compare b) (b.compare c) (a.compare c) := by
  induction a generalizing b c with
  | var v =>
    cases b <;> cases c <;> simp only [compare]
    case var.var w x => exact .of_trans v w x
    all_goals first
      | trivial
      | exact .first_decides (by simp) _
      | exact .second_decides (by simp) _
  | const d =>
    cases b <;> cases c <;> simp only [compare]
    case const.const d' d'' => exact .of_trans d d' d''
    all_goals first
      | trivial
      | exact .first_decides (by simp) _
      | exact .second_decides (by simp) _
  | app op ts ih =>
    cases b <;> cases c <;> simp only [compare, compareAll_eq]
    case app.app op' us op'' ws =>
      exact (Composes.of_trans op op' op'').andThen fun _ _ => .lexicographic ih
    all_goals first
      | trivial
      | exact .first_decides (by simp) _
      | exact .second_decides (by simp) _

instance : Std.TransCmp Term.compare :=
  Composes.transCmp (fun _ => compare_eq_iff.mpr rfl) compare_composes

end Term

instance : Std.TransOrd Junction := by
  refine Composes.transCmp (fun a => by cases a <;> rfl) ?_
  intro a b c
  cases a <;> cases b <;> cases c <;> trivial

instance : Std.LawfulEqOrd Junction where
  eq_of_compare {a b} same := by cases a <;> cases b <;> first | rfl | cases same

instance : Std.TransOrd Arrow := by
  refine Composes.transCmp (fun a => by cases a <;> rfl) ?_
  intro a b c
  cases a <;> cases b <;> cases c <;> trivial

instance : Std.LawfulEqOrd Arrow where
  eq_of_compare {a b} same := by cases a <;> cases b <;> first | rfl | cases same

instance : Std.TransOrd Quantifier := by
  refine Composes.transCmp (fun a => by cases a <;> rfl) ?_
  intro a b c
  cases a <;> cases b <;> cases c <;> trivial

instance : Std.LawfulEqOrd Quantifier where
  eq_of_compare {a b} same := by cases a <;> cases b <;> first | rfl | cases same

namespace Formula

def bare : Formula → Formula
  | .atom r ts => .atom r.bare (ts.map Term.bare)
  | .not f => .not f.bare
  | .multi c fs => .multi c (fs.map fun f => f.bare)
  | .link c a b => .link c a.bare b.bare
  | .bind q v f => .bind q v f.bare

theorem bare_bare (f : Formula) : f.bare.bare = f.bare := by
  induction f with
  | atom r ts =>
    simp only [bare, Relation.bare_bare, List.map_map, atom.injEq, true_and]
    exact List.map_congr_left fun t _ => t.bare_bare
  | not f ih => simp [bare, ih]
  | multi c fs ih =>
    simp only [bare, List.map_map, multi.injEq, true_and]
    exact List.map_congr_left ih
  | link c a b iha ihb => simp [bare, iha, ihb]
  | bind q v f ih => simp [bare, ih]

theorem sameAll_iff {fs gs : List Formula}
    (same_iff : ∀ f ∈ fs, ∀ g, f.same g = true ↔ f.bare = g.bare) :
    sameAll fs gs = true ↔ fs.map bare = gs.map bare := by
  induction fs generalizing gs with
  | nil => cases gs <;> simp [sameAll]
  | cons f fs ih =>
    cases gs with
    | nil => simp [sameAll]
    | cons g gs =>
      simp only [sameAll, Bool.and_eq_true, List.map_cons, List.cons.injEq]
      rw [same_iff f (by simp), ih fun f member => same_iff f (by simp [member])]

/-- Equal but for what is shown and recorded. -/
theorem same_iff {f g : Formula} : f.same g = true ↔ f.bare = g.bare := by
  induction f generalizing g with
  | atom r ts =>
    cases g with
    | atom s us =>
      simp only [same, bare, Bool.and_eq_true, atom.injEq, Relation.same_iff]
      rw [Term.sameAll_iff fun t _ u => Term.same_iff]
    | _ => simp [same, bare]
  | not f ih => cases g <;> simp [same, bare, ih]
  | multi c fs ih =>
    cases g with
    | multi d gs =>
      simp only [same, bare, Bool.and_eq_true, beq_iff_eq, multi.injEq]
      rw [sameAll_iff fun f member g => ih f member]
    | _ => simp [same, bare]
  | link c a b iha ihb => cases g <;> simp [same, bare, iha, ihb, and_assoc]
  | bind q v f ih => cases g <;> simp [same, bare, ih, and_assoc]

theorem compare_eq_iff {f g : Formula} : f.compare g = .eq ↔ f.bare = g.bare := by
  induction f generalizing g with
  | atom r ts =>
    cases g with
    | atom s us =>
      simp only [compare, bare, Ordering.then_eq_eq, atom.injEq, Relation.compare_eq_iff,
        Term.compareAll_eq]
      rw [lexicographic_eq_iff fun t _ u => Term.compare_eq_iff (t := t) (u := u)]
    | _ => simp [compare, bare, rank]
  | not f ih => cases g <;> simp [compare, bare, rank, ih]
  | multi c fs ih =>
    cases g with
    | multi d gs =>
      simp only [compare, bare, Ordering.then_eq_eq, multi.injEq, compareAll_eq,
        Std.LawfulEqOrd.compare_eq_iff_eq]
      rw [lexicographic_eq_iff fun f member g => ih f member]
    | _ => simp [compare, bare, rank]
  | link c a b iha ihb =>
    cases g with
    | link d a' b' => simp [compare, bare, iha, ihb]
    | _ => simp [compare, bare, rank]
  | bind q v f ih =>
    cases g with
    | bind q' w g => simp [compare, bare, ih]
    | _ => simp [compare, bare, rank]

theorem compare_eq_then (f g : Formula) :
    f.compare g = (Ord.compare f.rank g.rank).then (f.compare g) := by
  cases f <;> cases g <;> rfl

theorem composes_of_same_rank {a b c : Formula}
    (inside : a.rank = b.rank → b.rank = c.rank →
      Composes (a.compare b) (b.compare c) (a.compare c)) :
    Composes (a.compare b) (b.compare c) (a.compare c) := by
  have ranks : Composes (Ord.compare a.rank b.rank) (Ord.compare b.rank c.rank)
      (Ord.compare a.rank c.rank) := .of_trans ..
  have decided := ranks.andThen fun first second =>
    inside (Std.LawfulEqOrd.compare_eq_iff_eq.mp first) (Std.LawfulEqOrd.compare_eq_iff_eq.mp second)
  rwa [← compare_eq_then, ← compare_eq_then, ← compare_eq_then] at decided

theorem compare_composes (a b c : Formula) :
    Composes (a.compare b) (b.compare c) (a.compare c) := by
  induction a generalizing b c with
  | atom r ts =>
    refine composes_of_same_rank fun first second => ?_
    cases b with
    | atom s us =>
      cases c with
      | atom s' ws =>
        simp only [compare, Term.compareAll_eq]
        exact (Composes.of_trans r s s').andThen fun _ _ =>
          .lexicographic fun t _ => t.compare_composes
      | _ => cases second
    | _ => cases first
  | not f ih =>
    refine composes_of_same_rank fun first second => ?_
    cases b with
    | not g =>
      cases c with
      | not h =>
        simp only [compare]
        exact ih g h
      | _ => cases second
    | _ => cases first
  | multi j fs ih =>
    refine composes_of_same_rank fun first second => ?_
    cases b with
    | multi j' gs =>
      cases c with
      | multi j'' hs =>
        simp only [compare, compareAll_eq]
        exact (Composes.of_trans j j' j'').andThen fun _ _ => .lexicographic ih
      | _ => cases second
    | _ => cases first
  | link d f g ihf ihg =>
    refine composes_of_same_rank fun first second => ?_
    cases b with
    | link d' f' g' =>
      cases c with
      | link d'' f'' g'' =>
        simp only [compare]
        exact (Composes.of_trans d d' d'').andThen fun _ _ =>
          (ihf f' f'').andThen fun _ _ => ihg g' g''
      | _ => cases second
    | _ => cases first
  | bind q v f ih =>
    refine composes_of_same_rank fun first second => ?_
    cases b with
    | bind q' w g =>
      cases c with
      | bind q'' x h =>
        simp only [compare]
        exact (Composes.of_trans q q' q'').andThen fun _ _ =>
          (Composes.of_trans v w x).andThen fun _ _ => ih g h
      | _ => cases second
    | _ => cases first

instance : Std.TransCmp Formula.compare :=
  Composes.transCmp (fun _ => compare_eq_iff.mpr rfl) compare_composes

theorem compare_bare (f g : Formula) : f.bare.compare g.bare = f.compare g :=
  (Std.TransCmp.congr_left (compare_eq_iff.mpr f.bare_bare)).trans
    (Std.TransCmp.congr_right (compare_eq_iff.mpr g.bare_bare))

end Formula

theorem Term.compare_bare (t u : Term) : t.bare.compare u.bare = t.compare u :=
  (Std.TransCmp.congr_left (compare_eq_iff.mpr t.bare_bare)).trans
    (Std.TransCmp.congr_right (compare_eq_iff.mpr u.bare_bare))

section Sorting

variable {α : Type} {cmp : α → α → Ordering} [Std.TransCmp cmp]

theorem isLE_of_not_isLE {a b : α} (above : ¬ (cmp a b).isLE = true) : (cmp b a).isLE = true := by
  have swap : cmp b a = (cmp a b).swap := Std.OrientedCmp.eq_swap
  rw [swap]
  cases order : cmp a b <;> simp_all

theorem pairwise_mergeSort (xs : List α) :
    (xs.mergeSort fun a b => (cmp a b).isLE).Pairwise fun a b => (cmp a b).isLE = true := by
  apply List.pairwise_mergeSort
  · exact fun a b c => Std.TransCmp.isLE_trans
  · intro a b
    by_cases below : (cmp a b).isLE = true
    · simp [below]
    · simp [isLE_of_not_isLE below]

/-- Sorting lists that are rearrangements of each other under a key that the comparison respects
gives equal keys. -/
theorem map_mergeSort_eq {key : α → α} {xs ys : List α}
    (respects : ∀ a b, cmp (key a) (key b) = cmp a b)
    (determines : ∀ a ∈ xs, ∀ b ∈ ys, cmp a b = .eq → key a = key b)
    (perm : (xs.map key).Perm (ys.map key)) :
    (xs.mergeSort fun a b => (cmp a b).isLE).map key =
      (ys.mergeSort fun a b => (cmp a b).isLE).map key := by
  have sorted (zs : List α) : ((zs.mergeSort fun a b => (cmp a b).isLE).map key).Pairwise
      fun a b => (cmp a b).isLE = true := by
    refine List.pairwise_map.mpr ?_
    simp only [respects]
    exact pairwise_mergeSort zs
  refine List.Perm.eq_of_pairwise ?_ (sorted xs) (sorted ys) ?_
  · intro a b left right below above
    obtain ⟨a, member, rfl⟩ := List.mem_map.mp left
    obtain ⟨b, member', rfl⟩ := List.mem_map.mp right
    rw [List.mem_mergeSort] at member member'
    rw [respects] at below above
    exact determines a member b member' (Std.OrientedCmp.isLE_antisymm below above)
  · exact ((List.mergeSort_perm xs _).map key).trans
      (perm.trans ((List.mergeSort_perm ys _).map key).symm)

end Sorting

namespace Term

/-- Sorting forgets the order in which the terms stood. -/
theorem sort_bare {ts us : List Term} (perm : (ts.map bare).Perm (us.map bare)) :
    (sort ts).map bare = (sort us).map bare :=
  map_mergeSort_eq compare_bare (fun _ _ _ _ equal => compare_eq_iff.mp equal) perm

end Term

/-- A comparison that is a total order once what is the same counts as one thing. -/
structure OrdersUpTo {α : Type} (same : α → α → Bool) (cmp : α → α → Ordering) : Prop where
  eq_iff : ∀ a b, cmp a b = .eq ↔ same a b = true
  swap : ∀ a b, cmp b a = (cmp a b).swap
  trans : ∀ a b c, (cmp a b).isLE = true → (cmp b c).isLE = true → (cmp a c).isLE = true

/-- Nothing is decided exactly where the keys agree, and the keys say what is the same. -/
theorem OrdersUpTo.of_key {α β : Type} {same : α → α → Bool} {cmp : α → α → Ordering} {key : α → β}
    [Std.TransCmp cmp] (compared : ∀ a b, cmp a b = .eq ↔ key a = key b)
    (kept : ∀ a b, same a b = true ↔ key a = key b) : OrdersUpTo same cmp where
  eq_iff a b := (compared a b).trans (kept a b).symm
  swap _ _ := Std.OrientedCmp.eq_swap
  trans _ _ _ := Std.TransCmp.isLE_trans

/-- The comparisons of formulas and of terms are total orders. Two things are found equal exactly when
they are the same but for what names show and symbols record. -/
theorem compare_orders :
    OrdersUpTo Formula.same Formula.compare ∧ OrdersUpTo Term.same Term.compare := by
  constructor
  · exact .of_key (fun _ _ => Formula.compare_eq_iff) fun _ _ => Formula.same_iff
  · exact .of_key (fun _ _ => Term.compare_eq_iff) fun _ _ => Term.same_iff

end Sequitur
