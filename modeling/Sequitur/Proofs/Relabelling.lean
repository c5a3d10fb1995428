import Sequitur.Replacement
import Sequitur.Proofs.Congruence

/-! Labels: what is shown of a name, and which arity is recorded of a symbol. Relabelling a formula
changes them and nothing else. Substitution, replacement, flattening and identity do not look at
labels, so they commute with relabelling. Two formulas that are the same but for their labels have
the same plain relabelling; and what stays as it is when all other symbols are marked is built from
the symbols that are not. -/

namespace Sequitur

open Arrangement

/-- Other labels for symbols that keep their names and their flags. -/
structure Relabelling where
  relation : Relation → Relation
  operator : Operator → Operator
  constant : Constant → Constant
  relation_twin (r : Relation) : Symbol.Twin (.relation r) (.relation (relation r))
  operator_twin (op : Operator) : Symbol.Twin (.operator op) (.operator (operator op))
  constant_twin (c : Constant) : Symbol.Twin (.constant c) (.constant (constant c))

namespace Relabelling

variable (m : Relabelling)

@[simp] theorem bare_relation (r : Relation) : (m.relation r).bare = r.bare :=
  (Relation.same_iff.mp (m.relation_twin r).1).symm

@[simp] theorem bare_operator (op : Operator) : (m.operator op).bare = op.bare :=
  (Operator.same_iff.mp (m.operator_twin op).1).symm

@[simp] theorem bare_constant (c : Constant) : (m.constant c).bare = c.bare :=
  (Constant.same_iff.mp (m.constant_twin c).1).symm

@[simp] theorem ordered_relation (r : Relation) : (m.relation r).ordered = r.ordered :=
  (m.relation_twin r).2.symm

@[simp] theorem ordered_operator (op : Operator) : (m.operator op).ordered = op.ordered :=
  (m.operator_twin op).2.symm

@[simp] theorem same_relation_left (r s : Relation) : (m.relation r).same s = r.same s := by
  rw [Bool.eq_iff_iff, Relation.same_iff, Relation.same_iff, bare_relation]

@[simp] theorem same_operator_left (f g : Operator) : (m.operator f).same g = f.same g := by
  rw [Bool.eq_iff_iff, Operator.same_iff, Operator.same_iff, bare_operator]

@[simp] theorem same_constant_left (c d : Constant) : (m.constant c).same d = c.same d := by
  rw [Bool.eq_iff_iff, Constant.same_iff, Constant.same_iff, bare_constant]

@[simp] theorem same_relation_right (r s : Relation) : r.same (m.relation s) = r.same s := by
  rw [Bool.eq_iff_iff, Relation.same_iff, Relation.same_iff, bare_relation]

@[simp] theorem same_operator_right (f g : Operator) : f.same (m.operator g) = f.same g := by
  rw [Bool.eq_iff_iff, Operator.same_iff, Operator.same_iff, bare_operator]

@[simp] theorem same_constant_right (c d : Constant) : c.same (m.constant d) = c.same d := by
  rw [Bool.eq_iff_iff, Constant.same_iff, Constant.same_iff, bare_constant]

def keep : Relabelling where
  relation := id
  operator := id
  constant := id
  relation_twin _ := .refl _
  operator_twin _ := .refl _
  constant_twin _ := .refl _

end Relabelling

namespace Term

@[simp] def relabel (m : Relabelling) : Term → Term
  | .var v => .var v
  | .const c => .const (m.constant c)
  | .app op ts => .app (m.operator op) (ts.map fun t => t.relabel m)

variable {m : Relabelling}

@[simp] theorem vars_relabel (t : Term) : (t.relabel m).vars = t.vars := by
  induction t with
  | var v => simp
  | const c => simp [vars]
  | app op ts ih =>
    rw [relabel, vars, vars, List.map_map]
    exact congrArg VarSet.unions (List.map_congr_left ih)

@[simp] theorem bare_relabel (t : Term) : (t.relabel m).bare = t.bare := by
  induction t with
  | var v => simp
  | const c => simp [bare]
  | app op ts ih => simpa [bare] using ih

theorem vars_bare (t : Term) : t.bare.vars = t.vars := by
  induction t with
  | var v => simp [bare]
  | const c => simp [bare, vars]
  | app op ts ih =>
    rw [bare, vars, vars, List.map_map]
    exact congrArg VarSet.unions (List.map_congr_left ih)

theorem vars_of_bare {t u : Term} (same : t.bare = u.bare) : t.vars = u.vars := by
  rw [← vars_bare, same, vars_bare]

@[simp] theorem relabel_keep (t : Term) : t.relabel .keep = t := by
  induction t with
  | var v => simp
  | const c => simp [Relabelling.keep]
  | app op ts ih =>
    rw [relabel, List.map_congr_left ih, List.map_id']
    rfl

@[simp] theorem identicalUnder_relabel (n : Relabelling) (bound : BinderPairs) (t u : Term) :
    (t.relabel m).identicalUnder bound (u.relabel n) = t.identicalUnder bound u := by
  induction t generalizing u with
  | var v => cases u <;> simp [identicalUnder]
  | const c => cases u <;> simp [identicalUnder]
  | app op ts ih =>
    cases u with
    | var v => simp [identicalUnder]
    | const c => simp [identicalUnder]
    | app op' us =>
      simp only [relabel, identicalUnder, Relabelling.same_operator_left,
        Relabelling.same_operator_right, Relabelling.ordered_operator, List.length_map,
        identicalInOrder_eq, identicalAssignable_eq, inOrder_map, assignable_map]
      have each : ∀ t ∈ ts, ∀ u ∈ us, (t.relabel m).identicalUnder bound (u.relabel n) =
          t.identicalUnder bound u := fun t member u _ => ih t member u
      rw [inOrder_congr each, assignable_congr each]

@[simp] theorem identicalArgs_relabel (n : Relabelling) (bound : BinderPairs) (ordered : Bool)
    (ts us : List Term) :
    identicalArgs bound ordered (ts.map (relabel m)) (us.map (relabel n)) =
      identicalArgs bound ordered ts us := by
  have each : ∀ t ∈ ts, ∀ u ∈ us, (t.relabel m).identicalUnder bound (u.relabel n) =
      t.identicalUnder bound u := fun t _ u _ => identicalUnder_relabel n bound t u
  simp only [identicalArgs, List.length_map, identicalInOrder_eq, identicalAssignable_eq,
    inOrder_map, assignable_map, inOrder_congr each, assignable_congr each]

end Term

def Subst.relabel (m : Relabelling) (s : Subst) : Subst := s.map (Prod.map id (Term.relabel m))

namespace Term

variable {m : Relabelling}

theorem twinInstance_relabel (m : Relabelling) (t : Term) : t.TwinInstance (t.relabel m) := by
  induction t with
  | var v =>
    rw [relabel]
    exact .refl _
  | const c =>
    rw [relabel]
    exact .const (m.constant_twin c)
  | app op ts ih =>
    rw [relabel]
    refine .app (m.operator_twin op) (.map_right _ ts _) fun p pair => ?_
    obtain ⟨t, member, rfl⟩ := List.mem_map.mp pair
    exact ih t member

theorem subst_relabel (s : Subst) (t : Term) :
    (t.relabel m).subst (s.relabel m) = (t.subst s).relabel m := by
  induction t with
  | var v =>
    simp only [relabel, subst, Subst.relabel]
    rw [Subst.lookup_map]
    cases s.lookup v <;> simp
  | const c => simp [subst]
  | app op ts ih => simpa [subst] using ih

/-- The labels of what is replaced do not matter. -/
theorem replace_relabel {target target' : Term} (same : target'.bare = target.bare) (new t : Term) :
    (t.relabel m).replace target' (new.relabel m) = (t.replace target new).relabel m := by
  have here (t : Term) : (t.relabel m).same target' = t.same target := by
    rw [Bool.eq_iff_iff, same_iff, same_iff, bare_relabel, same]
  induction t with
  | var v =>
    rw [replace.eq_def, replace.eq_def (.var v), here]
    split <;> simp
  | const c =>
    rw [replace.eq_def, replace.eq_def (.const c), here]
    split <;> simp
  | app op ts ih =>
    rw [replace.eq_def, replace.eq_def (.app op ts), here]
    split
    · rfl
    · simpa using ih

end Term

namespace Formula

@[simp] def relabel (m : Relabelling) : Formula → Formula
  | .atom r ts => .atom (m.relation r) (ts.map (Term.relabel m))
  | .not f => .not (f.relabel m)
  | .multi c fs => .multi c (fs.map fun f => f.relabel m)
  | .link c a b => .link c (a.relabel m) (b.relabel m)
  | .bind q v f => .bind q v (f.relabel m)

variable {m : Relabelling}

@[simp] theorem freeVars_relabel (f : Formula) : (f.relabel m).freeVars = f.freeVars := by
  induction f with
  | atom r ts => simp [freeVars, Function.comp_def]
  | not f ih => simpa [freeVars] using ih
  | multi c fs ih =>
    rw [relabel, freeVars, freeVars, List.map_map]
    exact congrArg VarSet.unions (List.map_congr_left ih)
  | link c a b iha ihb => simp [freeVars, iha, ihb]
  | bind q v f ih => simp [freeVars, ih]

@[simp] theorem allVars_relabel (f : Formula) : (f.relabel m).allVars = f.allVars := by
  induction f with
  | atom r ts => simp [allVars, Function.comp_def]
  | not f ih => simpa [allVars] using ih
  | multi c fs ih =>
    rw [relabel, allVars, allVars, List.map_map]
    exact congrArg VarSet.unions (List.map_congr_left ih)
  | link c a b iha ihb => simp [allVars, iha, ihb]
  | bind q v f ih => simp [allVars, ih]

@[simp] theorem relabel_keep (f : Formula) : f.relabel .keep = f := by
  induction f with
  | atom r ts =>
    rw [relabel, List.map_congr_left fun t _ => t.relabel_keep, List.map_id']
    rfl
  | not f ih => rw [relabel, ih]
  | multi c fs ih => rw [relabel, List.map_congr_left ih, List.map_id']
  | link c a b iha ihb => rw [relabel, iha, ihb]
  | bind q v f ih => rw [relabel, ih]

theorem twinInstance_relabel (m : Relabelling) (f : Formula) : f.TwinInstance (f.relabel m) := by
  induction f with
  | atom r ts =>
    rw [relabel]
    refine .atom (m.relation_twin r) (.map_right _ ts _) fun p pair => ?_
    obtain ⟨t, -, rfl⟩ := List.mem_map.mp pair
    exact t.twinInstance_relabel m
  | not f ih =>
    rw [relabel]
    exact .not ih
  | multi c fs ih =>
    rw [relabel]
    refine .multi (.map_right _ fs _) fun p pair => ?_
    obtain ⟨f, member, rfl⟩ := List.mem_map.mp pair
    exact ih f member
  | link c a b iha ihb =>
    rw [relabel]
    cases c with
    | imply => exact .imply iha ihb
    | equiv => exact .sides (.inl ⟨iha, ihb⟩)
  | bind q v f ih =>
    rw [relabel]
    exact ih.body

@[simp] theorem identicalUnder_relabel (n : Relabelling) (bound : BinderPairs) (f g : Formula) :
    (f.relabel m).identicalUnder bound (g.relabel n) = f.identicalUnder bound g := by
  induction f generalizing bound g with
  | atom r ts => cases g <;> simp [identicalUnder]
  | not f ih => cases g <;> simp [identicalUnder, ih]
  | multi c fs ih =>
    cases g with
    | multi d gs =>
      have each : ∀ f ∈ fs, ∀ g ∈ gs, (f.relabel m).identicalUnder bound (g.relabel n) =
          f.identicalUnder bound g := fun f member g _ => ih f member bound g
      simp only [relabel, identicalUnder, List.length_map, identicalAssignable_eq, assignable_map,
        assignable_congr each]
    | _ => simp [identicalUnder]
  | link c a b iha ihb =>
    cases g with
    | link d a' b' => cases c <;> cases d <;> simp [identicalUnder, iha, ihb]
    | _ => simp [identicalUnder]
  | bind q v f ih => cases g <;> simp [identicalUnder, ih]

theorem identical_relabel (n : Relabelling) (f g : Formula) :
    (f.relabel m).identical (g.relabel n) = f.identical g := identicalUnder_relabel n [] f g

theorem identical_relabel_left (f g : Formula) : (f.relabel m).identical g = f.identical g := by
  simpa using identical_relabel (m := m) .keep f g

theorem renameFree_relabel (v w : Variable) (f : Formula) :
    (f.relabel m).renameFree v w = (f.renameFree v w).relabel m := by
  induction f with
  | atom r ts =>
    have each (t : Term) : (t.relabel m).subst [(v, .var w)] = (t.subst [(v, .var w)]).relabel m := by
      simpa [Subst.relabel] using t.subst_relabel (m := m) [(v, .var w)]
    simp [renameFree, each]
  | not f ih => simp [renameFree, ih]
  | multi c fs ih => simpa [renameFree] using ih
  | link c a b iha ihb => simp [renameFree, iha, ihb]
  | bind q u f ih =>
    by_cases here : u = v
    · simp [renameFree, here]
    · simp [renameFree, here, ih]

end Formula

namespace Subst

variable {m : Relabelling}

theorem without_relabel (s : Subst) (v : Variable) :
    (s.relabel m).without v = (s.without v).relabel m := by
  simp [relabel, without, List.filter_map, Function.comp_def]

theorem vars_relabel (s : Subst) : (s.relabel m).vars = s.vars := by
  simp [relabel, vars, Function.comp_def]

theorem captures_relabel (s : Subst) (v : Variable) (f : Formula) :
    (s.relabel m).captures v (f.relabel m) = s.captures v f := by
  simp [relabel, captures, Function.comp_def]

theorem ofList_relabel (params : List Variable) (args : List Term) :
    ofList (params.zip (args.map (Term.relabel m))) = (ofList (params.zip args)).relabel m := by
  have bindings (s : Subst) :
      (params.zip (args.map (Term.relabel m))).foldl (fun s p => s.bind p.1 p.2) (s.relabel m) =
        ((params.zip args).foldl (fun s p => s.bind p.1 p.2) s).relabel m := by
    induction params generalizing args s with
    | nil => simp
    | cons v params ih =>
      cases args with
      | nil => simp
      | cons t args =>
        have here : (s.relabel m).bind v (t.relabel m) = (s.bind v t).relabel m := by
          simp [relabel, bind, List.filter_map, Function.comp_def]
        simp only [List.map_cons, List.zip_cons_cons, List.foldl_cons, here]
        exact ih args (s.bind v t)
  exact bindings []

end Subst

namespace Formula

variable {m : Relabelling}

theorem subst_relabel (s : Subst) (f : Formula) :
    (f.relabel m).subst (s.relabel m) = (f.subst s).relabel m := by
  fun_induction subst s f with
  | case1 s r ts => simp [subst, Term.subst_relabel]
  | case2 s f ih => simp [subst, ih]
  | case3 s c fs ih => simpa [subst] using ih
  | case4 s c a b iha ihb => simp [subst, iha, ihb]
  | case5 s q v f inner caught w ih =>
    rw [relabel, subst, Subst.without_relabel, Subst.captures_relabel, if_pos caught, relabel]
    simp only [allVars_relabel, Subst.vars_relabel, renameFree_relabel]
    exact congrArg (bind q w) ih
  | case6 s q v f inner clear ih =>
    rw [relabel, subst, Subst.without_relabel, Subst.captures_relabel, if_neg clear, relabel, ih]

theorem replace_relabel {target target' : Term} (same : target'.bare = target.bare) (new : Term)
    (f : Formula) :
    (f.relabel m).replace target' (new.relabel m) = (f.replace target new).relabel m := by
  have vars := Term.vars_of_bare same
  fun_induction replace target new f with
  | case1 r ts => simp [replace, Term.replace_relabel same]
  | case2 f ih => simp [replace, ih]
  | case3 c fs ih => simpa [replace] using ih
  | case4 c a b iha ihb => simp [replace, iha, ihb]
  | case5 q v f shadowed => rw [relabel, replace, vars, if_pos shadowed]
  | case6 q v f visible caught w ih =>
    rw [relabel, replace, vars, if_neg visible, Term.vars_relabel, if_pos caught, relabel]
    simp only [allVars_relabel, renameFree_relabel]
    exact congrArg (bind q w) ih
  | case7 q v f visible clear ih =>
    rw [relabel, replace, vars, if_neg visible, Term.vars_relabel, if_neg clear, relabel, ih]

theorem members_relabel (c : Junction) (f : Formula) :
    (f.relabel m).members c = (f.members c).map (relabel m) := by
  cases f with
  | multi d fs =>
    simp only [relabel, members]
    split <;> simp
  | _ => simp [members]

theorem flatten_relabel (f : Formula) : (f.relabel m).flatten = f.flatten.relabel m := by
  induction f with
  | atom r ts => simp [flatten]
  | not f ih => simp [flatten, ih]
  | multi c fs ih =>
    have each : ∀ f ∈ fs, (f.relabel m).flatten.members c =
        (f.flatten.members c).map (relabel m) := by
      intro f member
      rw [ih f member, members_relabel]
    simp only [relabel, flatten, List.flatMap_map, List.map_flatMap]
    rw [List.flatMap_congr each]
  | link c a b iha ihb => simp [flatten, iha, ihb]
  | bind q v f ih => simp [flatten, ih]

end Formula

/-! Plain labels: the full text of a name, and no arity. -/

def Relation.plain : Relation → Relation
  | .named n => .named n.bare
  | .pred p => .pred ⟨p.name.bare, 0, p.ordered⟩

def Operator.plain : Operator → Operator
  | .named n => .named n.bare
  | .fn f => .fn ⟨f.name.bare, none, f.ordered⟩

def Relabelling.plain : Relabelling where
  relation := Relation.plain
  operator := Operator.plain
  constant := Constant.bare
  relation_twin r := ⟨Relation.same_iff.mpr (by cases r <;> rfl), by cases r <;> rfl⟩
  operator_twin op := ⟨Operator.same_iff.mpr (by cases op <;> rfl), by cases op <;> rfl⟩
  constant_twin _ := ⟨Constant.same_iff.mpr rfl, rfl⟩

theorem Relation.plain_eq {r s : Relation} (same : r.bare = s.bare) (order : r.ordered = s.ordered) :
    r.plain = s.plain := by
  cases r <;> cases s <;> simp_all [bare, plain, ordered]

theorem Operator.plain_eq {f g : Operator} (same : f.bare = g.bare) (order : f.ordered = g.ordered) :
    f.plain = g.plain := by
  cases f <;> cases g <;> simp_all [bare, plain, ordered]

def Symbol.Single (P : Symbol → Prop) : Prop :=
  ∀ s t, P s → P t → s.same t = true → s.ordered = t.ordered

theorem map_eq_of_map_eq {α β γ : Type} {key : α → β} {label : α → γ} {xs ys : List α}
    (same : xs.map key = ys.map key)
    (each : ∀ x ∈ xs, ∀ y ∈ ys, key x = key y → label x = label y) :
    xs.map label = ys.map label := by
  induction xs generalizing ys with
  | nil =>
    obtain rfl := List.map_eq_nil_iff.mp same.symm
    rfl
  | cons x xs ih =>
    obtain ⟨y, ys, rfl, here, later⟩ := List.map_eq_cons_iff.mp same.symm
    rw [List.map_cons, List.map_cons, each x (by simp) y (by simp) here.symm]
    rw [ih later.symm fun x member y member' => each x (by simp [member]) y (by simp [member'])]

variable {P : Symbol → Prop}

theorem Term.relabel_plain_eq (single : Symbol.Single P) {t u : Term} (left : ∀ s ∈ t.symbols, P s)
    (right : ∀ s ∈ u.symbols, P s) (same : t.bare = u.bare) :
    t.relabel .plain = u.relabel .plain := by
  induction t generalizing u with
  | var v => cases u <;> simp_all [bare]
  | const c => cases u <;> simp_all [bare, Relabelling.plain]
  | app op ts ih =>
    cases u with
    | var v => simp [bare] at same
    | const c => simp [bare] at same
    | app op' us =>
      simp only [bare, app.injEq] at same
      have order : op.ordered = op'.ordered :=
        single (.operator op) (.operator op') (left _ (by simp)) (right _ (by simp))
          (Operator.same_iff.mpr same.1)
      simp only [relabel, app.injEq]
      refine ⟨Operator.plain_eq same.1 order, map_eq_of_map_eq same.2 ?_⟩
      intro t member u member' equal
      exact ih t member (fun s occurs => left s (mem_symbols_app.mpr (.inr ⟨t, member, occurs⟩)))
        (fun s occurs => right s (mem_symbols_app.mpr (.inr ⟨u, member', occurs⟩))) equal

/-- Formulas that are the same, but for labels, have the same plain labels. -/
theorem Formula.relabel_plain_eq (single : Symbol.Single P) {f g : Formula}
    (left : ∀ s ∈ f.symbols, P s) (right : ∀ s ∈ g.symbols, P s) (same : f.bare = g.bare) :
    f.relabel .plain = g.relabel .plain := by
  induction f generalizing g with
  | atom r ts =>
    cases g with
    | atom r' us =>
      simp only [bare, atom.injEq] at same
      have order : r.ordered = r'.ordered :=
        single (.relation r) (.relation r') (left _ (by simp)) (right _ (by simp))
          (Relation.same_iff.mpr same.1)
      simp only [relabel, atom.injEq]
      refine ⟨Relation.plain_eq same.1 order, map_eq_of_map_eq same.2 ?_⟩
      intro t member u member' equal
      exact Term.relabel_plain_eq single
        (fun s occurs => left s (mem_symbols_atom.mpr (.inr ⟨t, member, occurs⟩)))
        (fun s occurs => right s (mem_symbols_atom.mpr (.inr ⟨u, member', occurs⟩))) equal
    | _ => simp [bare] at same
  | not f ih =>
    cases g with
    | not g =>
      simp only [bare, not.injEq] at same
      simp only [mem_symbols_not] at left right
      rw [relabel, relabel, ih left right same]
    | _ => simp [bare] at same
  | multi c fs ih =>
    cases g with
    | multi d gs =>
      simp only [bare, multi.injEq] at same
      simp only [relabel, multi.injEq]
      refine ⟨same.1, map_eq_of_map_eq same.2 ?_⟩
      intro f member g member' equal
      exact ih f member (fun s occurs => left s (mem_symbols_multi.mpr ⟨f, member, occurs⟩))
        (fun s occurs => right s (mem_symbols_multi.mpr ⟨g, member', occurs⟩)) equal
    | _ => simp [bare] at same
  | link c a b iha ihb =>
    cases g with
    | link d a' b' =>
      simp only [bare, link.injEq] at same
      simp only [mem_symbols_link, or_imp, forall_and] at left right
      rw [relabel, relabel, same.1, iha left.1 right.1 same.2.1, ihb left.2 right.2 same.2.2]
    | _ => simp [bare] at same
  | bind q v f ih =>
    cases g with
    | bind q' w g =>
      simp only [bare, bind.injEq] at same
      simp only [mem_symbols_bind] at left right
      rw [relabel, relabel, same.1, same.2.1, ih left right same.2.2]
    | _ => simp [bare] at same

/-! Marked labels: a name that shows something else. -/

def Name.marked (n : Name) : Name := ⟨n.display.push '*', n.full⟩

theorem Name.marked_ne (n : Name) : n.marked ≠ n := by
  intro equal
  have lengths := congrArg (fun n => n.display.length) equal
  simp [marked] at lengths

def Relation.marked : Relation → Relation
  | .named n => .named n.marked
  | .pred p => .pred { p with name := p.name.marked }

def Operator.marked : Operator → Operator
  | .named n => .named n.marked
  | .fn f => .fn { f with name := f.name.marked }

def Constant.marked (c : Constant) : Constant := ⟨c.name.marked⟩

theorem Relation.marked_ne (r : Relation) : r.marked ≠ r := by
  cases r with
  | named n => simp [marked, n.marked_ne]
  | pred p =>
    intro equal
    exact p.name.marked_ne (congrArg Predicate.name (Relation.pred.inj equal))

theorem Operator.marked_ne (op : Operator) : op.marked ≠ op := by
  cases op with
  | named n => simp [marked, n.marked_ne]
  | fn f =>
    intro equal
    exact f.name.marked_ne (congrArg FunctionSymbol.name (Operator.fn.inj equal))

theorem Constant.marked_ne (c : Constant) : c.marked ≠ c := fun equal =>
  c.name.marked_ne (congrArg Constant.name equal)

open Classical in
noncomputable def Relabelling.marking (P : Symbol → Prop) : Relabelling where
  relation r := if P (.relation r) then r else r.marked
  operator op := if P (.operator op) then op else op.marked
  constant c := if P (.constant c) then c else c.marked
  relation_twin r := by
    split
    · exact .refl _
    · exact ⟨Relation.same_iff.mpr (by cases r <;> rfl), by cases r <;> rfl⟩
  operator_twin op := by
    split
    · exact .refl _
    · exact ⟨Operator.same_iff.mpr (by cases op <;> rfl), by cases op <;> rfl⟩
  constant_twin c := by
    split
    · exact .refl _
    · exact ⟨Constant.same_iff.mpr rfl, rfl⟩

namespace Relabelling

@[simp] theorem marking_relation {r : Relation} : (marking P).relation r = r ↔ P (.relation r) := by
  simp only [marking]
  split
  · simp_all
  · simp_all [r.marked_ne]

@[simp] theorem marking_operator {op : Operator} :
    (marking P).operator op = op ↔ P (.operator op) := by
  simp only [marking]
  split
  · simp_all
  · simp_all [op.marked_ne]

@[simp] theorem marking_constant {c : Constant} : (marking P).constant c = c ↔ P (.constant c) := by
  simp only [marking]
  split
  · simp_all
  · simp_all [c.marked_ne]

end Relabelling

theorem map_eq_self_iff {α : Type} {g : α → α} {xs : List α} :
    xs.map g = xs ↔ ∀ x ∈ xs, g x = x := by
  simpa using List.map_inj_left (l := xs) (f := g) (g := id)

theorem Symbol.forall_of_parts {α : Type} {symbols : α → List Symbol} {xs : List α} :
    (∀ s, (∃ x ∈ xs, s ∈ symbols x) → P s) ↔ ∀ x ∈ xs, ∀ s ∈ symbols x, P s :=
  ⟨fun all x member s occurs => all s ⟨x, member, occurs⟩,
    fun all s ⟨x, member, occurs⟩ => all x member s occurs⟩

theorem Term.relabel_marking_iff {t : Term} :
    t.relabel (.marking P) = t ↔ ∀ s ∈ t.symbols, P s := by
  induction t with
  | var v => simp [symbols]
  | const c => simp
  | app op ts ih =>
    have each : (∀ t ∈ ts, t.relabel (.marking P) = t) ↔ ∀ t ∈ ts, ∀ s ∈ t.symbols, P s :=
      forall₂_congr ih
    rw [relabel, app.injEq, Relabelling.marking_operator, map_eq_self_iff, each,
      ← Symbol.forall_of_parts]
    simp only [mem_symbols_app, forall_eq_or_imp]

/-- A formula stays as it is when it has none of the symbols that are marked. -/
theorem Formula.relabel_marking_iff {f : Formula} :
    f.relabel (.marking P) = f ↔ ∀ s ∈ f.symbols, P s := by
  induction f with
  | atom r ts =>
    have each : (∀ t ∈ ts, t.relabel (.marking P) = t) ↔ ∀ t ∈ ts, ∀ s ∈ t.symbols, P s :=
      forall₂_congr fun _ _ => Term.relabel_marking_iff
    rw [relabel, atom.injEq, Relabelling.marking_relation, map_eq_self_iff, each,
      ← Symbol.forall_of_parts]
    simp only [mem_symbols_atom, forall_eq_or_imp]
  | not f ih => simpa using ih
  | multi c fs ih =>
    have each : (∀ f ∈ fs, f.relabel (.marking P) = f) ↔ ∀ f ∈ fs, ∀ s ∈ f.symbols, P s :=
      forall₂_congr ih
    rw [relabel, multi.injEq, map_eq_self_iff, each, ← Symbol.forall_of_parts]
    simp only [mem_symbols_multi, true_and]
  | link c a b iha ihb => simp [iha, ihb, or_imp, forall_and]
  | bind q v f ih => simpa using ih

theorem Formula.symbols_flatten {f : Formula} (symbols : ∀ s ∈ f.symbols, P s) :
    ∀ s ∈ f.flatten.symbols, P s := by
  rw [← relabel_marking_iff] at symbols ⊢
  rw [← flatten_relabel, symbols]

end Sequitur
