import Sequitur.Proofs.RegularForm
import Sequitur.Proofs.Substitution
import Sequitur.Proofs.Truth

/-! Identity as a congruence. Where every name has a single flag, two formulas are identical
exactly when renaming of bound variables and rearranging of commutative parts, inside them and
any number of times, leads from one to the other. In every interpretation that does not look at
the order of unordered arguments, identical formulas are true together. -/

namespace Sequitur

open Arrangement

universe u

/-- The least congruence under which an unordered function takes its arguments in any order.
Symbols are equal when their names and their flags are. -/
inductive Term.Congruent : Term → Term → Prop
  | refl (t : Term) : Congruent t t
  | symm {t u : Term} : Congruent t u → Congruent u t
  | trans {t u w : Term} : Congruent t u → Congruent u w → Congruent t w
  | const {c d : Constant} : Symbol.Twin (.constant c) (.constant d) →
      Congruent (.const c) (.const d)
  | head {f g : Operator} {ts : List Term} : Symbol.Twin (.operator f) (.operator g) →
      Congruent (.app f ts) (.app g ts)
  | argument {f : Operator} {before after : List Term} {t u : Term} : Congruent t u →
      Congruent (.app f (before ++ t :: after)) (.app f (before ++ u :: after))
  | permute {f : Operator} {ts us : List Term} : f.ordered = false → ts.Perm us →
      Congruent (.app f ts) (.app f us)

/-- The least congruence under which a bound variable may get any name that is not free in the
body, and commutative parts may stand in any order. -/
inductive Formula.Congruent : Formula → Formula → Prop
  | refl (f : Formula) : Congruent f f
  | symm {f g : Formula} : Congruent f g → Congruent g f
  | trans {f g h : Formula} : Congruent f g → Congruent g h → Congruent f h
  | head {r s : Relation} {ts : List Term} : Symbol.Twin (.relation r) (.relation s) →
      Congruent (.atom r ts) (.atom s ts)
  | argument {r : Relation} {before after : List Term} {t u : Term} : Term.Congruent t u →
      Congruent (.atom r (before ++ t :: after)) (.atom r (before ++ u :: after))
  | not {f g : Formula} : Congruent f g → Congruent (.not f) (.not g)
  | member {c : Junction} {before after : List Formula} {f g : Formula} : Congruent f g →
      Congruent (.multi c (before ++ f :: after)) (.multi c (before ++ g :: after))
  | left {c : Arrow} {a a' b : Formula} : Congruent a a' → Congruent (.link c a b) (.link c a' b)
  | right {c : Arrow} {a b b' : Formula} : Congruent b b' → Congruent (.link c a b) (.link c a b')
  | body {q : Quantifier} {v : Variable} {f g : Formula} : Congruent f g →
      Congruent (.bind q v f) (.bind q v g)
  | permuteArguments {r : Relation} {ts us : List Term} : r.ordered = false → ts.Perm us →
      Congruent (.atom r ts) (.atom r us)
  | permuteMembers {c : Junction} {fs gs : List Formula} : fs.Perm gs →
      Congruent (.multi c fs) (.multi c gs)
  | swap {a b : Formula} : Congruent (.equiv a b) (.equiv b a)
  | rename {q : Quantifier} {v w : Variable} {f : Formula} : w ∉ f.freeVars →
      Congruent (.bind q v f) (.bind q w (f.rename [(v, w)]))

namespace Symbol.Twin

variable {s t w : Symbol}

theorem refl (s : Symbol) : s.Twin s := ⟨same_of_eq rfl, rfl⟩

theorem symm (twin : s.Twin t) : t.Twin s := ⟨same_symm twin.1, twin.2.symm⟩

theorem trans (first : s.Twin t) (second : t.Twin w) : s.Twin w :=
  ⟨same_trans first.1 second.1, first.2.trans second.2⟩

end Symbol.Twin

namespace Arrangement

variable {α β : Type} {related : α → α → Prop}

/-- What may be done to one item of a list may be done to all. -/
theorem each_of_one {R : β → β → Prop} {make : List α → β} (refl : ∀ b, R b b)
    (trans : ∀ {a b c}, R a b → R b c → R a c)
    (one : ∀ {before after x y}, related x y →
      R (make (before ++ x :: after)) (make (before ++ y :: after)))
    {pairs : List (α × α)} (all : ∀ p ∈ pairs, related p.1 p.2) (before : List α) :
    R (make (before ++ pairs.map Prod.fst)) (make (before ++ pairs.map Prod.snd)) := by
  induction pairs generalizing before with
  | nil => exact refl _
  | cons p pairs ih =>
    obtain ⟨here, later⟩ := List.forall_mem_cons.mp all
    have rest := ih later (before ++ [p.2])
    rw [List.append_assoc, List.append_assoc] at rest
    exact trans (one here) rest

namespace Pairing

/-- One item has another counterpart, the others stay as they are. -/
theorem exists_of_one (ordered : Bool) (before after : List α) {x y : α}
    (refl : ∀ z, related z z) (here : related x y) :
    ∃ pairs, Pairing ordered pairs (before ++ x :: after) (before ++ y :: after) ∧
      ∀ p ∈ pairs, related p.1 p.2 := by
  have pairing : Pairing true
      (before.map (fun z => (z, z)) ++ (x, y) :: after.map fun z => (z, z))
      (before ++ x :: after) (before ++ y :: after) := by
    simp [Pairing, Function.comp_def]
  refine ⟨_, pairing.ofOrdered ordered, fun p pair => ?_⟩
  rcases List.mem_append.mp pair with earlier | pair
  · obtain ⟨z, -, rfl⟩ := List.mem_map.mp earlier
    exact refl z
  · rcases List.mem_cons.mp pair with rfl | later
    · exact here
    · obtain ⟨z, -, rfl⟩ := List.mem_map.mp later
      exact refl z

theorem of_perm {xs ys : List α} (perm : xs.Perm ys) :
    Pairing false (xs.map fun x => (x, x)) xs ys := by
  simpa [Pairing, Function.comp_def] using perm

end Pairing

end Arrangement

namespace Term

/-- A term to which nothing happens but the change of labels and order. -/
abbrev TwinInstance (t u : Term) : Prop := Instance Symbol.Twin .keep t u

theorem TwinInstance.refl (t : Term) : t.TwinInstance t :=
  Instance.refl Symbol.Twin.refl fun _ _ => rfl

theorem TwinInstance.symm {t u : Term} (inst : t.TwinInstance u) : u.TwinInstance t := by
  refine inst.span (TwinInstance.refl t) (fun _ _ twin => twin.2)
    (fun s m n first second => first.symm.trans second) ?_
  rintro x - m n rfl rfl
  exact .var rfl

theorem TwinInstance.trans {t u w : Term} (first : t.TwinInstance u) (second : u.TwinInstance w) :
    t.TwinInstance w := by
  refine (first.comp second (fun _ _ twin => twin.2) fun _ _ _ => .trans).mono
    (fun _ _ _ _ twin => twin) ?_
  rintro x - s - ⟨m, rfl, inst⟩
  cases inst with
  | var becomes => exact becomes

theorem TwinInstance.congruent {t u : Term} (inst : t.TwinInstance u) : t.Congruent u := by
  induction inst with
  | var becomes =>
    rw [becomes]
    exact .refl _
  | const twin => exact .const twin
  | @app f g ts us pairs twin pairing _ ih =>
    have each : Congruent (.app f (pairs.map Prod.fst)) (.app f (pairs.map Prod.snd)) :=
      each_of_one .refl .trans .argument ih []
    rw [pairing.1] at each
    refine each.trans (.trans ?_ (.head twin))
    cases order : f.ordered with
    | true =>
      rw [order] at pairing
      rw [pairing.2]
      exact .refl _
    | false => exact .permute order pairing.perm

theorem Congruent.twinInstance {t u : Term} (congruent : t.Congruent u) : t.TwinInstance u := by
  induction congruent with
  | refl t => exact .refl t
  | symm _ ih => exact ih.symm
  | trans _ _ first second => exact first.trans second
  | const twin => exact .const twin
  | @head f g ts twin =>
    refine .app twin (.refl _ ts) fun p pair => ?_
    obtain ⟨t, -, rfl⟩ := List.mem_map.mp pair
    exact TwinInstance.refl t
  | @argument f before after t u _ ih =>
    obtain ⟨pairs, pairing, all⟩ := Pairing.exists_of_one f.ordered before after
      TwinInstance.refl ih
    exact .app (.refl _) pairing all
  | @permute f ts us unordered perm =>
    have pairing : Pairing f.ordered (ts.map fun t => (t, t)) ts us :=
      unordered ▸ Pairing.of_perm perm
    refine .app (.refl _) pairing fun p pair => ?_
    obtain ⟨t, -, rfl⟩ := List.mem_map.mp pair
    exact TwinInstance.refl t

end Term

namespace Formula

variable {f g h : Formula}

/-- Instances have as many nodes. -/
theorem Instance.size_eq {R : Symbol → Symbol → Prop} {E : Change} (inst : Instance R E f g) :
    f.size = g.size := by
  have members (fs : List Formula) :
      fs.foldr (fun f n => f.size + n) 0 = (fs.map fun f => f.size).sum := by
    induction fs with
    | nil => rfl
    | cons f fs ih => simp [ih]
  induction inst with
  | atom => rw [size, size]
  | not _ ih => rw [size, size, ih]
  | multi pairing _ ih => rw [size, size, members, members, (pairing.perm_keys ih).sum_nat]
  | imply _ _ iha ihb => rw [size, size, iha, ihb]
  | equiv pairing _ ih =>
    have sum := (pairing.perm_keys ih).sum_nat
    simp only [List.map_cons, List.map_nil, List.sum_cons, List.sum_nil] at sum
    rw [size, size]
    omega
  | bind _ ih => rw [size, size, ih]

abbrev TwinInstance (f g : Formula) : Prop := Instance Symbol.Twin .keep f g

namespace TwinInstance

theorem refl (f : Formula) : f.TwinInstance f := Instance.refl Symbol.Twin.refl fun _ _ => rfl

theorem symm (inst : f.TwinInstance g) : g.TwinInstance f :=
  Instance.symm inst (fun _ _ twin => twin.2) fun _ _ => .symm

theorem trans (first : f.TwinInstance g) (second : g.TwinInstance h) : f.TwinInstance h :=
  Instance.trans first second (fun _ _ twin => twin.2) fun _ _ _ => .trans

theorem sides {a b c d : Formula}
    (related : a.TwinInstance c ∧ b.TwinInstance d ∨ a.TwinInstance d ∧ b.TwinInstance c) :
    TwinInstance (.equiv a b) (.equiv c d) := by
  have paired : ∃ pairs, Pairing false pairs [a, b] [c, d] ∧ ∀ p ∈ pairs, p.1.TwinInstance p.2 :=
    Pairing.exists_two.mpr related
  obtain ⟨pairs, pairing, all⟩ := paired
  exact .equiv pairing all

theorem body {q : Quantifier} {v : Variable} (inst : f.TwinInstance g) :
    TwinInstance (.bind q v f) (.bind q v g) := by
  refine .bind (inst.mono (fun _ _ _ _ twin => twin) ?_)
  rintro x - s - rfl
  by_cases here : x = v
  · exact .inl ⟨here, by rw [here]⟩
  · exact .inr ⟨here, by simpa using Ne.symm here, rfl⟩

theorem of_eq (inst : Instance Eq .keep f g) : f.TwinInstance g :=
  inst.mono (fun s _ _ _ same => same ▸ .refl s) fun _ _ _ _ becomes => becomes

theorem identical (inst : f.TwinInstance g) : f.identical g = true :=
  identical_iff.mpr (inst.mono (fun _ _ _ _ twin => twin.1) fun _ _ _ _ becomes => becomes)

end TwinInstance

/-- A bound variable that gets a name which is not free in the body. -/
theorem instance_rename (q : Quantifier) {v w : Variable} (fresh : w ∉ f.freeVars) :
    Instance Eq .keep (.bind q v f) (.bind q w (f.rename [(v, w)])) := by
  refine .bind ((instance_subst [(v, .var w)] f).mono (fun _ _ _ _ same => same) ?_)
  rintro x free s - rfl
  rw [Subst.image, Subst.lookup_cons]
  by_cases here : x = v
  · exact .inl ⟨here, by simp [here]⟩
  · refine .inr ⟨here, ?_, by simp [here, Change.keep]⟩
    rintro caught
    have same : w = x := by simpa [here] using caught
    exact fresh (same ▸ free)

/-- Once both binders have the same new name, the bodies correspond as they are. -/
theorem twinInstance_rename {v w z : Variable}
    (inst : Instance Symbol.Twin (Change.keep.under v w) f g) :
    (f.rename [(v, z)]).TwinInstance (g.rename [(w, z)]) := by
  have left := instance_subst [(v, .var z)] f
  have right := inst.subst [(w, .var z)]
  refine left.span right (fun _ _ same => congrArg Symbol.ordered same)
    (fun s m n same twin => same ▸ twin) ?_
  rintro x - m n rfl ⟨_, ⟨rfl, rfl⟩ | ⟨apart, clear, rfl⟩, rfl⟩
  · rw [Term.subst_var, Subst.image_single, Subst.image_single, if_pos rfl, if_pos rfl]
    exact .var rfl
  · rw [Term.subst_single_of_not_mem clear, Subst.image_single, if_neg apart]
    exact .var rfl

theorem TwinInstance.congruent (inst : f.TwinInstance g) : f.Congruent g := by
  -- the bodies of binders are renamed before they are compared, so the induction is on the size
  induction size : f.size using Nat.strongRecOn generalizing f g with
  | ind n ih =>
    subst size
    cases inst with
    | @atom _ r s ts us pairs twin pairing all =>
      have each : Congruent (.atom r (pairs.map Prod.fst)) (.atom r (pairs.map Prod.snd)) :=
        each_of_one .refl .trans .argument (fun p pair => Term.TwinInstance.congruent (all p pair)) []
      rw [pairing.1] at each
      refine each.trans (.trans ?_ (.head twin))
      cases order : r.ordered with
      | true =>
        rw [order] at pairing
        rw [pairing.2]
        exact .refl _
      | false => exact .permuteArguments order pairing.perm
    | not inst => exact .not (ih _ (by simp only [size]; omega) inst rfl)
    | @multi _ c fs gs pairs pairing all =>
      have each : Congruent (.multi c (pairs.map Prod.fst)) (.multi c (pairs.map Prod.snd)) :=
        each_of_one .refl .trans .member
          (fun p pair => ih _ (size_lt_of_mem c (pairing.mem pair).1) (all p pair) rfl) []
      rw [pairing.1] at each
      exact each.trans (.permuteMembers pairing.perm)
    | imply left right =>
      exact .trans (.left (ih _ (by simp only [size]; omega) left rfl))
        (.right (ih _ (by simp only [size]; omega) right rfl))
    | @equiv _ a b a' b' pairs pairing all =>
      have side {c d : Formula} (member : c ∈ [a, b]) (inst : c.TwinInstance d) : c.Congruent d := by
        refine ih _ ?_ inst rfl
        rcases List.mem_pair.mp member with rfl | rfl <;> simp only [size] <;> omega
      rcases Pairing.exists_two.mp ⟨pairs, pairing, all⟩ with ⟨left, right⟩ | ⟨left, right⟩
      · exact .trans (.left (side (by simp) left)) (.right (side (by simp) right))
      · exact .trans (.left (side (by simp) left)) (.trans (.right (side (by simp) right)) .swap)
    | @bind _ q v w f g inst =>
      let z := Variable.fresh "x" (VarSet.union f.freeVars g.freeVars)
      have fresh : z ∉ VarSet.union f.freeVars g.freeVars := Variable.fresh_not_mem _ _
      obtain ⟨clear, clear'⟩ := not_or.mp (mt VarSet.mem_union.mpr fresh)
      have shorter : (f.rename [(v, z)]).size < (Formula.bind q v f).size := by
        rw [rename, ← (instance_subst _ f).size_eq, size]
        omega
      have bodies := ih _ shorter (twinInstance_rename inst) rfl
      exact .trans (.rename clear) (.trans (.body bodies) (.symm (.rename clear')))

theorem Congruent.twinInstance (congruent : f.Congruent g) : f.TwinInstance g := by
  induction congruent with
  | refl f => exact .refl f
  | symm _ ih => exact ih.symm
  | trans _ _ first second => exact first.trans second
  | @head r s ts twin =>
    refine .atom twin (.refl _ ts) fun p pair => ?_
    obtain ⟨t, -, rfl⟩ := List.mem_map.mp pair
    exact Term.TwinInstance.refl t
  | @argument r before after t u congruent =>
    obtain ⟨pairs, pairing, all⟩ := Pairing.exists_of_one r.ordered before after
      Term.TwinInstance.refl congruent.twinInstance
    exact .atom (.refl _) pairing all
  | not _ ih => exact .not ih
  | @member c before after f g _ ih =>
    obtain ⟨pairs, pairing, all⟩ := Pairing.exists_of_one false before after TwinInstance.refl ih
    exact .multi pairing all
  | @left c a a' b _ ih =>
    cases c with
    | imply => exact .imply ih (TwinInstance.refl b)
    | equiv => exact .sides (.inl ⟨ih, .refl b⟩)
  | @right c a b b' _ ih =>
    cases c with
    | imply => exact .imply (TwinInstance.refl a) ih
    | equiv => exact .sides (.inl ⟨.refl a, ih⟩)
  | body _ ih => exact ih.body
  | @permuteArguments r ts us unordered perm =>
    have pairing : Pairing r.ordered (ts.map fun t => (t, t)) ts us :=
      unordered ▸ Pairing.of_perm perm
    refine .atom (.refl _) pairing fun p pair => ?_
    obtain ⟨t, -, rfl⟩ := List.mem_map.mp pair
    exact Term.TwinInstance.refl t
  | permuteMembers perm =>
    refine .multi (.of_perm perm) fun p pair => ?_
    obtain ⟨f, -, rfl⟩ := List.mem_map.mp pair
    exact TwinInstance.refl f
  | @swap a b => exact .sides (.inr ⟨.refl a, .refl b⟩)
  | @rename q v w f fresh => exact .of_eq (instance_rename q fresh)

theorem congruent_iff : f.Congruent g ↔ f.TwinInstance g :=
  ⟨Congruent.twinInstance, TwinInstance.congruent⟩

/-- Names that are all flagged as ordered have a single flag. -/
theorem SingleOrder.of_ordered {fs : List Formula}
    (ordered : ∀ f ∈ fs, ∀ s ∈ f.symbols, s.ordered = true) : SingleOrder fs := by
  intro f member g member' s occurs t occurs' _
  rw [ordered f member s occurs, ordered g member' t occurs']

theorem SingleOrder.pair {fs : List Formula} (single : SingleOrder fs) (first : f ∈ fs)
    (second : g ∈ fs) : SingleOrder [f, g] := by
  have inside : ∀ k ∈ [f, g], k ∈ fs := by simp [first, second]
  exact fun k member l member' => single k (inside k member) l (inside l member')

theorem SingleOrder.twinInstance (single : SingleOrder [f, g]) (identical : f.identical g = true) :
    f.TwinInstance g :=
  (identical_iff.mp identical).mono (fun _ left _ right => single.twin left right)
    fun _ _ _ _ becomes => becomes

/-- Among formulas in which every name has a single flag, identity is the congruence that
renaming and rearranging generate, and so an equivalence. -/
theorem identical_iff_congruent {fs : List Formula} (single : SingleOrder fs) :
    (∀ f ∈ fs, ∀ g ∈ fs, (f.identical g = true ↔ f.Congruent g)) ∧
      (∀ f ∈ fs, f.identical f = true) ∧
      (∀ f ∈ fs, ∀ g ∈ fs, f.identical g = true → g.identical f = true) ∧
      ∀ f ∈ fs, ∀ g ∈ fs, ∀ h ∈ fs, f.identical g = true → g.identical h = true →
        f.identical h = true := by
  have twins {f g : Formula} (first : f ∈ fs) (second : g ∈ fs) (identical : f.identical g = true) :
      f.TwinInstance g := (single.pair first second).twinInstance identical
  refine ⟨fun f first g second => ?_, fun f _ => (TwinInstance.refl f).identical, ?_, ?_⟩
  · rw [congruent_iff]
    exact ⟨twins first second, TwinInstance.identical⟩
  · intro f first g second identical
    exact (twins first second identical).symm.identical
  · intro f first g second h third identical identical'
    exact ((twins first second identical).trans (twins second third identical')).identical

theorem identical_iff_congruent_allOrSome :
    SingleOrder [allOrSome, someOrAll] ∧ allOrSome.identical someOrAll = true ∧
      allOrSome.Congruent someOrAll ∧ someOrAll.identical allOrSome = true := by
  have single : SingleOrder [allOrSome, someOrAll] := by
    simp [SingleOrder, allOrSome, someOrAll, symbols, Term.symbols, Symbol.same, Symbol.ordered,
      Relation.same, Predicate.same, Name.plain, Relation.ordered]
  have identical : allOrSome.identical someOrAll = true := by cbv
  obtain ⟨coincide, -, symm, -⟩ := identical_iff_congruent single
  exact ⟨single, identical, (coincide _ (by simp) _ (by simp)).mp identical,
    symm _ (by simp) _ (by simp) identical⟩

/-- Identical formulas have the same truth value, whatever the domain, the interpretation and the
valuation, if every symbol that one of them flags as unordered is interpreted as such. -/
theorem holds_iff_of_identical {D : Type u} {I : Interpretation D}
    (identical : f.identical g = true)
    (respects : ∀ s, s ∈ f.symbols ∨ s ∈ g.symbols → I.Respects s) (ρ : Variable → D) :
    f.holds I ρ ↔ g.holds I ρ :=
  holds_of_identical identical fun s occurs => respects s (.inl occurs)

def sumsToThree : Interpretation Nat where
  named _ xs := xs.sum = 3
  pred _ xs := xs.sum = 3
  namedTerm _ xs := xs.sum
  fn _ xs := xs.sum
  const _ := 0

theorem holds_iff_of_identical_allOrSome :
    allOrSome.identical someOrAll = true ∧
      (allOrSome.holds sumsToThree (fun _ => 0) ↔ someOrAll.holds sumsToThree fun _ => 0) := by
  have identical : allOrSome.identical someOrAll = true := by cbv
  have respects (s : Symbol) : sumsToThree.Respects s := by
    cases s with
    | relation r =>
      intro _ xs ys perm
      cases r <;> simp [Interpretation.relation, sumsToThree, perm.sum_nat]
    | operator f =>
      intro _ xs ys perm
      cases f <;> simp [Interpretation.operator, sumsToThree, perm.sum_nat]
    | constant c => trivial
  exact ⟨identical, holds_iff_of_identical identical (fun s _ => respects s) _⟩

end Formula

end Sequitur
