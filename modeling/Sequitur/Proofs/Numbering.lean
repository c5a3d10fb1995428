import Sequitur.RegularForm
import Sequitur.Proofs.Renaming

/-! Numbering the binders of a formula, as a function that goes down the formula once: it passes the
new names of the bound variables on instead of renaming the bodies, and indices have no bound. The
result is an instance of the formula, its binders are the canonical variables from the start index
on, and numbering it again changes nothing. -/

namespace Sequitur

open Arrangement

namespace Term

def regular (image : Variable → Variable) : Term → Term
  | .var v => .var (image v)
  | .const c => .const c
  | .app op ts => .app op (arrange op.ordered (ts.map fun t => t.regular image))

variable {image image' : Variable → Variable}

theorem sort_sort (ts : List Term) : sort (sort ts) = sort ts :=
  List.mergeSort_of_pairwise (pairwise_mergeSort ts)

theorem arrange_perm (ordered : Bool) (ts : List Term) : (arrange ordered ts).Perm ts := by
  cases ordered with
  | true => exact .refl ts
  | false => exact List.mergeSort_perm _ _

theorem pairing_arrange (ordered : Bool) (ts : List Term) (g : Term → Term) :
    Pairing ordered (ts.map fun t => (t, g t)) ts (arrange ordered (ts.map g)) := by
  cases ordered with
  | true => exact .map_right true ts g
  | false =>
    have perm := (arrange_perm false (ts.map g)).symm
    exact ⟨by simp [Function.comp_def], by simpa [Function.comp_def] using perm⟩

theorem instance_regular (t : Term) : Instance Eq (.rename image) t (t.regular image) := by
  induction t with
  | var v => rw [regular]; exact .var rfl
  | const c => rw [regular]; exact .const rfl
  | app op ts ih =>
    rw [regular]
    refine .app rfl (pairing_arrange _ ts _) ?_
    intro p pair
    obtain ⟨t, member, rfl⟩ := List.mem_map.mp pair
    exact ih t member

theorem regular_renameAll {ρ : Variable → Variable} {t : Term}
    (meets : ∀ x ∈ t.vars, image' (ρ x) = image x) :
    (t.renameAll ρ).regular image' = t.regular image := by
  induction t with
  | var v => simpa [renameAll, regular] using meets v (by simp)
  | const c => simp [renameAll, regular]
  | app op ts ih =>
    simp only [renameAll, regular, List.map_map]
    congr 2
    refine List.map_congr_left fun t member => ih t member fun x occurs => ?_
    exact meets x (mem_vars_app.mpr ⟨t, member, occurs⟩)

/-- What is arranged stays arranged under a map that changes none of its terms. -/
theorem arrange_map_arrange {ordered : Bool} {ts : List Term} {g : Term → Term}
    (fixes : ∀ t ∈ ts, g t = t) :
    arrange ordered ((arrange ordered ts).map g) = arrange ordered ts := by
  have fixed : (arrange ordered ts).map g = arrange ordered ts := by
    refine (List.map_congr_left fun t member => ?_).trans (List.map_id _)
    exact fixes t ((arrange_perm ordered ts).subset member)
  rw [fixed]
  cases ordered with
  | true => rfl
  | false => exact sort_sort ts

theorem regular_regular {t : Term} (keeps : ∀ x ∈ t.vars, image' (image x) = image x) :
    (t.regular image).regular image' = t.regular image := by
  induction t with
  | var v => simpa [regular] using keeps v (by simp)
  | const c => simp [regular]
  | app op ts ih =>
    simp only [regular]
    congr 1
    refine arrange_map_arrange ?_
    intro u arranged
    obtain ⟨t, member, rfl⟩ := List.mem_map.mp arranged
    exact ih t member fun x occurs => keeps x (mem_vars_app.mpr ⟨t, member, occurs⟩)

end Term

namespace Formula

def shift (start offset : Nat) (f : Formula) : Formula :=
  f.renameAll fun v =>
    match v.index? with
    | some i => if start < i then .canonical (i + offset) else v
    | none => v

/-- Puts parts that were all numbered from `start` one after the other, the first from
`next`. The second result is the last index in use. -/
def place (start next : Nat) : List Numbered → List Formula × Nat
  | [] => ([], next)
  | part :: parts =>
    let (fs, last) := place start (next + (part.last - start)) parts
    (part.formula.shift start (next - start) :: fs, last)

/-- Numbers the binders from `start + 1` and sorts commutative parts. `image` gives the
new names of the variables bound further out. -/
def number (image : Variable → Variable) (start : Nat) : Formula → Numbered
  | .atom r ts => ⟨.atom r (Term.arrange r.ordered (ts.map (Term.regular image))), start⟩
  | .not f =>
    let part := f.number image start
    ⟨.not part.formula, part.last⟩
  | .multi c fs =>
    let (gs, last) := place start start (Numbered.sort (fs.map fun f => f.number image start))
    ⟨.multi c gs, last⟩
  | .link .imply a b =>
    let left := a.number image start
    let right := b.number image left.last
    ⟨.link .imply left.formula right.formula, right.last⟩
  | .link .equiv a b =>
    let left := a.number image start
    let right := b.number image start
    let (first, second) :=
      if (left.formula.compare right.formula).isLE then (left, right) else (right, left)
    ⟨.link .equiv first.formula (second.formula.shift start (first.last - start)),
      first.last + (second.last - start)⟩
  | .bind q v f =>
    let w := Variable.canonical (start + 1)
    let part := f.number (fun u => if u = v then w else image u) (start + 1)
    ⟨.bind q w part.formula, part.last⟩

variable {image image' : Variable → Variable} {start next : Nat} {f : Formula}

def shiftVar (start offset : Nat) (v : Variable) : Variable :=
  match v.index? with
  | some i => if start < i then .canonical (i + offset) else v
  | none => v

theorem shift_eq (start offset : Nat) (f : Formula) :
    f.shift start offset = f.renameAll (shiftVar start offset) := rfl

/-- A variable that numbering from `start` leaves alone. -/
def Low (start : Nat) (v : Variable) : Prop := ∀ i, v.index? = some i → i ≤ start

theorem Low.ne_canonical {v : Variable} (low : Low start v) (fits : start + 1 < Text.indexBound) :
    v ≠ .canonical (start + 1) := by
  rintro rfl
  have := low (start + 1) (Variable.index?_canonical fits)
  omega

/-- Below a binder, which takes the next index. -/
theorem low_under {q : Quantifier} {v : Variable}
    (low : ∀ x ∈ (bind q v f).freeVars, Low start (image x)) (fits : start + 1 < Text.indexBound) :
    ∀ x ∈ f.freeVars, Low (start + 1) (if x = v then .canonical (start + 1) else image x) := by
  intro x free i index
  by_cases here : x = v
  · rw [if_pos here, Variable.index?_canonical fits] at index
    obtain rfl := Option.some.inj index
    exact Nat.le_refl _
  · rw [if_neg here] at index
    exact Nat.le_succ_of_le (low x (mem_freeVars_bind.mpr ⟨free, here⟩) i index)

theorem shiftVar_low {offset : Nat} {v : Variable} (low : Low start v) :
    shiftVar start offset v = v := by
  unfold shiftVar
  split
  · rename_i i index
    have := low i index
    rw [if_neg (by omega)]
  · rfl

theorem shiftVar_canonical {offset i : Nat} (above : start < i) (fits : i < Text.indexBound) :
    shiftVar start offset (.canonical i) = .canonical (i + offset) := by
  simp [shiftVar, Variable.index?_canonical fits, above]

theorem place_last (parts : List Numbered) :
    (place start next parts).2 = next + (parts.map fun part => part.last - start).sum := by
  induction parts generalizing next with
  | nil => simp [place]
  | cons part parts ih =>
    simp only [place, ih, List.map_cons, List.sum_cons]
    omega

/-- Each part is moved by some offset that keeps it below the last index in use. -/
theorem place_pairing {parts : List Numbered} (above : start ≤ next)
    (starts : ∀ part ∈ parts, start ≤ part.last) :
    ∃ pairs, Pairing true pairs parts (place start next parts).1 ∧ ∀ p ∈ pairs, ∃ offset,
      p.2 = p.1.formula.shift start offset ∧ p.1.last + offset ≤ (place start next parts).2 := by
  induction parts generalizing next with
  | nil => exact ⟨[], ⟨rfl, rfl⟩, by simp⟩
  | cons part parts ih =>
    have first := starts part (by simp)
    obtain ⟨pairs, ⟨rfl, second⟩, all⟩ := ih (show start ≤ next + (part.last - start) by omega)
      fun part member => starts part (by simp [member])
    refine ⟨(part, part.formula.shift start (next - start)) :: pairs, ⟨rfl, ?_⟩, ?_⟩
    · simpa [place] using second
    · intro p member
      rcases List.mem_cons.mp member with rfl | later
      · refine ⟨next - start, rfl, ?_⟩
        simp only [place, place_last]
        omega
      · exact all p later

theorem sum_map_quantifiers {parts : List Numbered} {fs : List Formula}
    (perm : parts.Perm (fs.map fun f => f.number image start))
    (last : ∀ f ∈ fs, (f.number image start).last = start + f.quantifiers) :
    (parts.map fun part => part.last - start).sum = (fs.map fun f => f.quantifiers).sum := by
  rw [(perm.map fun part => part.last - start).sum_nat, List.map_map]
  congr 1
  refine List.map_congr_left fun f member => ?_
  simp [last f member]

theorem sort_perm (parts : List Numbered) : (Numbered.sort parts).Perm parts :=
  List.mergeSort_perm _ _

@[simp] theorem number_last (image : Variable → Variable) (start : Nat) (f : Formula) :
    (f.number image start).last = start + f.quantifiers := by
  induction f generalizing image start with
  | atom r ts => simp [number, quantifiers]
  | not f ih => simp [number, quantifiers, ih]
  | multi c fs ih =>
    simp only [number, quantifiers, place_last]
    rw [sum_map_quantifiers (sort_perm _) fun f member => ih f member image start]
  | link c a b iha ihb =>
    cases c with
    | imply => simp only [number, quantifiers, iha, ihb]; omega
    | equiv =>
      simp only [number, quantifiers]
      split <;> simp only [iha, ihb] <;> omega
  | bind q v f ih => simp only [number, quantifiers, ih]; omega

/-- A formula numbered from `start` on: an instance of `f` whose other variables are canonical,
with indices up to the last one in use. -/
structure NumberedFrom (image : Variable → Variable) (start : Nat) (f g : Formula) (last : Nat) :
    Prop where
  inst : Instance Eq (.rename image) f g
  allVars : ∀ v ∈ g.allVars, (∃ x ∈ f.freeVars, v = image x) ∨
    ∃ i, start < i ∧ i ≤ last ∧ v = .canonical i

theorem NumberedFrom.mono {g : Formula} {last last' : Nat} (below : last ≤ last')
    (numbered : NumberedFrom image start f g last) : NumberedFrom image start f g last' := by
  refine ⟨numbered.inst, fun v member => (numbered.allVars v member).imp_right ?_⟩
  rintro ⟨i, above, inside, rfl⟩
  exact ⟨i, above, by omega, rfl⟩

theorem shiftVar_injective {g : Formula} {last offset : Nat} (fits : last + offset < Text.indexBound)
    (vars : ∀ v ∈ g.allVars, Low start v ∨ ∃ i, start < i ∧ i ≤ last ∧ v = .canonical i) :
    ∀ v ∈ g.allVars, ∀ w ∈ g.allVars,
      shiftVar start offset v = shiftVar start offset w → v = w := by
  have high {i : Nat} {v : Variable} (above : start < i) (inside : i ≤ last) (low : Low start v) :
      shiftVar start offset (.canonical i) ≠ shiftVar start offset v := by
    intro equal
    rw [shiftVar_low low, shiftVar_canonical above (by omega)] at equal
    have := low (i + offset) (equal ▸ Variable.index?_canonical (by omega))
    omega
  intro v hv w hw equal
  rcases vars v hv with low | ⟨i, above, inside, rfl⟩
  · rcases vars w hw with low' | ⟨j, above', inside', rfl⟩
    · rwa [shiftVar_low low, shiftVar_low low'] at equal
    · exact absurd equal.symm (high above' inside' low)
  · rcases vars w hw with low' | ⟨j, above', inside', rfl⟩
    · exact absurd equal (high above inside low')
    · rw [shiftVar_canonical above (by omega), shiftVar_canonical above' (by omega)] at equal
      have := Variable.canonical_injective equal
      congr 1
      omega

/-- Moving the binders up keeps everything else. -/
theorem NumberedFrom.shift {g : Formula} {last offset : Nat}
    (low : ∀ x ∈ f.freeVars, Low start (image x)) (fits : last + offset < Text.indexBound)
    (numbered : NumberedFrom image start f g last) :
    NumberedFrom image start f (g.shift start offset) (last + offset) := by
  have vars : ∀ v ∈ g.allVars, Low start v ∨ ∃ i, start < i ∧ i ≤ last ∧ v = .canonical i := by
    intro v member
    rcases numbered.allVars v member with ⟨x, free, rfl⟩ | canonical
    · exact .inl (low x free)
    · exact .inr canonical
  constructor
  · have moved := instance_renameAll (shiftVar_injective fits vars)
    refine (numbered.inst.comp moved (fun s m same => by rw [same])
      (fun s m n first second => first.trans second)).mono (fun _ _ _ _ same => same) ?_
    rintro x free s - ⟨m, rfl, inst⟩
    cases inst with
    | var becomes => exact becomes.trans (by rw [shiftVar_low (low x free)])
  · intro v member
    rw [shift_eq] at member
    obtain ⟨u, inside, rfl⟩ := mem_allVars_renameAll.mp member
    rcases numbered.allVars u inside with ⟨x, free, rfl⟩ | ⟨i, above, below, rfl⟩
    · exact .inl ⟨x, free, shiftVar_low (low x free)⟩
    · exact .inr ⟨i + offset, by omega, by omega, shiftVar_canonical above (by omega)⟩

/-- The members of a junction, numbered and sorted, and what becomes of them when they are put
one after the other. -/
theorem place_sorted (image : Variable → Variable) (start : Nat) (fs : List Formula) :
    ∃ pairs, Pairing true pairs (Numbered.sort (fs.map fun f => f.number image start))
        (place start start (Numbered.sort (fs.map fun f => f.number image start))).1 ∧
      ∀ p ∈ pairs, ∃ f ∈ fs, ∃ offset, p.1 = f.number image start ∧
        p.2 = p.1.formula.shift start offset ∧
        start + f.quantifiers + offset ≤ start + (fs.map fun f => f.quantifiers).sum := by
  have sorted := sort_perm (fs.map fun f => f.number image start)
  have total := sum_map_quantifiers sorted fun f _ => number_last image start f
  have starts : ∀ part ∈ Numbered.sort (fs.map fun f => f.number image start),
      start ≤ part.last := by
    intro part member
    obtain ⟨f, _, rfl⟩ := List.mem_map.mp (sorted.subset member)
    simp
  obtain ⟨pairs, pairing, moved⟩ := place_pairing (Nat.le_refl start) starts
  refine ⟨pairs, pairing, ?_⟩
  intro p pair
  obtain ⟨f, source, same⟩ := List.mem_map.mp (sorted.subset (pairing.mem pair).1)
  obtain ⟨offset, shifted, below⟩ := moved p pair
  refine ⟨f, source, offset, same.symm, shifted, ?_⟩
  rwa [← same, place_last, total, number_last] at below

theorem pairing_place (image : Variable → Variable) (start : Nat) (fs : List Formula) :
    ∃ pairs, Pairing false pairs fs
        (place start start (Numbered.sort (fs.map fun f => f.number image start))).1 ∧
      ∀ p ∈ pairs, ∃ f ∈ fs, ∃ offset, p.1.number image start = f.number image start ∧
        p.2 = (p.1.number image start).formula.shift start offset ∧
        start + f.quantifiers + offset ≤ start + (fs.map fun f => f.quantifiers).sum := by
  have sorted := sort_perm (fs.map fun f => f.number image start)
  obtain ⟨moves, moved, each⟩ := place_sorted image start fs
  have numbered : Pairing false (fs.map fun f => (f, f.number image start)) fs
      (Numbered.sort (fs.map fun f => f.number image start)) :=
    ⟨by simp [Function.comp_def], by simpa [Function.comp_def] using sorted.symm⟩
  obtain ⟨through, pairing, meet⟩ := numbered.trans moved.unordered
  refine ⟨through, pairing, ?_⟩
  intro p pair
  obtain ⟨part, left, right⟩ := meet p pair
  obtain ⟨f, _, same⟩ := List.mem_map.mp left
  obtain ⟨rfl, rfl⟩ := Prod.mk.inj same
  exact each _ right

theorem number_equiv (image : Variable → Variable) (start : Nat) (a b : Formula) :
    (equiv a b).number image start =
      if ((a.number image start).formula.compare (b.number image start).formula).isLE then
        ⟨.equiv (a.number image start).formula
          ((b.number image start).formula.shift start a.quantifiers),
          start + (a.quantifiers + b.quantifiers)⟩
      else
        ⟨.equiv (b.number image start).formula
          ((a.number image start).formula.shift start b.quantifiers),
          start + (a.quantifiers + b.quantifiers)⟩ := by
  simp only [number]
  split <;> simp only [number_last, Nat.add_sub_cancel_left, Numbered.mk.injEq, true_and] <;> omega

/-- The sides of an equivalence come in order; the second one is moved up. -/
theorem pairing_sides (image : Variable → Variable) (start : Nat) (a b : Formula) :
    ∃ pairs a' b', ((equiv a b).number image start).formula = .equiv a' b' ∧
      Pairing false pairs [a, b] [a', b'] ∧ ∀ p ∈ pairs,
        p.2 = (p.1.number image start).formula ∨
          ∃ offset, p.2 = (p.1.number image start).formula.shift start offset ∧
            start + p.1.quantifiers + offset ≤ start + (a.quantifiers + b.quantifiers) := by
  rw [number_equiv]
  split
  · refine ⟨[(a, _), (b, _)], _, _, rfl, ⟨rfl, .refl _⟩, ?_⟩
    refine List.forall_mem_cons.mpr ⟨.inl rfl, List.forall_mem_cons.mpr ⟨.inr ⟨_, rfl, ?_⟩, by simp⟩⟩
    show start + b.quantifiers + a.quantifiers ≤ _
    omega
  · refine ⟨[(a, _), (b, _)], _, _, rfl, ⟨rfl, .swap ..⟩, ?_⟩
    refine List.forall_mem_cons.mpr ⟨.inr ⟨_, rfl, ?_⟩, List.forall_mem_cons.mpr ⟨.inl rfl, by simp⟩⟩
    show start + a.quantifiers + b.quantifiers ≤ _
    omega

theorem numberedFrom_atom (r : Relation) (ts : List Term) :
    NumberedFrom image start (atom r ts) ((atom r ts).number image start).formula start := by
  rw [number]
  constructor
  · refine .atom rfl (Term.pairing_arrange _ ts _) ?_
    intro p pair
    obtain ⟨t, _, rfl⟩ := List.mem_map.mp pair
    exact t.instance_regular
  · intro v member
    obtain ⟨u, member, occurs⟩ := mem_allVars_atom.mp member
    obtain ⟨t, source, rfl⟩ := List.mem_map.mp ((Term.arrange_perm _ _).subset member)
    obtain ⟨x, inside, s, rfl, occurs⟩ := t.instance_regular.exists_source occurs
    exact .inl ⟨x, mem_freeVars_atom.mpr ⟨t, source, inside⟩, by simpa using occurs⟩

theorem numberedFrom_multi {c : Junction} {fs : List Formula}
    (low : ∀ x ∈ (multi c fs).freeVars, Low start (image x))
    (fits : start + (multi c fs).quantifiers < Text.indexBound)
    (numbered : ∀ f ∈ fs, start + f.quantifiers < Text.indexBound →
      NumberedFrom image start f (f.number image start).formula (start + f.quantifiers)) :
    NumberedFrom image start (multi c fs) ((multi c fs).number image start).formula
      (start + (multi c fs).quantifiers) := by
  obtain ⟨pairs, pairing, moved⟩ := pairing_place image start fs
  rw [quantifiers] at fits ⊢
  have each : ∀ p ∈ pairs, NumberedFrom image start p.1 p.2
      (start + (fs.map fun f => f.quantifiers).sum) := by
    intro p pair
    have member := (pairing.mem pair).1
    obtain ⟨f, _, offset, same, shifted, below⟩ := moved p pair
    have size : p.1.quantifiers = f.quantifiers := by
      simpa using congrArg Numbered.last same
    rw [← size] at below
    have low : ∀ x ∈ p.1.freeVars, Low start (image x) :=
      fun x free => low x (mem_freeVars_multi.mpr ⟨p.1, member, free⟩)
    rw [shifted]
    exact ((numbered p.1 member (by omega)).shift low (by omega)).mono below
  simp only [number]
  constructor
  · exact .multi pairing fun p pair => (each p pair).inst
  · intro v member
    obtain ⟨g, member, inside⟩ := mem_allVars_multi.mp member
    obtain ⟨f, source, pair⟩ := pairing.exists_left member
    refine ((each _ pair).allVars v inside).imp_left ?_
    rintro ⟨x, free, rfl⟩
    exact ⟨x, mem_freeVars_multi.mpr ⟨f, source, free⟩, rfl⟩

theorem numberedFrom_imply {a b : Formula}
    (left : NumberedFrom image start a (a.number image start).formula (start + a.quantifiers))
    (right : NumberedFrom image (start + a.quantifiers) b
      (b.number image (start + a.quantifiers)).formula (start + a.quantifiers + b.quantifiers)) :
    NumberedFrom image start (imply a b) ((imply a b).number image start).formula
      (start + (a.quantifiers + b.quantifiers)) := by
  simp only [imply, number, number_last]
  refine ⟨.imply left.inst right.inst, ?_⟩
  intro v member
  rcases mem_allVars_link.mp member with member | member
  · rcases left.allVars v member with ⟨x, free, rfl⟩ | ⟨i, above, inside, rfl⟩
    · exact .inl ⟨x, mem_freeVars_link.mpr (.inl free), rfl⟩
    · exact .inr ⟨i, above, by omega, rfl⟩
  · rcases right.allVars v member with ⟨x, free, rfl⟩ | ⟨i, above, inside, rfl⟩
    · exact .inl ⟨x, mem_freeVars_link.mpr (.inr free), rfl⟩
    · exact .inr ⟨i, by omega, by omega, rfl⟩

theorem numberedFrom_equiv {a b : Formula} (low : ∀ x ∈ (equiv a b).freeVars, Low start (image x))
    (fits : start + (a.quantifiers + b.quantifiers) < Text.indexBound)
    (left : NumberedFrom image start a (a.number image start).formula (start + a.quantifiers))
    (right : NumberedFrom image start b (b.number image start).formula (start + b.quantifiers)) :
    NumberedFrom image start (equiv a b) ((equiv a b).number image start).formula
      (start + (a.quantifiers + b.quantifiers)) := by
  obtain ⟨pairs, a', b', result, pairing, moved⟩ := pairing_sides image start a b
  have each : ∀ p ∈ pairs, NumberedFrom image start p.1 p.2
      (start + (a.quantifiers + b.quantifiers)) := by
    intro p pair
    have side : NumberedFrom image start p.1 (p.1.number image start).formula
        (start + p.1.quantifiers) ∧ p.1.quantifiers ≤ a.quantifiers + b.quantifiers := by
      have member := (pairing.mem pair).1
      simp only [List.mem_cons, List.not_mem_nil, or_false] at member
      rcases member with rfl | rfl
      · exact ⟨left, by omega⟩
      · exact ⟨right, by omega⟩
    obtain ⟨numbered, bound⟩ := side
    rcases moved p pair with same | ⟨offset, shifted, below⟩
    · rw [same]
      exact numbered.mono (by omega)
    · have low : ∀ x ∈ p.1.freeVars, Low start (image x) :=
        fun x free => low x (mem_freeVars_sides.mpr ⟨p.1, (pairing.mem pair).1, free⟩)
      rw [shifted]
      exact (numbered.shift low (by omega)).mono below
  rw [equiv, result]
  refine ⟨.equiv pairing fun p pair => (each p pair).inst, ?_⟩
  intro v member
  obtain ⟨g, member, inside⟩ := mem_allVars_sides.mp member
  obtain ⟨f, source, pair⟩ := pairing.exists_left member
  refine ((each _ pair).allVars v inside).imp_left ?_
  rintro ⟨x, free, rfl⟩
  exact ⟨x, mem_freeVars_sides.mpr ⟨f, source, free⟩, rfl⟩

theorem numberedFrom_bind {q : Quantifier} {v : Variable} {last : Nat}
    (low : ∀ x ∈ (bind q v f).freeVars, Low start (image x)) (fits : start + 1 < Text.indexBound)
    (inner : NumberedFrom (fun u => if u = v then .canonical (start + 1) else image u) (start + 1) f
      (f.number (fun u => if u = v then .canonical (start + 1) else image u) (start + 1)).formula last)
    (above : start < last) :
    NumberedFrom image start (bind q v f) ((bind q v f).number image start).formula last := by
  simp only [number]
  constructor
  · refine .bind (inner.inst.mono (fun _ _ _ _ same => same) ?_)
    rintro x free s - rfl
    by_cases here : x = v
    · exact .inl ⟨here, by simp [here]⟩
    · refine .inr ⟨here, ?_, by simp [Change.rename, here]⟩
      simp only [if_neg here, Term.mem_vars_var]
      exact ((low x (mem_freeVars_bind.mpr ⟨free, here⟩)).ne_canonical fits).symm
  · intro u member
    rcases mem_allVars_bind.mp member with rfl | member
    · exact .inr ⟨start + 1, by omega, by omega, rfl⟩
    · rcases inner.allVars u member with ⟨x, free, rfl⟩ | ⟨i, above, inside, rfl⟩
      · by_cases here : x = v
        · exact .inr ⟨start + 1, by omega, by omega, by rw [if_pos here]⟩
        · exact .inl ⟨x, mem_freeVars_bind.mpr ⟨free, here⟩, by rw [if_neg here]⟩
      · exact .inr ⟨i, by omega, by omega, rfl⟩

theorem numberedFrom_number (low : ∀ x ∈ f.freeVars, Low start (image x))
    (fits : start + f.quantifiers < Text.indexBound) :
    NumberedFrom image start f (f.number image start).formula (start + f.quantifiers) := by
  induction f generalizing image start with
  | atom r ts =>
    rw [quantifiers]
    exact numberedFrom_atom r ts
  | not f ih =>
    rw [quantifiers] at fits ⊢
    have inner := ih (by simpa using low) fits
    simp only [number]
    exact ⟨.not inner.inst, by simpa using inner.allVars⟩
  | multi c fs ih =>
    apply numberedFrom_multi low fits
    intro f member room
    exact ih f member (fun x free => low x (mem_freeVars_multi.mpr ⟨f, member, free⟩)) room
  | link c a b iha ihb =>
    rw [quantifiers] at fits ⊢
    have lowa : ∀ x ∈ a.freeVars, Low start (image x) :=
      fun x free => low x (mem_freeVars_link.mpr (.inl free))
    have lowb : ∀ x ∈ b.freeVars, Low start (image x) :=
      fun x free => low x (mem_freeVars_link.mpr (.inr free))
    have left := iha lowa (by omega)
    cases c with
    | imply =>
      have lowb' : ∀ x ∈ b.freeVars, Low (start + a.quantifiers) (image x) :=
        fun x free i index => Nat.le_add_right_of_le (lowb x free i index)
      exact numberedFrom_imply left (ihb lowb' (by omega))
    | equiv => exact numberedFrom_equiv low fits left (ihb lowb (by omega))
  | bind q v f ih =>
    rw [quantifiers] at fits ⊢
    have inner := ih (low_under low (by omega)) (by omega)
    exact numberedFrom_bind low (by omega) (inner.mono (by omega)) (by omega)

/-- The names of the binders make no difference. -/
theorem number_renameAll {ρ : Variable → Variable}
    (injective : ∀ x ∈ f.allVars, ∀ y ∈ f.allVars, ρ x = ρ y → x = y)
    (meets : ∀ x ∈ f.freeVars, image' (ρ x) = image x) :
    (f.renameAll ρ).number image' start = f.number image start := by
  induction f generalizing image image' start with
  | atom r ts =>
    simp only [renameAll, number, List.map_map]
    congr 3
    refine List.map_congr_left fun t member => Term.regular_renameAll fun x occurs => ?_
    exact meets x (mem_freeVars_atom.mpr ⟨t, member, occurs⟩)
  | not f ih =>
    simp only [renameAll, number]
    rw [ih (by simpa using injective) (by simpa using meets)]
  | multi c fs ih =>
    have parts : (fs.map fun f => f.renameAll ρ).map (fun f => f.number image' start) =
        fs.map fun f => f.number image start := by
      rw [List.map_map]
      refine List.map_congr_left fun f member => ih f member ?_ ?_
      · intro x left y right
        exact injective x (mem_allVars_multi.mpr ⟨f, member, left⟩)
          y (mem_allVars_multi.mpr ⟨f, member, right⟩)
      · exact fun x free => meets x (mem_freeVars_multi.mpr ⟨f, member, free⟩)
    simp only [renameAll, number, parts]
  | link c a b iha ihb =>
    simp only [mem_allVars_link] at injective
    simp only [mem_freeVars_link] at meets
    have left (start : Nat) : (a.renameAll ρ).number image' start = a.number image start :=
      iha (fun x left y right => injective x (.inl left) y (.inl right))
        fun x free => meets x (.inl free)
    have right (start : Nat) : (b.renameAll ρ).number image' start = b.number image start :=
      ihb (fun x left y right => injective x (.inr left) y (.inr right))
        fun x free => meets x (.inr free)
    cases c with
    | imply => simp only [renameAll, number, left, right]
    | equiv =>
      rw [renameAll, number_equiv, number_equiv, left, right, quantifiers_renameAll,
        quantifiers_renameAll]
  | bind q v f ih =>
    simp only [mem_allVars_bind] at injective
    simp only [renameAll, number]
    rw [ih (fun x left y right => injective x (.inr left) y (.inr right))]
    intro x free
    by_cases here : x = v
    · simp [here]
    · have apart : ρ x ≠ ρ v := fun equal =>
        here (injective x (.inr (mem_allVars_of_free free)) v (.inl rfl) equal)
      simp only [if_neg here, if_neg apart]
      exact meets x (mem_freeVars_bind.mpr ⟨free, here⟩)

/-- Only the images of free variables count. -/
theorem number_congr (agree : ∀ x ∈ f.freeVars, image' x = image x) :
    f.number image' start = f.number image start := by
  have renamed : (f.renameAll id).number image' start = f.number image start :=
    number_renameAll (fun _ _ _ _ same => same) agree
  rwa [renameAll_id] at renamed

/-- Moving the binders of a numbered formula up does not show once it is numbered again. -/
theorem NumberedFrom.number_shift {g : Formula} {last offset : Nat}
    (low : ∀ x ∈ f.freeVars, Low start (image x)) (fits : last + offset < Text.indexBound)
    (numbered : NumberedFrom image start f g last) :
    (g.shift start offset).number image' start = g.number image' start := by
  have vars : ∀ v ∈ g.allVars, Low start v ∨ ∃ i, start < i ∧ i ≤ last ∧ v = .canonical i := by
    intro v member
    rcases numbered.allVars v member with ⟨x, free, rfl⟩ | canonical
    · exact .inl (low x free)
    · exact .inr canonical
  refine number_renameAll (shiftVar_injective fits vars) fun y free => ?_
  obtain ⟨x, source, s, rfl, occurs⟩ := numbered.inst.exists_source free
  obtain rfl := Term.mem_vars_var.mp occurs
  exact congrArg image' (shiftVar_low (low x source))

instance : Std.TransCmp fun a b : Numbered => a.formula.compare b.formula :=
  Composes.transCmp (fun _ => compare_eq_iff.mpr rfl)
    fun a b c => compare_composes a.formula b.formula c.formula

theorem sort_sort (parts : List Numbered) :
    Numbered.sort (Numbered.sort parts) = Numbered.sort parts :=
  List.mergeSort_of_pairwise (pairwise_mergeSort parts)

/-- Numbering a numbered formula again changes nothing. -/
theorem number_number (low : ∀ x ∈ f.freeVars, Low start (image x))
    (fits : start + f.quantifiers < Text.indexBound)
    (keeps : ∀ x ∈ f.freeVars, image' (image x) = image x) :
    (f.number image start).formula.number image' start = f.number image start := by
  induction f generalizing image image' start with
  | atom r ts =>
    simp only [number]
    congr 2
    refine Term.arrange_map_arrange ?_
    intro u arranged
    obtain ⟨t, member, rfl⟩ := List.mem_map.mp arranged
    exact Term.regular_regular fun x occurs => keeps x (mem_freeVars_atom.mpr ⟨t, member, occurs⟩)
  | not f ih =>
    rw [quantifiers] at fits
    simp only [number]
    rw [ih (by simpa using low) fits (by simpa using keeps)]
  | multi c fs ih =>
    rw [quantifiers] at fits
    obtain ⟨pairs, ⟨first, second⟩, moved⟩ := place_sorted image start fs
    have again : ∀ p ∈ pairs, p.2.number image' start = p.1 := by
      intro p pair
      obtain ⟨f, source, offset, same, shifted, below⟩ := moved p pair
      have low : ∀ x ∈ f.freeVars, Low start (image x) :=
        fun x free => low x (mem_freeVars_multi.mpr ⟨f, source, free⟩)
      rw [shifted, same, (numberedFrom_number low (by omega)).number_shift low (by omega)]
      exact ih f source low (by omega)
        fun x free => keeps x (mem_freeVars_multi.mpr ⟨f, source, free⟩)
    have parts : (place start start (Numbered.sort (fs.map fun f => f.number image start))).1.map
        (fun f => f.number image' start) = Numbered.sort (fs.map fun f => f.number image start) := by
      rw [← show pairs.map Prod.snd = _ from second, List.map_map]
      exact (List.map_congr_left again).trans first
    simp only [number, parts, sort_sort]
  | link c a b iha ihb =>
    rw [quantifiers] at fits
    have lowa : ∀ x ∈ a.freeVars, Low start (image x) :=
      fun x free => low x (mem_freeVars_link.mpr (.inl free))
    have lowb : ∀ x ∈ b.freeVars, Low start (image x) :=
      fun x free => low x (mem_freeVars_link.mpr (.inr free))
    have keepsa : ∀ x ∈ a.freeVars, image' (image x) = image x :=
      fun x free => keeps x (mem_freeVars_link.mpr (.inl free))
    have keepsb : ∀ x ∈ b.freeVars, image' (image x) = image x :=
      fun x free => keeps x (mem_freeVars_link.mpr (.inr free))
    have left := iha lowa (by omega) keepsa
    cases c with
    | imply =>
      have lowb' : ∀ x ∈ b.freeVars, Low (start + a.quantifiers) (image x) :=
        fun x free i index => Nat.le_add_right_of_le (lowb x free i index)
      have right := ihb lowb' (by omega) keepsb
      rw [← number_last image] at right
      simp only [number, left, right]
    | equiv =>
      have right := ihb lowb (by omega) keepsb
      have sizea : (a.number image start).formula.quantifiers = a.quantifiers := by
        simpa using congrArg Numbered.last left
      have sizeb : (b.number image start).formula.quantifiers = b.quantifiers := by
        simpa using congrArg Numbered.last right
      have movea : ((a.number image start).formula.shift start b.quantifiers).number image' start =
          (a.number image start).formula.number image' start :=
        (numberedFrom_number lowa (by omega)).number_shift lowa (by omega)
      have moveb : ((b.number image start).formula.shift start a.quantifiers).number image' start =
          (b.number image start).formula.number image' start :=
        (numberedFrom_number lowb (by omega)).number_shift lowb (by omega)
      rw [number_equiv image]
      split
      · rename_i ordered
        rw [number_equiv, moveb, left, right, if_pos ordered, sizea]
        simp [shift_eq, sizeb]
      · rename_i reversed
        have ordered := isLE_of_not_isLE reversed
        rw [number_equiv, movea, left, right, if_pos ordered, sizeb]
        simp [shift_eq, sizea, Nat.add_comm]
  | bind q v f ih =>
    rw [quantifiers] at fits
    simp only [number]
    rw [ih (low_under low (by omega)) (by omega)]
    intro x free
    by_cases here : x = v
    · simp [here]
    · have free : x ∈ (bind q v f).freeVars := mem_freeVars_bind.mpr ⟨free, here⟩
      simp only [if_neg here, if_neg ((low x free).ne_canonical (by omega))]
      exact keeps x free

end Formula

end Sequitur
