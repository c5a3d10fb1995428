import Sequitur.Arrangement

/-! Lists whose items are counterparts of each other. A pairing lines up the items of two lists,
in their order or in any order. The backtracking search for an assignment finds one exactly
when there is a pairing of related items. -/

namespace Sequitur.Arrangement

universe u

variable {α β γ δ : Type}

/-- Every item of `xs` with its counterpart in `ys`. -/
def Pairing (ordered : Bool) (pairs : List (α × β)) (xs : List α) (ys : List β) : Prop :=
  pairs.map Prod.fst = xs ∧
    if ordered then pairs.map Prod.snd = ys else (pairs.map Prod.snd).Perm ys

theorem perm_of_mem_picks {x : α} {rest xs : List α} (pick : (x, rest) ∈ picks xs) :
    xs.Perm (x :: rest) := by
  induction xs generalizing rest with
  | nil => simp [picks] at pick
  | cons y ys ih =>
    simp only [picks, List.mem_cons, Prod.mk.injEq, List.mem_map] at pick
    rcases pick with ⟨rfl, rfl⟩ | ⟨⟨z, zs⟩, member, equal⟩
    · exact .refl _
    · obtain ⟨rfl, rfl⟩ := equal
      exact ((ih member).cons y).trans (.swap ..)

theorem exists_pick {x : α} {xs : List α} (member : x ∈ xs) :
    ∃ rest, (x, rest) ∈ picks xs := by
  induction xs with
  | nil => cases member
  | cons y ys ih =>
    rcases List.mem_cons.mp member with rfl | later
    · exact ⟨ys, by simp [picks]⟩
    · obtain ⟨rest, pick⟩ := ih later
      exact ⟨y :: rest, by simp only [picks, List.mem_cons, List.mem_map]
                           exact .inr ⟨_, pick, rfl⟩⟩

/-- The search succeeds exactly when the first list has counterparts among the second. -/
theorem assignable_iff {related : α → β → Bool} {xs : List α} {ys : List β} :
    assignable related xs ys = true ↔ ∃ (pairs : List (α × β)) (left : List β),
      pairs.map Prod.fst = xs ∧ (pairs.map Prod.snd ++ left).Perm ys ∧
      ∀ p ∈ pairs, related p.1 p.2 = true := by
  induction xs generalizing ys with
  | nil =>
    simp only [assignable, true_iff]
    exact ⟨[], ys, rfl, .refl _, by simp⟩
  | cons x xs ih =>
    simp only [assignable, List.any_eq_true, Bool.and_eq_true, ih]
    constructor
    · rintro ⟨⟨y, rest⟩, pick, fits, pairs, left, rfl, perm, all⟩
      refine ⟨(x, y) :: pairs, left, rfl, ?_, ?_⟩
      · exact (perm.cons y).trans (perm_of_mem_picks pick).symm
      · simpa using ⟨fits, fun a b => all (a, b)⟩
    · rintro ⟨pairs, left, first, perm, all⟩
      cases pairs with
      | nil => cases first
      | cons p pairs =>
        obtain ⟨z, y⟩ := p
        obtain ⟨rfl, rfl⟩ := List.cons.inj first
        have member : y ∈ ys := perm.subset (by simp)
        obtain ⟨rest, pick⟩ := exists_pick member
        refine ⟨(y, rest), pick, all _ (by simp), pairs, left, rfl, ?_, ?_⟩
        · exact (perm.trans (perm_of_mem_picks pick)).cons_inv
        · exact fun p member => all p (by simp [member])

theorem picks_map (g : α → β) (xs : List α) :
    picks (xs.map g) = (picks xs).map (Prod.map g (List.map g)) := by
  induction xs with
  | nil => rfl
  | cons x xs ih => simp [picks, ih, Function.comp_def]

theorem inOrder_map (related : γ → δ → Bool) (f : α → γ) (g : β → δ) (xs : List α) (ys : List β) :
    inOrder related (xs.map f) (ys.map g) = inOrder (fun x y => related (f x) (g y)) xs ys := by
  induction xs generalizing ys with
  | nil => cases ys <;> rfl
  | cons x xs ih =>
    cases ys with
    | nil => rfl
    | cons y ys => simp only [List.map_cons, inOrder, ih]

theorem assignable_map (related : γ → δ → Bool) (f : α → γ) (g : β → δ) (xs : List α)
    (ys : List β) :
    assignable related (xs.map f) (ys.map g) = assignable (fun x y => related (f x) (g y)) xs ys := by
  induction xs generalizing ys with
  | nil => rfl
  | cons x xs ih => simp [assignable, picks_map, Function.comp_def, Prod.map, ih]

theorem inOrder_congr {related related' : α → β → Bool} {xs : List α} {ys : List β}
    (same : ∀ x ∈ xs, ∀ y ∈ ys, related x y = related' x y) :
    inOrder related xs ys = inOrder related' xs ys := by
  induction xs generalizing ys with
  | nil => cases ys <;> rfl
  | cons x xs ih =>
    cases ys with
    | nil => rfl
    | cons y ys =>
      have later : ∀ x ∈ xs, ∀ y ∈ ys, related x y = related' x y :=
        fun x member y member' => same x (by simp [member]) y (by simp [member'])
      rw [inOrder, inOrder, same x (by simp) y (by simp), ih later]

theorem assignable_congr {related related' : α → β → Bool} {xs : List α} {ys : List β}
    (same : ∀ x ∈ xs, ∀ y ∈ ys, related x y = related' x y) :
    assignable related xs ys = assignable related' xs ys := by
  have half {related related' : α → β → Bool} (same : ∀ x ∈ xs, ∀ y ∈ ys, related x y = related' x y)
      (found : assignable related xs ys = true) : assignable related' xs ys = true := by
    obtain ⟨pairs, left, rfl, perm, all⟩ := assignable_iff.mp found
    refine assignable_iff.mpr ⟨pairs, left, rfl, perm, fun p pair => ?_⟩
    have inside : p.2 ∈ ys := perm.subset (List.mem_append_left _ (List.mem_map_of_mem pair))
    rw [← same p.1 (List.mem_map_of_mem pair) p.2 inside]
    exact all p pair
  rw [Bool.eq_iff_iff]
  exact ⟨half same, half fun x member y member' => (same x member y member').symm⟩

theorem inAnyOrder_iff {related : α → β → Bool} {xs : List α} {ys : List β} :
    inAnyOrder related xs ys = true ↔
      ∃ pairs, Pairing false pairs xs ys ∧ ∀ p ∈ pairs, related p.1 p.2 = true := by
  simp only [inAnyOrder, Bool.and_eq_true, beq_iff_eq, assignable_iff]
  constructor
  · rintro ⟨length, pairs, left, rfl, perm, all⟩
    have none : left = [] := by
      have := perm.length_eq
      simp only [List.length_append, List.length_map] at this length
      exact List.eq_nil_of_length_eq_zero (by omega)
    subst none
    exact ⟨pairs, ⟨rfl, by simpa using perm⟩, all⟩
  · rintro ⟨pairs, ⟨rfl, perm⟩, all⟩
    simp only [Bool.false_eq_true, ↓reduceIte] at perm
    refine ⟨?_, pairs, [], rfl, by simpa using perm, all⟩
    simpa using perm.length_eq

theorem inOrder_iff {related : α → β → Bool} {xs : List α} {ys : List β} :
    inOrder related xs ys = true ↔
      ∃ pairs, Pairing true pairs xs ys ∧ ∀ p ∈ pairs, related p.1 p.2 = true := by
  induction xs generalizing ys with
  | nil =>
    cases ys with
    | nil => exact ⟨fun _ => ⟨[], ⟨rfl, rfl⟩, by simp⟩, fun _ => rfl⟩
    | cons y ys =>
      simp only [inOrder, Pairing, Bool.false_eq_true, false_iff, not_exists, not_and]
      rintro pairs ⟨first, second⟩
      rw [List.map_eq_nil_iff.mp first] at second
      cases second
  | cons x xs ih =>
    cases ys with
    | nil =>
      simp only [inOrder, Pairing, Bool.false_eq_true, false_iff, not_exists, not_and]
      rintro pairs ⟨first, second⟩
      rw [List.map_eq_nil_iff.mp second] at first
      cases first
    | cons y ys =>
      simp only [inOrder, Bool.and_eq_true, ih]
      constructor
      · rintro ⟨fits, pairs, ⟨rfl, rfl⟩, all⟩
        exact ⟨(x, y) :: pairs, ⟨rfl, rfl⟩, by simpa using ⟨fits, fun a b => all (a, b)⟩⟩
      · rintro ⟨pairs, ⟨first, second⟩, all⟩
        cases pairs with
        | nil => cases first
        | cons p pairs =>
          obtain ⟨rfl, rfl⟩ := List.cons.inj first
          obtain ⟨rfl, rfl⟩ := List.cons.inj second
          exact ⟨all _ (by simp), pairs, ⟨rfl, rfl⟩, fun p member => all p (by simp [member])⟩

namespace Pairing

variable {ordered : Bool} {pairs : List (α × β)} {xs : List α} {ys : List β}

theorem perm (pairing : Pairing ordered pairs xs ys) : (pairs.map Prod.snd).Perm ys := by
  cases ordered with
  | false => exact pairing.2
  | true => exact .of_eq pairing.2

theorem length_eq (pairing : Pairing ordered pairs xs ys) : xs.length = ys.length := by
  rw [← pairing.1, ← pairing.perm.length_eq, List.length_map, List.length_map]

theorem mem (pairing : Pairing ordered pairs xs ys) {p : α × β} (member : p ∈ pairs) :
    p.1 ∈ xs ∧ p.2 ∈ ys := by
  constructor
  · rw [← pairing.1]
    exact List.mem_map_of_mem member
  · exact pairing.perm.subset (List.mem_map_of_mem member)

theorem exists_right (pairing : Pairing ordered pairs xs ys) {x : α} (member : x ∈ xs) :
    ∃ y ∈ ys, (x, y) ∈ pairs := by
  rw [← pairing.1] at member
  obtain ⟨⟨x, y⟩, pair, rfl⟩ := List.mem_map.mp member
  exact ⟨y, (pairing.mem pair).2, pair⟩

theorem exists_left (pairing : Pairing ordered pairs xs ys) {y : β} (member : y ∈ ys) :
    ∃ x ∈ xs, (x, y) ∈ pairs := by
  obtain ⟨⟨x, y⟩, pair, rfl⟩ := List.mem_map.mp (pairing.perm.symm.subset member)
  exact ⟨x, (pairing.mem pair).1, pair⟩

/-- What is paired in order is paired. -/
theorem unordered (pairing : Pairing ordered pairs xs ys) : Pairing false pairs xs ys :=
  ⟨pairing.1, pairing.perm⟩

theorem ofOrdered (pairing : Pairing true pairs xs ys) (ordered : Bool) :
    Pairing ordered pairs xs ys := by
  cases ordered with
  | true => exact pairing
  | false => exact pairing.unordered

theorem map_right (ordered : Bool) (xs : List α) (g : α → β) :
    Pairing ordered (xs.map fun x => (x, g x)) xs (xs.map g) := by
  cases ordered <;> simp [Pairing, Function.comp_def]

theorem refl (ordered : Bool) (xs : List α) :
    Pairing ordered (xs.map fun x => (x, x)) xs xs := by
  simpa using map_right ordered xs id

theorem map {α' β' : Type} (f : α → α') (g : β → β') (pairing : Pairing ordered pairs xs ys) :
    Pairing ordered (pairs.map (Prod.map f g)) (xs.map f) (ys.map g) := by
  obtain ⟨rfl, second⟩ := pairing
  refine ⟨by simp [Function.comp_def], ?_⟩
  cases ordered with
  | false => simpa [Function.comp_def] using second.map g
  | true =>
    obtain rfl := second
    simp [Function.comp_def]

/-- Lists with the same keys are paired in their order, so for either kind of symbol. -/
theorem exists_of_keys {κ : Type} {key : α → κ} {key' : β → κ} (ordered : Bool)
    (same : xs.map key = ys.map key') :
    ∃ pairs, Pairing ordered pairs xs ys ∧ ∀ p ∈ pairs, key p.1 = key' p.2 := by
  induction xs generalizing ys with
  | nil =>
    obtain rfl : ys = [] := List.map_eq_nil_iff.mp same.symm
    exact ⟨[], by cases ordered <;> simp [Pairing], by simp⟩
  | cons x xs ih =>
    cases ys with
    | nil => cases same
    | cons y ys =>
      obtain ⟨first, rest⟩ := List.cons.inj same
      obtain ⟨pairs, ⟨rfl, second⟩, all⟩ := ih rest
      refine ⟨(x, y) :: pairs, ⟨rfl, ?_⟩, by simpa using ⟨first, fun a b => all (a, b)⟩⟩
      cases ordered with
      | true => simpa using second
      | false => exact second.cons y

/-- Pairs of images are images of pairs. -/
theorem exists_of_map_left {α' : Type} {f : α' → α} {xs : List α'}
    (pairing : Pairing ordered pairs (xs.map f) ys) :
    ∃ sources, Pairing ordered sources xs ys ∧ ∀ p ∈ sources, (f p.1, p.2) ∈ pairs := by
  obtain ⟨first, second⟩ := pairing
  have lists : ∃ sources : List (α' × β), sources.map Prod.fst = xs ∧
      sources.map Prod.snd = pairs.map Prod.snd ∧ ∀ p ∈ sources, (f p.1, p.2) ∈ pairs := by
    clear second
    induction xs generalizing pairs with
    | nil =>
      obtain rfl := List.map_eq_nil_iff.mp first
      exact ⟨[], rfl, rfl, by simp⟩
    | cons x xs ih =>
      cases pairs with
      | nil => cases first
      | cons p rest =>
        obtain ⟨here, later⟩ := List.cons.inj first
        obtain ⟨sources, rfl, seconds, all⟩ := ih later
        refine ⟨(x, p.2) :: sources, rfl, by simp [seconds], ?_⟩
        intro q member
        rcases List.mem_cons.mp member with rfl | member
        · simp [← here]
        · exact List.mem_cons_of_mem p (all q member)
  obtain ⟨sources, rfl, seconds, all⟩ := lists
  exact ⟨sources, ⟨rfl, by rwa [seconds]⟩, all⟩

/-- Counterparts with the same key. -/
theorem map_eq {κ : Type u} {key : α → κ} {key' : β → κ} (pairing : Pairing true pairs xs ys)
    (same : ∀ p ∈ pairs, key p.1 = key' p.2) : xs.map key = ys.map key' := by
  obtain ⟨rfl, rfl⟩ := pairing
  rw [List.map_map, List.map_map]
  exact List.map_congr_left same

theorem perm_keys {κ : Type u} {key : α → κ} {key' : β → κ} (pairing : Pairing ordered pairs xs ys)
    (same : ∀ p ∈ pairs, key p.1 = key' p.2) : (xs.map key).Perm (ys.map key') := by
  have keys : xs.map key = (pairs.map Prod.snd).map key' := by
    rw [← pairing.1, List.map_map, List.map_map]
    exact List.map_congr_left same
  rw [keys]
  exact pairing.perm.map key'

theorem exists_congr {fits fits' : α × β → Prop} (same : ∀ p, p.1 ∈ xs → (fits p ↔ fits' p)) :
    (∃ pairs, Pairing ordered pairs xs ys ∧ ∀ p ∈ pairs, fits p) ↔
      ∃ pairs, Pairing ordered pairs xs ys ∧ ∀ p ∈ pairs, fits' p := by
  constructor
  · rintro ⟨pairs, pairing, all⟩
    exact ⟨pairs, pairing, fun p pair => (same p (pairing.mem pair).1).mp (all p pair)⟩
  · rintro ⟨pairs, pairing, all⟩
    exact ⟨pairs, pairing, fun p pair => (same p (pairing.mem pair).1).mpr (all p pair)⟩

/-- Two items are paired straight or crosswise. -/
theorem exists_two {a b : α} {c d : β} {fits : α × β → Prop} :
    (∃ pairs, Pairing false pairs [a, b] [c, d] ∧ ∀ p ∈ pairs, fits p) ↔
      (fits (a, c) ∧ fits (b, d)) ∨ (fits (a, d) ∧ fits (b, c)) := by
  constructor
  · rintro ⟨pairs, ⟨first, second⟩, all⟩
    match pairs, first with
    | [(x, y), (z, w)], first =>
      simp only [List.map_cons, List.map_nil, List.cons.injEq, and_true] at first
      obtain ⟨rfl, rfl⟩ := first
      simp only [List.forall_mem_cons] at all
      have rearranged : [y, w].Perm [c, d] := second
      have member : y = c ∨ y = d := by simpa using rearranged.subset (by simp : y ∈ [y, w])
      rcases member with rfl | rfl
      · obtain rfl : w = d := by simpa using rearranged.cons_inv
        exact .inl ⟨all.1, all.2.1⟩
      · obtain rfl : w = c := by simpa using (rearranged.trans (.swap ..)).cons_inv
        exact .inr ⟨all.1, all.2.1⟩
  · rintro (⟨first, second⟩ | ⟨first, second⟩)
    · exact ⟨[(a, c), (b, d)], ⟨rfl, .refl _⟩, by simpa using ⟨first, second⟩⟩
    · exact ⟨[(a, d), (b, c)], ⟨rfl, .swap ..⟩, by simpa using ⟨first, second⟩⟩

/-- A list can be put into the order of a rearrangement of its image. -/
theorem exists_reordering (f : α → β) {pairs : List α} {image ys : List β}
    (perm : image.Perm ys) (mapped : pairs.map f = image) :
    ∃ moved : List α, moved.Perm pairs ∧ moved.map f = ys := by
  induction perm generalizing pairs with
  | nil => exact ⟨pairs, .refl _, mapped⟩
  | cons y _ ih =>
    cases pairs with
    | nil => cases mapped
    | cons p pairs =>
      obtain ⟨rfl, rest⟩ := List.cons.inj mapped
      obtain ⟨moved, perm, rfl⟩ := ih rest
      exact ⟨p :: moved, perm.cons p, rfl⟩
  | swap y z zs =>
    match pairs, mapped with
    | p :: q :: pairs, mapped =>
      simp only [List.map_cons, List.cons.injEq] at mapped
      obtain ⟨rfl, rfl, rfl⟩ := mapped
      exact ⟨q :: p :: pairs, .swap .., rfl⟩
  | trans _ _ first second =>
    obtain ⟨between, perm, rfl⟩ := first mapped
    obtain ⟨moved, perm', rfl⟩ := second rfl
    exact ⟨moved, perm'.trans perm, rfl⟩

theorem symm (pairing : Pairing ordered pairs xs ys) :
    ∃ back, Pairing ordered back ys xs ∧ ∀ p ∈ back, p.swap ∈ pairs := by
  obtain ⟨rfl, second⟩ := pairing
  cases ordered with
  | true =>
    obtain rfl := second
    refine ⟨pairs.map Prod.swap, by simp [Pairing, Function.comp_def], ?_⟩
    rintro p member
    obtain ⟨q, q_mem, rfl⟩ := List.mem_map.mp member
    simpa using q_mem
  | false =>
    obtain ⟨moved, perm, rfl⟩ := exists_reordering Prod.snd second rfl
    refine ⟨moved.map Prod.swap, ⟨by simp [Function.comp_def], ?_⟩, ?_⟩
    · simpa [Function.comp_def] using perm.map Prod.fst
    · intro p member
      obtain ⟨q, q_mem, rfl⟩ := List.mem_map.mp member
      exact perm.subset (by simpa using q_mem)

/-- Pairs that meet in the middle. -/
theorem exists_chain {pairs : List (α × β)} {more : List (β × γ)}
    (meet : pairs.map Prod.snd = more.map Prod.fst) :
    ∃ through : List (α × γ), through.map Prod.fst = pairs.map Prod.fst ∧
      through.map Prod.snd = more.map Prod.snd ∧
      ∀ p ∈ through, ∃ y, (p.1, y) ∈ pairs ∧ (y, p.2) ∈ more := by
  induction pairs generalizing more with
  | nil =>
    have none : more = [] := List.map_eq_nil_iff.mp meet.symm
    exact ⟨[], rfl, by simp [none], by simp⟩
  | cons p pairs ih =>
    cases more with
    | nil => cases meet
    | cons q more =>
      obtain ⟨x, y⟩ := p
      obtain ⟨y', z⟩ := q
      obtain ⟨rfl, rest⟩ := List.cons.inj meet
      obtain ⟨through, first, second, all⟩ := ih rest
      refine ⟨(x, z) :: through, by simp [first], by simp [second], ?_⟩
      intro p member
      rcases List.mem_cons.mp member with rfl | later
      · exact ⟨y, by simp, by simp⟩
      · obtain ⟨y, left, right⟩ := all p later
        exact ⟨y, by simp [left], by simp [right]⟩

theorem trans {zs : List γ} {more : List (β × γ)} (pairing : Pairing ordered pairs xs ys)
    (next : Pairing ordered more ys zs) :
    ∃ through, Pairing ordered through xs zs ∧
      ∀ p ∈ through, ∃ y, (p.1, y) ∈ pairs ∧ (y, p.2) ∈ more := by
  obtain ⟨moved, perm, meet⟩ := exists_reordering Prod.fst
    (next.1 ▸ pairing.perm.symm : (more.map Prod.fst).Perm (pairs.map Prod.snd)) rfl
  cases ordered with
  | true =>
    obtain ⟨through, first, second, all⟩ :=
      exists_chain (pairing.2.trans next.1.symm : pairs.map Prod.snd = more.map Prod.fst)
    exact ⟨through, ⟨first.trans pairing.1, second.trans next.2⟩, all⟩
  | false =>
    obtain ⟨through, first, second, all⟩ := exists_chain meet.symm
    refine ⟨through, ⟨first.trans pairing.1, ?_⟩, ?_⟩
    · rw [if_neg (by simp), second]
      exact (perm.map Prod.snd).trans next.perm
    · intro p member
      obtain ⟨y, left, right⟩ := all p member
      exact ⟨y, left, perm.subset right⟩

/-- Two pairings of the same list pair what they lead to. -/
theorem span {zs : List γ} {more : List (α × γ)} (pairing : Pairing ordered pairs xs ys)
    (next : Pairing ordered more xs zs) :
    ∃ across, Pairing ordered across ys zs ∧
      ∀ p ∈ across, ∃ x, (x, p.1) ∈ pairs ∧ (x, p.2) ∈ more := by
  obtain ⟨back, pairing', swapped⟩ := pairing.symm
  obtain ⟨across, pairing'', all⟩ := pairing'.trans next
  refine ⟨across, pairing'', ?_⟩
  intro p member
  obtain ⟨x, left, right⟩ := all p member
  exact ⟨x, swapped _ left, right⟩

/-- Two pairings that lead to the same list pair what they come from. -/
theorem cospan {zs : List γ} {more : List (γ × β)} (pairing : Pairing ordered pairs xs ys)
    (other : Pairing ordered more zs ys) :
    ∃ across, Pairing ordered across xs zs ∧
      ∀ p ∈ across, ∃ y, (p.1, y) ∈ pairs ∧ (p.2, y) ∈ more := by
  obtain ⟨back, pairing', swapped⟩ := other.symm
  obtain ⟨across, pairing'', all⟩ := pairing.trans pairing'
  refine ⟨across, pairing'', ?_⟩
  intro p member
  obtain ⟨y, left, right⟩ := all p member
  exact ⟨y, left, swapped _ right⟩

end Pairing

end Sequitur.Arrangement
