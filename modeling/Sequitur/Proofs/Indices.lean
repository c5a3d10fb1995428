import Sequitur.Proofs.Numbering
import Sequitur.Proofs.Substitution

/-! Numbering within 64 bits. The regular form is computed with names that are moved out of the way,
with bodies that are renamed binder by binder, and with sums that are checked one by one. It comes to
the same as numbering the formula at once without a bound, and looking at the last index at the end:
no sum on the way exceeds the last index, and where the last index is too large, some sum is. -/

namespace Sequitur

open Arrangement

section Failure

variable {α β : Type}

theorem bind_eq_error {x : Except Error α} {next : α → Except Error β} {e : Error} :
    (x >>= next) = .error e ↔ x = .error e ∨ ∃ a, x = .ok a ∧ next a = .error e := by
  cases x with
  | error e => simp [bind, Except.bind]
  | ok a => simp [bind, Except.bind]

/-- A computation that fails only if an index is too large. -/
def OnlyOverflows (x : Except Error α) : Prop := ∀ e, x = .error e → e = .indexOverflow

namespace OnlyOverflows

variable {x : Except Error α} {next : α → Except Error β}

theorem ok (a : α) : OnlyOverflows (.ok a) := fun _ failed => by cases failed

theorem pure (a : α) : OnlyOverflows (Pure.pure a) := ok a

theorem bind (first : OnlyOverflows x) (later : ∀ a, OnlyOverflows (next a)) :
    OnlyOverflows (x >>= next) := by
  intro e failed
  rcases bind_eq_error.mp failed with here | ⟨a, -, there⟩
  · exact first e here
  · exact later a e there

theorem mapM {xs : List α} (each : ∀ a ∈ xs, OnlyOverflows (next a)) :
    OnlyOverflows (xs.mapM next) := by
  induction xs with
  | nil =>
    rw [List.mapM_nil]
    exact pure []
  | cons a xs ih =>
    obtain ⟨here, later⟩ := List.forall_mem_cons.mp each
    rw [List.mapM_cons]
    exact here.bind fun _ => (ih later).bind fun _ => pure _

theorem exists_ok (only : OnlyOverflows x) (fits : x ≠ .error .indexOverflow) : ∃ a, x = .ok a := by
  cases x with
  | error e => exact absurd (congrArg Except.error (only e rfl)) fits
  | ok a => exact ⟨a, rfl⟩

end OnlyOverflows

theorem ok_bind (a : α) (next : α → Except Error β) : (.ok a >>= next) = next a := rfl

theorem error_bind (e : Error) (next : α → Except Error β) : (.error e >>= next) = .error e := rfl

theorem mapM_eq_map {result : α → Except Error β} {image : α → β} {xs : List α}
    (each : ∀ x ∈ xs, result x = .ok (image x)) : xs.mapM result = .ok (xs.map image) := by
  induction xs with
  | nil => rfl
  | cons x xs ih =>
    obtain ⟨here, later⟩ := List.forall_mem_cons.mp each
    rw [List.mapM_cons, here, ih later]
    rfl

end Failure

namespace Term

theorem regular_id (t : Term) : t.regular id = t.sorted := by
  induction t with
  | var v => rw [regular, sorted, id]
  | const c => rw [regular, sorted]
  | app op ts ih => rw [regular, sorted, List.map_congr_left ih]

theorem regular_subst {image image' : Variable → Variable} {v w : Variable} {t : Term}
    (meets : ∀ x ∈ t.vars, image' (if x = v then w else x) = image x) :
    (t.subst [(v, .var w)]).regular image' = t.regular image := by
  induction t with
  | var x => rw [subst_variable, regular, regular, meets x (by simp)]
  | const c => simp [subst, regular]
  | app op ts ih =>
    simp only [subst, regular, List.map_map]
    congr 2
    apply List.map_congr_left
    intro t member
    exact ih t member fun x occurs => meets x (mem_vars_app.mpr ⟨t, member, occurs⟩)

end Term

namespace Formula

variable {image image' : Variable → Variable} {start next offset : Nat} {f : Formula}
  {v w x : Variable}

section Renaming

theorem mem_allVars_iff : x ∈ f.allVars ↔ x ∈ f.freeVars ∨ x ∈ f.binders := by
  induction f with
  | atom r ts => simp [binders]
  | not f ih => simpa [binders] using ih
  | multi c fs ih =>
    simp only [mem_allVars_multi, mem_freeVars_multi, binders, List.mem_flatMap]
    grind
  | link c a b iha ihb =>
    simp only [mem_allVars_link, mem_freeVars_link, binders, List.mem_append, iha, ihb]
    tauto
  | bind q v f ih =>
    simp only [mem_allVars_bind, mem_freeVars_bind, binders, List.mem_cons, ih]
    tauto

@[simp] theorem binders_renameFree (v w : Variable) (f : Formula) :
    (f.renameFree v w).binders = f.binders := by
  induction f with
  | atom r ts => rw [renameFree, binders, binders]
  | not f ih => simpa [renameFree, binders] using ih
  | multi c fs ih =>
    simp only [renameFree, binders, List.flatMap_map]
    exact List.flatMap_congr ih
  | link c a b iha ihb => simp [renameFree, binders, iha, ihb]
  | bind q u f ih =>
    rw [renameFree]
    split
    · rfl
    · simp [binders, ih]

/-- A new name is caught by no binder, so the bodies stay as they are. -/
theorem rename_eq (fresh : w ∉ f.allVars) : f.rename [(v, w)] = f.renameFree v w := by
  change f.subst [(v, .var w)] = f.renameFree v w
  induction f with
  | atom r ts => rw [subst, renameFree]
  | not f ih => rw [subst, renameFree, ih (by simpa using fresh)]
  | multi c fs ih =>
    rw [subst, renameFree]
    congr 1
    apply List.map_congr_left
    intro f member
    exact ih f member fun inside => fresh (mem_allVars_multi.mpr ⟨f, member, inside⟩)
  | link c a b iha ihb =>
    simp only [mem_allVars_link, not_or] at fresh
    rw [subst, renameFree, iha fresh.1, ihb fresh.2]
  | bind q u f ih =>
    simp only [mem_allVars_bind, not_or] at fresh
    by_cases here : u = v
    · simp [subst, renameFree, here, Subst.without, Subst.captures]
    · have other : ¬ v = u := fun same => here same.symm
      have apart : ¬ u = w := fun same => fresh.1 same.symm
      simp [subst, renameFree, here, other, apart, Subst.without, Subst.captures, ih fresh.2]

/-- Numbering a renamed body: the image of the new name is that of the old one. -/
theorem number_renameFree (fresh : w ∉ f.allVars)
    (meets : ∀ x ∈ f.freeVars, image' (if x = v then w else x) = image x) :
    (f.renameFree v w).number image' start = f.number image start := by
  induction f generalizing image image' start with
  | atom r ts =>
    simp only [renameFree, number, List.map_map]
    congr 3
    apply List.map_congr_left
    intro t member
    exact Term.regular_subst fun x occurs => meets x (mem_freeVars_atom.mpr ⟨t, member, occurs⟩)
  | not f ih =>
    simp only [renameFree, number]
    rw [ih (by simpa using fresh) (by simpa using meets)]
  | multi c fs ih =>
    have parts : (fs.map fun f => f.renameFree v w).map (fun f => f.number image' start) =
        fs.map fun f => f.number image start := by
      rw [List.map_map]
      apply List.map_congr_left
      intro f member
      apply ih f member
      · exact fun inside => fresh (mem_allVars_multi.mpr ⟨f, member, inside⟩)
      · exact fun x free => meets x (mem_freeVars_multi.mpr ⟨f, member, free⟩)
    simp only [renameFree, number, parts]
  | link c a b iha ihb =>
    simp only [mem_allVars_link, not_or] at fresh
    simp only [mem_freeVars_link] at meets
    have left (start : Nat) : (a.renameFree v w).number image' start = a.number image start :=
      iha fresh.1 fun x free => meets x (.inl free)
    have right (start : Nat) : (b.renameFree v w).number image' start = b.number image start :=
      ihb fresh.2 fun x free => meets x (.inr free)
    cases c with
    | imply => simp only [renameFree, number, left, right]
    | equiv => simp only [renameFree, number, left, right]
  | bind q u f ih =>
    simp only [mem_allVars_bind, not_or] at fresh
    by_cases here : u = v
    · simp only [renameFree, if_pos here, number]
      have bodies : f.number (fun y => if y = u then .canonical (start + 1) else image' y) (start + 1) =
          f.number (fun y => if y = u then .canonical (start + 1) else image y) (start + 1) := by
        apply number_congr
        intro x free
        by_cases own : x = u
        · simp only [if_pos own]
        · have other : ¬ x = v := fun same => own (same.trans here.symm)
          have outer := meets x (mem_freeVars_bind.mpr ⟨free, own⟩)
          rw [if_neg other] at outer
          simp only [if_neg own, outer]
      rw [bodies]
    · simp only [renameFree, if_neg here, number]
      rw [ih fresh.2]
      intro x free
      by_cases own : x = u
      · have other : ¬ x = v := fun same => here (own.symm.trans same)
        simp only [if_neg other, if_pos own]
      · have outer := meets x (mem_freeVars_bind.mpr ⟨free, own⟩)
        rw [if_neg own, ← outer]
        by_cases same : x = v
        · simp only [if_pos same, if_neg fresh.1]
        · simp only [if_neg same, if_neg own]

theorem mem_allVars_renameFree (fresh : w ∉ f.allVars) (member : x ∈ (f.renameFree v w).allVars) :
    x = w ∨ x ∈ f.allVars := by
  rw [mem_allVars_iff, binders_renameFree] at member
  rcases member with free | bound
  · rcases mem_freeVars_renameFree fresh free with here | ⟨kept, -⟩
    · exact .inl here
    · exact .inr (mem_allVars_of_free kept)
  · exact .inr (mem_allVars_iff.mpr (.inr bound))

end Renaming

section Clearing

/-- No binder is a canonical variable. -/
def Plain (f : Formula) : Prop := ∀ v ∈ f.binders, v.index? = none

/-- What comes of moving binders out of the way: a formula with other binders, none of them canonical,
that is numbered like the one before. All names in use are avoided from then on. -/
structure Clears (avoid : VarSet) (f : Formula) (result : Formula × VarSet) : Prop where
  more : ∀ x ∈ avoid, x ∈ result.2
  avoided : ∀ x ∈ result.1.allVars, x ∈ result.2
  plain : result.1.Plain
  free : ∀ x ∈ result.1.freeVars, x ∈ f.freeVars
  number : ∀ image start, result.1.number image start = f.number image start

theorem index?_fresh_percent (taken : List Variable) : (Variable.fresh "%" taken).index? = none := by
  simp [Variable.fresh, Variable.numbered, Variable.index?]

variable {avoid : VarSet}

theorem Clears.mono {before after : VarSet} {g : Formula} {result : VarSet}
    (clears : Clears avoid f (g, result)) (less : ∀ x ∈ before, x ∈ avoid)
    (more : ∀ x ∈ result, x ∈ after) : Clears before f (g, after) where
  more := fun x member => more x (clears.more x (less x member))
  avoided := fun x member => more x (clears.avoided x member)
  plain := clears.plain
  free := clears.free
  number := clears.number

theorem clears_each {fs : List Formula}
    (each : ∀ f ∈ fs, ∀ {avoid : VarSet}, (∀ x ∈ f.allVars, x ∈ avoid) →
      Clears avoid f (f.clearBinders avoid))
    (used : ∀ f ∈ fs, ∀ x ∈ f.allVars, x ∈ avoid) :
    (∀ x ∈ avoid, x ∈ (clearEach avoid fs).2) ∧
      ∃ pairs, Pairing true pairs fs (clearEach avoid fs).1 ∧
        ∀ p ∈ pairs, Clears avoid p.1 (p.2, (clearEach avoid fs).2) := by
  induction fs generalizing avoid with
  | nil => exact ⟨fun _ => id, [], ⟨rfl, rfl⟩, by simp⟩
  | cons f fs ih =>
    obtain ⟨here, later⟩ := List.forall_mem_cons.mp each
    obtain ⟨usedHere, usedLater⟩ := List.forall_mem_cons.mp used
    have first := here usedHere
    have usedNext : ∀ g ∈ fs, ∀ x ∈ g.allVars, x ∈ (f.clearBinders avoid).2 :=
      fun g member x inside => first.more x (usedLater g member x inside)
    obtain ⟨more, pairs, ⟨left, right⟩, rest⟩ := ih later usedNext
    have grown : ∀ x ∈ avoid, x ∈ (clearEach (f.clearBinders avoid).2 fs).2 :=
      fun x member => more x (first.more x member)
    simp only [clearEach]
    refine ⟨grown, (f, (f.clearBinders avoid).1) :: pairs, ⟨?_, ?_⟩, ?_⟩
    · rw [List.map_cons, left]
    · exact congrArg _ right
    · intro p member
      rcases List.mem_cons.mp member with rfl | inside
      · exact first.mono (fun _ => id) more
      · exact (rest p inside).mono first.more fun _ => id

/-- A canonical binder takes a name that nothing else has. -/
theorem Clears.bind_fresh {q : Quantifier} {result : Formula × VarSet} (clears : Clears avoid f result) :
    Clears avoid (bind q v f) (bind q (.fresh "%" result.2)
      (result.1.rename [(v, .fresh "%" result.2)]), .insert (.fresh "%" result.2) result.2) := by
  obtain ⟨g, result⟩ := result
  have clear : Variable.fresh "%" result ∉ g.allVars :=
    fun inside => Variable.fresh_not_mem "%" result (clears.avoided _ inside)
  simp only [rename_eq clear]
  refine ⟨fun x member => VarSet.mem_insert.mpr (.inr (clears.more x member)), ?_, ?_, ?_, ?_⟩
  · intro x member
    rw [VarSet.mem_insert]
    rcases mem_allVars_bind.mp member with here | inside
    · exact .inl here
    · exact (mem_allVars_renameFree clear inside).imp_right (clears.avoided x)
  · intro x member
    rw [binders, binders_renameFree] at member
    rcases List.mem_cons.mp member with rfl | inside
    · exact index?_fresh_percent result
    · exact clears.plain x inside
  · intro x member
    obtain ⟨inside, apart⟩ := mem_freeVars_bind.mp member
    obtain ⟨kept, other⟩ := (mem_freeVars_renameFree clear inside).resolve_left apart
    exact mem_freeVars_bind.mpr ⟨clears.free x kept, other⟩
  · intro image start
    simp only [Formula.number]
    rw [← clears.number, number_renameFree clear]
    intro x free
    by_cases here : x = v
    · simp only [if_pos here, if_true]
    · have apart : ¬ x = Variable.fresh "%" result := by
        rintro rfl
        exact clear (mem_allVars_of_free free)
      simp only [if_neg here, if_neg apart]

theorem Clears.bind {q : Quantifier} {g : Formula} {after : VarSet} (inner : Clears avoid f (g, after))
    (used : v ∈ avoid) (ordinary : v.index? = none) :
    Clears avoid (.bind q v f) (.bind q v g, after) := by
  refine ⟨inner.more, ?_, ?_, ?_, ?_⟩
  · intro x member
    rcases mem_allVars_bind.mp member with rfl | inside
    · exact inner.more x used
    · exact inner.avoided x inside
  · intro x member
    rw [binders] at member
    rcases List.mem_cons.mp member with rfl | inside
    · exact ordinary
    · exact inner.plain x inside
  · intro x member
    obtain ⟨inside, apart⟩ := mem_freeVars_bind.mp member
    exact mem_freeVars_bind.mpr ⟨inner.free x inside, apart⟩
  · intro image start
    simp only [Formula.number, inner.number]

theorem Clears.link {c : Arrow} {a b a' b' : Formula} {between after : VarSet}
    (left : Clears avoid a (a', between)) (right : Clears between b (b', after)) :
    Clears avoid (.link c a b) (.link c a' b', after) := by
  have first := left.mono (fun _ => id) right.more
  have second := right.mono left.more fun _ => id
  refine ⟨first.more, ?_, ?_, ?_, ?_⟩
  · intro x member
    rcases mem_allVars_link.mp member with inside | inside
    · exact first.avoided x inside
    · exact second.avoided x inside
  · intro x member
    rw [binders] at member
    rcases List.mem_append.mp member with inside | inside
    · exact first.plain x inside
    · exact second.plain x inside
  · intro x member
    exact mem_freeVars_link.mpr ((mem_freeVars_link.mp member).imp (first.free x) (second.free x))
  · intro image start
    cases c with
    | imply => simp only [Formula.number, left.number, right.number]
    | equiv => simp only [Formula.number, left.number, right.number]

theorem Clears.multi {c : Junction} {fs gs : List Formula} {pairs : List (Formula × Formula)}
    {after : VarSet} (more : ∀ x ∈ avoid, x ∈ after) (pairing : Pairing true pairs fs gs)
    (each : ∀ p ∈ pairs, Clears avoid p.1 (p.2, after)) :
    Clears avoid (.multi c fs) (.multi c gs, after) := by
  refine ⟨more, ?_, ?_, ?_, ?_⟩
  · intro x member
    obtain ⟨g, member, inside⟩ := mem_allVars_multi.mp member
    obtain ⟨f, -, pair⟩ := pairing.exists_left member
    exact (each _ pair).avoided x inside
  · intro x member
    rw [binders] at member
    obtain ⟨g, member, inside⟩ := List.mem_flatMap.mp member
    obtain ⟨f, -, pair⟩ := pairing.exists_left member
    exact (each _ pair).plain x inside
  · intro x member
    obtain ⟨g, member, inside⟩ := mem_freeVars_multi.mp member
    obtain ⟨f, source, pair⟩ := pairing.exists_left member
    exact mem_freeVars_multi.mpr ⟨f, source, (each _ pair).free x inside⟩
  · intro image start
    have parts : gs.map (fun f => f.number image start) = fs.map fun f => f.number image start := by
      obtain ⟨rfl, right⟩ := pairing
      rw [← show pairs.map Prod.snd = gs from right, List.map_map, List.map_map]
      exact List.map_congr_left fun p pair => (each p pair).number image start
    simp only [Formula.number, parts]

theorem clears_clearBinders (used : ∀ x ∈ f.allVars, x ∈ avoid) :
    Clears avoid f (f.clearBinders avoid) := by
  induction f generalizing avoid with
  | atom r ts =>
    rw [clearBinders]
    exact ⟨fun _ => id, used, by simp [Plain, binders], fun _ => id, fun _ _ => rfl⟩
  | not f ih =>
    have inner : Clears avoid f (f.clearBinders avoid) := ih (by simpa using used)
    rw [clearBinders]
    refine ⟨inner.more, by simpa using inner.avoided, by simpa [Plain, binders] using inner.plain,
      by simpa using inner.free, fun image start => ?_⟩
    simp only [Formula.number, inner.number]
  | multi c fs ih =>
    obtain ⟨more, pairs, pairing, each⟩ := clears_each ih
      (fun f member x inside => used x (mem_allVars_multi.mpr ⟨f, member, inside⟩))
    rw [clearBinders]
    exact .multi more pairing each
  | link c a b iha ihb =>
    have left : Clears avoid a (a.clearBinders avoid) :=
      iha fun x inside => used x (mem_allVars_link.mpr (.inl inside))
    have right : Clears (a.clearBinders avoid).2 b (b.clearBinders (a.clearBinders avoid).2) :=
      ihb fun x inside => left.more x (used x (mem_allVars_link.mpr (.inr inside)))
    rw [clearBinders]
    exact left.link right
  | bind q v f ih =>
    have inner : Clears avoid f (f.clearBinders avoid) :=
      ih fun x inside => used x (mem_allVars_bind.mpr (.inr inside))
    rw [clearBinders]
    by_cases canonical : v.index?.isSome = true
    · simp only [if_pos canonical]
      exact inner.bind_fresh
    · simp only [if_neg canonical]
      exact inner.bind (used v (mem_allVars_bind.mpr (.inl rfl))) (by simpa using canonical)

end Clearing

section Sums

variable {i j last : Nat}

theorem onlyOverflows_addIndex (i j : Nat) : OnlyOverflows (addIndex i j) := by
  intro e failed
  rw [addIndex] at failed
  split at failed
  · cases failed
  · exact (Except.error.inj failed).symm

theorem addIndex_of_lt (fits : i + j < Text.indexBound) : addIndex i j = .ok (i + j) := if_pos fits

theorem addIndex_of_le (large : Text.indexBound ≤ i + j) : addIndex i j = .error .indexOverflow :=
  if_neg (Nat.not_lt.mpr large)

theorem onlyOverflows_raise (start offset : Nat) (f : Formula) :
    OnlyOverflows (f.raise start offset) := by
  rw [raise]
  split
  · exact .ok f
  · exact .bind (.mapM fun p _ => (onlyOverflows_addIndex _ _).bind fun _ => .pure _) fun _ => .pure _

theorem lookup_filterMap {β : Type} (value : Variable → Option β) (v : Variable)
    (vs : List Variable) :
    (vs.filterMap fun u => (value u).map (u, ·)).lookup v = if v ∈ vs then value v else none := by
  induction vs with
  | nil => rfl
  | cons u vs ih =>
    rw [List.filterMap_cons]
    by_cases same : v = u
    · subst same
      cases found : value v with
      | none => simp [found, ih]
      | some b => simp
    · cases value u with
      | none => simp [ih, same]
      | some b => simp [Subst.lookup_cons, ih, same]

/-- The indices above `start` are those that numbering has given, up to `last`. -/
def Indexed (start last : Nat) (f : Formula) : Prop :=
  ∀ v ∈ f.allVars, Low start v ∨ ∃ i, start < i ∧ i ≤ last ∧ v = .canonical i

theorem shift_zero (indexed : f.Indexed start last) (fits : last < Text.indexBound) :
    f.shift start 0 = f := by
  have fixed : ∀ v ∈ f.allVars, shiftVar start 0 v = id v := by
    intro v member
    rcases indexed v member with low | ⟨i, above, inside, rfl⟩
    · exact shiftVar_low low
    · exact shiftVar_canonical above (by omega)
  rw [shift_eq, renameAll_congr fixed, renameAll_id]

/-- The indices above `start`, moved. -/
theorem mapM_addIndex (indexed : f.Indexed start last) (fits : last + offset < Text.indexBound) :
    (f.allVars.filterMap fun v => (v.index?.filter (start < ·)).map (v, ·)).mapM
        (fun p => return (p.1, Variable.canonical (← addIndex p.2 offset))) =
      Except.ok (f.allVars.filterMap fun v =>
        ((v.index?.filter (start < ·)).map fun i => Variable.canonical (i + offset)).map (v, ·)) := by
  have each : ∀ p ∈ f.allVars.filterMap fun v => (v.index?.filter (start < ·)).map (v, ·),
      (do return (p.1, Variable.canonical (← addIndex p.2 offset)) : Except Error _) =
        .ok (p.1, .canonical (p.2 + offset)) := by
    intro p member
    obtain ⟨v, inside, equal⟩ := List.mem_filterMap.mp member
    obtain ⟨i, index, rfl⟩ := Option.map_eq_some_iff.mp equal
    obtain ⟨index, above⟩ := Option.filter_eq_some_iff.mp index
    have bounded : i ≤ last := by
      rcases indexed v inside with low | ⟨j, -, below, rfl⟩
      · have := low i index
        simp only [decide_eq_true_eq] at above
        omega
      · rw [Variable.index?_canonical (by omega)] at index
        obtain rfl := Option.some.inj index
        exact below
    rw [addIndex_of_lt (by omega), ok_bind]
    rfl
  rw [mapM_eq_map each, List.map_filterMap]
  simp only [Option.map_map, Function.comp_def]

theorem raise_eq (indexed : f.Indexed start last) (fits : last + offset < Text.indexBound) :
    f.raise start offset = .ok (f.shift start offset) := by
  rw [raise]
  by_cases none : offset = 0
  · subst none
    rw [if_pos rfl, shift_zero indexed fits]
  · simp only [if_neg none, mapM_addIndex indexed fits, ok_bind, shift_eq]
    apply congrArg Except.ok
    apply renameAll_congr
    intro v member
    rw [lookup_filterMap fun v => (v.index?.filter _).map fun i => Variable.canonical (i + offset),
      if_pos member, shiftVar]
    cases v.index? with
    | none => rfl
    | some i => by_cases above : start < i <;> simp [Option.filter, above]

structure Numbered.Ready (start : Nat) (part : Numbered) : Prop where
  above : start ≤ part.last
  fits : part.last < Text.indexBound
  indexed : part.formula.Indexed start part.last

/-- Every sum on the way is at most the last index. -/
theorem lineUp_eq {parts : List Numbered} (ready : ∀ part ∈ parts, part.Ready start)
    (above : start ≤ next) (fits : next < Text.indexBound) :
    lineUp start next parts =
      if (place start next parts).2 < Text.indexBound then .ok (place start next parts)
      else .error .indexOverflow := by
  induction parts generalizing next with
  | nil => rw [lineUp, place, if_pos fits]
  | cons part parts ih =>
    obtain ⟨here, later⟩ := List.forall_mem_cons.mp ready
    have total : (place start next (part :: parts)).2 =
        (place start (next + (part.last - start)) parts).2 := by simp only [place]
    rw [lineUp, total]
    by_cases room : next + (part.last - start) < Text.indexBound
    · have here : part.formula.raise start (next - start) =
          .ok (part.formula.shift start (next - start)) := by
        have := here.above
        exact raise_eq here.indexed (by omega)
      rw [here, ok_bind, addIndex_of_lt room, ok_bind, ih later (by omega) room]
      by_cases least : (place start (next + (part.last - start)) parts).2 < Text.indexBound
      · rw [if_pos least, if_pos least, place]
        rfl
      · rw [if_neg least, if_neg least, error_bind]
    · have large : ¬ (place start (next + (part.last - start)) parts).2 < Text.indexBound := by
        rw [place_last]
        omega
      rw [if_neg large, addIndex_of_le (Nat.not_lt.mp room)]
      cases raised : part.formula.raise start (next - start) with
      | error e => rw [onlyOverflows_raise _ _ _ e raised, error_bind]
      | ok g => rw [ok_bind, error_bind]

/-- The result, if its last index fits. -/
def Numbered.checked (part : Numbered) : Except Error Numbered :=
  if part.last < Text.indexBound then .ok part else .error .indexOverflow

/-- What is put around a formula takes no further index. -/
theorem Numbered.checked_bind (make : Formula → Formula) (part : Numbered) :
    (part.checked >>= fun part => .ok ⟨make part.formula, part.last⟩) =
      Numbered.checked ⟨make part.formula, part.last⟩ := by
  rw [Numbered.checked, Numbered.checked]
  by_cases fits : part.last < Text.indexBound
  · rw [if_pos fits, if_pos fits, ok_bind]
  · rw [if_neg fits, if_neg fits, error_bind]

theorem ready_number (low : ∀ x ∈ f.freeVars, Low start x)
    (fits : start + f.quantifiers < Text.indexBound) : (f.number id start).Ready start where
  above := by simp
  fits := by simpa using fits
  indexed := by
    intro v member
    rw [number_last]
    rcases (numberedFrom_number low fits).allVars v member with ⟨x, free, same⟩ | canonical
    · exact .inl (same ▸ low x free)
    · exact .inr canonical

theorem numberEach_eq {fs : List Formula}
    (each : ∀ f ∈ fs, f.numberFrom start = (f.number id start).checked) :
    numberEach start fs =
      if ∀ f ∈ fs, start + f.quantifiers < Text.indexBound then
        .ok (fs.map fun f => f.number id start)
      else .error .indexOverflow := by
  induction fs with
  | nil => simp [numberEach]
  | cons f fs ih =>
    obtain ⟨here, later⟩ := List.forall_mem_cons.mp each
    simp only [List.forall_mem_cons]
    rw [numberEach, here, ih later, Numbered.checked, number_last]
    by_cases first : start + f.quantifiers < Text.indexBound
    · by_cases rest : ∀ f ∈ fs, start + f.quantifiers < Text.indexBound
      · rw [if_pos first, ok_bind, if_pos rest, ok_bind, if_pos ⟨first, rest⟩]
        rfl
      · rw [if_pos first, ok_bind, if_neg rest, error_bind, if_neg fun all => rest all.2]
    · rw [if_neg first, error_bind, if_neg fun all => first all.1]

theorem numberFrom_multi {c : Junction} {fs : List Formula}
    (low : ∀ x ∈ (multi c fs).freeVars, Low start x) (fits : start < Text.indexBound)
    (each : ∀ f ∈ fs, f.numberFrom start = (f.number id start).checked) :
    (multi c fs).numberFrom start = ((multi c fs).number id start).checked := by
  rw [numberFrom, numberEach_eq each]
  by_cases all : ∀ f ∈ fs, start + f.quantifiers < Text.indexBound
  · have ready : ∀ part ∈ Numbered.sort (fs.map fun f => f.number id start), part.Ready start := by
      intro part member
      obtain ⟨f, inside, rfl⟩ := List.mem_map.mp ((sort_perm _).subset member)
      exact ready_number (fun x free => low x (mem_freeVars_multi.mpr ⟨f, inside, free⟩)) (all f inside)
    rw [if_pos all, ok_bind, lineUp_eq ready (Nat.le_refl start) fits, Numbered.checked]
    simp only [number]
    split
    · rfl
    · rfl
  · -- a part that needs too large an index makes the last index too large
    have total : ¬ ((multi c fs).number id start).last < Text.indexBound := by
      intro room
      rw [number_last] at room
      apply all
      intro f member
      have part : f.quantifiers ≤ (multi c fs).quantifiers := quantifiers_le_of_mem member
      omega
    rw [if_neg all, error_bind, Numbered.checked, if_neg total]

theorem sort_pair (left right : Numbered) : Numbered.sort [left, right] =
    if (left.formula.compare right.formula).isLE then [left, right] else [right, left] := by
  by_cases ordered : (left.formula.compare right.formula).isLE = true
  · rw [if_pos ordered]
    apply List.mergeSort_of_pairwise
    simpa using ordered
  · rw [if_neg ordered]
    simp [Numbered.sort, List.mergeSort, List.MergeSort.Internal.splitInTwo, ordered]

theorem numberFrom_imply {a b : Formula} (left : a.numberFrom start = (a.number id start).checked)
    (right : start + a.quantifiers < Text.indexBound →
      b.numberFrom (start + a.quantifiers) = (b.number id (start + a.quantifiers)).checked) :
    (imply a b).numberFrom start = ((imply a b).number id start).checked := by
  rw [imply, numberFrom, left, Numbered.checked, Numbered.checked]
  simp only [number, number_last]
  by_cases first : start + a.quantifiers < Text.indexBound
  · rw [if_pos first, ok_bind, number_last, right first, Numbered.checked, number_last]
    by_cases both : start + a.quantifiers + b.quantifiers < Text.indexBound
    · rw [if_pos both, if_pos both, ok_bind, number_last]
      rfl
    · rw [if_neg both, if_neg both, error_bind]
  · rw [if_neg first, error_bind, if_neg (by omega)]

theorem lineUp_pair {first second : Numbered} (ready : first.Ready start) (ready' : second.Ready start)
    (fits : start < Text.indexBound) : lineUp start start [first, second] =
      if first.last + (second.last - start) < Text.indexBound then
        .ok ([first.formula, second.formula.shift start (first.last - start)],
          first.last + (second.last - start))
      else .error .indexOverflow := by
  have above := ready.above
  have next : start + (first.last - start) = first.last := by omega
  rw [lineUp_eq (by simp [ready, ready']) (Nat.le_refl start) fits]
  simp only [place, Nat.sub_self, next, shift_zero ready.indexed ready.fits]

theorem numberFrom_equiv {a b : Formula} (low : ∀ x ∈ (equiv a b).freeVars, Low start x)
    (fits : start < Text.indexBound) (left : a.numberFrom start = (a.number id start).checked)
    (right : b.numberFrom start = (b.number id start).checked) :
    (equiv a b).numberFrom start = ((equiv a b).number id start).checked := by
  rw [equiv, numberFrom, left, right, Numbered.checked, Numbered.checked, number_last, number_last]
  by_cases first : start + a.quantifiers < Text.indexBound
  · by_cases second : start + b.quantifiers < Text.indexBound
    · rw [if_pos first, ok_bind, if_pos second, ok_bind, sort_pair]
      have lefts : (a.number id start).Ready start :=
        ready_number (fun x free => low x (mem_freeVars_link.mpr (.inl free))) first
      have rights : (b.number id start).Ready start :=
        ready_number (fun x free => low x (mem_freeVars_link.mpr (.inr free))) second
      by_cases ordered : ((a.number id start).formula.compare (b.number id start).formula).isLE = true
      · simp only [if_pos ordered, lineUp_pair lefts rights fits, number, Numbered.checked]
        split
        · rfl
        · rfl
      · simp only [if_neg ordered, lineUp_pair rights lefts fits, number, Numbered.checked]
        split
        · rfl
        · rfl
    · rw [if_pos first, ok_bind, if_neg second, error_bind, Numbered.checked, number_last, quantifiers,
        if_neg (by omega)]
  · rw [if_neg first, error_bind, Numbered.checked, number_last, quantifiers, if_neg (by omega)]

theorem canonical_fresh {q : Quantifier} (plain : (bind q v f).Plain)
    (low : ∀ x ∈ (bind q v f).freeVars, Low start x) (room : start + 1 < Text.indexBound) :
    .canonical (start + 1) ∉ f.allVars := by
  intro inside
  have index := Variable.index?_canonical room
  rcases mem_allVars_iff.mp inside with free | bound
  · by_cases here : .canonical (start + 1) = v
    · rw [here, plain v (by simp [binders])] at index
      cases index
    · exact (low _ (mem_freeVars_bind.mpr ⟨free, here⟩)).ne_canonical room rfl
  · rw [plain _ (by simp [binders, bound])] at index
    cases index

theorem numberFrom_bind {q : Quantifier} (plain : (bind q v f).Plain)
    (low : ∀ x ∈ (bind q v f).freeVars, Low start x)
    (body : start + 1 < Text.indexBound →
      (f.rename [(v, .canonical (start + 1))]).numberFrom (start + 1) =
        ((f.rename [(v, .canonical (start + 1))]).number id (start + 1)).checked) :
    (bind q v f).numberFrom start = ((bind q v f).number id start).checked := by
  by_cases room : start + 1 < Text.indexBound
  · have clear := canonical_fresh plain low room
    have same : (f.rename [(v, .canonical (start + 1))]).number id (start + 1) =
        f.number (fun u => if u = v then .canonical (start + 1) else id u) (start + 1) := by
      rw [rename_eq clear]
      exact number_renameFree clear fun x _ => rfl
    simp only [numberFrom, addIndex_of_lt room, ok_bind, body room, same, number]
    exact Numbered.checked_bind (.bind q (.canonical (start + 1))) _
  · rw [numberFrom, addIndex_of_le (Nat.not_lt.mp room), error_bind, Numbered.checked, number_last,
      quantifiers, if_neg (by omega)]

/-- With names that are out of the way, bodies can be renamed and sums checked one by one. -/
theorem numberFrom_eq (plain : f.Plain) (low : ∀ x ∈ f.freeVars, Low start x)
    (fits : start < Text.indexBound) : f.numberFrom start = (f.number id start).checked := by
  induction n : f.size using Nat.strong_induction_on generalizing f start with
  | _ n ih =>
    subst n
    cases f with
    | atom r ts =>
      rw [numberFrom, number, Numbered.checked, if_pos fits,
        List.map_congr_left fun t _ => t.regular_id.symm]
    | not f =>
      have inner : f.numberFrom start = (f.number id start).checked :=
        ih f.size (by simp only [size]; omega) (by simpa [Plain, binders] using plain)
          (by simpa using low) fits rfl
      rw [numberFrom, inner, number]
      exact Numbered.checked_bind .not _
    | multi c fs =>
      apply numberFrom_multi low fits
      intro f member
      apply ih f.size (size_lt_of_mem c member) _ _ fits rfl
      · exact fun v bound => plain v (by
          rw [binders]
          exact List.mem_flatMap.mpr ⟨f, member, bound⟩)
      · exact fun x free => low x (mem_freeVars_multi.mpr ⟨f, member, free⟩)
    | link c a b =>
      have left : a.numberFrom start = (a.number id start).checked := by
        apply ih a.size (by simp only [size]; omega) _ _ fits rfl
        · exact fun v bound => plain v (by simp [binders, bound])
        · exact fun x free => low x (mem_freeVars_link.mpr (.inl free))
      have right {start' : Nat} (above : start ≤ start') (fits : start' < Text.indexBound) :
          b.numberFrom start' = (b.number id start').checked := by
        apply ih b.size (by simp only [size]; omega) _ _ fits rfl
        · exact fun v bound => plain v (by simp [binders, bound])
        · exact fun x free i index => (low x (mem_freeVars_link.mpr (.inr free)) i index).trans above
      cases c with
      | imply => exact numberFrom_imply left (right (Nat.le_add_right _ _))
      | equiv => exact numberFrom_equiv low fits left (right (Nat.le_refl start) fits)
    | bind q v f =>
      apply numberFrom_bind plain low
      intro room
      have clear := canonical_fresh plain low room
      apply ih f.size (by simp only [size]; omega) _ _ room (size_rename _ f)
      · rw [rename_eq clear, Plain, binders_renameFree]
        exact fun x bound => plain x (by simp [binders, bound])
      · rw [rename_eq clear]
        intro x free
        rcases mem_freeVars_renameFree clear free with rfl | ⟨kept, other⟩
        · intro i index
          rw [Variable.index?_canonical room] at index
          exact (Option.some.inj index).ge
        · intro i index
          have := low x (mem_freeVars_bind.mpr ⟨kept, other⟩) i index
          omega

end Sums

section Start

theorem le_startIndex {v : Variable} {i : Nat} (free : v ∈ f.freeVars) (index : v.index? = some i) :
    i ≤ f.startIndex := by
  have grows (xs : List Nat) (n : Nat) : n ≤ xs.foldl max n ∧ ∀ m ∈ xs, m ≤ xs.foldl max n := by
    induction xs generalizing n with
    | nil => simp
    | cons x xs ih =>
      obtain ⟨first, rest⟩ := ih (max n x)
      simp only [List.foldl_cons, List.mem_cons]
      refine ⟨by omega, ?_⟩
      rintro m (rfl | member)
      · omega
      · exact rest m member
  exact (grows _ 0).2 i (List.mem_filterMap.mpr ⟨v, free, index⟩)

theorem startIndex_le {n : Nat} (low : ∀ v ∈ f.freeVars, ∀ i, v.index? = some i → i ≤ n) :
    f.startIndex ≤ n := by
  have bounded (xs : List Nat) (k : Nat) (start : k ≤ n) (all : ∀ i ∈ xs, i ≤ n) :
      xs.foldl max k ≤ n := by
    induction xs generalizing k with
    | nil => exact start
    | cons x xs ih =>
      obtain ⟨here, later⟩ := List.forall_mem_cons.mp all
      exact ih (max k x) (by omega) later
  refine bounded _ 0 (Nat.zero_le n) fun i member => ?_
  obtain ⟨v, free, index⟩ := List.mem_filterMap.mp member
  exact low v free i index

theorem startIndex_lt (f : Formula) : f.startIndex < Text.indexBound := by
  have below : f.startIndex ≤ Text.indexBound - 1 :=
    startIndex_le fun v _ i index => Nat.le_sub_one_of_lt (Variable.index?_lt index)
  have positive : 0 < Text.indexBound := by decide
  omega

theorem low_startIndex : ∀ x ∈ f.freeVars, Low f.startIndex x :=
  fun _ free _ index => le_startIndex free index

/-- Any formula that is numbered like `f` will do, if its names are out of the way. -/
theorem formula_numberFrom {g : Formula} (plain : g.Plain) (free : ∀ x ∈ g.freeVars, x ∈ f.freeVars)
    (number : ∀ image start, g.number image start = f.number image start) :
    (do return (← g.numberFrom f.startIndex).formula : Except Error Formula) =
      if f.startIndex + f.quantifiers < Text.indexBound then .ok (f.number id f.startIndex).formula
      else .error .indexOverflow := by
  have low : ∀ x ∈ g.freeVars, Low f.startIndex x := fun x member => low_startIndex x (free x member)
  rw [numberFrom_eq plain low f.startIndex_lt, number, Numbered.checked, number_last]
  split
  · rfl
  · rfl

/-- The regular form, in one go and with one look at the last index. -/
theorem regularForm_eq (f : Formula) : f.regularForm =
    if f.startIndex + f.quantifiers < Text.indexBound then .ok (f.number id f.startIndex).formula
    else .error .indexOverflow := by
  rw [regularForm]
  by_cases none : (f.allVars.all fun v => v.index?.isNone) = true
  · have ordinary : ∀ v ∈ f.allVars, v.index? = .none := by simpa using none
    have start : f.startIndex = 0 := by
      apply Nat.le_zero.mp
      apply startIndex_le
      intro v free i index
      rw [ordinary v (mem_allVars_of_free free)] at index
      cases index
    rw [if_pos none, ← start]
    apply formula_numberFrom _ (fun _ => id) fun _ _ => rfl
    exact fun v bound => ordinary v (mem_allVars_iff.mpr (.inr bound))
  · have clears : Clears f.allVars f (f.clearBinders f.allVars) := clears_clearBinders fun _ => id
    rw [if_neg none]
    exact formula_numberFrom clears.plain clears.free clears.number

theorem regularForm_eq_ok {r : Formula} (ok : f.regularForm = .ok r) :
    f.startIndex + f.quantifiers < Text.indexBound ∧ r = (f.number id f.startIndex).formula := by
  rw [regularForm_eq] at ok
  split at ok
  · rename_i fits
    exact ⟨fits, (Except.ok.inj ok).symm⟩
  · cases ok

end Start

end Formula

end Sequitur
