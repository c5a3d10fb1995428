import Mathlib.Logic.Relation
import Sequitur.Proofs.Matching
import Sequitur.Proofs.RegularForm
import Sequitur.Transformation

/-! Rewriting inside a formula. What a transformation does where its pattern matches carries over
to every place in which a formula can stand, if the relation between old and new is a
congruence. For a relation that goes one way, the polarity of the place decides. -/

namespace Sequitur

open Arrangement

universe u

section Results

variable {α β : Type}

theorem bind_eq_ok {x : Except Error α} {next : α → Except Error β} {b : β} :
    (x >>= next) = .ok b ↔ ∃ a, x = .ok a ∧ next a = .ok b := by
  cases x with
  | error e => simp [bind, Except.bind]
  | ok a => simp [bind, Except.bind]

theorem pure_eq_ok {a b : α} : (pure a : Except Error α) = .ok b ↔ a = b := by
  simp [pure, Except.pure]

/-- A result for each item, in the same order. -/
theorem exists_pairing_of_mapM {result : α → Except Error β} {xs : List α} {ys : List β}
    (ok : xs.mapM result = .ok ys) :
    ∃ pairs, Pairing true pairs xs ys ∧ ∀ p ∈ pairs, result p.1 = .ok p.2 := by
  induction xs generalizing ys with
  | nil =>
    rw [List.mapM_nil, pure_eq_ok] at ok
    subst ok
    exact ⟨[], ⟨rfl, rfl⟩, by simp⟩
  | cons x xs ih =>
    simp only [List.mapM_cons, bind_eq_ok, pure_eq_ok] at ok
    obtain ⟨y, here, later, rest, rfl⟩ := ok
    obtain ⟨pairs, ⟨rfl, rfl⟩, all⟩ := ih rest
    exact ⟨(x, y) :: pairs, ⟨rfl, rfl⟩, List.forall_mem_cons.mpr ⟨here, all⟩⟩

theorem exists_of_mapM {result : α → Except Error β} {xs : List α} {ys : List β} {y : β}
    (ok : xs.mapM result = .ok ys) (member : y ∈ ys) : ∃ x ∈ xs, result x = .ok y := by
  obtain ⟨pairs, pairing, all⟩ := exists_pairing_of_mapM ok
  obtain ⟨x, source, pair⟩ := pairing.exists_left member
  exact ⟨x, source, all _ pair⟩

theorem exists_mem_mapM {result : α → Except Error β} {xs : List α} {ys : List β} {x : α}
    (ok : xs.mapM result = .ok ys) (member : x ∈ xs) : ∃ y ∈ ys, result x = .ok y := by
  obtain ⟨pairs, pairing, all⟩ := exists_pairing_of_mapM ok
  obtain ⟨y, target, pair⟩ := pairing.exists_right member
  exact ⟨y, target, all _ pair⟩

def Succeeds {α : Type} (x : Except Error α) : Prop := ∃ a, x = .ok a

namespace Succeeds

variable {x : Except Error α} {next : α → Except Error β}

theorem pure (a : α) : Succeeds (Pure.pure a) := ⟨a, rfl⟩

theorem bind (first : Succeeds x) (later : ∀ a, x = .ok a → Succeeds (next a)) :
    Succeeds (x >>= next) := by
  obtain ⟨a, rfl⟩ := first
  exact later a rfl

theorem bind_pure_iff {build : α → β} :
    Succeeds (x >>= fun a => Pure.pure (build a)) ↔ Succeeds x := by
  constructor
  · intro succeeds
    obtain ⟨_, ok⟩ := succeeds
    obtain ⟨a, first, -⟩ := bind_eq_ok.mp ok
    exact ⟨a, first⟩
  · intro succeeds
    exact succeeds.bind fun a _ => .pure (build a)

theorem mapM_iff {result : α → Except Error β} {xs : List α} :
    Succeeds (xs.mapM result) ↔ ∀ x ∈ xs, Succeeds (result x) := by
  constructor
  · intro succeeds x member
    obtain ⟨ys, ok⟩ := succeeds
    obtain ⟨y, -, here⟩ := exists_mem_mapM ok member
    exact ⟨y, here⟩
  · intro each
    induction xs with
    | nil => exact .pure []
    | cons x xs ih =>
      obtain ⟨here, later⟩ := List.forall_mem_cons.mp each
      rw [List.mapM_cons]
      exact here.bind fun y _ => (ih later).bind fun ys _ => .pure (y :: ys)

end Succeeds

end Results

/-- A relation that may be applied inside a formula, any number of times. -/
structure Formula.Congruence (related : Formula → Formula → Prop) : Prop where
  refl : ∀ f, related f f
  trans : ∀ {f g h}, related f g → related g h → related f h
  not : ∀ {f g}, related f g → related (.not f) (.not g)
  multi : ∀ {c fs gs pairs}, Pairing true pairs fs gs → (∀ p ∈ pairs, related p.1 p.2) →
    related (.multi c fs) (.multi c gs)
  link : ∀ {c a a' b b'}, related a a' → related b b' → related (.link c a b) (.link c a' b')
  bind : ∀ {q v f g}, related f g → related (.bind q v f) (.bind q v g)

namespace Transformation

variable {w : Transformation} {related : Formula → Formula → Prop} {f g : Formula}

def Relates (w : Transformation) (related : Formula → Formula → Prop) : Prop :=
  ∀ f r g, r ∈ w.pattern.matcher f .empty → w.result r = .ok g → related f g

theorem Relates.atRoot (relates : w.Relates related) {gs : List Formula}
    (ok : w.atRoot f = .ok gs) (member : g ∈ gs) : related f g := by
  obtain ⟨r, found, result⟩ := exists_of_mapM ok member
  exact relates f r g found result

theorem Relates.firstAtRoot (relates : w.Relates related) (congruence : Formula.Congruence related)
    (ok : w.firstAtRoot f = .ok g) : related f g := by
  unfold Transformation.firstAtRoot at ok
  split at ok
  · rename_i r _ found
    exact relates f r g (by simp [found]) ok
  · obtain rfl := Except.ok.inj ok
    exact congruence.refl f

theorem Relates.atOnePlace (relates : w.Relates related) (congruence : Formula.Congruence related)
    {gs : List Formula} (ok : w.atOnePlace f = .ok gs) (member : g ∈ gs) : related f g := by
  have inMembers {fs : List Formula} {lists : List (List Formula)} {gs : List Formula}
      (ih : ∀ f ∈ fs, ∀ hs g, w.atOnePlace f = .ok hs → g ∈ hs → related f g)
      (ok : w.atOneMember fs = .ok lists) (member : gs ∈ lists) :
      ∃ pairs, Pairing true pairs fs gs ∧ ∀ p ∈ pairs, related p.1 p.2 := by
    induction fs generalizing lists gs with
    | nil =>
      rw [atOneMember] at ok
      obtain rfl := Except.ok.inj ok
      cases member
    | cons f fs rest =>
      simp only [atOneMember, bind_eq_ok, pure_eq_ok] at ok
      obtain ⟨first, here, later, there, rfl⟩ := ok
      rcases List.mem_append.mp member with member | member
      · obtain ⟨g, new, rfl⟩ := List.mem_map.mp member
        refine ⟨(f, g) :: fs.map fun h => (h, h), ?_, ?_⟩
        · simp [Pairing, Function.comp_def]
        · exact List.forall_mem_cons.mpr ⟨ih f (by simp) first g here new,
            List.forall_mem_map.mpr fun h _ => congruence.refl h⟩
      · obtain ⟨gs, new, rfl⟩ := List.mem_map.mp member
        obtain ⟨pairs, ⟨rfl, rfl⟩, all⟩ := rest (fun f inside => ih f (by simp [inside])) there new
        exact ⟨(f, f) :: pairs, ⟨rfl, rfl⟩, List.forall_mem_cons.mpr ⟨congruence.refl f, all⟩⟩
  induction f generalizing g gs with
  | atom r ts =>
    rw [Transformation.atOnePlace] at ok
    exact relates.atRoot ok member
  | not f ih =>
    simp only [Transformation.atOnePlace, bind_eq_ok, pure_eq_ok] at ok
    obtain ⟨here, root, inside, below, rfl⟩ := ok
    rcases List.mem_append.mp member with member | member
    · exact relates.atRoot root member
    · obtain ⟨g, new, rfl⟩ := List.mem_map.mp member
      exact congruence.not (ih below new)
  | multi c fs ih =>
    simp only [Transformation.atOnePlace, bind_eq_ok, pure_eq_ok] at ok
    obtain ⟨here, root, inside, below, rfl⟩ := ok
    rcases List.mem_append.mp member with member | member
    · exact relates.atRoot root member
    · obtain ⟨gs, new, rfl⟩ := List.mem_map.mp member
      obtain ⟨pairs, pairing, all⟩ :=
        inMembers (fun f inside hs g => ih f inside) below new
      exact congruence.multi pairing all
  | link c a b iha ihb =>
    simp only [Transformation.atOnePlace, bind_eq_ok, pure_eq_ok] at ok
    obtain ⟨here, root, left, lefts, right, rights, rfl⟩ := ok
    rcases List.mem_append.mp member with member | member
    · rcases List.mem_append.mp member with member | member
      · exact relates.atRoot root member
      · obtain ⟨g, new, rfl⟩ := List.mem_map.mp member
        exact congruence.link (iha lefts new) (congruence.refl b)
    · obtain ⟨g, new, rfl⟩ := List.mem_map.mp member
      exact congruence.link (congruence.refl a) (ihb rights new)
  | bind q v f ih =>
    simp only [Transformation.atOnePlace, bind_eq_ok, pure_eq_ok] at ok
    obtain ⟨here, root, inside, below, rfl⟩ := ok
    rcases List.mem_append.mp member with member | member
    · exact relates.atRoot root member
    · obtain ⟨g, new, rfl⟩ := List.mem_map.mp member
      exact congruence.bind (ih below new)

theorem Relates.everywhere (relates : w.Relates related) (congruence : Formula.Congruence related)
    (ok : w.everywhere f = .ok g) : related f g := by
  have inMembers {fs gs : List Formula}
      (ih : ∀ f ∈ fs, ∀ g, w.everywhere f = .ok g → related f g)
      (ok : w.everywhereInAll fs = .ok gs) :
      ∃ pairs, Pairing true pairs fs gs ∧ ∀ p ∈ pairs, related p.1 p.2 := by
    induction fs generalizing gs with
    | nil =>
      rw [everywhereInAll] at ok
      obtain rfl := Except.ok.inj ok
      exact ⟨[], ⟨rfl, rfl⟩, by simp⟩
    | cons f fs rest =>
      simp only [everywhereInAll, bind_eq_ok, pure_eq_ok] at ok
      obtain ⟨g, here, gs, there, rfl⟩ := ok
      obtain ⟨pairs, ⟨rfl, rfl⟩, all⟩ := rest (fun f inside => ih f (by simp [inside])) there
      exact ⟨(f, g) :: pairs, ⟨rfl, rfl⟩,
        List.forall_mem_cons.mpr ⟨ih f (by simp) g here, all⟩⟩
  induction f generalizing g with
  | atom r ts =>
    rw [Transformation.everywhere] at ok
    exact relates.firstAtRoot congruence ok
  | not f ih =>
    simp only [Transformation.everywhere, bind_eq_ok] at ok
    obtain ⟨f', below, root⟩ := ok
    exact congruence.trans (congruence.not (ih below)) (relates.firstAtRoot congruence root)
  | multi c fs ih =>
    simp only [Transformation.everywhere, bind_eq_ok] at ok
    obtain ⟨fs', below, root⟩ := ok
    obtain ⟨pairs, pairing, all⟩ := inMembers (fun f inside g => ih f inside) below
    exact congruence.trans (congruence.multi pairing all) (relates.firstAtRoot congruence root)
  | link c a b iha ihb =>
    simp only [Transformation.everywhere, bind_eq_ok] at ok
    obtain ⟨a', left, b', right, root⟩ := ok
    exact congruence.trans (congruence.link (iha left) (ihb right))
      (relates.firstAtRoot congruence root)
  | bind q v f ih =>
    simp only [Transformation.everywhere, bind_eq_ok] at ok
    obtain ⟨f', below, root⟩ := ok
    exact congruence.trans (congruence.bind (ih below)) (relates.firstAtRoot congruence root)

theorem mem_of_mem_addNew {fs : List Formula} {h : Formula} (member : g ∈ addNew fs h) :
    g ∈ fs ∨ g = h := by
  unfold addNew at member
  split at member
  · exact .inl member
  · simpa using member

theorem mem_of_mem_foldl_addNew {fs hs : List Formula} (member : g ∈ hs.foldl addNew fs) :
    g ∈ fs ∨ g ∈ hs := by
  induction hs generalizing fs with
  | nil => exact .inl member
  | cons h hs ih =>
    rcases ih member with earlier | later
    · rcases mem_of_mem_addNew earlier with known | rfl
      · exact .inl known
      · exact .inr (by simp)
    · exact .inr (by simp [later])

/-- Every result is related to the formula, if flattening keeps the relation. -/
theorem Relates.addResults (relates : w.Relates related) (congruence : Formula.Congruence related)
    (flattens : ∀ f, related f f.flatten) {known gs : List Formula}
    (before : ∀ g ∈ known, related f g) (ok : w.addResults known f = .ok gs) (member : g ∈ gs) :
    related f g := by
  simp only [Transformation.addResults, one, all, bind_eq_ok, pure_eq_ok] at ok
  obtain ⟨_, ⟨single, places, rfl⟩, _, ⟨complete, whole, rfl⟩, rfl⟩ := ok
  have atPlaces (g : Formula) (member : g ∈ (single.map Formula.flatten).foldl addNew known) :
      related f g := by
    rcases mem_of_mem_foldl_addNew member with known | new
    · exact before g known
    · obtain ⟨h, result, rfl⟩ := List.mem_map.mp new
      exact congruence.trans (relates.atOnePlace congruence places result) (flattens h)
  split at member
  · exact atPlaces g member
  · rcases mem_of_mem_addNew member with earlier | rfl
    · exact atPlaces g earlier
    · exact congruence.trans (relates.everywhere congruence whole) (flattens complete)

end Transformation

namespace Formula

variable {D : Type u} {I : Interpretation D} {f g : Formula}

def Kept (I : Interpretation D) (f g : Formula) : Prop := f.Respected I → g.Respected I

def Equivalent (I : Interpretation D) (f g : Formula) : Prop :=
  f.Respected I → g.Respected I ∧ ∀ ρ, f.holds I ρ ↔ g.holds I ρ

theorem Equivalent.kept (equivalent : f.Equivalent I g) : f.Kept I g :=
  fun respected => (equivalent respected).1

theorem congruence_kept : Congruence (Kept I) where
  refl f := id
  trans first second respected := second (first respected)
  not kept respected := respected_not.mpr (kept (respected_not.mp respected))
  multi := by
    intro c fs gs pairs pairing all respected
    rw [respected_multi] at respected ⊢
    intro g member
    obtain ⟨f, source, pair⟩ := pairing.exists_left member
    exact all _ pair (respected f source)
  link := by
    intro c a a' b b' left right respected
    rw [respected_link] at respected ⊢
    exact ⟨left respected.1, right respected.2⟩
  bind kept respected := respected_bind.mpr (kept (respected_bind.mp respected))

theorem congruence_equivalent : Congruence (Equivalent I) where
  refl f respected := ⟨respected, fun ρ => Iff.rfl⟩
  trans := by
    intro f g h first second respected
    obtain ⟨kept, same⟩ := first respected
    obtain ⟨kept, same'⟩ := second kept
    exact ⟨kept, fun ρ => (same ρ).trans (same' ρ)⟩
  not := by
    intro f g equivalent respected
    refine ⟨congruence_kept.not equivalent.kept respected, fun ρ => ?_⟩
    rw [holds_not, holds_not, (equivalent (respected_not.mp respected)).2 ρ]
  multi := by
    intro c fs gs pairs pairing all respected
    have members := respected_multi.mp respected
    refine ⟨congruence_kept.multi pairing (fun p pair => (all p pair).kept) respected, fun ρ => ?_⟩
    apply holds_multi_congr pairing.unordered
    intro p pair
    exact (all p pair (members p.1 (pairing.mem pair).1)).2 ρ
  link := by
    intro c a a' b b' left right respected
    obtain ⟨respecteda, respectedb⟩ := respected_link.mp respected
    refine ⟨congruence_kept.link left.kept right.kept respected, fun ρ => ?_⟩
    have lefts := (left respecteda).2 ρ
    have rights := (right respectedb).2 ρ
    cases c with
    | imply => rw [holds_imply, holds_imply, lefts, rights]
    | equiv => rw [holds_equiv, holds_equiv, lefts, rights]
  bind := by
    intro q v f g equivalent respected
    refine ⟨congruence_kept.bind equivalent.kept respected, fun ρ => holds_bind_congr fun d => ?_⟩
    exact (equivalent (respected_bind.mp respected)).2 _

/-- The members of a formula as a junction have the truth value of the formula. -/
theorem holds_members (c : Junction) (f : Formula) (ρ : Variable → D) :
    (multi c (f.members c)).holds I ρ ↔ f.holds I ρ := by
  have single (g : Formula) : (multi c [g]).holds I ρ ↔ g.holds I ρ := by cases c <;> simp
  cases f with
  | multi d fs =>
    rw [members]
    split
    · rename_i here
      rw [here]
    · exact single _
  | _ => exact single _

theorem holds_multi_flatMap (c : Junction) {fs : List Formula} {split : Formula → List Formula}
    {ρ : Variable → D} (parts : ∀ f ∈ fs, (multi c (split f)).holds I ρ ↔ f.holds I ρ) :
    (multi c (fs.flatMap split)).holds I ρ ↔ (multi c fs).holds I ρ := by
  cases c with
  | and =>
    simp only [holds_and, List.mem_flatMap, forall_exists_index, and_imp] at parts ⊢
    constructor
    · intro all f member
      exact (parts f member).mp fun g part => all g f member part
    · intro all g f member part
      exact (parts f member).mpr (all f member) g part
  | or =>
    simp only [holds_or, List.mem_flatMap] at parts ⊢
    constructor
    · rintro ⟨g, ⟨f, member, part⟩, true⟩
      exact ⟨f, member, (parts f member).mp ⟨g, part, true⟩⟩
    · rintro ⟨f, member, true⟩
      obtain ⟨g, part, true⟩ := (parts f member).mpr true
      exact ⟨g, ⟨f, member, part⟩, true⟩

theorem holds_member_mono {c : Junction} {before after : List Formula} {ρ : Variable → D}
    (implies : f.holds I ρ → g.holds I ρ) (true : (multi c (before ++ f :: after)).holds I ρ) :
    (multi c (before ++ g :: after)).holds I ρ := by
  cases c with
  | and =>
    simp only [holds_and, List.mem_append, List.mem_cons] at true ⊢
    rintro h (earlier | rfl | later)
    · exact true h (.inl earlier)
    · exact implies (true f (.inr (.inl rfl)))
    · exact true h (.inr (.inr later))
  | or =>
    simp only [holds_or, List.mem_append, List.mem_cons] at true ⊢
    obtain ⟨h, earlier | rfl | later, true⟩ := true
    · exact ⟨h, .inl earlier, true⟩
    · exact ⟨g, .inr (.inl rfl), implies true⟩
    · exact ⟨h, .inr (.inr later), true⟩

theorem holds_bind_mono {q : Quantifier} {v : Variable} {ρ : Variable → D}
    (implies : ∀ d, f.holds I (Function.update ρ v d) → g.holds I (Function.update ρ v d))
    (true : (bind q v f).holds I ρ) : (bind q v g).holds I ρ := by
  cases q with
  | all =>
    rw [holds_all] at true ⊢
    exact fun d => implies d (true d)
  | ex =>
    rw [holds_ex] at true ⊢
    exact true.imp implies

theorem respected_members {c : Junction} (respected : f.Respected I) (member : g ∈ f.members c) :
    g.Respected I := by
  cases f with
  | multi d fs =>
    rw [members] at member
    split at member
    · exact respected_multi.mp respected g member
    · rwa [List.mem_singleton.mp member]
  | _ =>
    obtain rfl := List.mem_singleton.mp member
    exact respected

theorem equivalent_flatten (f : Formula) : f.Equivalent I f.flatten := by
  induction f with
  | atom r ts =>
    rw [flatten]
    exact congruence_equivalent.refl _
  | not f ih =>
    rw [flatten]
    exact congruence_equivalent.not ih
  | multi c fs ih =>
    rw [flatten]
    intro respected
    have all := respected_multi.mp respected
    constructor
    · rw [respected_multi]
      intro g member
      obtain ⟨f, source, part⟩ := List.mem_flatMap.mp member
      exact respected_members (ih f source (all f source)).1 part
    · intro ρ
      refine (holds_multi_flatMap c fun f member => ?_).symm
      exact (holds_members c _ ρ).trans ((ih f member (all f member)).2 ρ).symm
  | link c a b iha ihb =>
    rw [flatten]
    exact congruence_equivalent.link iha ihb
  | bind q v f ih =>
    rw [flatten]
    exact congruence_equivalent.bind ih

theorem respected_regularForm (ok : f.regularForm = .ok g) (respected : f.Respected I) :
    g.Respected I := fun n occurs => respected n (mem_symbols_of_regularForm ok occurs)

theorem holds_regularForm (ok : f.regularForm = .ok g) (respected : f.Respected I)
    (ρ : Variable → D) : f.holds I ρ ↔ g.holds I ρ := by
  refine (instance_regularForm ok).holds_iff (fun _ _ => Symbol.same_of_eq) respected ?_
  rintro x - s - rfl
  rw [Term.value]

end Formula

namespace Transformation

variable {D : Type u} {I : Interpretation D} {w : Transformation} {f g : Formula}

/-- The new formula is a consequence. -/
def Weakens (w : Transformation) (I : Interpretation D) : Prop :=
  w.Relates fun f g => f.Respected I → g.Respected I ∧ ∀ ρ, f.holds I ρ → g.holds I ρ

/-- One rewriting at a place of the given polarity. The sides of an equivalence have none. -/
inductive Rewrites (w : Transformation) : Bool → Formula → Formula → Prop
  | here {f g : Formula} {r : Bindings} : r ∈ w.pattern.matcher f .empty → w.result r = .ok g →
      Rewrites w true f g
  | not {positive : Bool} {f g : Formula} : Rewrites w (!positive) f g →
      Rewrites w positive (.not f) (.not g)
  | member {positive : Bool} {c : Junction} {before after : List Formula} {f g : Formula} :
      Rewrites w positive f g →
      Rewrites w positive (.multi c (before ++ f :: after)) (.multi c (before ++ g :: after))
  | premise {positive : Bool} {a f g : Formula} : Rewrites w (!positive) f g →
      Rewrites w positive (.link .imply f a) (.link .imply g a)
  | conclusion {positive : Bool} {a f g : Formula} : Rewrites w positive f g →
      Rewrites w positive (.link .imply a f) (.link .imply a g)
  | body {positive : Bool} {q : Quantifier} {v : Variable} {f g : Formula} :
      Rewrites w positive f g → Rewrites w positive (.bind q v f) (.bind q v g)

/-- `g` comes from `f` or from its regular form by rewriting at positive places alone, up to the
nesting of junctions and up to identity. -/
def RewritesPositively (w : Transformation) (f g : Formula) : Prop :=
  ∃ f' g', (f' = f ∨ f.regularForm = .ok f') ∧ Relation.ReflTransGen (w.Rewrites true) f' g' ∧
    g'.flatten.identical g = true

/-- At a negative place the old formula is a consequence of the new one. -/
theorem Rewrites.holds {positive : Bool} (weakens : w.Weakens I)
    (rewrites : w.Rewrites positive f g) (respected : f.Respected I) :
    g.Respected I ∧
      ∀ ρ, cond positive (f.holds I ρ → g.holds I ρ) (g.holds I ρ → f.holds I ρ) := by
  induction rewrites with
  | here found result => exact weakens _ _ _ found result respected
  | @not positive f g _ ih =>
    obtain ⟨kept, truth⟩ := ih (Formula.respected_not.mp respected)
    refine ⟨Formula.respected_not.mpr kept, fun ρ => ?_⟩
    have inside := truth ρ
    cases positive with
    | true =>
      rw [cond_true, Formula.holds_not, Formula.holds_not]
      exact mt inside
    | false =>
      rw [cond_false, Formula.holds_not, Formula.holds_not]
      exact mt inside
  | @member positive c before after f g _ ih =>
    have members := Formula.respected_multi.mp respected
    obtain ⟨kept, truth⟩ := ih (members f (by simp))
    refine ⟨Formula.respected_multi.mpr fun h member => ?_, fun ρ => ?_⟩
    · rcases List.mem_append.mp member with earlier | member
      · exact members h (by simp [earlier])
      · rcases List.mem_cons.mp member with rfl | later
        · exact kept
        · exact members h (by simp [later])
    · cases positive with
      | true => exact Formula.holds_member_mono (truth ρ)
      | false => exact Formula.holds_member_mono (truth ρ)
  | @premise positive a f g _ ih =>
    obtain ⟨left, right⟩ := Formula.respected_link.mp respected
    obtain ⟨kept, truth⟩ := ih left
    refine ⟨Formula.respected_link.mpr ⟨kept, right⟩, fun ρ => ?_⟩
    have inside := truth ρ
    cases positive with
    | true =>
      rw [cond_true, Formula.holds_imply, Formula.holds_imply]
      exact fun implies premise => implies (inside premise)
    | false =>
      rw [cond_false, Formula.holds_imply, Formula.holds_imply]
      exact fun implies premise => implies (inside premise)
  | @conclusion positive a f g _ ih =>
    obtain ⟨left, right⟩ := Formula.respected_link.mp respected
    obtain ⟨kept, truth⟩ := ih right
    refine ⟨Formula.respected_link.mpr ⟨left, kept⟩, fun ρ => ?_⟩
    have inside := truth ρ
    cases positive with
    | true =>
      rw [cond_true, Formula.holds_imply, Formula.holds_imply]
      exact fun implies premise => inside (implies premise)
    | false =>
      rw [cond_false, Formula.holds_imply, Formula.holds_imply]
      exact fun implies premise => inside (implies premise)
  | @body positive q v f g _ ih =>
    obtain ⟨kept, truth⟩ := ih (Formula.respected_bind.mp respected)
    refine ⟨Formula.respected_bind.mpr kept, fun ρ => ?_⟩
    cases positive with
    | true => exact Formula.holds_bind_mono fun d => truth (Function.update ρ v d)
    | false => exact Formula.holds_bind_mono fun d => truth (Function.update ρ v d)

theorem RewritesPositively.holds (weakens : w.Weakens I) (rewrites : w.RewritesPositively f g)
    (respected : f.Respected I) {ρ : Variable → D} (true : f.holds I ρ) : g.holds I ρ := by
  obtain ⟨f', g', start, chain, identical⟩ := rewrites
  have first : f'.Respected I ∧ f'.holds I ρ := by
    rcases start with rfl | ok
    · exact ⟨respected, true⟩
    · exact ⟨Formula.respected_regularForm ok respected,
        (Formula.holds_regularForm ok respected ρ).mp true⟩
  have last : g'.Respected I ∧ g'.holds I ρ := by
    clear identical
    induction chain with
    | refl => exact first
    | tail _ step ih =>
      obtain ⟨kept, truth⟩ := step.holds weakens ih.1
      exact ⟨kept, truth ρ ih.2⟩
  obtain ⟨kept, same⟩ := g'.equivalent_flatten last.1
  exact (Formula.holds_of_identical identical kept).mp ((same ρ).mp last.2)

end Transformation

end Sequitur
