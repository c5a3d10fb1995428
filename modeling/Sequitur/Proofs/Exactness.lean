import Sequitur.Proofs.Congruence
import Sequitur.Proofs.Instantiation
import Sequitur.Proofs.Totality

/-! Matching a template without quantifiers is exact. What is found turns the template into the
formula again, and every choice of formulas and terms that does so is found, up to identity. -/

namespace Sequitur

open Arrangement Pattern

section Forward

variable {r : Bindings} {taken : VarSet}

theorem Term.exists_fill_of_fits {t u : Term} (fits : (TermPattern.ofTerm t).Fits r u) :
    ∃ s, t.fill r [] = .ok s ∧ s.Instance Symbol.Same .keep u := by
  induction t generalizing u with
  | var x =>
    rw [TermPattern.ofTerm, TermPattern.fits_ref_iff] at fits
    obtain ⟨s, bound, kept⟩ := fits
    exact ⟨s, fill_var_of_bound bound, kept⟩
  | const c =>
    rw [TermPattern.ofTerm] at fits
    cases fits with
    | const same => exact ⟨.const c, by rw [fill], .const same⟩
  | app op ts ih =>
    rw [TermPattern.ofTerm] at fits
    cases fits with
    | app same pairing all =>
      obtain ⟨sources, pairing', images⟩ := pairing.exists_of_map_left
      obtain ⟨ss, results, ok, pairing'', insts⟩ := exists_mapM pairing' fun p pair =>
        ih p.1 (pairing'.mem pair).1 (all _ (images p pair))
      refine ⟨.app op ss, ?_, .app same pairing'' insts⟩
      rw [fill, fillAll_eq, ok]
      rfl

theorem Formula.QuantifierFree.exists_fill {template f : Formula} (free : template.QuantifierFree)
    (plain : ∀ name a, r.formula? name = some a → a.params = [])
    (fits : (ofTemplate template).Fits r f) :
    ∃ g, template.fillUnder r taken [] = .ok g ∧ g.Instance Symbol.Same .keep f := by
  induction free generalizing f with
  | prop =>
    rw [ofTemplate] at fits
    cases fits with
    | @ref _ _ a _ bound identical =>
      refine ⟨a.body, ?_, identical_iff.mp identical⟩
      rw [fillUnder, Term.fillAll]
      simp only [bound]
      exact Abstraction.instantiate_eq_ok.mpr (by simp [plain _ a bound, Subst.ofList])
  | pred =>
    rw [ofTemplate] at fits
    cases fits with
    | atom same pairing all =>
      obtain ⟨sources, pairing', images⟩ := pairing.exists_of_map_left
      obtain ⟨ss, results, ok, pairing'', insts⟩ := exists_mapM pairing' fun q pair =>
        Term.exists_fill_of_fits (all _ (images q pair))
      refine ⟨_, ?_, .atom same pairing'' insts⟩
      rw [fillUnder, Term.fillAll_eq, ok]
      rfl
  | not _ ih =>
    rw [ofTemplate] at fits
    cases fits with
    | not fits =>
      obtain ⟨g, ok, inst⟩ := ih fits
      refine ⟨_, ?_, .not inst⟩
      rw [fillUnder, ok]
      rfl
  | multi _ ih =>
    rw [ofTemplate] at fits
    obtain ⟨fs, pairs, rfl, pairing, all⟩ := fits.exists_exactly
    obtain ⟨sources, pairing', images⟩ := pairing.exists_of_map_left
    obtain ⟨gs, results, ok, pairing'', insts⟩ := exists_mapM pairing' fun q pair =>
      ih q.1 (pairing'.mem pair).1 (all _ (images q pair))
    refine ⟨_, ?_, .multi pairing'' insts⟩
    rw [fillUnder, fillAllUnder_eq, ok]
    rfl
  | @link c a b _ _ iha ihb =>
    rw [ofTemplate] at fits
    cases fits with
    | imply fitsa fitsb =>
      obtain ⟨g, oka, insta⟩ := iha fitsa
      obtain ⟨h, okb, instb⟩ := ihb fitsb
      refine ⟨.imply g h, ?_, .imply insta instb⟩
      rw [fillUnder, oka, okb]
      rfl
    | @equiv _ _ _ a' b' _ pairing all =>
      have sides : ∃ g h, a.fillUnder r taken [] = .ok g ∧ b.fillUnder r taken [] = .ok h ∧
          ∃ pairs, Pairing false pairs [g, h] [a', b'] ∧
            ∀ p ∈ pairs, Formula.Instance Symbol.Same .keep p.1 p.2 := by
        rcases Pairing.exists_two.mp ⟨_, pairing, all⟩ with ⟨fitsa, fitsb⟩ | ⟨fitsa, fitsb⟩
        · obtain ⟨g, oka, insta⟩ := iha fitsa
          obtain ⟨h, okb, instb⟩ := ihb fitsb
          exact ⟨g, h, oka, okb, Pairing.exists_two.mpr (.inl ⟨insta, instb⟩)⟩
        · obtain ⟨g, oka, insta⟩ := iha fitsa
          obtain ⟨h, okb, instb⟩ := ihb fitsb
          exact ⟨g, h, oka, okb, Pairing.exists_two.mpr (.inr ⟨insta, instb⟩)⟩
      obtain ⟨g, h, oka, okb, pairs, pairing, insts⟩ := sides
      refine ⟨.equiv g h, ?_, .equiv pairing insts⟩
      rw [fillUnder, oka, okb]
      rfl

end Forward

namespace Matcher

variable {α : Type} {good : Bindings → Prop} {m m' : Matcher α} {x y : α} {ms : List (Matcher α)}
  {xs : List α} {pairs : List (Matcher α × α)}

/-- From good bindings the matcher finds good bindings for the item. -/
def Continues (good : Bindings → Prop) (m : Matcher α) (x : α) : Prop :=
  ∀ r, good r → ∃ r' ∈ m x r, good r'

theorem Continues.onEach (first : Continues good m x) (second : Continues good m' y) (r : Bindings)
    (start : good r) : ∃ r' ∈ Matcher.onEach m' y (m x r), good r' := by
  obtain ⟨between, found, kept⟩ := first r start
  obtain ⟨r', found', kept'⟩ := second between kept
  exact ⟨r', List.mem_flatMap.mpr ⟨between, found, found'⟩, kept'⟩

theorem Continues.inOrder (pairing : Pairing true pairs ms xs)
    (each : ∀ p ∈ pairs, Continues good p.1 p.2) : Continues good (Matcher.inOrder ms) xs := by
  obtain ⟨rfl, rfl⟩ := pairing
  induction pairs with
  | nil =>
    intro r start
    exact ⟨r, by simp [Matcher.inOrder], start⟩
  | cons p pairs ih =>
    intro r start
    obtain ⟨here, later⟩ := List.forall_mem_cons.mp each
    obtain ⟨between, found, kept⟩ := here r start
    obtain ⟨r', found', kept'⟩ := ih later between kept
    refine ⟨r', ?_, kept'⟩
    rw [List.map_cons, List.map_cons, Matcher.inOrder]
    exact List.mem_flatMap.mpr ⟨between, found, found'⟩

/-- Each matcher picks the item that it is paired with. -/
theorem exists_assignment (perm : (pairs.map Prod.snd).Perm xs)
    (each : ∀ p ∈ pairs, Continues good p.1 p.2) (r : Bindings) (start : good r) :
    ∃ r', (r', []) ∈ assignments (pairs.map Prod.fst) xs r ∧ good r' := by
  induction pairs generalizing xs r with
  | nil =>
    obtain rfl : xs = [] := by simpa using perm
    exact ⟨r, by simp [assignments], start⟩
  | cons p pairs ih =>
    obtain ⟨here, later⟩ := List.forall_mem_cons.mp each
    have member : p.2 ∈ xs := perm.subset (by simp)
    obtain ⟨rest, pick⟩ := exists_pick member
    have others : (pairs.map Prod.snd).Perm rest :=
      (perm.trans (perm_of_mem_picks pick)).cons_inv
    obtain ⟨between, found, kept⟩ := here r start
    obtain ⟨r', found', kept'⟩ := ih others later between kept
    refine ⟨r', ?_, kept'⟩
    rw [List.map_cons, assignments]
    apply List.mem_flatMap.mpr
    exact ⟨(p.2, rest), pick, List.mem_flatMap.mpr ⟨between, found, found'⟩⟩

theorem Continues.inAnyOrder (pairing : Pairing false pairs ms xs)
    (each : ∀ p ∈ pairs, Continues good p.1 p.2) : Continues good (Matcher.inAnyOrder ms) xs := by
  intro r start
  obtain ⟨r', found, kept⟩ := exists_assignment pairing.perm each r start
  rw [pairing.1] at found
  refine ⟨r', ?_, kept⟩
  rw [Matcher.inAnyOrder, if_pos pairing.length_eq]
  exact List.mem_map_of_mem found

end Matcher

section Backward

/-- Items whose results are paired with other items can be paired with these themselves. -/
theorem exists_meeting {α β γ : Type} {result : α → Except Error β} {related : γ → β → Prop}
    {ordered : Bool} {xs : List α} {ys : List β} {zs : List γ} {pairs : List (γ × β)}
    (ok : xs.mapM result = .ok ys) (pairing : Pairing ordered pairs zs ys)
    (all : ∀ p ∈ pairs, related p.1 p.2) : ∃ across, Pairing ordered across xs zs ∧
      ∀ p ∈ across, p.1 ∈ xs ∧ p.2 ∈ zs ∧ ∃ y, result p.1 = .ok y ∧ related p.2 y := by
  obtain ⟨filled, pairing', results⟩ := exists_pairing_of_mapM ok
  obtain ⟨across, meeting, from_both⟩ := (pairing'.ofOrdered ordered).cospan pairing
  refine ⟨across, meeting, fun p pair => ?_⟩
  obtain ⟨y, left, right⟩ := from_both p pair
  obtain ⟨inside, inside'⟩ := meeting.mem pair
  exact ⟨inside, inside', y, results _ left, all _ right⟩

/-- What is bound is made of these symbols and identical to what the bindings `σ` have there. -/
structure Bindings.Follows (S : Symbol → Prop) (σ r : Bindings) : Prop where
  formula : ∀ {name a}, r.formula? name = some a → (∀ n ∈ a.body.symbols, S n) ∧
    ∃ b, σ.formula? name = some b ∧ a.body.Instance Symbol.Same .keep b.body
  term : ∀ {name t}, r.term? name = some t → (∀ n ∈ t.symbols, S n) ∧
    ∃ u, σ.term? name = some u ∧ t.Instance Symbol.Same .keep u

variable {S : Symbol → Prop} {σ r : Bindings} {name : String} {taken : VarSet}

namespace Bindings.Follows

theorem empty (S : Symbol → Prop) (σ : Bindings) : Bindings.Follows S σ .empty := by
  constructor
  · intro name a bound
    simp at bound
  · intro name t bound
    simp at bound

theorem insertTerm {t u : Term} (follows : Bindings.Follows S σ r) (made : ∀ n ∈ t.symbols, S n)
    (bound : σ.term? name = some u) (inst : t.Instance Symbol.Same .keep u) :
    Bindings.Follows S σ (r.insertTerm name t) := by
  refine ⟨follows.formula, fun {other s} found => ?_⟩
  rw [term?_insertTerm] at found
  split at found
  · rename_i here
    obtain rfl := Option.some.inj found
    exact ⟨made, u, here ▸ bound, inst⟩
  · exact follows.term found

theorem insertFormula {f : Formula} {b : Abstraction} (follows : Bindings.Follows S σ r)
    (made : ∀ n ∈ f.symbols, S n) (bound : σ.formula? name = some b)
    (inst : f.Instance Symbol.Same .keep b.body) :
    Bindings.Follows S σ (r.insertFormula name ⟨[], f⟩) := by
  refine ⟨fun {other a} found => ?_, follows.term⟩
  rw [formula?_insertFormula] at found
  split at found
  · rename_i here
    obtain rfl := Option.some.inj found
    exact ⟨made, b, here ▸ bound, inst⟩
  · exact follows.formula found

end Bindings.Follows

/-- Among these symbols, those of the same name have the same flag. -/
def Symbol.Uniform (S : Symbol → Prop) : Prop :=
  ∀ s t, S s → S t → s.same t = true → s.ordered = t.ordered

theorem Term.identical_of_common {t u w : Term} (uniform : Symbol.Uniform S)
    (first : ∀ n ∈ t.symbols, S n) (second : ∀ n ∈ u.symbols, S n)
    (left : t.Instance Symbol.Same .keep w) (right : u.Instance Symbol.Same .keep w) :
    t.identical u = true := by
  apply Term.identical_iff.mpr
  apply left.cospan right _ _ Change.renames_keep Change.renames_keep Change.meet_keep
  · intro s inside m inside' same
    exact uniform s m (first s inside) (second m inside') same
  · intro s m n same same'
    exact Symbol.same_trans same (Symbol.same_symm same')

theorem Formula.identical_of_common {f g h : Formula} (uniform : Symbol.Uniform S)
    (first : ∀ n ∈ f.symbols, S n) (second : ∀ n ∈ g.symbols, S n)
    (left : f.Instance Symbol.Same .keep h) (right : g.Instance Symbol.Same .keep h) :
    f.identical g = true := by
  apply identical_iff.mpr
  apply left.cospan right _ _ Change.renames_keep Change.renames_keep Change.meet_keep
  · intro s inside m inside' same
    exact uniform s m (first s inside) (second m inside') same
  · intro s m n same same'
    exact Symbol.same_trans same (Symbol.same_symm same')

namespace TermPattern

/-- A reference takes the term, or was bound to one that is identical to it. -/
theorem continues_matchRef {u w : Term} (uniform : Symbol.Uniform S) (made : ∀ n ∈ u.symbols, S n)
    (bound : σ.term? name = some w) (inst : u.Instance Symbol.Same .keep w) :
    Matcher.Continues (Bindings.Follows S σ) (matchRef name) u := by
  intro r follows
  unfold matchRef
  cases found : r.term? name with
  | none => exact ⟨_, by simp, follows.insertTerm made bound inst⟩
  | some t =>
    obtain ⟨symbols, w', bound', inst'⟩ := follows.term found
    obtain rfl := Option.some.inj (bound.symm.trans bound')
    have identical := Term.identical_of_common uniform symbols made inst' inst
    exact ⟨r, by simp [identical], follows⟩

theorem continues_arguments {ordered : Bool} {ts us : List Term} {good : Bindings → Prop}
    {pairs : List (Term × Term)} (pairing : Pairing ordered pairs ts us)
    (each : ∀ p ∈ pairs, Matcher.Continues good (ofTerm p.1).matcher p.2) :
    Matcher.Continues good (arguments ordered (matchers (ts.map ofTerm))) us := by
  have matching := pairing.map (fun t => (ofTerm t).matcher) id
  rw [List.map_id] at matching
  have all : ∀ p ∈ pairs.map (Prod.map (fun t => (ofTerm t).matcher) id),
      Matcher.Continues good p.1 p.2 := List.forall_mem_map.mpr each
  rw [matchers_eq, List.map_map]
  intro r start
  cases ordered with
  | true => exact Matcher.Continues.inOrder matching all r start
  | false => exact Matcher.Continues.inAnyOrder matching all r start

/-- A term that is identical to the filled-in template is matched. -/
theorem continues_ofTerm {t u w : Term} (uniform : Symbol.Uniform S) (own : ∀ n ∈ t.symbols, S n)
    (made : ∀ n ∈ u.symbols, S n) (ok : t.fill σ [] = .ok w)
    (inst : u.Instance Symbol.Same .keep w) :
    Matcher.Continues (Bindings.Follows S σ) (ofTerm t).matcher u := by
  induction t generalizing u w with
  | var x =>
    rcases Term.fill_var_cases ok with ⟨_, none, -⟩ | bound
    · cases none
    · rw [ofTerm]
      intro r follows
      rw [matcher]
      exact continues_matchRef uniform made bound inst r follows
  | const c =>
    rw [Term.fill] at ok
    obtain rfl := Except.ok.inj ok
    cases inst with
    | var kept => cases kept
    | @const d _ same =>
      intro r follows
      rw [ofTerm, matcher]
      exact ⟨r, by simp [show c.same d = true from Symbol.same_symm same], follows⟩
  | app op ts ih =>
    simp only [Term.fill, Term.fillAll_eq, bind_eq_ok, pure_eq_ok] at ok
    obtain ⟨ws, ok, rfl⟩ := ok
    cases inst with
    | var kept => cases kept
    | @app op' _ us _ pairs same pairing all =>
      have back : op.same op' = true := Symbol.same_symm same
      have order : op.ordered = op'.ordered :=
        uniform (.operator op) (.operator op') (own _ (by simp)) (made _ (by simp)) back
      rw [← order] at pairing
      obtain ⟨across, meeting, each⟩ := exists_meeting ok pairing all
      have continues : ∀ p ∈ across,
          Matcher.Continues (Bindings.Follows S σ) (ofTerm p.1).matcher p.2 := by
        intro p pair
        obtain ⟨inside, inside', w, filled, kept⟩ := each p pair
        refine ih p.1 inside (fun n occurs => own n ?_) (fun n occurs => made n ?_) filled kept
        · exact Term.mem_symbols_app.mpr (.inr ⟨p.1, inside, occurs⟩)
        · exact Term.mem_symbols_app.mpr (.inr ⟨p.2, inside', occurs⟩)
      intro r follows
      rw [ofTerm, matcher, if_pos back]
      exact continues_arguments meeting continues r follows

end TermPattern

namespace Pattern

theorem continues_matchRef {f : Formula} {b : Abstraction} (uniform : Symbol.Uniform S)
    (made : ∀ n ∈ f.symbols, S n) (bound : σ.formula? name = some b)
    (inst : f.Instance Symbol.Same .keep b.body) :
    Matcher.Continues (Bindings.Follows S σ) (matchRef name) f := by
  intro r follows
  unfold matchRef
  cases found : r.formula? name with
  | none => exact ⟨_, by simp, follows.insertFormula made bound inst⟩
  | some a =>
    obtain ⟨symbols, b', bound', inst'⟩ := follows.formula found
    obtain rfl := Option.some.inj (bound.symm.trans bound')
    have identical := Formula.identical_of_common uniform symbols made inst' inst
    exact ⟨r, by simp [identical], follows⟩

end Pattern

theorem Formula.forall_symbols_link {c : Arrow} {a b : Formula} :
    (∀ n ∈ (link c a b).symbols, S n) ↔ (∀ n ∈ a.symbols, S n) ∧ ∀ n ∈ b.symbols, S n := by
  simp only [mem_symbols_link, or_imp, forall_and]

/-- A formula that is identical to the filled-in template is matched. -/
theorem Formula.QuantifierFree.continues {template f g : Formula} (free : template.QuantifierFree)
    (uniform : Symbol.Uniform S) (own : ∀ n ∈ template.symbols, S n) (made : ∀ n ∈ f.symbols, S n)
    (ok : template.fillUnder σ taken [] = .ok g) (inst : f.Instance Symbol.Same .keep g) :
    Matcher.Continues (Bindings.Follows S σ) (ofTemplate template).matcher f := by
  induction free generalizing f g with
  | @prop n =>
    simp only [fillUnder, Term.fillAll] at ok
    obtain ⟨us, filled, ok⟩ := bind_eq_ok.mp ok
    obtain rfl := Except.ok.inj filled
    split at ok
    · rename_i b bound
      obtain ⟨length, rfl⟩ := Abstraction.instantiate_eq_ok.mp ok
      rw [List.zip_nil_right] at inst
      intro r follows
      rw [ofTemplate, matcher, matcherWith]
      exact continues_matchRef uniform made bound (by simpa [Subst.ofList] using inst) r follows
    · cases ok
  | @pred p ts =>
    simp only [fillUnder, Term.fillAll_eq, bind_eq_ok, pure_eq_ok] at ok
    obtain ⟨ws, ok, rfl⟩ := ok
    cases inst with
    | @atom _ s _ us _ pairs same pairing all =>
      have back : (Relation.pred p).same s = true := Symbol.same_symm same
      have order : (Relation.pred p).ordered = s.ordered :=
        uniform (.relation (.pred p)) (.relation s) (own _ (by simp)) (made _ (by simp)) back
      rw [← order] at pairing
      obtain ⟨across, meeting, each⟩ := exists_meeting ok pairing all
      have continues : ∀ q ∈ across,
          Matcher.Continues (Bindings.Follows S σ) (TermPattern.ofTerm q.1).matcher q.2 := by
        intro q pair
        obtain ⟨inside, inside', w, filled, kept⟩ := each q pair
        refine TermPattern.continues_ofTerm uniform (fun n occurs => own n ?_)
          (fun n occurs => made n ?_) filled kept
        · exact mem_symbols_atom.mpr (.inr ⟨q.1, inside, occurs⟩)
        · exact mem_symbols_atom.mpr (.inr ⟨q.2, inside', occurs⟩)
      intro r follows
      rw [ofTemplate, matcher, matcherWith, if_pos back]
      exact TermPattern.continues_arguments meeting continues r follows
  | not _ ih =>
    simp only [fillUnder, bind_eq_ok, pure_eq_ok] at ok
    obtain ⟨h, ok, rfl⟩ := ok
    cases inst with
    | not inst =>
      intro r follows
      rw [ofTemplate, matcher, matcherWith]
      exact ih (by simpa using own) (by simpa using made) ok inst r follows
  | @multi c parts _ ih =>
    simp only [fillUnder, fillAllUnder_eq, bind_eq_ok, pure_eq_ok] at ok
    obtain ⟨hs, ok, rfl⟩ := ok
    cases inst with
    | @multi _ _ fs _ pairs pairing all =>
      obtain ⟨across, meeting, each⟩ := exists_meeting ok pairing all
      have matching := meeting.map (fun part => (ofTemplate part).matcher) id
      rw [List.map_id] at matching
      have continues : ∀ q ∈ across,
          Matcher.Continues (Bindings.Follows S σ) (ofTemplate q.1).matcher q.2 := by
        intro q pair
        obtain ⟨inside, inside', h, filled, kept⟩ := each q pair
        refine ih q.1 inside (fun n occurs => own n ?_) (fun n occurs => made n ?_) filled kept
        · exact mem_symbols_multi.mpr ⟨q.1, inside, occurs⟩
        · exact mem_symbols_multi.mpr ⟨q.2, inside', occurs⟩
      intro r follows
      simp only [ofTemplate, exactly, matcher, matcherWith, ↓reduceIte, isNothing,
        Matcher.withOthers, matchersWith_eq, List.map_map]
      exact Matcher.Continues.inAnyOrder matching (List.forall_mem_map.mpr continues) r follows
  | @link c a b _ _ iha ihb =>
    obtain ⟨owna, ownb⟩ := forall_symbols_link.mp own
    simp only [fillUnder, bind_eq_ok, pure_eq_ok] at ok
    obtain ⟨g, oka, h, okb, rfl⟩ := ok
    cases inst with
    | imply insta instb =>
      obtain ⟨madea, madeb⟩ := forall_symbols_link.mp made
      intro r follows
      rw [ofTemplate, matcher, matcherWith]
      exact (iha owna madea oka insta).onEach (ihb ownb madeb okb instb) r follows
    | equiv pairing all =>
      obtain ⟨madea, madeb⟩ := forall_symbols_link.mp made
      intro r follows
      simp only [ofTemplate, matcher, matcherWith, List.mem_append]
      -- the sides of the formula may stand crosswise
      rcases Pairing.exists_two.mp ⟨_, pairing, all⟩ with ⟨insta, instb⟩ | ⟨insta, instb⟩
      · obtain ⟨r', found, kept⟩ :=
          (iha owna madea oka insta).onEach (ihb ownb madeb okb instb) r follows
        exact ⟨r', .inl found, kept⟩
      · obtain ⟨r', found, kept⟩ :=
          (iha owna madeb oka instb).onEach (ihb ownb madea okb insta) r follows
        exact ⟨r', .inr found, kept⟩

end Backward

namespace Formula

variable {template f g : Formula} {r σ : Bindings}

theorem QuantifierFree.uses_ofTemplate (free : template.QuantifierFree) :
    ∀ u ∈ (ofTemplate template).uses, u.2 = 0 := by
  rw [Formula.uses_ofTemplate]
  refine List.forall_mem_map.mpr fun a used => ?_
  rw [free.parameterless a used, List.length_nil]

theorem QuantifierFree.exists_value (free : template.QuantifierFree) (ok : template.fill r = .ok g) :
    (∀ a ∈ template.applications, ∃ b, r.formula? a.1.full = some ⟨[], b⟩) ∧
      ∀ x ∈ template.freeVars, ∃ t, r.term? x.name = some t := by
  have provides : r.Provides [] template := succeeds_fillUnder_iff.mp ⟨g, ok⟩
  refine ⟨fun a used => ?_, fun x occurs => provides.term x occurs rfl⟩
  obtain ⟨b, bound, length⟩ := provides.formula a used
  rw [free.parameterless a used, List.length_nil] at length
  obtain ⟨params, body⟩ := b
  obtain rfl : params = [] := List.eq_nil_of_length_eq_zero length.symm
  exact ⟨body, bound⟩

/-- Matching a template without quantifiers and parameters is exact. Each result fills the template in
to give the formula. Conversely, each choice of formulas for the bare names and of terms for the
variables that gives the formula is found: some result binds all of them to identical ones. Identity
reads the order of arguments off its left side, and this is the formula, unless what is filled in has
the same flags. -/
theorem match_exact (free : template.QuantifierFree) (single : SingleOrder [template, f]) :
    (∀ r ∈ (ofTemplate template).matcher f .empty,
      ∃ g, template.fill r = .ok g ∧ g.identical f = true) ∧
    ∀ σ g, template.fill σ = .ok g →
      (f.identical g = true ∨ SingleOrder [f, g] ∧ g.identical f = true) →
      ∃ r ∈ (ofTemplate template).matcher f .empty,
        (∀ a ∈ template.applications, ∃ b c, r.formula? a.1.full = some ⟨[], b⟩ ∧
          σ.formula? a.1.full = some ⟨[], c⟩ ∧ b.identical c = true) ∧
        ∀ x ∈ template.freeVars, ∃ t u, r.term? x.name = some t ∧ σ.term? x.name = some u ∧
          t.identical u = true := by
  have forward : ∀ r ∈ (ofTemplate template).matcher f .empty,
      ∃ g, template.fill r = .ok g ∧ g.identical f = true := by
    intro r found
    have plain (name : String) (a : Abstraction) (bound : r.formula? name = some a) : a.params = [] :=
      params_of_mem_matcher free.uses_ofTemplate found bound
    obtain ⟨g, ok, inst⟩ := free.exists_fill plain (fits_of_found found).1
    exact ⟨g, ok, identical_iff.mpr inst⟩
  refine ⟨forward, fun σ g ok identical => ?_⟩
  have inst : f.Instance Symbol.Same .keep g := by
    rcases identical with identical | ⟨flags, identical⟩
    · exact identical_iff.mp identical
    · have back : SingleOrder [g, f] := flags.pair (by simp) (by simp)
      exact identical_iff.mp (back.twinInstance identical).symm.identical
  have uniform : Symbol.Uniform fun n => ∃ h ∈ [template, f], n ∈ h.symbols := by
    rintro s t ⟨h, member, inside⟩ ⟨h', member', inside'⟩ same
    exact single h member h' member' s inside t inside' same
  obtain ⟨r, found, follows⟩ := free.continues uniform (fun n occurs => ⟨template, by simp, occurs⟩)
    (fun n occurs => ⟨f, by simp, occurs⟩) ok inst .empty (.empty _ σ)
  obtain ⟨g', filled, -⟩ := forward r found
  obtain ⟨formulas, terms⟩ := free.exists_value filled
  obtain ⟨formulas', -⟩ := free.exists_value ok
  refine ⟨r, found, fun a used => ?_, fun x occurs => ?_⟩
  · obtain ⟨b, bound⟩ := formulas a used
    obtain ⟨c, chosen⟩ := formulas' a used
    obtain ⟨-, c', chosen', kept⟩ := follows.formula bound
    obtain rfl := Option.some.inj (chosen.symm.trans chosen')
    exact ⟨b, c, bound, chosen, identical_iff.mpr kept⟩
  · obtain ⟨t, bound⟩ := terms x occurs
    obtain ⟨-, u, chosen, kept⟩ := follows.term bound
    exact ⟨t, u, bound, chosen, Term.identical_iff.mpr kept⟩

namespace Crosswise

def linked (t u : Term) : Formula := .atom (.pred ⟨.plain "q", 2, false⟩) [t, u]

def next (t : Term) : Term := .app (.fn ⟨.plain "g", some 1, true⟩) [t]

def everything (v : String) : Formula :=
  .bind .all ⟨v⟩ (.atom (.pred ⟨.plain "p", 1, true⟩) [.var ⟨v⟩])

def named (name : String) : Term := .const ⟨.plain name⟩

/-- The template `P ∧ (q(x, g(y)) ↔ P)`. -/
def scheme : Formula := .and [.atom (.named (.plain "P")) [],
  .equiv (linked (.var ⟨"x"⟩) (next (.var ⟨"y"⟩))) (.atom (.named (.plain "P")) [])]

/-- The formula `((∀ w, p(w)) ↔ q(g(c), b)) ∧ ∀ z, p(z)`. -/
def formula : Formula :=
  .and [.equiv (everything "w") (linked (next (named "c")) (named "b")), everything "z"]

def choice : Bindings := ((Bindings.empty.insertTerm "x" (named "b")).insertTerm "y" (named "c"))
  |>.insertFormula "P" ⟨[], everything "u"⟩

def filled : Formula :=
  .and [everything "u", .equiv (linked (named "b") (next (named "c"))) (everything "u")]

theorem quantifierFree : scheme.QuantifierFree := by
  apply QuantifierFree.multi
  intro f member
  rcases List.mem_pair.mp member with rfl | rfl
  · exact .prop
  · exact .link .pred .prop

def symbolsUsed : List Symbol :=
  [.relation (.named (.plain "P")), .relation (.pred ⟨.plain "p", 1, true⟩),
    .relation (.pred ⟨.plain "q", 2, false⟩), .operator (.fn ⟨.plain "g", some 1, true⟩),
    .constant ⟨.plain "b"⟩, .constant ⟨.plain "c"⟩]

theorem singleOrder : SingleOrder [scheme, formula] := by
  have used : ∀ f ∈ [scheme, formula], ∀ s ∈ f.symbols, s ∈ symbolsUsed := by
    simp [scheme, formula, everything, linked, next, named, symbols, Term.symbols, symbolsUsed]
  have flags : ∀ s ∈ symbolsUsed, ∀ t ∈ symbolsUsed, s.same t = true → s.ordered = t.ordered := by
    decide
  intro f first g second s inside t inside'
  exact flags s (used f first s inside) t (used g second t inside')

end Crosswise

/-- The members, the sides of the equivalence and the arguments of `q` all stand in another order than
in the template, and `P` is met twice under different bound names. -/
theorem match_exact_crosswise : Crosswise.scheme.QuantifierFree ∧
    SingleOrder [Crosswise.scheme, Crosswise.formula] ∧
    Crosswise.scheme.fill Crosswise.choice = .ok Crosswise.filled ∧
    Crosswise.formula.identical Crosswise.filled = true ∧
    ∃ r ∈ (ofTemplate Crosswise.scheme).matcher Crosswise.formula .empty,
      (∀ a ∈ Crosswise.scheme.applications, ∃ b c, r.formula? a.1.full = some ⟨[], b⟩ ∧
        Crosswise.choice.formula? a.1.full = some ⟨[], c⟩ ∧ b.identical c = true) ∧
      ∀ x ∈ Crosswise.scheme.freeVars, ∃ t u, r.term? x.name = some t ∧
        Crosswise.choice.term? x.name = some u ∧ t.identical u = true := by
  have ok : Crosswise.scheme.fill Crosswise.choice = .ok Crosswise.filled := by cbv
  have identical : Crosswise.formula.identical Crosswise.filled = true := by cbv
  obtain ⟨-, complete⟩ := match_exact Crosswise.quantifierFree Crosswise.singleOrder
  exact ⟨Crosswise.quantifierFree, Crosswise.singleOrder, ok, identical,
    complete Crosswise.choice Crosswise.filled ok (.inl identical)⟩

namespace Crosswise

def pair (ordered : Bool) (x y : String) : Formula :=
  .atom (.pred ⟨.plain "p", 2, ordered⟩) [.var ⟨x⟩, .var ⟨y⟩]

def repeated : Formula := .and [.atom (.named (.plain "P")) [], .atom (.named (.plain "P")) []]

end Crosswise

/-- Being filled in to something identical to the formula is not enough where the flags differ. The
unordered `p(x, y)` for `P` makes `P ∧ P` identical to `p(x, y) ∧ p(y, x)`, but the two members differ
where `p` is ordered, and nothing is found. -/
theorem match_misses_unordered : Crosswise.repeated.QuantifierFree ∧
    SingleOrder [Crosswise.repeated,
      .and [Crosswise.pair true "x" "y", Crosswise.pair true "y" "x"]] ∧
    Crosswise.repeated.fill (Bindings.empty.insertFormula "P" ⟨[], Crosswise.pair false "x" "y"⟩) =
      .ok (.and [Crosswise.pair false "x" "y", Crosswise.pair false "x" "y"]) ∧
    (Formula.and [Crosswise.pair false "x" "y", Crosswise.pair false "x" "y"]).identical
      (.and [Crosswise.pair true "x" "y", Crosswise.pair true "y" "x"]) = true ∧
    (ofTemplate Crosswise.repeated).matcher
      (.and [Crosswise.pair true "x" "y", Crosswise.pair true "y" "x"]) .empty = [] := by
  refine ⟨?_, ?_, by cbv, by cbv, by cbv⟩
  · apply QuantifierFree.multi
    intro f member
    rcases List.mem_pair.mp member with rfl | rfl
    · exact .prop
    · exact .prop
  · apply SingleOrder.of_ordered
    simp [Crosswise.repeated, Crosswise.pair, Formula.and, symbols, Term.symbols, Symbol.ordered,
      Relation.ordered]

end Formula

end Sequitur
