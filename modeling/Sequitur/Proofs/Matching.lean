import Sequitur.Proofs.Pattern

/-! What a match finds. Matching only adds bindings, what it binds is made of the free variables
and symbols of the formula, and read with the bindings of the result the pattern describes the
formula. -/

namespace Sequitur

open Arrangement

/-- What new bindings may be made of: free variables, symbols, and numbers of parameters. -/
structure Supply where
  var : Variable → Prop
  symbol : Symbol → Prop
  arity : String → Nat → Prop

namespace Supply

def HasTerm (s : Supply) (t : Term) : Prop :=
  (∀ x ∈ t.vars, s.var x ∨ ∃ i, x = .numbered "p" i) ∧ ∀ n ∈ t.symbols, s.symbol n

def HasFormula (s : Supply) (f : Formula) : Prop :=
  (∀ x ∈ f.freeVars, s.var x) ∧ ∀ n ∈ f.symbols, s.symbol n

/-- Parameters may stand free besides. -/
structure HasAbstraction (s : Supply) (name : String) (a : Abstraction) : Prop where
  arity : s.arity name a.params.length
  var : ∀ x ∈ a.body.freeVars, x ∈ a.params ∨ s.var x
  symbol : ∀ n ∈ a.body.symbols, s.symbol n

def under (s : Supply) (v : Variable) : Supply := { s with var := fun x => x = v ∨ s.var x }

namespace HasFormula

variable {s : Supply} {c : Junction} {d : Arrow} {q : Quantifier} {v : Variable} {a b f : Formula}
  {fs : List Formula}

theorem argument {r : Relation} {ts : List Term} (made : s.HasFormula (.atom r ts)) {t : Term}
    (member : t ∈ ts) : s.HasTerm t :=
  ⟨fun x occurs => .inl (made.1 x (Formula.mem_freeVars_atom.mpr ⟨t, member, occurs⟩)),
    fun n occurs => made.2 n (Formula.mem_symbols_atom.mpr (.inr ⟨t, member, occurs⟩))⟩

theorem negated (made : s.HasFormula (.not f)) : s.HasFormula f :=
  ⟨fun x free => made.1 x (Formula.mem_freeVars_not.mpr free),
    fun n occurs => made.2 n (Formula.mem_symbols_not.mpr occurs)⟩

theorem multi : s.HasFormula (.multi c fs) ↔ ∀ f ∈ fs, s.HasFormula f := by
  constructor
  · intro made f member
    exact ⟨fun x free => made.1 x (Formula.mem_freeVars_multi.mpr ⟨f, member, free⟩),
      fun n occurs => made.2 n (Formula.mem_symbols_multi.mpr ⟨f, member, occurs⟩)⟩
  · intro made
    constructor
    · intro x free
      obtain ⟨f, member, free⟩ := Formula.mem_freeVars_multi.mp free
      exact (made f member).1 x free
    · intro n occurs
      obtain ⟨f, member, occurs⟩ := Formula.mem_symbols_multi.mp occurs
      exact (made f member).2 n occurs

theorem junctionOf (made : ∀ f ∈ fs, s.HasFormula f) : s.HasFormula (.junctionOf c fs) := by
  unfold Formula.junctionOf
  split
  · exact made _ (by simp)
  · exact multi.mpr made

theorem left (made : s.HasFormula (.link d a b)) : s.HasFormula a :=
  ⟨fun x free => made.1 x (Formula.mem_freeVars_link.mpr (.inl free)),
    fun n occurs => made.2 n (Formula.mem_symbols_link.mpr (.inl occurs))⟩

theorem right (made : s.HasFormula (.link d a b)) : s.HasFormula b :=
  ⟨fun x free => made.1 x (Formula.mem_freeVars_link.mpr (.inr free)),
    fun n occurs => made.2 n (Formula.mem_symbols_link.mpr (.inr occurs))⟩

theorem body (made : s.HasFormula (.bind q v f)) : (s.under v).HasFormula f := by
  refine ⟨fun x free => ?_, fun n occurs => made.2 n (Formula.mem_symbols_bind.mpr occurs)⟩
  by_cases here : x = v
  · exact .inl here
  · exact .inr (made.1 x (Formula.mem_freeVars_bind.mpr ⟨free, here⟩))

end HasFormula

def Allows (s : Supply) (p : Pattern) : Prop := ∀ u ∈ p.uses, s.arity u.1 u.2

theorem Allows.of_uses {s : Supply} {p p' : Pattern} (allows : s.Allows p)
    (fewer : ∀ u ∈ p'.uses, u ∈ p.uses) : s.Allows p' :=
  fun u member => allows u (fewer u member)

theorem Allows.under {s : Supply} {p : Pattern} (allows : s.Allows p) (v : Variable) :
    (s.under v).Allows p := allows

end Supply

/-- Everything bound stays bound to the same, and what is new is made of what is supplied. -/
structure Bindings.Adds (s : Supply) (r r' : Bindings) : Prop extends r.Extends r' where
  newFormula : ∀ {name a}, r'.formula? name = some a →
    r.formula? name = some a ∨ s.HasAbstraction name a
  newTerm : ∀ {name t}, r'.term? name = some t → r.term? name = some t ∨ s.HasTerm t

namespace Bindings.Adds

variable {s : Supply} {r r' r'' : Bindings} {name : String}

theorem refl (r : Bindings) : r.Adds s r := ⟨.refl r, .inl, .inl⟩

theorem trans (first : r.Adds s r') (second : r'.Adds s r'') : r.Adds s r'' := by
  refine ⟨first.toExtends.trans second.toExtends, fun bound => ?_, fun bound => ?_⟩
  · rcases second.newFormula bound with old | new
    · exact first.newFormula old
    · exact .inr new
  · rcases second.newTerm bound with old | new
    · exact first.newTerm old
    · exact .inr new

theorem insertFormula {a : Abstraction} (unbound : r.formula? name = none)
    (made : s.HasAbstraction name a) : r.Adds s (r.insertFormula name a) := by
  refine ⟨.insertFormula unbound, fun bound => ?_, .inl⟩
  rw [formula?_insertFormula] at bound
  split at bound
  · rename_i here
    obtain rfl := Option.some.inj bound
    exact .inr (here ▸ made)
  · exact .inl bound

theorem insertTerm {t : Term} (unbound : r.term? name = none) (made : s.HasTerm t) :
    r.Adds s (r.insertTerm name t) := by
  refine ⟨.insertTerm unbound, .inl, fun bound => ?_⟩
  rw [term?_insertTerm] at bound
  split at bound
  · obtain rfl := Option.some.inj bound
    exact .inr made
  · exact .inl bound

end Bindings.Adds

namespace Matcher

variable {α β : Type} {matcherOf : β → Matcher α} {fits : β → α → Bindings → Prop}
  {made : α → Prop} {s : Supply} {ps : List β} {xs : List α} {r r' : Bindings}

/-- Matching an item that is made of what is supplied adds bindings made of it, and the item fits
under each result. -/
def Finds (s : Supply) (made : α → Prop) (m : Matcher α) (fits : α → Bindings → Prop) : Prop :=
  ∀ x r r', made x → r' ∈ m x r → r.Adds s r' ∧ fits x r'

def Stable (fits : α → Bindings → Prop) : Prop :=
  ∀ x r r', r.Extends r' → fits x r → fits x r'

theorem mem_inOrder (finds : ∀ p ∈ ps, Finds s made (matcherOf p) (fits p))
    (stable : ∀ p ∈ ps, Stable (fits p)) (all : ∀ x ∈ xs, made x)
    (found : r' ∈ inOrder (ps.map matcherOf) xs r) :
    r.Adds s r' ∧ ∃ pairs, Pairing true pairs ps xs ∧ ∀ q ∈ pairs, fits q.1 q.2 r' := by
  induction ps generalizing xs r with
  | nil =>
    cases xs with
    | nil =>
      obtain rfl : r' = r := by simpa [inOrder] using found
      exact ⟨.refl r', [], ⟨rfl, rfl⟩, by simp⟩
    | cons x xs => simp [inOrder] at found
  | cons p ps ih =>
    cases xs with
    | nil => simp [inOrder] at found
    | cons x xs =>
      simp only [List.map_cons, inOrder, List.mem_flatMap] at found
      obtain ⟨between, first, found⟩ := found
      obtain ⟨start, here⟩ := finds p (by simp) x r between (all x (by simp)) first
      obtain ⟨rest, pairs, ⟨rfl, rfl⟩, fitting⟩ :=
        ih (fun p member => finds p (by simp [member]))
          (fun p member => stable p (by simp [member])) (fun x member => all x (by simp [member]))
          found
      refine ⟨start.trans rest, (p, x) :: pairs, ⟨rfl, rfl⟩, ?_⟩
      intro q member
      rcases List.mem_cons.mp member with rfl | later
      · exact stable p (by simp) x between r' rest.toExtends here
      · exact fitting q later

theorem mem_assignments {left : List α} (finds : ∀ p ∈ ps, Finds s made (matcherOf p) (fits p))
    (stable : ∀ p ∈ ps, Stable (fits p)) (all : ∀ x ∈ xs, made x)
    (found : (r', left) ∈ assignments (ps.map matcherOf) xs r) :
    r.Adds s r' ∧ ∃ pairs : List (β × α), pairs.map Prod.fst = ps ∧
      (pairs.map Prod.snd ++ left).Perm xs ∧ ∀ q ∈ pairs, fits q.1 q.2 r' := by
  induction ps generalizing xs r with
  | nil =>
    obtain ⟨rfl, rfl⟩ : r' = r ∧ left = xs := by simpa [assignments] using found
    exact ⟨.refl r', [], rfl, .refl _, by simp⟩
  | cons p ps ih =>
    simp only [List.map_cons, assignments, List.mem_flatMap] at found
    obtain ⟨⟨x, others⟩, pick, between, first, found⟩ := found
    have split : xs.Perm (x :: others) := perm_of_mem_picks pick
    obtain ⟨start, here⟩ := finds p (by simp) x r between (all x (split.symm.subset (by simp))) first
    obtain ⟨rest, pairs, rfl, perm, fitting⟩ := ih (fun p member => finds p (by simp [member]))
      (fun p member => stable p (by simp [member]))
      (fun x member => all x (split.symm.subset (by simp [member]))) found
    refine ⟨start.trans rest, (p, x) :: pairs, rfl, (perm.cons x).trans split.symm, ?_⟩
    intro q member
    rcases List.mem_cons.mp member with rfl | later
    · exact stable p (by simp) x between r' rest.toExtends here
    · exact fitting q later

theorem mem_inAnyOrder (finds : ∀ p ∈ ps, Finds s made (matcherOf p) (fits p))
    (stable : ∀ p ∈ ps, Stable (fits p)) (all : ∀ x ∈ xs, made x)
    (found : r' ∈ inAnyOrder (ps.map matcherOf) xs r) :
    r.Adds s r' ∧ ∃ pairs, Pairing false pairs ps xs ∧ ∀ q ∈ pairs, fits q.1 q.2 r' := by
  simp only [inAnyOrder, List.length_map] at found
  split at found
  · rename_i length
    obtain ⟨⟨r', left⟩, member, rfl⟩ := List.mem_map.mp found
    obtain ⟨grows, pairs, rfl, perm, fitting⟩ := mem_assignments finds stable all member
    have none : left = [] := by
      have := perm.length_eq
      simp only [List.length_append, List.length_map] at this length
      exact List.eq_nil_of_length_eq_zero (by omega)
    subst none
    exact ⟨grows, pairs, ⟨rfl, by simpa using perm⟩, fitting⟩
  · cases found

end Matcher

namespace TermPattern

variable {s : Supply} {r r' : Bindings}

theorem matchers_eq (ps : List TermPattern) : matchers ps = ps.map matcher := by
  induction ps with
  | nil => rfl
  | cons p ps ih => rw [matchers, ih, List.map_cons]

theorem stable_fits (p : TermPattern) : Matcher.Stable fun t r => p.Fits r t :=
  fun _ _ _ grows fits => fits.mono grows

theorem mem_arguments {ordered : Bool} {ps : List TermPattern} {ts : List Term}
    (finds : ∀ p ∈ ps, Matcher.Finds s s.HasTerm p.matcher fun t r => p.Fits r t)
    (made : ∀ t ∈ ts, s.HasTerm t) (found : r' ∈ arguments ordered (matchers ps) ts r) :
    r.Adds s r' ∧ ∃ pairs, Pairing ordered pairs ps ts ∧ ∀ q ∈ pairs, q.1.Fits r' q.2 := by
  rw [matchers_eq, arguments] at found
  cases ordered with
  | true => exact Matcher.mem_inOrder finds (fun p _ => p.stable_fits) made found
  | false => exact Matcher.mem_inAnyOrder finds (fun p _ => p.stable_fits) made found

theorem finds_matchRef (name : String) :
    Matcher.Finds s s.HasTerm (matchRef name) fun t r => (ref name).Fits r t := by
  intro t r r' made found
  unfold matchRef at found
  cases bound : r.term? name with
  | some u =>
    simp only [bound] at found
    split at found
    · rename_i identical
      obtain rfl := List.mem_singleton.mp found
      exact ⟨.refl r', .ref bound identical⟩
    · cases found
  | none =>
    simp only [bound, List.mem_singleton] at found
    subst found
    have self : t.identical t = true :=
      Term.identical_iff.mpr (.refl (fun _ => Symbol.same_of_eq rfl) fun _ _ => rfl)
    refine ⟨.insertTerm bound made, .ref ?_ self⟩
    rw [Bindings.term?_insertTerm, if_pos rfl]

theorem finds_matcher (p : TermPattern) :
    Matcher.Finds s s.HasTerm p.matcher fun t r => p.Fits r t := by
  induction p with
  | ref name =>
    intro t r r' made found
    rw [matcher] at found
    exact finds_matchRef name t r r' made found
  | var v =>
    intro t r r' _ found
    cases t with
    | var w =>
      rw [matcher] at found
      split at found
      · rename_i here
        obtain rfl := List.mem_singleton.mp found
        subst here
        exact ⟨.refl r', .var⟩
      · cases found
    | const c => simp [matcher] at found
    | app op ts => simp [matcher] at found
  | const c =>
    intro t r r' _ found
    cases t with
    | var w => simp [matcher] at found
    | const d =>
      rw [matcher] at found
      split at found
      · obtain rfl := List.mem_singleton.mp found
        exact ⟨.refl r', .const ‹_›⟩
      · cases found
    | app op ts => simp [matcher] at found
  | app op ps ih =>
    intro t r r' made found
    cases t with
    | var w => simp [matcher] at found
    | const d => simp [matcher] at found
    | app op' ts =>
      rw [matcher] at found
      split at found
      · rename_i same
        have members : ∀ t ∈ ts, s.HasTerm t := by
          intro t member
          exact ⟨fun x occurs => made.1 x (Term.mem_vars_app.mpr ⟨t, member, occurs⟩),
            fun n occurs => made.2 n (Term.mem_symbols_app.mpr (.inr ⟨t, member, occurs⟩))⟩
        obtain ⟨adds, pairs, pairing, fitting⟩ := mem_arguments ih members found
        exact ⟨adds, .app same pairing fitting⟩
      · cases found

end TermPattern

namespace Pattern

variable {s : Supply} {r r' : Bindings} {f body : Formula} {args : List TermPattern}
  {params : List Variable}

namespace Abstracts

theorem length_eq (abstracts : Abstracts r f args body params) : params.length = args.length := by
  induction abstracts with
  | nil => rfl
  | var _ _ ih => simp [ih]
  | term _ _ _ _ _ _ ih => simp [ih]

theorem mem_freeVars (abstracts : Abstracts r f args body params) {x : Variable}
    (free : x ∈ body.freeVars) : x ∈ params ∨ x ∈ f.freeVars := by
  induction abstracts with
  | nil => exact .inr free
  | var _ _ ih => exact (ih free).imp_left fun member => by simp [member]
  | term _ _ _ _ fresh _ ih =>
    obtain ⟨_, here | ⟨_, rfl⟩, kept⟩ := (Formula.expands_replace fresh).inst.exists_target free
    · exact .inl (by simp [here.1])
    · exact (ih (kept x (by simp))).imp_left fun member => by simp [member]

theorem mem_symbols (abstracts : Abstracts r f args body params) {n : Symbol}
    (occurs : n ∈ body.symbols) : n ∈ f.symbols := by
  induction abstracts with
  | nil => exact occurs
  | var _ _ ih => exact ih occurs
  | term _ _ _ _ _ _ ih =>
    rcases Formula.mem_symbols_replace occurs with inside | inside
    · exact ih inside
    · simp [Term.symbols] at inside

end Abstracts

/-- What abstracting over arguments has come to: only terms are bound on the way. -/
structure Abstracted (s : Supply) (r : Bindings) (f : Formula) (args : List TermPattern)
    (state : Abstracting) : Prop where
  adds : r.Adds s state.bindings
  formulas : ∀ name, state.bindings.formula? name = r.formula? name
  abstracts : Abstracts state.bindings f args state.body state.params

theorem Abstracted.step {arg : TermPattern} {state next : Abstracting} (made : s.HasFormula f)
    (before : Abstracted s r f args state)
    (found : next ∈ abstractOver f arg state) : Abstracted s r f (args ++ [arg]) next := by
  obtain ⟨adds, formulas, abstracts⟩ := before
  unfold abstractOver at found
  split at found
  · rename_i v resolved
    obtain rfl := List.mem_singleton.mp found
    exact ⟨adds, formulas, .var abstracts resolved⟩
  · rename_i t compound resolved
    obtain rfl := List.mem_singleton.mp found
    have fresh : newParam state t ∉ VarSet.union state.params (VarSet.union state.body.allVars t.vars) :=
      Variable.fresh_not_mem _ _
    simp only [VarSet.mem_union, not_or] at fresh
    exact ⟨adds, formulas, .term abstracts resolved compound fresh.1 fresh.2.1 fresh.2.2⟩
  · rename_i unresolved
    split at found
    · rename_i name
      obtain ⟨v, choice, rfl⟩ := List.mem_map.mp found
      have unbound : state.bindings.term? name = none := by
        simpa [TermPattern.resolve] using unresolved
      have supplied : s.var v ∨ ∃ i, v = .numbered "p" i := by
        split at choice
        · exact .inr ⟨_, List.mem_singleton.mp choice⟩
        · exact .inl (made.1 v choice)
      have binds : state.bindings.Adds s (state.bindings.insertTerm name (.var v)) := by
        refine .insertTerm unbound ⟨fun x occurs => ?_, by simp [Term.symbols]⟩
        rwa [Term.mem_vars_var.mp occurs]
      have resolved : (TermPattern.ref name).resolve (state.bindings.insertTerm name (.var v)) =
          some (.var v) := by rw [TermPattern.resolve, Bindings.term?_insertTerm, if_pos rfl]
      exact ⟨adds.trans binds, formulas, .var (abstracts.mono binds.toExtends) resolved⟩
    · cases found

theorem Abstracted.run {rest : List TermPattern} {states : List Abstracting} {state : Abstracting}
    (made : s.HasFormula f) (before : ∀ state ∈ states, Abstracted s r f args state)
    (found : state ∈ rest.foldl (fun states arg => states.flatMap (abstractOver f arg)) states) :
    Abstracted s r f (args ++ rest) state := by
  induction rest generalizing args states with
  | nil =>
    rw [List.append_nil]
    exact before state found
  | cons arg rest ih =>
    rw [List.append_cons]
    refine ih (fun next member => ?_) found
    obtain ⟨state, earlier, member⟩ := List.mem_flatMap.mp member
    exact (before state earlier).step made member

theorem finds_nothing (made : Formula → Prop) (fits : Formula → Bindings → Prop) :
    Matcher.Finds s made (fun _ _ => []) fits := by
  intro f r r' _ found
  cases found

theorem finds_matchRef (name : String) (allowed : s.arity name 0) :
    Matcher.Finds s s.HasFormula (matchRef name) fun f r => (ref name).Fits r f := by
  intro f r r' made found
  unfold matchRef at found
  cases bound : r.formula? name with
  | some a =>
    simp only [bound] at found
    split at found
    · rename_i identical
      obtain rfl := List.mem_singleton.mp found
      exact ⟨.refl r', .ref bound identical⟩
    · cases found
  | none =>
    simp only [bound, List.mem_singleton] at found
    subst found
    have self : f.identical f = true :=
      Formula.identical_iff.mpr (.refl (fun _ => Symbol.same_of_eq rfl) fun _ _ => rfl)
    have here : (r.insertFormula name ⟨[], f⟩).formula? name = some ⟨[], f⟩ := by
      rw [Bindings.formula?_insertFormula, if_pos rfl]
    exact ⟨.insertFormula bound ⟨allowed, fun x free => .inr (made.1 x free), made.2⟩,
      .ref here self⟩

theorem matchersWith_eq (applied : String → List TermPattern → Matcher Formula)
    (ps : List Pattern) : matchersWith applied ps = ps.map (matcherWith applied) := by
  induction ps with
  | nil => rfl
  | cons p ps ih => rw [matchersWith, ih, List.map_cons]

theorem stable_fits (p : Pattern) : Matcher.Stable fun f r => p.Fits r f :=
  fun _ _ _ grows fits => fits.mono grows

/-- What was bound under the binder does not mention its variable. -/
theorem not_mem_of_not_escapes {v : Variable} (stays : escapes v r r' = false) :
    (∀ name t, r.term? name = none → r'.term? name = some t → v ∉ t.vars) ∧
    ∀ name a, r.formula? name = none → r'.formula? name = some a → v ∈ a.body.freeVars →
      v ∈ a.params := by
  simp only [escapes, Bool.or_eq_false_iff, List.any_eq_false, Bool.and_eq_true,
    Option.isNone_iff_eq_none, List.contains_iff_mem, Bool.not_eq_true', Prod.forall,
    Std.TreeMap.mem_toList_iff_getElem?_eq_some, not_and] at stays
  obtain ⟨terms, formulas⟩ := stays
  constructor
  · intro name t unbound bound occurs
    exact terms name t bound unbound occurs
  · intro name a unbound bound occurs
    by_contra outside
    exact formulas name a bound ⟨unbound, occurs⟩ (by simpa using outside)

/-- A match under a binder is a match of the body that lets nothing escape. After it, the binder's name
means again what it meant before. -/
theorem exists_of_underBinder {m : Matcher Formula} {name : String} {v : Variable}
    (found : r' ∈ underBinder name m v f r) : escapes v r r' = false ∧
      ∃ inner ∈ m f (r.insertTerm name (.var v)),
        (∀ other, r'.formula? other = inner.formula? other) ∧
        ∀ other, r'.term? other = if name = other then r.term? name else inner.term? other := by
  simp only [underBinder, List.mem_filter, List.mem_map, Bool.not_eq_true'] at found
  obtain ⟨⟨inner, found, restored⟩, stays⟩ := found
  refine ⟨stays, inner, found, fun other => ?_, fun other => ?_⟩
  · rw [← restored]
    split <;> simp
  · rw [← restored]
    split <;> simp [Bindings.term?_insertTerm, Bindings.term?_eraseTerm, *]

theorem mem_underBinder {m : Matcher Formula} {p : Pattern} {name : String} {v : Variable}
    (finds : Matcher.Finds (s.under v) (s.under v).HasFormula m fun f r => p.Fits r f)
    (made : (s.under v).HasFormula f) (found : r' ∈ underBinder name m v f r) :
    r.Adds s r' ∧ p.Fits (r'.insertTerm name (.var v)) f := by
  obtain ⟨stays, inner, found, formulas, terms⟩ := exists_of_underBinder found
  obtain ⟨adds, fits⟩ := finds f _ inner made found
  have grows : r.Extends r' := by
    constructor
    · intro other a bound
      rw [formulas]
      exact adds.formula bound
    · intro other t bound
      rw [terms]
      split
      · rename_i here
        rwa [here]
      · rename_i apart
        apply adds.term
        rwa [Bindings.term?_insertTerm, if_neg apart]
  obtain ⟨freeTerm, freeFormula⟩ := not_mem_of_not_escapes stays
  refine ⟨⟨grows, fun {other a} bound => ?_, fun {other t} bound => ?_⟩, fits.mono ⟨?_, ?_⟩⟩
  · cases before : r.formula? other with
    | some b =>
      rw [grows.formula before] at bound
      exact .inl bound
    | none =>
      have new : (s.under v).HasAbstraction other a := by
        rw [formulas] at bound
        refine (adds.newFormula bound).resolve_left ?_
        rw [Bindings.formula?_insertTerm, before]
        simp
      refine .inr ⟨new.arity, fun x free => ?_, new.symbol⟩
      rcases new.var x free with inside | rfl | supplied
      · exact .inl inside
      · exact .inl (freeFormula other a before bound free)
      · exact .inr supplied
  · cases before : r.term? other with
    | some u =>
      rw [grows.term before] at bound
      exact .inl bound
    | none =>
      have apart : name ≠ other := by
        rintro rfl
        rw [terms, if_pos rfl, before] at bound
        cases bound
      have new : (s.under v).HasTerm t := by
        rw [terms, if_neg apart] at bound
        refine (adds.newTerm bound).resolve_left ?_
        rw [Bindings.term?_insertTerm, if_neg apart, before]
        simp
      refine .inr ⟨fun x occurs => ?_, new.2⟩
      rcases new.1 x occurs with (rfl | supplied) | made
      · exact absurd occurs (freeTerm other t before bound)
      · exact .inl supplied
      · exact .inr made
  · intro other a bound
    rwa [Bindings.formula?_insertTerm, formulas]
  · intro other t bound
    rw [Bindings.term?_insertTerm]
    split
    · rename_i here
      have kept : inner.term? name = some (.var v) := by
        apply adds.term
        rw [Bindings.term?_insertTerm, if_pos rfl]
      rw [← here, kept] at bound
      exact bound
    · rename_i apart
      rwa [terms, if_neg apart]

theorem mem_others {m : Matcher Formula} {c : Junction} {left : List Formula}
    (found : r' ∈ Matcher.others m (Formula.multi c) (r, left)) :
    (left = [] ∧ r' = r) ∨ (left ≠ [] ∧ r' ∈ m (.junctionOf c left) r) := by
  match left with
  | [] => exact .inl ⟨rfl, List.mem_singleton.mp found⟩
  | [f] => exact .inr ⟨by simp, found⟩
  | f :: g :: fs => exact .inr ⟨by simp, found⟩

variable {applied : String → List TermPattern → Matcher Formula}

theorem mem_withOthers {c : Junction} {ps : List Pattern} {others : Pattern} {fs : List Formula}
    (finds : ∀ p ∈ ps, Matcher.Finds s s.HasFormula (p.matcherWith applied) fun f r => p.Fits r f)
    (rest : Matcher.Finds s s.HasFormula (others.matcherWith applied) fun f r => others.Fits r f)
    (made : ∀ f ∈ fs, s.HasFormula f)
    (found : r' ∈ Matcher.withOthers (matchersWith applied ps)
      (if others.isNothing then none else some (matcherWith applied others)) (Formula.multi c) fs r) :
    r.Adds s r' ∧ (multi c ps others).Fits r' (.multi c fs) := by
  rw [matchersWith_eq] at found
  have stable (p : Pattern) (_ : p ∈ ps) := p.stable_fits
  cases nothing : others.isNothing with
  | true =>
    simp only [nothing, ↓reduceIte, Matcher.withOthers] at found
    obtain ⟨adds, pairs, pairing, fitting⟩ := Matcher.mem_inAnyOrder finds stable made found
    exact ⟨adds, .exactly pairing fitting⟩
  | false =>
    simp only [nothing, Bool.false_eq_true, ↓reduceIte, Matcher.withOthers] at found
    split at found
    · obtain ⟨⟨between, left⟩, assigned, found⟩ := List.mem_flatMap.mp found
      obtain ⟨adds, pairs, first, perm, fitting⟩ :=
        Matcher.mem_assignments finds stable made assigned
      rcases mem_others found with ⟨rfl, rfl⟩ | ⟨nonempty, found⟩
      · exact ⟨adds, .exactly ⟨first, by simpa using perm⟩ fitting⟩
      · have remaining : s.HasFormula (.junctionOf c left) :=
          .junctionOf fun f member => made f (perm.subset (by simp [member]))
        obtain ⟨more, here⟩ := rest _ between r' remaining found
        exact ⟨adds.trans more, .others first perm nonempty
          (fun q pair => (fitting q pair).mono more.toExtends) here⟩
    · cases found

theorem finds_atom (t : Relation) (args : List TermPattern) :
    Matcher.Finds s s.HasFormula ((atom t args).matcherWith applied)
      fun f r => (atom t args).Fits r f := by
  intro f r r' made found
  cases f with
  | atom u ts =>
    simp only [matcherWith] at found
    split at found
    · rename_i same
      obtain ⟨adds, pairs, pairing, fitting⟩ :=
        TermPattern.mem_arguments (fun p _ => p.finds_matcher) (fun t => made.argument) found
      exact ⟨adds, .atom same pairing fitting⟩
    · cases found
  | _ => simp [matcherWith] at found

theorem finds_not {p : Pattern}
    (inner : Matcher.Finds s s.HasFormula (p.matcherWith applied) fun f r => p.Fits r f) :
    Matcher.Finds s s.HasFormula ((not p).matcherWith applied) fun f r => (not p).Fits r f := by
  intro f r r' made found
  cases f with
  | not f =>
    simp only [matcherWith] at found
    obtain ⟨adds, fits⟩ := inner f r r' made.negated found
    exact ⟨adds, .not fits⟩
  | _ => simp [matcherWith] at found

theorem finds_multi {c : Junction} {ps : List Pattern} {others : Pattern}
    (parts : ∀ p ∈ ps, Matcher.Finds s s.HasFormula (p.matcherWith applied) fun f r => p.Fits r f)
    (rest : Matcher.Finds s s.HasFormula (others.matcherWith applied) fun f r => others.Fits r f) :
    Matcher.Finds s s.HasFormula ((multi c ps others).matcherWith applied)
      fun f r => (multi c ps others).Fits r f := by
  intro f r r' made found
  cases f with
  | multi d fs =>
    simp only [matcherWith] at found
    split at found
    · rename_i here
      subst here
      exact mem_withOthers parts rest (Supply.HasFormula.multi.mp made) found
    · cases found
  | _ => simp [matcherWith] at found

/-- One side after the other, the second with what the first has bound. -/
theorem mem_onEach {p q : Pattern} {a b : Formula}
    (left : Matcher.Finds s s.HasFormula (p.matcherWith applied) fun f r => p.Fits r f)
    (right : Matcher.Finds s s.HasFormula (q.matcherWith applied) fun f r => q.Fits r f)
    (madea : s.HasFormula a) (madeb : s.HasFormula b)
    (found : r' ∈ Matcher.onEach (q.matcherWith applied) b (p.matcherWith applied a r)) :
    r.Adds s r' ∧ p.Fits r' a ∧ q.Fits r' b := by
  obtain ⟨between, first, found⟩ := List.mem_flatMap.mp found
  obtain ⟨adds, fitsp⟩ := left a r between madea first
  obtain ⟨more, fitsq⟩ := right b between r' madeb found
  exact ⟨adds.trans more, fitsp.mono more.toExtends, fitsq⟩

theorem finds_link {c : Arrow} {p q : Pattern}
    (left : Matcher.Finds s s.HasFormula (p.matcherWith applied) fun f r => p.Fits r f)
    (right : Matcher.Finds s s.HasFormula (q.matcherWith applied) fun f r => q.Fits r f) :
    Matcher.Finds s s.HasFormula ((link c p q).matcherWith applied)
      fun f r => (link c p q).Fits r f := by
  intro f r r' made found
  cases f with
  | link d a b =>
    cases c with
    | imply =>
      cases d with
      | imply =>
        simp only [matcherWith] at found
        obtain ⟨adds, fitsp, fitsq⟩ := mem_onEach left right made.left made.right found
        exact ⟨adds, .imply fitsp fitsq⟩
      | equiv => simp [matcherWith] at found
    | equiv =>
      cases d with
      | imply => simp [matcherWith] at found
      | equiv =>
        have sides : r.Adds s r' ∧ (p.Fits r' a ∧ q.Fits r' b ∨ p.Fits r' b ∧ q.Fits r' a) := by
          simp only [matcherWith, List.mem_append] at found
          rcases found with found | found
          · exact (mem_onEach left right made.left made.right found).imp_right .inl
          · exact (mem_onEach left right made.right made.left found).imp_right .inr
        obtain ⟨pairs, pairing, fitting⟩ :=
          (@Pairing.exists_two _ _ p q a b fun u => Fits r' u.1 u.2).mpr sides.2
        exact ⟨sides.1, .equiv pairing fitting⟩
  | _ => simp [matcherWith] at found

theorem finds_bind {q : Quantifier} {name : String} {p : Pattern}
    (inner : ∀ v, Matcher.Finds (s.under v) (s.under v).HasFormula (p.matcherWith applied)
      fun f r => p.Fits r f) :
    Matcher.Finds s s.HasFormula ((bind q name p).matcherWith applied)
      fun f r => (bind q name p).Fits r f := by
  intro f r r' made found
  cases f with
  | bind q' v f =>
    simp only [matcherWith] at found
    split at found
    · rename_i here
      subst here
      obtain ⟨adds, fits⟩ := mem_underBinder (inner v) made.body found
      exact ⟨adds, .bind fits⟩
    · cases found
  | _ => simp [matcherWith] at found

/-- The step from what an applied reference finds to what any pattern with such references
finds. -/
theorem finds_matcherWith
    (finds : ∀ (s : Supply) name args, s.Allows (refAt name args) →
      Matcher.Finds s s.HasFormula (applied name args) fun f r => (refAt name args).Fits r f)
    (p : Pattern) {s : Supply} (allows : s.Allows p) :
    Matcher.Finds s s.HasFormula (p.matcherWith applied) fun f r => p.Fits r f := by
  induction p generalizing s with
  | nothing =>
    intro f r r' _ found
    simp [matcherWith] at found
  | ref name =>
    intro f r r' made found
    simp only [matcherWith] at found
    exact finds_matchRef name (allows (name, 0) (by simp [uses])) f r r' made found
  | refAt name args =>
    intro f r r' made found
    simp only [matcherWith] at found
    exact finds s name args allows f r r' made found
  | atom t args => exact finds_atom t args
  | not p ih => exact finds_not (ih (allows.of_uses (by simp [uses])))
  | multi c ps others ih rest =>
    apply finds_multi
    · intro p member
      exact ih p member (allows.of_uses fun u use => by simpa [uses] using .inl ⟨p, member, use⟩)
    · exact rest (allows.of_uses fun u use => by simpa [uses] using .inr use)
  | link c p q ihp ihq =>
    apply finds_link
    · exact ihp (allows.of_uses fun u use => by simp [uses, use])
    · exact ihq (allows.of_uses fun u use => by simp [uses, use])
  | bind q name p ih =>
    apply finds_bind
    intro v
    exact ih ((allows.under v).of_uses (by simp [uses]))

/-- On its first use a reference is bound to the formula as it depends on the arguments. -/
theorem mem_matchRefAt_of_unbound {name : String} (allows : s.Allows (refAt name args))
    (made : s.HasFormula f) (unbound : r.formula? name = none)
    (found : r' ∈ matchRefAt name args f r) :
    r.Adds s r' ∧ ∃ params body, r'.formula? name = some ⟨params, body⟩ ∧
      Abstracts r' f args body params := by
  unfold matchRefAt at found
  simp only [unbound] at found
  obtain ⟨state, member, rfl⟩ := List.mem_map.mp found
  have start : Abstracted s r f [] ⟨r, f, []⟩ := ⟨.refl r, fun _ => rfl, .nil⟩
  obtain ⟨adds, formulas, abstracts⟩ :=
    Abstracted.run made (by simpa using start) member
  rw [List.nil_append] at abstracts
  have binds : state.bindings.Adds s
      (state.bindings.insertFormula name ⟨state.params, state.body⟩) := by
    refine .insertFormula (by rw [formulas, unbound]) ⟨?_, fun x free => ?_, fun n occurs => ?_⟩
    · exact allows (name, _) (by simp [uses, abstracts.length_eq])
    · exact (abstracts.mem_freeVars free).imp_right (made.1 x)
    · exact made.2 n (abstracts.mem_symbols occurs)
  refine ⟨adds.trans binds, _, _, ?_, abstracts.mono binds.toExtends⟩
  rw [Bindings.formula?_insertFormula, if_pos rfl]

theorem finds_matchRefAt (s : Supply) (name : String) (args : List TermPattern)
    (allows : s.Allows (refAt name args)) :
    Matcher.Finds s s.HasFormula (matchRefAt name args) fun f r => (refAt name args).Fits r f := by
  intro f r r' made found
  cases bound : r.formula? name with
  | some a =>
    unfold matchRefAt at found
    simp only [bound] at found
    split at found
    · rename_i length
      have inner : s.Allows (ofInstance (a.params.zip args).reverse a.body) :=
        allows.of_uses (by simp [uses_ofInstance])
      obtain ⟨adds, fits⟩ := finds_matcherWith (fun s name args _ => finds_nothing _ _) _ inner
        f r r' made found
      exact ⟨adds, .later (adds.formula bound) length fits⟩
    · cases found
  | none =>
    obtain ⟨adds, params, body, here, abstracts⟩ :=
      mem_matchRefAt_of_unbound allows made bound found
    exact ⟨adds, .first here abstracts⟩

/-- Every result of a match adds bindings made of the formula, and read with them the pattern
describes the formula. -/
theorem finds_matcher (p : Pattern) {s : Supply} (allows : s.Allows p) :
    Matcher.Finds s s.HasFormula p.matcher fun f r => p.Fits r f :=
  finds_matcherWith finds_matchRefAt p allows

end Pattern

end Sequitur
