import Sequitur.Proofs.Filling
import Sequitur.Rule.Catalogue

/-! What the patterns of the catalogue do to truth. Most of them keep it. Projection, the
composition of implications and the replacement of equals give consequences only. -/

namespace Sequitur

open Arrangement Pattern

universe u

variable {D : Type u} {I : Interpretation D} {r : Bindings} {f g : Formula} {ρ : Variable → D}

theorem Bindings.formula_eq_ok {name : String} :
    r.formula name = .ok g ↔ ∃ a, r.formula? name = some a ∧ a.body = g := by
  unfold Bindings.formula
  cases r.formula? name <;> simp

theorem Bindings.Respected.of_formula (respected : r.Respected I) {name : String}
    (ok : r.formula name = .ok g) : g.Respected I := by
  obtain ⟨a, bound, rfl⟩ := Bindings.formula_eq_ok.mp ok
  exact respected.formula bound

/-- What fits a reference is identical to what the reference is bound to. -/
theorem Pattern.Fits.holds_ref {name : String} (fits : (Pattern.ref name).Fits r f)
    (respected : r.Respected I) (ok : r.formula name = .ok g) (ρ : Variable → D) :
    f.holds I ρ ↔ g.holds I ρ := by
  obtain ⟨a, bound, rfl⟩ := Bindings.formula_eq_ok.mp ok
  cases fits with
  | ref bound' identical =>
    obtain rfl := Option.some.inj (bound.symm.trans bound')
    exact (Formula.holds_of_identical identical (respected.formula bound)).symm

/-- What fits a junction: every member pattern has a member of its own. -/
theorem Pattern.Fits.exists_members {c : Junction} {ps : List Pattern} {others : Pattern}
    (fits : (Pattern.multi c ps others).Fits r f) :
    ∃ (fs : List Formula) (pairs : List (Pattern × Formula)) (left : List Formula),
      f = .multi c fs ∧ pairs.map Prod.fst = ps ∧
      (pairs.map Prod.snd ++ left).Perm fs ∧ ∀ q ∈ pairs, Fits r q.1 q.2 := by
  cases fits with
  | @exactly _ _ _ _ fs pairs pairing all =>
    refine ⟨fs, pairs, [], rfl, pairing.1, ?_, all⟩
    rw [List.append_nil]
    exact pairing.perm
  | @others _ _ _ _ fs left pairs first perm _ all _ => exact ⟨fs, pairs, left, rfl, first, perm, all⟩

theorem exists_of_map_fst {α β : Type} {a : α} {as : List α} {pairs : List (α × β)}
    (first : pairs.map Prod.fst = a :: as) :
    ∃ b rest, pairs = (a, b) :: rest ∧ rest.map Prod.fst = as := by
  cases pairs with
  | nil => cases first
  | cons p rest =>
    obtain ⟨rfl, later⟩ := List.cons.inj first
    exact ⟨p.2, rest, rfl, later⟩

theorem exists_pair_of_map_fst {α β : Type} {a a' : α} {pairs : List (α × β)}
    (first : pairs.map Prod.fst = [a, a']) : ∃ b b', pairs = [(a, b), (a', b')] := by
  obtain ⟨b, rest, rfl, second⟩ := exists_of_map_fst first
  obtain ⟨b', rest, rfl, third⟩ := exists_of_map_fst second
  obtain rfl := List.map_eq_nil_iff.mp third
  exact ⟨b, b', rfl⟩

namespace Formula

theorem holds_multi_perm (c : Junction) {fs gs : List Formula} (perm : fs.Perm gs) :
    (multi c fs).holds I ρ ↔ (multi c gs).holds I ρ := by
  have pairing : Pairing false (fs.map fun f => (f, f)) fs gs :=
    ⟨(Pairing.refl false fs).1, (Pairing.refl false fs).perm.trans perm⟩
  apply holds_multi_congr pairing
  intro p pair
  obtain ⟨f, _, rfl⟩ := List.mem_map.mp pair
  exact Iff.rfl

theorem holds_junctionOf (c : Junction) (fs : List Formula) :
    (junctionOf c fs).holds I ρ ↔ (multi c fs).holds I ρ := by
  unfold junctionOf
  split
  · cases c <;> simp
  · exact Iff.rfl

/-- Some members have the truth value of `g` together, and the others stay. -/
theorem holds_multi_append {c : Junction} {fs left : List Formula}
    (same : (multi c fs).holds I ρ ↔ g.holds I ρ) :
    (multi c (fs ++ left)).holds I ρ ↔ (multi c [.junctionOf c left, g]).holds I ρ := by
  cases c with
  | and =>
    have split : (multi .and (fs ++ left)).holds I ρ ↔
        (multi .and fs).holds I ρ ∧ (multi .and left).holds I ρ := by
      simp only [holds_and, List.mem_append, or_imp, forall_and]
    have pair : (multi .and [junctionOf .and left, g]).holds I ρ ↔
        (multi .and left).holds I ρ ∧ g.holds I ρ := by
      simp [← holds_junctionOf .and left]
    rw [split, pair, same, and_comm]
  | or =>
    have split : (multi .or (fs ++ left)).holds I ρ ↔
        (multi .or fs).holds I ρ ∨ (multi .or left).holds I ρ := by
      simp only [holds_or, List.mem_append, or_and_right, exists_or]
    have pair : (multi .or [junctionOf .or left, g]).holds I ρ ↔
        (multi .or left).holds I ρ ∨ g.holds I ρ := by
      simp [← holds_junctionOf .or left]
    rw [split, pair, same, or_comm]

end Formula

/-- Of two matchers that take items in any order, the second goes on from where the first ends. -/
theorem Matcher.exists_pair {α : Type} {m n : Matcher α} {xs : List α} {r' : Bindings}
    (found : r' ∈ Matcher.inAnyOrder [m, n] xs r) :
    ∃ a b between, [a, b].Perm xs ∧ between ∈ m a r ∧ r' ∈ n b between := by
  simp only [inAnyOrder, assignments] at found
  split at found
  · rename_i length
    simp only [List.mem_map, List.mem_flatMap, List.mem_singleton] at found
    obtain ⟨_, ⟨⟨a, rest⟩, pick, between, first, ⟨b, rest'⟩, pick', r', second, rfl⟩, rfl⟩ := found
    have none : rest' = [] := by
      have := (perm_of_mem_picks pick).length_eq
      have := (perm_of_mem_picks pick').length_eq
      simp only [List.length_cons, List.length_nil] at *
      exact List.eq_nil_of_length_eq_zero (by omega)
    subst none
    have perm : [a, b].Perm xs :=
      ((perm_of_mem_picks pick').symm.cons a).trans (perm_of_mem_picks pick).symm
    exact ⟨a, b, between, perm, first, second⟩
  · cases found

/-- A pair of patterns is matched one after the other. -/
theorem Pattern.exists_pair {c : Junction} {p q : Pattern}
    (found : r ∈ (Pattern.exactly c [p, q]).matcher f .empty) :
    ∃ (fs : List Formula) (a b : Formula) (between : Bindings), f = .multi c fs ∧
      [a, b].Perm fs ∧ between ∈ p.matcher a .empty ∧ r ∈ q.matcher b between := by
  cases f with
  | multi d fs =>
    simp only [matcher, exactly, matcherWith, isNothing, ↓reduceIte, matchersWith,
      Matcher.withOthers] at found
    split at found
    · rename_i here
      subst here
      obtain ⟨a, b, between, perm, first, second⟩ := Matcher.exists_pair found
      exact ⟨fs, a, b, between, rfl, perm, first, second⟩
    · cases found
  | _ => simp [matcher, exactly, matcherWith] at found

namespace Pattern.Abstracts

variable {body : Formula} {args : List TermPattern} {arg : TermPattern} {params : List Variable}

theorem eq_of_nil (abstracts : Abstracts r f args body params) (none : args = []) :
    body = f ∧ params = [] := by
  cases abstracts with
  | nil => exact ⟨rfl, rfl⟩
  | var => simp at none
  | term => simp at none

/-- Over a single argument: a variable is the parameter itself, any other term is replaced. -/
theorem exists_single (abstracts : Abstracts r f args body params) (one : args = [arg]) :
    ∃ t p, arg.resolve r = some t ∧ params = [p] ∧
      ((t = .var p ∧ body = f) ∨
        ((∀ v, t ≠ .var v) ∧ p ∉ f.allVars ∧ p ∉ t.vars ∧ body = f.replace t (.var p))) := by
  cases abstracts with
  | nil => cases one
  | var inner resolved =>
    obtain ⟨none, rfl⟩ : _ = [] ∧ _ = arg := by simpa using List.append_eq_singleton_iff.mp one
    obtain ⟨rfl, rfl⟩ := inner.eq_of_nil none
    exact ⟨_, _, resolved, rfl, .inl ⟨rfl, rfl⟩⟩
  | term inner resolved compound new fresh clear =>
    obtain ⟨none, rfl⟩ : _ = [] ∧ _ = arg := by simpa using List.append_eq_singleton_iff.mp one
    obtain ⟨rfl, rfl⟩ := inner.eq_of_nil none
    exact ⟨_, _, resolved, rfl, .inr ⟨compound, fresh, clear, rfl⟩⟩

/-- The formula says of the argument what its abstraction says of the parameter. -/
theorem holds_single (abstracts : Abstracts r f [arg] body params) :
    ∃ t p, arg.resolve r = some t ∧ params = [p] ∧
      ∀ ρ, f.holds I ρ ↔ body.holds I (Function.update ρ p (t.value I ρ)) := by
  obtain ⟨t, p, resolved, rfl, ⟨rfl, rfl⟩ | ⟨_, fresh, -, rfl⟩⟩ := abstracts.exists_single rfl
  · refine ⟨_, p, resolved, rfl, fun ρ => ?_⟩
    rw [Term.value, Function.update_eq_self]
  · have outside : p ∉ f.freeVars := fun free => fresh (Formula.mem_allVars_of_free free)
    exact ⟨t, p, resolved, rfl, fun ρ => (Formula.holds_replace_var outside t ρ).symm⟩

end Pattern.Abstracts

/-- Under its binder, a reference at the bound variable is bound to the whole body. -/
theorem Pattern.exists_body {q : Quantifier} {x name : String} {r' : Bindings}
    (respected : f.Respected I) (unbound : r.formula? name = none)
    (found : r' ∈ (Pattern.bind q x (.refAt name [.ref x])).matcher f r) :
    ∃ v body, f = .bind q v body ∧ r'.formula? name = some ⟨[v], body⟩ := by
  cases f with
  | bind q' v body =>
    simp only [matcher, matcherWith, underBinder] at found
    split at found
    · rename_i here
      subst here
      obtain ⟨inner, found, restored⟩ := List.mem_map.mp (List.mem_filter.mp found).1
      have formulas : r'.formula? name = inner.formula? name := by
        rw [← restored]
        split <;> simp
      obtain ⟨adds, params, body', bound, abstracts⟩ := mem_matchRefAt_of_unbound
        (s := .respecting I fun _ => True) (fun _ _ => trivial)
        (Supply.hasFormula_respecting (Formula.respected_bind.mp respected)) (by simpa) found
      have resolved : inner.term? x = some (.var v) := by
        apply adds.term
        rw [Bindings.term?_insertTerm, if_pos rfl]
      obtain ⟨t, p, resolved', rfl, cases⟩ := abstracts.exists_single rfl
      rw [TermPattern.resolve, resolved] at resolved'
      obtain rfl := Option.some.inj resolved'
      rcases cases with ⟨here, rfl⟩ | ⟨compound, _⟩
      · obtain rfl := Term.var.inj here
        exact ⟨v, _, rfl, by rw [formulas, bound]⟩
      · exact absurd rfl (compound v)
    · cases found
  | _ => simp [matcher, matcherWith] at found

/-- A reference that no pattern so far could bind is not bound. -/
theorem Bindings.Adds.unbound {name : String} {names : String → Prop}
    (adds : Bindings.empty.Adds (.respecting I names) r) (outside : ¬ names name) :
    r.formula? name = none := by
  cases bound : r.formula? name with
  | none => rfl
  | some a =>
    rcases adds.newFormula bound with old | new
    · simp at old
    · exact absurd new.arity outside

/-- An equation between the two terms, in either order. -/
def Formula.Equates (f : Formula) (t u : Term) : Prop :=
  ∃ s ts, f = .atom s ts ∧ Relation.same (.pred .equality) s = true ∧ [t, u].Perm ts

theorem Formula.Equates.value_eq {t u : Term} (equates : f.Equates t u) (standard : I.Standard)
    (true : f.holds I ρ) : t.value I ρ = u.value I ρ := by
  obtain ⟨s, ts, rfl, same, perm⟩ := equates
  have equation : I.relation s = I.pred Predicate.equality.name.full :=
    (I.relation_congr same).symm
  rw [Formula.holds_atom, equation] at true
  obtain ⟨c, d, rfl⟩ := List.length_eq_two.mp perm.length_eq.symm
  have equal : c.value I ρ = d.value I ρ := (standard _ _).mp true
  have each : ∀ a ∈ [c, d], a.value I ρ = d.value I ρ := by simpa using equal
  exact (each t (perm.subset (by simp))).trans (each u (perm.subset (by simp))).symm

/-- References that nothing binds yet take the two sides of an equation as they are. -/
theorem Pattern.equates_of_found {x y : String} {r' : Bindings} (apart : x ≠ y)
    (left : r.term? x = none) (right : r.term? y = none)
    (found : r' ∈ (Pattern.equal x y).matcher f r) :
    ∃ t u, f.Equates t u ∧ r' = (r.insertTerm x t).insertTerm y u := by
  cases f with
  | atom s ts =>
    simp only [matcher, Pattern.equal, matcherWith] at found
    split at found
    · rename_i same
      obtain ⟨t, u, between, perm, first, second⟩ := Matcher.exists_pair found
      rw [TermPattern.matcher, TermPattern.matchRef, left] at first
      obtain rfl := List.mem_singleton.mp first
      have still : (r.insertTerm x t).term? y = none := by
        rw [Bindings.term?_insertTerm, if_neg apart, right]
      rw [TermPattern.matcher, TermPattern.matchRef, still] at second
      exact ⟨t, u, ⟨s, ts, rfl, same, perm⟩, List.mem_singleton.mp second⟩
    · cases found
  | _ => simp [matcher, Pattern.equal, matcherWith] at found

theorem Bindings.not_mem_of_freshVar {name : String} {a : Abstraction}
    (bound : r.formula? name = some a) : r.freshVar ∉ a.params ∧ r.freshVar ∉ a.body.allVars := by
  have fresh : r.freshVar ∉ r.vars := Variable.fresh_not_mem _ _
  exact ⟨fun inside => fresh (mem_vars_of_formula bound (.inl inside)),
    fun inside => fresh (mem_vars_of_formula bound (.inr inside))⟩

theorem Bindings.term_eq_ok {name : String} {t : Term} :
    r.term name = .ok t ↔ r.term? name = some t := by
  unfold Bindings.term
  cases r.term? name <;> simp

theorem Bindings.apply_eq_ok {name : String} {args : List Term} :
    r.apply name args = .ok g ↔ ∃ a, r.formula? name = some a ∧ a.instantiate args = .ok g := by
  unfold Bindings.apply
  cases r.formula? name <;> simp

/-- An abstraction at a term says of the term what it says of the parameter. -/
theorem Abstraction.holds_instantiate_single {a : Abstraction} {p : Variable} {t : Term}
    (single : a.params = [p]) (ok : a.instantiate [t] = .ok g) (ρ : Variable → D) :
    g.holds I ρ ↔ a.body.holds I (Function.update ρ p (t.value I ρ)) := by
  have values : assign ρ a.params ([t].map (Term.value I ρ)) = Function.update ρ p (t.value I ρ) := by
    funext x
    rw [assign, single]
    show ([(p, t.value I ρ)].lookup x).getD (ρ x) = _
    rw [Subst.lookup_cons, Function.update_apply]
    split <;> rfl
  rw [a.holds_instantiate ok, values]

/-- A formula seen as depending on a term does not change its truth when another term of the same
value takes its place. -/
theorem Pattern.Abstracts.holds_exchanged {a : Abstraction} {arg : TermPattern} {t u : Term}
    (abstracts : Abstracts r f [arg] a.body a.params) (resolved : arg.resolve r = some t)
    (ok : a.instantiate [u] = .ok g) (equal : t.value I ρ = u.value I ρ) :
    f.holds I ρ ↔ g.holds I ρ := by
  obtain ⟨t', p, resolved', single, truth⟩ := abstracts.holds_single (I := I)
  obtain rfl := Option.some.inj (resolved.symm.trans resolved')
  rw [truth ρ, a.holds_instantiate_single single ok ρ, equal]

inductive Formula.Propositional : Formula → Prop
  | prop {n : Name} : Propositional (.atom (.named n) [])
  | not {f : Formula} : Propositional f → Propositional (.not f)
  | multi {c : Junction} {fs : List Formula} : (∀ f ∈ fs, Propositional f) →
      Propositional (.multi c fs)
  | link {c : Arrow} {a b : Formula} : Propositional a → Propositional b →
      Propositional (.link c a b)

namespace Formula.Propositional

variable {template : Formula}

theorem quantifierFree (propositional : template.Propositional) : template.QuantifierFree := by
  induction propositional with
  | prop => exact .prop
  | not _ ih => exact .not ih
  | multi _ ih => exact .multi ih
  | link _ _ iha ihb => exact .link iha ihb

/-- Propositions have no arguments to put in order. -/
theorem respected (propositional : template.Propositional) : template.Respected I := by
  induction propositional with
  | @prop n =>
    have ordered : I.Respects (.relation (.named n)) :=
      fun unordered => absurd unordered (by simp [Relation.ordered])
    exact respected_atom.mpr ⟨ordered, by simp⟩
  | not _ ih => exact respected_not.mpr ih
  | multi _ ih => exact respected_multi.mpr ih
  | link _ _ iha ihb => exact respected_link.mpr ⟨iha, ihb⟩

end Formula.Propositional

namespace Catalogue

open Transformation Formula

theorem relates_doubleNegate :
    Relates ⟨.not (.not (.ref "P")), (·.formula "P")⟩ (Equivalent I) := by
  intro f r g found ok respected
  obtain ⟨fits, values⟩ := fits_of_mem_matcher found respected
  cases fits with
  | not fits =>
    cases fits with
    | not fits =>
      have same := fits.holds_ref values ok
      exact ⟨values.of_formula ok, fun ρ => by rw [holds_not, holds_not, Classical.not_not, same ρ]⟩

/-- What is left over is bound only if there is something left over. -/
theorem exists_left {c : Junction} {ps : List Pattern} {others : String}
    (apart : ∀ p ∈ ps, ∀ u ∈ p.uses, u.1 ≠ others)
    (found : r ∈ (Pattern.multi c ps (.ref others)).matcher f .empty) (respected : f.Respected I) :
    ∃ (fs left : List Formula) (pairs : List (Pattern × Formula)), f = .multi c fs ∧
      pairs.map Prod.fst = ps ∧ (pairs.map Prod.snd ++ left).Perm fs ∧
      (∀ q ∈ pairs, q.1.Fits r q.2) ∧ r.Respected I ∧
      ((left = [] ∧ r.formula? others = none) ∨
        (left ≠ [] ∧ (Pattern.ref others).Fits r (.junctionOf c left))) := by
  cases f with
  | multi d fs =>
    simp only [matcher, matcherWith] at found
    split at found
    · rename_i here
      subst here
      simp only [isNothing, Bool.false_eq_true, ↓reduceIte, Matcher.withOthers,
        matchersWith_eq] at found
      split at found
      · obtain ⟨⟨between, left⟩, assigned, found⟩ := List.mem_flatMap.mp found
        have members : ∀ f ∈ fs, (Supply.respecting I (· ≠ others)).HasFormula f :=
          fun f member => Supply.hasFormula_respecting (respected_multi.mp respected f member)
        obtain ⟨adds, pairs, first, perm, fitting⟩ := Matcher.mem_assignments
          (fun p member => p.finds_matcher (apart p member))
          (fun p _ => p.stable_fits) members assigned
        have values := Bindings.respected_empty.extend adds
        rcases mem_others found with ⟨rfl, rfl⟩ | ⟨nonempty, found⟩
        · refine ⟨fs, [], pairs, rfl, first, perm, fitting, values, .inl ⟨rfl, ?_⟩⟩
          exact adds.unbound (by simp)
        · have remaining : (Supply.respecting I fun _ => True).HasFormula (.junctionOf c left) := by
            apply Supply.HasFormula.junctionOf
            intro f member
            have source : f ∈ fs := perm.subset (by simp [member])
            exact Supply.hasFormula_respecting (respected_multi.mp respected f source)
          obtain ⟨more, here⟩ :=
            adds_of_mem_matcher (p := .ref others) (fun _ => True) (fun _ _ => trivial) remaining.2
              found
          exact ⟨fs, left, pairs, rfl, first, perm,
            fun q pair => (fitting q pair).mono more.toExtends, values.extend more,
            .inr ⟨nonempty, here⟩⟩
      · cases found
    · cases found
  | _ => simp [matcher, matcherWith] at found

/-- If the members that the patterns claim say together what is kept, then the rule keeps
truth. -/
theorem relates_beside {c : Junction} {ps : List Pattern} {others kept : String}
    (apart : ∀ p ∈ ps, ∀ u ∈ p.uses, u.1 ≠ others)
    (claimed : ∀ (r : Bindings) (pairs : List (Pattern × Formula)) (g : Formula), r.Respected I →
      pairs.map Prod.fst = ps → (∀ q ∈ pairs, q.1.Fits r q.2) → r.formula kept = .ok g →
      ∀ ρ, (multi c (pairs.map Prod.snd)).holds I ρ ↔ g.holds I ρ) :
    Relates ⟨.multi c ps (.ref others), beside c others kept⟩ (Equivalent I) := by
  intro f r g found ok respected
  obtain ⟨fs, left, pairs, rfl, first, perm, fitting, values, rest⟩ :=
    exists_left apart found respected
  simp only [beside, bind_eq_ok] at ok
  obtain ⟨p, main, ok⟩ := ok
  have same := claimed r pairs p values first fitting main
  rcases rest with ⟨rfl, unbound⟩ | ⟨nonempty, fits⟩
  · simp only [unbound, pure_eq_ok] at ok
    subst ok
    refine ⟨values.of_formula main, fun ρ => ?_⟩
    rw [← same ρ, ← holds_multi_perm c perm, List.append_nil]
  · obtain ⟨a, bound, identical⟩ : ∃ a, r.formula? others = some a ∧
        a.body.identical (.junctionOf c left) = true := by
      cases fits with
      | ref bound identical => exact ⟨_, bound, identical⟩
    simp only [bound, pure_eq_ok] at ok
    subst ok
    constructor
    · rw [respected_multi]
      intro h member
      rcases List.mem_cons.mp member with rfl | member
      · exact values.formula bound
      · rw [List.mem_singleton.mp member]
        exact values.of_formula main
    · intro ρ
      have body := holds_of_identical (ρ := ρ) identical (values.formula bound)
      rw [← holds_multi_perm c perm, holds_multi_append (same ρ)]
      cases c with
      | and => simp [body]
      | or => simp [body]

theorem relates_identity (c : Junction) :
    Relates ⟨.multi c [.ref "P", .ref "P"] (.ref "Q"), beside c "Q" "P"⟩ (Equivalent I) := by
  apply relates_beside (by simp [uses])
  intro r pairs g values first fitting ok ρ
  obtain ⟨a, b, rfl⟩ := exists_pair_of_map_fst first
  obtain ⟨fitsa, fitsb⟩ : (Pattern.ref "P").Fits r a ∧ (Pattern.ref "P").Fits r b := by
    simpa using fitting
  have left := fitsa.holds_ref values ok ρ
  have right := fitsb.holds_ref values ok ρ
  cases c with
  | and => simp [left, right]
  | or => simp [left, right]

theorem relates_absorption {c d : Junction} (differ : c ≠ d) :
    Relates ⟨.multi c [.ref "P", .multi d [.ref "P"] (.ref "Q")] (.ref "R"), beside c "R" "P"⟩
      (Equivalent I) := by
  apply relates_beside (by simp [uses, or_imp, forall_and])
  intro r pairs g values first fitting ok ρ
  obtain ⟨a, b, rfl⟩ := exists_pair_of_map_fst first
  obtain ⟨fitsa, fitsb⟩ :
      (Pattern.ref "P").Fits r a ∧ (Pattern.multi d [.ref "P"] (.ref "Q")).Fits r b := by
    simpa using fitting
  have kept := fitsa.holds_ref values ok ρ
  obtain ⟨fs, pairs, left, rfl, first', perm, fitting'⟩ := fitsb.exists_members
  obtain ⟨h, rest, rfl, -⟩ := exists_of_map_fst first'
  have inner := (fitting' (.ref "P", h) (by simp)).holds_ref values ok ρ
  have member : h ∈ fs := perm.subset (by simp)
  cases c with
  | and =>
    cases d with
    | and => exact absurd rfl differ
    | or =>
      have weaker : g.holds I ρ → ∃ f ∈ fs, f.holds I ρ := fun true => ⟨h, member, inner.mpr true⟩
      simpa [kept] using weaker
  | or =>
    cases d with
    | and =>
      have stronger : (∀ f ∈ fs, f.holds I ρ) → g.holds I ρ := fun all => inner.mp (all h member)
      simpa [kept] using stronger
    | or => exact absurd rfl differ

/-- Templates that are equivalent whatever their bare names mean. -/
theorem relates_exchange {lhs rhs : Formula} (left : lhs.Shallow) (right : rhs.Shallow)
    (givenl : lhs.Respected I) (givenr : rhs.Respected I)
    (same : ∀ named ρ, lhs.holds { I with named } ρ ↔ rhs.holds { I with named } ρ) :
    Relates (.ofTemplates lhs rhs) (Equivalent I) := by
  intro f r g found ok respected
  have bound := (fits_of_mem_matcher found respected).2
  refine ⟨respected_fillUnder bound givenr ok, fun ρ => ?_⟩
  have values (x : Variable) := r.determines_values I ρ x
  have matched := left.holds_of_match givenl respected found fun x _ => values x
  have filled := holds_of_fillUnder (fun _ inside => inside) right.renamedApart ok fun x _ => values x
  rw [matched, filled]
  exact same (I.filled r ρ).named (r.values I ρ)

theorem relates_forAnyAnd :
    Relates ⟨.exactly .and [.bind .all "x" (.refAt "phi" [.ref "x"]),
        .bind .all "x" (.refAt "psi" [.ref "x"])],
      fun r => do
        let z := r.freshVar
        let phi ← r.apply "phi" [.var z]
        let psi ← r.apply "psi" [.var z]
        return .all z (.and [phi, psi])⟩ (Equivalent I) := by
  intro f r g found ok respected
  obtain ⟨fs, a, b, between, rfl, perm, first, second⟩ := exists_pair found
  have members := respected_multi.mp respected
  have respecteda := members a (perm.subset (by simp))
  have respectedb := members b (perm.subset (by simp))
  obtain ⟨adds, -⟩ := adds_of_mem_matcher (· ≠ "psi") (by simp [uses]) respecteda first
  obtain ⟨more, -⟩ := adds_of_mem_matcher (fun _ => True) (fun _ _ => trivial) respectedb second
  have values := (Bindings.respected_empty.extend adds).extend more
  obtain ⟨v, phi, rfl, bound⟩ := exists_body respecteda (by simp) first
  obtain ⟨w, psi, rfl, bound'⟩ := exists_body respectedb (adds.unbound (by simp)) second
  have boundphi := more.formula bound
  simp only [bind_eq_ok, pure_eq_ok, Bindings.apply_eq_ok] at ok
  obtain ⟨left, ⟨_, same, okl⟩, right, ⟨_, same', okr⟩, rfl⟩ := ok
  obtain rfl := Option.some.inj (boundphi.symm.trans same)
  obtain rfl := Option.some.inj (bound'.symm.trans same')
  have fresh : ∀ t ∈ [Term.var r.freshVar], t.Respected I :=
    List.forall_mem_singleton.mpr (Term.respected_var r.freshVar)
  constructor
  · rw [respected_bind, respected_multi]
    intro h member
    rcases List.mem_cons.mp member with rfl | member
    · exact Abstraction.respected_instantiate (values.formula boundphi) fresh okl
    · rw [List.mem_singleton.mp member]
      exact Abstraction.respected_instantiate (values.formula bound') fresh okr
  · intro ρ
    have truthl := Abstraction.holds_instantiate_single (I := I) rfl okl
    have truthr := Abstraction.holds_instantiate_single (I := I) rfl okr
    have outer {body : Formula} {x : Variable} (clear : r.freshVar ∉ body.allVars) (d : D) :
        body.holds I (Function.update (Function.update ρ r.freshVar d) x d) ↔
          body.holds I (Function.update ρ x d) := by
      apply holds_congr
      intro y free
      by_cases here : y = x
      · rw [here, Function.update_self, Function.update_self]
      · have apart : y ≠ r.freshVar := by
          rintro rfl
          exact clear (mem_allVars_of_free free)
        rw [Function.update_of_ne here, Function.update_of_ne here, Function.update_of_ne apart]
    have lefts (d : D) := outer (x := v) (Bindings.not_mem_of_freshVar boundphi).2 d
    have rights (d : D) := outer (x := w) (Bindings.not_mem_of_freshVar bound').2 d
    rw [← holds_multi_perm .and perm]
    simp [truthl, truthr, Term.value, lefts, rights, forall_and]

theorem holds_excludedMiddle (found : r ∈ ExcludedMiddle.pattern.matcher f .empty)
    (respected : f.Respected I) (ρ : Variable → D) : f.holds I ρ := by
  obtain ⟨fits, values⟩ := fits_of_mem_matcher found respected
  obtain ⟨fs, pairs, rfl, pairing, fitting⟩ := fits.exists_exactly
  obtain ⟨a, b, rfl⟩ := exists_pair_of_map_fst pairing.1
  obtain ⟨fitsa, fitsb⟩ : (Pattern.ref "P").Fits r a ∧ (Pattern.not (.ref "P")).Fits r b := by
    simpa using fitting
  obtain ⟨p, ok⟩ : ∃ p, r.formula "P" = .ok p := by
    cases fitsa with
    | ref bound _ => exact ⟨_, Bindings.formula_eq_ok.mpr ⟨_, bound, rfl⟩⟩
  cases fitsb with
  | not fitsb =>
    rw [← holds_multi_perm .or pairing.perm]
    simp [fitsa.holds_ref values ok ρ, fitsb.holds_ref values ok ρ, Classical.em]

theorem weakens_andProject :
    Weakens ⟨.multi .and [.ref "P"] (.ref "Q"), (·.formula "P")⟩ I := by
  intro f r g found ok respected
  obtain ⟨fits, values⟩ := fits_of_mem_matcher found respected
  refine ⟨values.of_formula ok, fun ρ true => ?_⟩
  obtain ⟨fs, pairs, left, rfl, first, perm, fitting⟩ := fits.exists_members
  obtain ⟨h, rest, rfl, -⟩ := exists_of_map_fst first
  have member : h ∈ fs := perm.subset (by simp)
  have fits := fitting (.ref "P", h) (by simp)
  exact (fits.holds_ref values ok ρ).mp (holds_and.mp true h member)

theorem weakens_implyCompose :
    Weakens ⟨.exactly .and [.link .imply (.ref "P") (.ref "Q"), .link .imply (.ref "Q") (.ref "R")],
      fun r => do
        let p ← r.formula "P"
        let q ← r.formula "R"
        return .imply p q⟩ I := by
  intro f r g found ok respected
  obtain ⟨fits, values⟩ := fits_of_mem_matcher found respected
  simp only [bind_eq_ok, pure_eq_ok] at ok
  obtain ⟨p, okp, q, okq, rfl⟩ := ok
  refine ⟨respected_link.mpr ⟨values.of_formula okp, values.of_formula okq⟩, fun ρ true => ?_⟩
  obtain ⟨fs, pairs, rfl, pairing, fitting⟩ := fits.exists_exactly
  obtain ⟨a, b, rfl⟩ := exists_pair_of_map_fst pairing.1
  have first := holds_and.mp true a (pairing.perm.subset (by simp))
  have second := holds_and.mp true b (pairing.perm.subset (by simp))
  obtain ⟨fitsa, fitsb⟩ : (Pattern.link .imply (.ref "P") (.ref "Q")).Fits r a ∧
      (Pattern.link .imply (.ref "Q") (.ref "R")).Fits r b := by
    simpa using fitting
  cases fitsa with
  | imply fitsp fitsm =>
    cases fitsb with
    | imply fitsm' fitsq =>
      obtain ⟨m, okm⟩ : ∃ m, r.formula "Q" = .ok m := by
        cases fitsm with
        | ref bound _ => exact ⟨_, Bindings.formula_eq_ok.mpr ⟨_, bound, rfl⟩⟩
      rw [holds_imply, fitsp.holds_ref values okp, fitsm.holds_ref values okm] at first
      rw [holds_imply, fitsm'.holds_ref values okm, fitsq.holds_ref values okq] at second
      rw [holds_imply]
      exact fun premise => second (first premise)

/-- What is matched for the replacement of equals: an equation, and a formula that is seen as depending
on one side of it. -/
theorem exists_equated
    (found : r ∈ (exactly .and [.equal "x" "y", .refAt "phi" [.ref "x"]]).matcher f .empty) :
    ∃ fs equation h t u a, f = .multi .and fs ∧ [equation, h].Perm fs ∧
      equation.Equates t u ∧ r.term? "x" = some t ∧ r.term? "y" = some u ∧
      r.formula? "phi" = some a ∧ Abstracts r h [.ref "x"] a.body a.params := by
  obtain ⟨fs, equation, h, between, rfl, perm, first, second⟩ := exists_pair found
  obtain ⟨t, u, equates, rfl⟩ := equates_of_found (by decide) (by simp) (by simp) first
  have unbound : ((Bindings.empty.insertTerm "x" t).insertTerm "y" u).formula? "phi" = none := by
    simp
  obtain ⟨more, params, body, bound, abstracts⟩ := mem_matchRefAt_of_unbound
    (s := ⟨fun _ => True, fun _ => True, fun _ _ => True⟩) (fun _ _ => trivial)
    ⟨fun _ _ => trivial, fun _ _ => trivial⟩ unbound second
  refine ⟨fs, equation, h, t, u, _, rfl, perm, equates, ?_, ?_, bound, abstracts⟩
  · exact more.term (by simp [Bindings.term?_insertTerm])
  · exact more.term (by simp [Bindings.term?_insertTerm])

theorem holds_equalReplace {a : Abstraction} {y : Term} (standard : I.Standard)
    (found : r ∈ (exactly .and [.equal "x" "y", .refAt "phi" [.ref "x"]]).matcher f .empty)
    (boundy : r.term? "y" = some y) (bound : r.formula? "phi" = some a)
    (ok : a.instantiate [y] = .ok g) (true : f.holds I ρ) : g.holds I ρ := by
  obtain ⟨fs, equation, h, t, u, b, rfl, perm, equates, boundx, boundu, boundb, abstracts⟩ :=
    exists_equated found
  obtain rfl := Option.some.inj (boundy.symm.trans boundu)
  obtain rfl := Option.some.inj (bound.symm.trans boundb)
  have all := holds_and.mp true
  have equal := equates.value_eq standard (all equation (perm.subset (by simp)))
  have resolved : (TermPattern.ref "x").resolve r = some t := by rw [TermPattern.resolve, boundx]
  exact (abstracts.holds_exchanged resolved ok equal).mp (all h (perm.subset (by simp)))

theorem weakens_equalReplace (standard : I.Standard) :
    Weakens ⟨.exactly .and [.equal "x" "y", .refAt "phi" [.ref "x"]],
      fun r => do
        let y ← r.term "y"
        r.apply "phi" [y]⟩ I := by
  intro f r g found ok respected
  obtain ⟨-, values⟩ := fits_of_mem_matcher found respected
  simp only [bind_eq_ok, Bindings.term_eq_ok, Bindings.apply_eq_ok] at ok
  obtain ⟨y, boundy, a, bound, ok⟩ := ok
  refine ⟨?_, fun ρ true => holds_equalReplace standard found boundy bound ok true⟩
  exact a.respected_instantiate (values.formula bound) (by simpa using values.term boundy) ok

end Catalogue

end Sequitur
