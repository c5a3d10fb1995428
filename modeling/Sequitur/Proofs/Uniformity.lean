import Mathlib.Data.List.Forall2
import Sequitur.Proofs.Abstraction
import Sequitur.Proofs.Relabelling
import Sequitur.Proofs.Soundness

/-! Labels do not steer matching and rewriting. A pattern matches a formula with other labels in the
same ways, and what is bound differs in labels alone. Every pattern of the catalogue turns each of
its matches into a formula, so a rule that applies to a formula has the same results, up to labels,
for a formula with other labels. -/

namespace Sequitur

open Arrangement

variable {m : Relabelling}

def Abstraction.relabel (m : Relabelling) (a : Abstraction) : Abstraction :=
  ⟨a.params, a.body.relabel m⟩

namespace Bindings

structure Relabels (m : Relabelling) (r r' : Bindings) : Prop where
  formula? : ∀ name, r'.formula? name = (r.formula? name).map (.relabel m)
  term? : ∀ name, r'.term? name = (r.term? name).map (.relabel m)

theorem toList_of_map {α : Type} {t t' : Std.TreeMap String α} {change : α → α}
    (same : ∀ name : String, t'[name]? = t[name]?.map change) :
    t'.toList = t.toList.map (Prod.map id change) := by
  have equiv : t'.Equiv (t.map fun _ => change) := by
    apply Std.TreeMap.Equiv.of_forall_constGet?_eq
    intro name
    rw [same, Std.TreeMap.getElem?_map]
  rw [equiv.toList_eq, Std.TreeMap.toList_map]
  rfl

namespace Relabels

variable {r r' s s' : Bindings} {name : String}

theorem empty : Relabels m .empty .empty := ⟨by simp, by simp⟩

theorem insertFormula (relabels : r.Relabels m r') (name : String) (a : Abstraction) :
    (r.insertFormula name a).Relabels m (r'.insertFormula name (a.relabel m)) := by
  refine ⟨fun other => ?_, fun other => ?_⟩
  · rw [formula?_insertFormula, formula?_insertFormula, relabels.formula?]
    split <;> rfl
  · rw [term?_insertFormula, term?_insertFormula, relabels.term?]

theorem insertTerm (relabels : r.Relabels m r') (name : String) (t : Term) :
    (r.insertTerm name t).Relabels m (r'.insertTerm name (t.relabel m)) := by
  refine ⟨fun other => ?_, fun other => ?_⟩
  · rw [formula?_insertTerm, formula?_insertTerm, relabels.formula?]
  · rw [term?_insertTerm, term?_insertTerm, relabels.term?]
    split <;> rfl

theorem eraseTerm (relabels : r.Relabels m r') (name : String) :
    (r.eraseTerm name).Relabels m (r'.eraseTerm name) := by
  refine ⟨fun other => ?_, fun other => ?_⟩
  · rw [formula?_eraseTerm, formula?_eraseTerm, relabels.formula?]
  · rw [term?_eraseTerm, term?_eraseTerm, relabels.term?]
    split <;> rfl

theorem toList_formulas (relabels : r.Relabels m r') :
    r'.formulas.toList = r.formulas.toList.map (Prod.map id (.relabel m)) :=
  toList_of_map relabels.formula?

theorem toList_terms (relabels : r.Relabels m r') :
    r'.terms.toList = r.terms.toList.map (Prod.map id (.relabel m)) :=
  toList_of_map relabels.term?

theorem vars_eq (relabels : r.Relabels m r') : r'.vars = r.vars := by
  simp [vars, relabels.toList_formulas, relabels.toList_terms, Function.comp_def,
    Abstraction.relabel]

theorem escapes_eq (relabels : r.Relabels m r') (relabels' : s.Relabels m s') (v : Variable) :
    Pattern.escapes v r' s' = Pattern.escapes v r s := by
  simp only [Pattern.escapes, relabels'.toList_formulas, relabels'.toList_terms, List.any_map,
    Function.comp_def, Prod.map, id, relabels.formula?, relabels.term?, Option.isNone_map,
    Abstraction.relabel, Term.vars_relabel, Formula.freeVars_relabel]

end Relabels

end Bindings

open Bindings (Relabels)

namespace Matcher

variable {α : Type} {change : α → α} {ms : List (Matcher α)}

/-- A matcher finds the same in an item with other labels, up to labels. -/
def Uniform (m : Relabelling) (change : α → α) (M : Matcher α) : Prop :=
  ∀ x r r', r.Relabels m r' → List.Forall₂ (Relabels m) (M x r) (M (change x) r')

theorem uniform_inOrder (uniform : ∀ M ∈ ms, Uniform m change M) :
    Uniform m (List.map change) (inOrder ms) := by
  induction ms with
  | nil =>
    intro xs r r' relabels
    cases xs with
    | nil => exact .cons relabels .nil
    | cons x xs => exact .nil
  | cons M ms ih =>
    obtain ⟨here, later⟩ := List.forall_mem_cons.mp uniform
    intro xs r r' relabels
    cases xs with
    | nil => exact .nil
    | cons x xs => exact List.rel_flatMap (here x r r' relabels) (ih later xs)

theorem uniform_assignments (uniform : ∀ M ∈ ms, Uniform m change M) (xs : List α) {r r' : Bindings}
    (relabels : r.Relabels m r') :
    List.Forall₂ (fun a b => a.1.Relabels m b.1 ∧ b.2 = a.2.map change) (assignments ms xs r)
      (assignments ms (xs.map change) r') := by
  induction ms generalizing xs r r' with
  | nil => exact .cons ⟨relabels, rfl⟩ .nil
  | cons M ms ih =>
    obtain ⟨here, later⟩ := List.forall_mem_cons.mp uniform
    rw [assignments, assignments, picks_map]
    have picked : List.Forall₂ (fun p q => q = Prod.map change (List.map change) p) (picks xs)
        ((picks xs).map (Prod.map change (List.map change))) := by
      rw [List.forall₂_map_right_iff, List.forall₂_same]
      exact fun _ _ => rfl
    refine List.rel_flatMap picked ?_
    rintro p - rfl
    exact List.rel_flatMap (here p.1 r r' relabels) fun _ _ found => ih later p.2 found

theorem uniform_inAnyOrder (uniform : ∀ M ∈ ms, Uniform m change M) :
    Uniform m (List.map change) (inAnyOrder ms) := by
  intro xs r r' relabels
  rw [inAnyOrder, inAnyOrder, List.length_map]
  split
  · exact List.rel_map (fun _ _ found => found.1) (uniform_assignments uniform xs relabels)
  · exact .nil

theorem uniform_withOthers {rest : Option (Matcher α)} {join : List α → α}
    (uniform : ∀ M ∈ ms, Uniform m change M) (further : ∀ M ∈ rest, Uniform m change M)
    (joins : ∀ xs, change (join xs) = join (xs.map change)) :
    Uniform m (List.map change) (withOthers ms rest join) := by
  cases rest with
  | none => exact uniform_inAnyOrder uniform
  | some M =>
    have last : Uniform m change M := further M rfl
    intro xs r r' relabels
    simp only [withOthers, List.length_map]
    split
    · refine List.rel_flatMap (uniform_assignments uniform xs relabels) ?_
      rintro ⟨s, left⟩ ⟨s', -⟩ ⟨found, rfl⟩
      cases left with
      | nil => exact .cons found .nil
      | cons x left =>
        cases left with
        | nil => exact last x s s' found
        | cons y left =>
          have joined := last (join (x :: y :: left)) s s' found
          rw [joins] at joined
          exact joined
    · exact .nil

end Matcher

namespace TermPattern

open Matcher

theorem uniform_matchRef (name : String) : Uniform m (.relabel m) (matchRef name) := by
  intro t r r' relabels
  rw [matchRef, matchRef, relabels.term?]
  cases r.term? name with
  | none => exact .cons (relabels.insertTerm name t) .nil
  | some u =>
    simp only [Option.map_some, Term.identical, Term.identicalUnder_relabel]
    by_cases identical : u.identicalUnder [] t = true
    · simpa [identical] using relabels
    · simp [identical]

theorem uniform_arguments (ordered : Bool) {ms : List (Matcher Term)}
    (uniform : ∀ M ∈ ms, Uniform m (.relabel m) M) :
    Uniform m (List.map (.relabel m)) (arguments ordered ms) := by
  intro ts r r' relabels
  cases ordered with
  | true => exact uniform_inOrder uniform ts r r' relabels
  | false => exact uniform_inAnyOrder uniform ts r r' relabels

theorem uniform_matcher (p : TermPattern) : Uniform m (.relabel m) p.matcher := by
  induction p with
  | ref name =>
    intro t r r' relabels
    rw [matcher, matcher]
    exact uniform_matchRef name t r r' relabels
  | var v =>
    intro t r r' relabels
    cases t with
    | var w =>
      rw [Term.relabel, matcher, matcher]
      by_cases same : v = w
      · simpa [same] using relabels
      · simp [same]
    | _ =>
      rw [Term.relabel]
      exact .nil
  | const c =>
    intro t r r' relabels
    cases t with
    | const d =>
      rw [Term.relabel, matcher, matcher, Relabelling.same_constant_right]
      by_cases same : c.same d = true
      · simpa [same] using relabels
      · simp [same]
    | _ =>
      rw [Term.relabel]
      exact .nil
  | app op ps ih =>
    intro t r r' relabels
    cases t with
    | app op' ts =>
      have all : ∀ M ∈ matchers ps, Uniform m (.relabel m) M := by
        rw [matchers_eq]
        simpa using ih
      rw [Term.relabel, matcher, matcher, Relabelling.same_operator_right]
      split
      · exact uniform_arguments op.ordered all ts r r' relabels
      · exact .nil
    | _ =>
      rw [Term.relabel]
      exact .nil

end TermPattern

namespace TermPattern

variable {r r' : Bindings}

/-- The labels of an instance do not matter to its pattern. -/
theorem matcher_ofInstance_relabel (scope : Scope) (t : Term) :
    (ofInstance scope (t.relabel m)).matcher = (ofInstance scope t).matcher := by
  induction t with
  | var v => rw [Term.relabel]
  | const c =>
    funext u r
    rw [Term.relabel, ofInstance, ofInstance]
    cases u with
    | const d => rw [matcher, matcher, Relabelling.same_constant_left]
    | _ => rfl
  | app op ts ih =>
    have all : (ts.map fun t => (ofInstance scope (t.relabel m)).matcher) =
        ts.map fun t => (ofInstance scope t).matcher := List.map_congr_left ih
    funext u r
    rw [Term.relabel, ofInstance, ofInstance, List.map_map]
    cases u with
    | app op' us =>
      rw [matcher, matcher, Relabelling.same_operator_left, Relabelling.ordered_operator,
        matchers_eq, matchers_eq, List.map_map, List.map_map]
      exact congrArg (fun ms => if op.same op' = true then arguments op.ordered ms us r else []) all
    | _ => rfl

theorem bare_resolve (relabels : r.Relabels m r') (p : TermPattern) :
    (p.resolve r').map Term.bare = (p.resolve r).map Term.bare := by
  have all {ps : List TermPattern}
      (ih : ∀ p ∈ ps, (p.resolve r').map Term.bare = (p.resolve r).map Term.bare) :
      (resolveAll r' ps).map (List.map Term.bare) = (resolveAll r ps).map (List.map Term.bare) := by
    induction ps with
    | nil => simp [resolveAll]
    | cons p ps rest =>
      obtain ⟨here, later⟩ := List.forall_mem_cons.mp ih
      have rest := rest later
      rw [resolveAll, resolveAll]
      cases first : p.resolve r <;> cases first' : p.resolve r' <;>
        cases others : resolveAll r ps <;> cases others' : resolveAll r' ps <;>
        simp_all
  induction p with
  | ref name =>
    rw [resolve, resolve, relabels.term?]
    cases r.term? name <;> simp
  | var v => simp [resolve]
  | const c => simp [resolve]
  | app op ps ih =>
    have bares := all ih
    rw [resolve, resolve]
    cases resolved : resolveAll r ps <;> cases resolved' : resolveAll r' ps <;>
      simp_all [Term.bare]

end TermPattern

namespace Pattern

open Matcher

variable {r r' : Bindings}

theorem uniform_matchRef (name : String) : Uniform m (.relabel m) (matchRef name) := by
  intro f r r' relabels
  rw [matchRef, matchRef, relabels.formula?]
  cases r.formula? name with
  | none => exact .cons (relabels.insertFormula name ⟨[], f⟩) .nil
  | some a =>
    simp only [Option.map_some, Abstraction.relabel, Formula.identical_relabel]
    by_cases identical : a.body.identical f = true
    · simpa [identical] using relabels
    · simp [identical]

theorem uniform_underBinder {M : Matcher Formula} (uniform : Uniform m (.relabel m) M)
    (name : String) (v : Variable) : Uniform m (.relabel m) (underBinder name M v) := by
  intro body r r' relabels
  have start : (r.insertTerm name (.var v)).Relabels m (r'.insertTerm name (.var v)) := by
    simpa using relabels.insertTerm name (.var v)
  rw [underBinder, underBinder]
  refine List.rel_filter ?_ (List.rel_map ?_ (uniform body _ _ start))
  · intro s s' found
    simp only [relabels.escapes_eq found]
  · intro s s' found
    rw [relabels.term?]
    cases r.term? name with
    | some t => exact found.insertTerm name t
    | none => exact found.eraseTerm name

variable {applied : String → List TermPattern → Matcher Formula}

theorem uniform_matcherWith (uniform : ∀ name ps, Uniform m (.relabel m) (applied name ps))
    (p : Pattern) : Uniform m (.relabel m) (matcherWith applied p) := by
  induction p with
  | nothing =>
    intro f r r' relabels
    rw [matcherWith, matcherWith]
    exact .nil
  | ref name =>
    intro f r r' relabels
    rw [matcherWith, matcherWith]
    exact uniform_matchRef name f r r' relabels
  | refAt name ps =>
    intro f r r' relabels
    rw [matcherWith, matcherWith]
    exact uniform name ps f r r' relabels
  | atom s ps =>
    intro f r r' relabels
    cases f with
    | atom s' ts =>
      have all : ∀ M ∈ TermPattern.matchers ps, Uniform m (.relabel m) M := by
        rw [TermPattern.matchers_eq]
        simpa using fun p _ => TermPattern.uniform_matcher p
      rw [Formula.relabel, matcherWith, matcherWith, Relabelling.same_relation_right]
      split
      · exact TermPattern.uniform_arguments s.ordered all ts r r' relabels
      · exact .nil
    | _ =>
      rw [Formula.relabel]
      exact .nil
  | not p ih =>
    intro f r r' relabels
    cases f with
    | not f =>
      rw [Formula.relabel, matcherWith, matcherWith]
      exact ih f r r' relabels
    | _ =>
      rw [Formula.relabel]
      exact .nil
  | multi c ps others ih rest =>
    intro f r r' relabels
    cases f with
    | multi d fs =>
      have all : ∀ M ∈ matchersWith applied ps, Uniform m (.relabel m) M := by
        rw [matchersWith_eq]
        simpa using ih
      have further : ∀ M ∈ (if others.isNothing then none else some (matcherWith applied others)),
          Uniform m (.relabel m) M := by
        split
        · simp
        · simpa using rest
      rw [Formula.relabel, matcherWith, matcherWith]
      split
      · exact uniform_withOthers all further (fun fs => by rw [Formula.relabel]) fs r r' relabels
      · exact .nil
    | _ =>
      rw [Formula.relabel]
      exact .nil
  | link c p q ihp ihq =>
    intro f r r' relabels
    cases f with
    | link d a b =>
      have onEach (a b : Formula) : List.Forall₂ (Relabels m)
          (onEach (matcherWith applied q) b (matcherWith applied p a r))
          (onEach (matcherWith applied q) (b.relabel m) (matcherWith applied p (a.relabel m) r')) :=
        List.rel_flatMap (ihp a r r' relabels) (ihq b)
      rw [Formula.relabel]
      cases c <;> cases d
      · exact onEach a b
      · exact .nil
      · exact .nil
      · exact List.rel_append (onEach a b) (onEach b a)
    | _ =>
      rw [Formula.relabel]
      cases c <;> exact .nil
  | bind q name p ih =>
    intro f r r' relabels
    cases f with
    | bind q' v f =>
      rw [Formula.relabel, matcherWith, matcherWith]
      split
      · exact uniform_underBinder ih name v f r r' relabels
      · exact .nil
    | _ =>
      rw [Formula.relabel]
      exact .nil

theorem matcherWith_ofInstance_relabel (scope : TermPattern.Scope) (f : Formula) :
    matcherWith applied (ofInstance scope (f.relabel m)) =
      matcherWith applied (ofInstance scope f) := by
  induction f generalizing scope with
  | atom s ts =>
    have all : (ts.map fun t => (TermPattern.ofInstance scope (t.relabel m)).matcher) =
        ts.map fun t => (TermPattern.ofInstance scope t).matcher :=
      List.map_congr_left fun t _ => TermPattern.matcher_ofInstance_relabel scope t
    funext g r
    rw [Formula.relabel, ofInstance, ofInstance, List.map_map]
    cases g with
    | atom s' us =>
      rw [matcherWith, matcherWith, Relabelling.same_relation_left, Relabelling.ordered_relation,
        TermPattern.matchers_eq, TermPattern.matchers_eq, List.map_map, List.map_map]
      exact congrArg (fun ms =>
        if s.same s' = true then TermPattern.arguments s.ordered ms us r else []) all
    | _ => rfl
  | not f ih =>
    funext g r
    rw [Formula.relabel, ofInstance, ofInstance]
    cases g with
    | not g => rw [matcherWith, matcherWith, ih]
    | _ => rfl
  | multi c fs ih =>
    have all : (fs.map fun f => matcherWith applied (ofInstance scope (f.relabel m))) =
        fs.map fun f => matcherWith applied (ofInstance scope f) :=
      List.map_congr_left fun f member => ih f member scope
    funext g r
    rw [Formula.relabel, ofInstance, ofInstance, List.map_map, exactly, exactly]
    cases g with
    | multi d gs =>
      rw [matcherWith, matcherWith, matchersWith_eq, matchersWith_eq, List.map_map, List.map_map]
      exact congrArg (fun ms => if c = d then
        withOthers ms (if nothing.isNothing then none else some (matcherWith applied .nothing))
          (Formula.multi c) gs r else []) all
    | _ => rfl
  | link c a b iha ihb =>
    funext g r
    rw [Formula.relabel, ofInstance, ofInstance]
    cases g with
    | link d a' b' => cases c <;> cases d <;> simp only [matcherWith, iha, ihb]
    | _ => cases c <;> rfl
  | bind q v f ih =>
    funext g r
    rw [Formula.relabel, ofInstance, ofInstance]
    cases g with
    | bind q' w g => rw [matcherWith, matcherWith, ih]
    | _ => rfl

structure Abstracting.Relabels (m : Relabelling) (s s' : Abstracting) : Prop where
  bindings : s.bindings.Relabels m s'.bindings
  body : s'.body = s.body.relabel m
  params : s'.params = s.params

theorem newParam_eq {s s' : Abstracting} (relabels : s.Relabels m s') {t t' : Term}
    (same : t'.bare = t.bare) : newParam s' t' = newParam s t := by
  rw [newParam, newParam, relabels.params, relabels.body, Formula.allVars_relabel,
    Term.vars_of_bare same]

theorem Abstracting.Relabels.replaced {s s' : Abstracting} (relabels : s.Relabels m s') {t t' : Term}
    (same : t'.bare = t.bare) :
    ({ s with body := s.body.replace t (.var (newParam s t)) }.addParam (newParam s t)).Relabels m
      ({ s' with body := s'.body.replace t' (.var (newParam s' t')) }.addParam (newParam s' t')) := by
  rw [newParam_eq relabels same]
  refine ⟨relabels.bindings, ?_, ?_⟩
  · have replaced := Formula.replace_relabel (m := m) same (.var (newParam s t)) s.body
    simpa [addParam, relabels.body] using replaced
  · simp [addParam, relabels.params]

theorem uniform_abstractOver (f : Formula) (arg : TermPattern) {s s' : Abstracting}
    (relabels : s.Relabels m s') :
    List.Forall₂ (Abstracting.Relabels m) (abstractOver f arg s)
      (abstractOver (f.relabel m) arg s') := by
  have bares := TermPattern.bare_resolve relabels.bindings arg
  unfold abstractOver
  cases resolved : arg.resolve s.bindings with
  | none =>
    have resolved' : arg.resolve s'.bindings = none := by simpa [resolved] using bares
    rw [resolved']
    cases arg with
    | ref name =>
      have choices : (if (f.relabel m).freeVars.isEmpty then [newParam s' (.var ⟨"x"⟩)]
          else (f.relabel m).freeVars) =
          if f.freeVars.isEmpty then [newParam s (.var ⟨"x"⟩)] else f.freeVars := by
        rw [Formula.freeVars_relabel, newParam_eq relabels rfl]
      simp only [choices]
      rw [List.forall₂_map_left_iff, List.forall₂_map_right_iff, List.forall₂_same]
      intro v _
      have inserted : (s.bindings.insertTerm name (.var v)).Relabels m
          (s'.bindings.insertTerm name (.var v)) := by
        simpa using relabels.bindings.insertTerm name (.var v)
      exact ⟨inserted, relabels.body, by simp [Abstracting.addParam, relabels.params]⟩
    | _ => exact .nil
  | some t =>
    rw [resolved] at bares
    obtain ⟨t', resolved', same⟩ := Option.map_eq_some_iff.mp bares
    rw [resolved']
    cases t with
    | var v =>
      obtain rfl := Term.eq_var_of_bare same
      have params : (s'.addParam v).params = (s.addParam v).params := by
        simp [Abstracting.addParam, relabels.params]
      exact .cons ⟨relabels.bindings, relabels.body, params⟩ .nil
    | const c =>
      cases t' with
      | const d => exact .cons (relabels.replaced same) .nil
      | _ => simp [Term.bare] at same
    | app op ts =>
      cases t' with
      | app op' us => exact .cons (relabels.replaced same) .nil
      | _ => simp [Term.bare] at same

theorem uniform_matchRefAt (name : String) (args : List TermPattern) :
    Uniform m (.relabel m) (matchRefAt name args) := by
  intro f r r' relabels
  unfold matchRefAt
  rw [relabels.formula?]
  cases r.formula? name with
  | some a =>
    simp only [Option.map_some, Abstraction.relabel, matcherWith_ofInstance_relabel]
    by_cases length : a.params.length = args.length
    · simp only [length, ↓reduceIte]
      refine uniform_matcherWith (fun _ _ _ _ _ _ => ?_) _ f r r' relabels
      exact .nil
    · simp [length]
  | none =>
    have states (args : List TermPattern) {before before' : List Abstracting}
        (relabels : List.Forall₂ (Abstracting.Relabels m) before before') :
        List.Forall₂ (Abstracting.Relabels m)
          (args.foldl (fun states arg => states.flatMap (abstractOver f arg)) before)
          (args.foldl (fun states arg => states.flatMap (abstractOver (f.relabel m) arg)) before') := by
      induction args generalizing before before' with
      | nil => exact relabels
      | cons arg args ih =>
        exact ih (List.rel_flatMap relabels fun _ _ found => uniform_abstractOver f arg found)
    refine List.rel_map (fun s s' found => ?_) (states args (.cons ⟨relabels, rfl, rfl⟩ .nil))
    rw [found.body, found.params]
    exact found.bindings.insertFormula name ⟨s.params, s.body⟩

/-- A pattern matches a formula with other labels in the same ways. -/
theorem uniform_matcher (p : Pattern) : Uniform m (.relabel m) p.matcher :=
  uniform_matcherWith uniform_matchRefAt p

end Pattern

def Agree {α : Type} (change : α → α) (x y : Except Error α) : Prop :=
  ∃ a, x = .ok a ∧ y = .ok (change a)

namespace Agree

variable {α β : Type} {change : α → α} {change' : β → β} {x y : Except Error α}

theorem ok (a : α) : Agree change (.ok a) (.ok (change a)) := ⟨a, rfl, rfl⟩

theorem ok_of_eq {a b : α} (same : b = change a) : Agree change (.ok a) (.ok b) := same ▸ ok a

theorem bind {next next' : α → Except Error β} (first : Agree change x y)
    (later : ∀ a, Agree change' (next a) (next' (change a))) :
    Agree change' (x >>= next) (y >>= next') := by
  obtain ⟨a, rfl, rfl⟩ := first
  exact later a

theorem mapM {result result' : β → Except Error α} {bs bs' : List β}
    (each : List.Forall₂ (fun b b' => Agree change (result b) (result' b')) bs bs') :
    Agree (List.map change) (bs.mapM result) (bs'.mapM result') := by
  induction each with
  | nil => exact ok []
  | cons here _ ih =>
    rw [List.mapM_cons, List.mapM_cons]
    exact here.bind fun a => ih.bind fun as => ok (a :: as)

end Agree

namespace Transformation

variable {w : Transformation}

/-- Every match at the root gives a result, and the labels of the formula do not matter to it. -/
def Uniform (w : Transformation) : Prop :=
  ∀ m f, List.Forall₂ (fun r r' => Agree (Formula.relabel m) (w.result r) (w.result r'))
    (w.pattern.matcher f .empty) (w.pattern.matcher (f.relabel m) .empty)

theorem uniform_of_results (results : ∀ m f r r', r ∈ w.pattern.matcher f .empty →
    r.Relabels m r' → Agree (Formula.relabel m) (w.result r) (w.result r')) : w.Uniform := by
  intro m f
  have matched := w.pattern.uniform_matcher f .empty .empty (.empty (m := m))
  have found := (List.forall₂_and_left _ _).mpr ⟨fun _ member => member, matched⟩
  exact found.imp fun r r' both => results m f r r' both.1 both.2

namespace Uniform

theorem atRoot (uniform : w.Uniform) (f : Formula) :
    Agree (List.map (Formula.relabel m)) (w.atRoot f) (w.atRoot (f.relabel m)) :=
  .mapM (uniform m f)

theorem firstAtRoot (uniform : w.Uniform) (f : Formula) :
    Agree (Formula.relabel m) (w.firstAtRoot f) (w.firstAtRoot (f.relabel m)) := by
  have found := uniform m f
  unfold Transformation.firstAtRoot
  generalize w.pattern.matcher f .empty = rs at found ⊢
  generalize w.pattern.matcher (f.relabel m) .empty = rs' at found ⊢
  cases found with
  | nil => exact .ok f
  | cons here _ => exact here

theorem atOneMember {fs : List Formula} (each : ∀ f ∈ fs,
    Agree (List.map (Formula.relabel m)) (w.atOnePlace f) (w.atOnePlace (f.relabel m))) :
    Agree (List.map (List.map (Formula.relabel m))) (w.atOneMember fs)
      (w.atOneMember (fs.map (Formula.relabel m))) := by
  induction fs with
  | nil =>
    rw [List.map_nil, Transformation.atOneMember]
    exact .ok []
  | cons f fs ih =>
    obtain ⟨here, later⟩ := List.forall_mem_cons.mp each
    rw [List.map_cons, Transformation.atOneMember, Transformation.atOneMember]
    exact here.bind fun first => (ih later).bind fun rest => .ok_of_eq (by simp [Function.comp_def])

theorem atOnePlace (uniform : w.Uniform) (f : Formula) :
    Agree (List.map (Formula.relabel m)) (w.atOnePlace f) (w.atOnePlace (f.relabel m)) := by
  induction f with
  | atom r ts =>
    rw [Formula.relabel, Transformation.atOnePlace, Transformation.atOnePlace, ← Formula.relabel]
    exact uniform.atRoot _
  | not f ih =>
    rw [Formula.relabel, Transformation.atOnePlace, Transformation.atOnePlace, ← Formula.relabel]
    exact (uniform.atRoot _).bind fun here => ih.bind fun inside =>
      .ok_of_eq (by simp [Function.comp_def])
  | multi c fs ih =>
    rw [Formula.relabel, Transformation.atOnePlace, Transformation.atOnePlace, ← Formula.relabel]
    exact (uniform.atRoot _).bind fun here => (atOneMember ih).bind fun inside =>
      .ok_of_eq (by simp [Function.comp_def])
  | link c a b iha ihb =>
    rw [Formula.relabel, Transformation.atOnePlace, Transformation.atOnePlace, ← Formula.relabel]
    exact (uniform.atRoot _).bind fun here => iha.bind fun left => ihb.bind fun right =>
      .ok_of_eq (by simp [Function.comp_def])
  | bind q v f ih =>
    rw [Formula.relabel, Transformation.atOnePlace, Transformation.atOnePlace, ← Formula.relabel]
    exact (uniform.atRoot _).bind fun here => ih.bind fun inside =>
      .ok_of_eq (by simp [Function.comp_def])

theorem everywhereInAll {fs : List Formula} (each : ∀ f ∈ fs,
    Agree (Formula.relabel m) (w.everywhere f) (w.everywhere (f.relabel m))) :
    Agree (List.map (Formula.relabel m)) (w.everywhereInAll fs)
      (w.everywhereInAll (fs.map (Formula.relabel m))) := by
  induction fs with
  | nil =>
    rw [List.map_nil, Transformation.everywhereInAll]
    exact .ok []
  | cons f fs ih =>
    obtain ⟨here, later⟩ := List.forall_mem_cons.mp each
    rw [List.map_cons, Transformation.everywhereInAll, Transformation.everywhereInAll]
    exact here.bind fun g => (ih later).bind fun gs => .ok (g :: gs)

theorem everywhere (uniform : w.Uniform) (f : Formula) :
    Agree (Formula.relabel m) (w.everywhere f) (w.everywhere (f.relabel m)) := by
  have root (f : Formula) {g : Formula} (same : g = f.relabel m) :
      Agree (Formula.relabel m) (w.firstAtRoot f) (w.firstAtRoot g) := same ▸ uniform.firstAtRoot f
  induction f with
  | atom r ts =>
    rw [Formula.relabel, Transformation.everywhere, Transformation.everywhere]
    exact root _ (by simp)
  | not f ih =>
    rw [Formula.relabel, Transformation.everywhere, Transformation.everywhere]
    exact ih.bind fun g => root _ (by simp)
  | multi c fs ih =>
    rw [Formula.relabel, Transformation.everywhere, Transformation.everywhere]
    exact (everywhereInAll ih).bind fun gs => root _ (by simp)
  | link c a b iha ihb =>
    rw [Formula.relabel, Transformation.everywhere, Transformation.everywhere]
    exact iha.bind fun a' => ihb.bind fun b' => root _ (by simp)
  | bind q v f ih =>
    rw [Formula.relabel, Transformation.everywhere, Transformation.everywhere]
    exact ih.bind fun g => root _ (by simp)

end Uniform

theorem addNew_relabel (fs : List Formula) (g : Formula) :
    addNew (fs.map (Formula.relabel m)) (g.relabel m) = (addNew fs g).map (Formula.relabel m) := by
  unfold addNew
  simp only [List.any_map, Function.comp_def, Formula.identical_relabel]
  split <;> simp

theorem foldl_addNew_relabel (gs fs : List Formula) :
    (gs.map (Formula.relabel m)).foldl addNew (fs.map (Formula.relabel m)) =
      (gs.foldl addNew fs).map (Formula.relabel m) := by
  induction gs generalizing fs with
  | nil => rfl
  | cons g gs ih => rw [List.map_cons, List.foldl_cons, List.foldl_cons, addNew_relabel, ih]

theorem Uniform.addResults (uniform : w.Uniform) (known : List Formula) (f : Formula) :
    Agree (List.map (Formula.relabel m)) (w.addResults known f)
      (w.addResults (known.map (Formula.relabel m)) (f.relabel m)) := by
  have single : Agree (List.map (Formula.relabel m)) (w.one f) (w.one (f.relabel m)) :=
    (uniform.atOnePlace f).bind fun gs => .ok_of_eq (by simp [Formula.flatten_relabel])
  have complete : Agree (Formula.relabel m) (w.all f) (w.all (f.relabel m)) :=
    (uniform.everywhere f).bind fun g => .ok_of_eq g.flatten_relabel
  refine single.bind fun gs => complete.bind fun g => .ok_of_eq ?_
  rw [Formula.identical_relabel, foldl_addNew_relabel, addNew_relabel]
  split <;> rfl

end Transformation

/-- The results of a rule for a formula, and those for the formula with other labels. -/
theorem PatternRule.uniform_results {rule : PatternRule}
    (uniform : ∀ w ∈ rule.directions.transformations, w.Uniform) (f : Formula) :
    Agree (List.map (Formula.relabel m)) (rule.results f) (rule.results (f.relabel m)) := by
  unfold results
  cases here : rule.directions with
  | oneWay w => exact (uniform w (by simp [here, Directions.transformations])).addResults [] f
  | twoWay forward backward =>
    have first := uniform forward (by simp [here, Directions.transformations])
    have second := uniform backward (by simp [here, Directions.transformations])
    exact (first.addResults [] f).bind fun known => second.addResults known f

end Sequitur
