import Sequitur.Proofs.Instantiation
import Sequitur.Proofs.Totality

/-! Definitions in use. A match of one side fills in the other without an error if it binds everything
that the other side asks for. The bare names it does bind; a variable it binds for certain only where
the variable is an argument of a predicate, or of a bare name at its first use. -/

namespace Sequitur

open Arrangement Pattern

variable {r r' : Bindings} {f g template lhs rhs : Formula} {known : List String} {x : Variable}

/-- Only these formula references are bound. -/
def Bindings.BindsOnly (r : Bindings) (names : List String) : Prop :=
  ∀ name a, r.formula? name = some a → name ∈ names

namespace TermPattern

theorem Fits.exists_bound {t u : Term} (fits : (ofTerm t).Fits r u) (occurs : x ∈ t.vars) :
    ∃ s, r.term? x.name = some s := by
  induction t generalizing u with
  | var v =>
    obtain rfl := Term.mem_vars_var.mp occurs
    rw [ofTerm, fits_ref_iff] at fits
    obtain ⟨s, bound, -⟩ := fits
    exact ⟨s, bound⟩
  | const c => simp at occurs
  | app op ts ih =>
    obtain ⟨t, member, occurs⟩ := Term.mem_vars_app.mp occurs
    rw [ofTerm] at fits
    cases fits with
    | app _ pairing all =>
      obtain ⟨u, -, pair⟩ := pairing.exists_right (List.mem_map_of_mem member)
      exact ih t member (all _ pair) occurs

theorem exists_resolve_of_resolveAll {args : List TermPattern} {us : List Term}
    (resolved : resolveAll r args = some us) : ∀ arg ∈ args, ∃ u, arg.resolve r = some u := by
  induction args generalizing us with
  | nil => simp
  | cons first args ih =>
    simp only [resolveAll, Option.pure_def, Option.bind_eq_bind, Option.bind_eq_some_iff,
      Option.some.injEq] at resolved
    obtain ⟨u, here, us, later, -⟩ := resolved
    exact List.forall_mem_cons.mpr ⟨⟨u, here⟩, ih later⟩

theorem exists_bound_of_resolve {t u : Term} (resolved : (ofTerm t).resolve r = some u)
    (occurs : x ∈ t.vars) : ∃ s, r.term? x.name = some s := by
  induction t generalizing u with
  | var v =>
    obtain rfl := Term.mem_vars_var.mp occurs
    rw [ofTerm, resolve] at resolved
    exact ⟨u, resolved⟩
  | const c => simp at occurs
  | app op ts ih =>
    obtain ⟨t, member, occurs⟩ := Term.mem_vars_app.mp occurs
    rw [ofTerm, resolve, Option.map_eq_some_iff] at resolved
    obtain ⟨us, resolved, -⟩ := resolved
    obtain ⟨u, resolved⟩ := exists_resolve_of_resolveAll resolved _ (List.mem_map_of_mem member)
    exact ih t member resolved occurs

end TermPattern

namespace Formula

def names (f : Formula) : List String := f.applications.map (·.1.full)

section Names

variable {n : Name} {p : Predicate} {ts : List Term} {c : Junction} {d : Arrow} {q : Quantifier}
  {v : Variable} {a b : Formula} {fs : List Formula}

@[simp] theorem names_named : (atom (.named n) ts).names = [n.full] := by simp [names, applications]

@[simp] theorem names_pred : (atom (.pred p) ts).names = [] := by simp [names, applications]

@[simp] theorem names_not : (Formula.not f).names = f.names := by simp [names, applications]

@[simp] theorem names_multi : (multi c fs).names = fs.flatMap names := by
  simp only [names, applications, List.map_flatMap]
  rfl

@[simp] theorem names_link : (link d a b).names = a.names ++ b.names := by
  simp [names, applications]

@[simp] theorem names_bind : (bind q v f).names = f.names := by simp [names, applications]

end Names

mutual

/-- The variables that a match finds a term for, when the bare names that are known are bound already:
arguments of predicates, and arguments of bare names that are not known yet. -/
def determined (known : List String) : Formula → List Variable
  | .atom (.pred _) ts => ts.flatMap Term.vars
  | .atom (.named n) ts => if n.full ∈ known then [] else ts.flatMap Term.vars
  | .not f => f.determined known
  | .multi _ fs => determinedAll known fs
  | .link _ a b => a.determined known ++ b.determined (known ++ a.names)
  | .bind _ v f => (f.determined known).filter (· ≠ v)

def determinedAll (known : List String) : List Formula → List Variable
  | [] => []
  | f :: fs => f.determined known ++ determinedAll (known ++ f.names) fs

end

theorem binds_ofTemplate (template : Formula) : (ofTemplate template).binds = template.names := by
  induction template with
  | atom s ts =>
    cases s with
    | named n => cases ts <;> simp [ofTemplate, Pattern.binds]
    | pred p => simp [ofTemplate, Pattern.binds]
  | not f ih => simpa [ofTemplate, Pattern.binds] using ih
  | multi c fs ih =>
    simp only [ofTemplate, exactly, Pattern.binds, List.flatMap_map, names_multi]
    exact List.flatMap_congr ih
  | link c a b iha ihb => simp [ofTemplate, Pattern.binds, iha, ihb]
  | bind q v f ih => simpa [ofTemplate, Pattern.binds] using ih

/-- A match adds bindings for bare names of the template and for no others. -/
theorem extends_of_found (found : r' ∈ (ofTemplate template).matcher f r) :
    r.Extends r' ∧ (ofTemplate template).Fits r' f ∧
      ∀ known, r.BindsOnly known → r'.BindsOnly (known ++ template.names) := by
  have allows : (ofTemplate template).supply.Allows (ofTemplate template) := fun _ use => use
  obtain ⟨adds, fits⟩ := (ofTemplate template).finds_matcher allows f r r'
    ⟨fun _ _ => trivial, fun _ _ => trivial⟩ found
  refine ⟨adds.toExtends, fits, fun known only name a bound => ?_⟩
  rcases adds.newFormula bound with old | new
  · exact List.mem_append_left _ (only name a old)
  · have used : (name, a.params.length) ∈ (ofTemplate template).uses := new.arity
    rw [uses_ofTemplate] at used
    obtain ⟨b, member, same⟩ := List.mem_map.mp used
    refine List.mem_append_right _ (List.mem_map.mpr ⟨b, member, ?_⟩)
    exact congrArg Prod.fst same

/-- One formula after the other, each with the names known that those before it use. -/
theorem exists_bound_of_assignments {fs gs left : List Formula}
    (each : ∀ f ∈ fs, ∀ {known r r' g}, r.BindsOnly known → r' ∈ (ofTemplate f).matcher g r →
      ∀ x ∈ f.determined known, ∃ t, r'.term? x.name = some t)
    (only : r.BindsOnly known)
    (found : (r', left) ∈ Matcher.assignments (fs.map fun f => (ofTemplate f).matcher) gs r) :
    r.Extends r' ∧ ∀ x ∈ determinedAll known fs, ∃ t, r'.term? x.name = some t := by
  induction fs generalizing known gs r with
  | nil =>
    obtain ⟨rfl, -⟩ : r' = r ∧ left = gs := by simpa [Matcher.assignments] using found
    exact ⟨.refl r', by simp [determinedAll]⟩
  | cons f fs ih =>
    simp only [List.map_cons, Matcher.assignments, List.mem_flatMap] at found
    obtain ⟨p, -, between, first, later⟩ := found
    obtain ⟨here, others⟩ := List.forall_mem_cons.mp each
    obtain ⟨grows, -, names⟩ := extends_of_found first
    obtain ⟨grows', rest⟩ := ih others (names known only) later
    refine ⟨grows.trans grows', ?_⟩
    rw [determinedAll]
    refine List.forall_mem_append.mpr ⟨fun x member => ?_, rest⟩
    obtain ⟨t, bound⟩ := here only first x member
    exact ⟨t, grows'.term bound⟩

/-- The variables of a bare name's arguments are bound after its first use. -/
theorem exists_bound_of_first_use {n : Name} {ts : List Term} (unbound : r.formula? n.full = none)
    (found : r' ∈ (ofTemplate (.atom (.named n) ts)).matcher f r) :
    ∀ t ∈ ts, ∀ x ∈ t.vars, ∃ s, r'.term? x.name = some s := by
  cases ts with
  | nil => simp
  | cons first ts =>
    intro t member x occurs
    have allows : Supply.Allows ⟨fun _ => True, fun _ => True, fun _ _ => True⟩
        (refAt n.full ((first :: ts).map TermPattern.ofTerm)) := fun _ _ => trivial
    have applied : ofTemplate (.atom (.named n) (first :: ts)) =
        refAt n.full ((first :: ts).map TermPattern.ofTerm) := by
      rw [ofTemplate]
      simp
    rw [applied, matcher, matcherWith] at found
    obtain ⟨-, params, body, -, abstracts⟩ := mem_matchRefAt_of_unbound allows
      ⟨fun _ _ => trivial, fun _ _ => trivial⟩ unbound found
    obtain ⟨u, resolved⟩ := abstracts.exists_resolve _ (List.mem_map_of_mem member)
    exact TermPattern.exists_bound_of_resolve resolved occurs

/-- A match finds a term for every variable that is determined. -/
theorem exists_bound_of_determined (only : r.BindsOnly known)
    (found : r' ∈ (ofTemplate template).matcher f r) :
    ∀ x ∈ template.determined known, ∃ t, r'.term? x.name = some t := by
  induction template generalizing known r r' f with
  | atom s ts =>
    intro x member
    cases s with
    | pred p =>
      rw [determined] at member
      obtain ⟨t, inside, occurs⟩ := List.mem_flatMap.mp member
      obtain ⟨-, fits, -⟩ := extends_of_found found
      rw [ofTemplate] at fits
      cases fits with
      | atom _ pairing all =>
        obtain ⟨u, -, pair⟩ := pairing.exists_right (List.mem_map_of_mem inside)
        exact (all _ pair).exists_bound occurs
    | named n =>
      rw [determined] at member
      split at member
      · cases member
      · rename_i new
        obtain ⟨t, inside, occurs⟩ := List.mem_flatMap.mp member
        have unbound : r.formula? n.full = none :=
          Option.eq_none_iff_forall_ne_some.mpr fun a bound => new (only _ a bound)
        exact exists_bound_of_first_use unbound found t inside x occurs
  | not part ih =>
    obtain ⟨-, fits, -⟩ := extends_of_found found
    rw [ofTemplate] at found fits
    cases fits with
    | not _ =>
      rw [matcher, matcherWith] at found
      rw [determined]
      exact ih only found
  | multi c parts ih =>
    obtain ⟨-, fits, -⟩ := extends_of_found found
    rw [ofTemplate] at found fits
    obtain ⟨fs, -, rfl, -, -⟩ := fits.exists_exactly
    simp only [matcher, exactly, matcherWith, ↓reduceIte, isNothing, Matcher.withOthers,
      Matcher.inAnyOrder, matchersWith_eq, List.map_map] at found
    split at found
    · obtain ⟨⟨_, left⟩, member, rfl⟩ := List.mem_map.mp found
      rw [determined]
      exact (exists_bound_of_assignments (fun f inside _ _ _ _ => ih f inside) only member).2
    · cases found
  | link c a b iha ihb =>
    -- the first side is matched first, also where it meets the second side of an equivalence
    have sides {between : Bindings} {g h : Formula} (first : between ∈ (ofTemplate a).matcher g r)
        (second : r' ∈ (ofTemplate b).matcher h between) :
        ∀ x ∈ (link c a b).determined known, ∃ t, r'.term? x.name = some t := by
      obtain ⟨-, -, names⟩ := extends_of_found first
      rw [determined]
      refine List.forall_mem_append.mpr ⟨fun x member => ?_, ihb (names known only) second⟩
      obtain ⟨t, bound⟩ := iha only first x member
      exact ⟨t, (extends_of_found second).1.term bound⟩
    obtain ⟨-, fits, -⟩ := extends_of_found found
    rw [ofTemplate] at found fits
    cases fits with
    | imply _ _ =>
      rw [matcher, matcherWith, Matcher.onEach] at found
      obtain ⟨between, first, second⟩ := List.mem_flatMap.mp found
      exact sides first second
    | equiv _ _ =>
      rw [matcher, matcherWith, Matcher.onEach, Matcher.onEach] at found
      rcases List.mem_append.mp found with found | found
      · obtain ⟨between, first, second⟩ := List.mem_flatMap.mp found
        exact sides first second
      · obtain ⟨between, first, second⟩ := List.mem_flatMap.mp found
        exact sides first second
  | bind q v part ih =>
    intro x member
    rw [determined, List.mem_filter, decide_eq_true_iff] at member
    obtain ⟨inside, other⟩ := member
    obtain ⟨-, fits, -⟩ := extends_of_found found
    rw [ofTemplate] at found fits
    cases fits with
    | @bind _ _ _ _ w body _ =>
      rw [matcher, matcherWith, if_pos rfl] at found
      obtain ⟨-, inner, found, -, terms⟩ := exists_of_underBinder found
      have below : (r.insertTerm v.name (.var w)).BindsOnly known := only
      obtain ⟨t, bound⟩ := ih below found x inside
      have apart : v.name ≠ x.name := fun same => other (congrArg Variable.mk same.symm)
      exact ⟨t, by rw [terms, if_neg apart, bound]⟩

/-- Every match of the template finds a term for each of its free variables. -/
def Determined (template : Formula) : Prop := ∀ x ∈ template.freeVars, x ∈ template.determined []

end Formula

namespace Definition

theorem allReferences_eq_ok {fs : List Formula} {used : List String}
    (each : ∀ f ∈ fs, ∀ used, references f = .ok used → used = f.names)
    (ok : allReferences fs = .ok used) : used = fs.flatMap Formula.names := by
  induction fs generalizing used with
  | nil =>
    rw [allReferences] at ok
    exact (Except.ok.inj ok).symm
  | cons f fs ih =>
    simp only [allReferences, bind_eq_ok, pure_eq_ok] at ok
    obtain ⟨first, here, later, there, rfl⟩ := ok
    obtain ⟨head, tail⟩ := List.forall_mem_cons.mp each
    rw [head first here, ih tail there, List.flatMap_cons]

theorem references_eq_ok {used : List String} (ok : references f = .ok used) : used = f.names := by
  induction f generalizing used with
  | atom s ts =>
    cases s with
    | pred p =>
      rw [references] at ok
      rw [Formula.names_pred, Except.ok.inj ok]
    | named n =>
      rw [references] at ok
      split at ok
      · cases ok
      · rw [Formula.names_named, Except.ok.inj ok]
  | not f ih =>
    rw [references] at ok
    rw [Formula.names_not, ih ok]
  | multi c fs ih =>
    rw [references] at ok
    rw [Formula.names_multi, allReferences_eq_ok (fun f member used => ih f member) ok]
  | link c a b iha ihb =>
    simp only [references, bind_eq_ok, pure_eq_ok] at ok
    obtain ⟨left, oka, right, okb, rfl⟩ := ok
    rw [Formula.names_link, iha oka, ihb okb]
  | bind q v f ih =>
    rw [references] at ok
    rw [Formula.names_bind, ih ok]

/-- The sides of an accepted definition have the same bare names and the same free variables. -/
theorem same_of_check (accepted : check lhs rhs = .ok ()) :
    (∀ name, name ∈ lhs.names ↔ name ∈ rhs.names) ∧
      ∀ x, x ∈ lhs.freeVars ↔ x ∈ rhs.freeVars := by
  simp only [check, bind_eq_ok] at accepted
  obtain ⟨left, okl, right, okr, accepted⟩ := accepted
  obtain rfl := references_eq_ok okl
  obtain rfl := references_eq_ok okr
  have covered {α : Type} [DecidableEq α] {xs ys : List α} (none : xs.filter (· ∉ ys) = []) :
      ∀ x ∈ xs, x ∈ ys := by
    simpa [List.filter_eq_nil_iff] using none
  split at accepted
  · cases accepted
  · rename_i sameNames
    obtain ⟨onlyLeft, onlyRight⟩ := List.append_eq_nil_iff.mp sameNames
    refine ⟨fun name => ⟨covered onlyLeft name, covered onlyRight name⟩, fun x => ?_⟩
    split at accepted
    · cases accepted
    · rename_i sameVars
      have outside (y : Variable) : ¬ (y ∈ lhs.freeVars.filter (· ∉ rhs.freeVars) ∨
          y ∈ rhs.freeVars.filter (· ∉ lhs.freeVars)) := by
        rw [← VarSet.mem_union, sameVars]
        exact List.not_mem_nil
      have sides := outside x
      simp only [List.mem_filter, decide_eq_true_eq, not_or, not_and, not_not] at sides
      exact ⟨sides.1, sides.2⟩

end Definition

namespace Transformation

variable {w : Transformation}

/-- Every match gives a result. -/
def Total (w : Transformation) : Prop :=
  ∀ f r, r ∈ w.pattern.matcher f .empty → Succeeds (w.result r)

theorem Total.atRoot (total : w.Total) (f : Formula) : Succeeds (w.atRoot f) :=
  Succeeds.mapM_iff.mpr fun r found => total f r found

theorem Total.firstAtRoot (total : w.Total) (f : Formula) : Succeeds (w.firstAtRoot f) := by
  unfold Transformation.firstAtRoot
  split
  · rename_i r _ found
    exact total f r (by simp [found])
  · exact .pure f

theorem succeeds_atOneMember {fs : List Formula} (each : ∀ f ∈ fs, Succeeds (w.atOnePlace f)) :
    Succeeds (w.atOneMember fs) := by
  induction fs with
  | nil =>
    rw [atOneMember]
    exact .pure []
  | cons f fs ih =>
    obtain ⟨here, later⟩ := List.forall_mem_cons.mp each
    rw [atOneMember]
    exact here.bind fun _ _ => (ih later).bind fun _ _ => .pure _

theorem Total.atOnePlace (total : w.Total) (f : Formula) : Succeeds (w.atOnePlace f) := by
  induction f with
  | atom s ts =>
    rw [Transformation.atOnePlace]
    exact total.atRoot _
  | not f ih =>
    rw [Transformation.atOnePlace]
    exact (total.atRoot _).bind fun _ _ => ih.bind fun _ _ => .pure _
  | multi c fs ih =>
    rw [Transformation.atOnePlace]
    exact (total.atRoot _).bind fun _ _ => (succeeds_atOneMember ih).bind fun _ _ => .pure _
  | link c a b iha ihb =>
    rw [Transformation.atOnePlace]
    exact (total.atRoot _).bind fun _ _ => iha.bind fun _ _ => ihb.bind fun _ _ => .pure _
  | bind q v f ih =>
    rw [Transformation.atOnePlace]
    exact (total.atRoot _).bind fun _ _ => ih.bind fun _ _ => .pure _

theorem succeeds_everywhereInAll {fs : List Formula}
    (each : ∀ f ∈ fs, Succeeds (w.everywhere f)) : Succeeds (w.everywhereInAll fs) := by
  induction fs with
  | nil =>
    rw [everywhereInAll]
    exact .pure []
  | cons f fs ih =>
    obtain ⟨here, later⟩ := List.forall_mem_cons.mp each
    rw [everywhereInAll]
    exact here.bind fun _ _ => (ih later).bind fun _ _ => .pure _

theorem Total.everywhere (total : w.Total) (f : Formula) : Succeeds (w.everywhere f) := by
  induction f with
  | atom s ts =>
    rw [Transformation.everywhere]
    exact total.firstAtRoot _
  | not f ih =>
    rw [Transformation.everywhere]
    exact ih.bind fun _ _ => total.firstAtRoot _
  | multi c fs ih =>
    rw [Transformation.everywhere]
    exact (succeeds_everywhereInAll ih).bind fun _ _ => total.firstAtRoot _
  | link c a b iha ihb =>
    rw [Transformation.everywhere]
    exact iha.bind fun _ _ => ihb.bind fun _ _ => total.firstAtRoot _
  | bind q v f ih =>
    rw [Transformation.everywhere]
    exact ih.bind fun _ _ => total.firstAtRoot _

theorem Total.addResults (total : w.Total) (known : List Formula) (f : Formula) :
    Succeeds (w.addResults known f) := by
  have single : Succeeds (w.one f) := Succeeds.bind_pure_iff.mpr (total.atOnePlace f)
  have complete : Succeeds (w.all f) := Succeeds.bind_pure_iff.mpr (total.everywhere f)
  exact single.bind fun _ _ => complete.bind fun _ _ => .pure _

/-- A match of the source gives everything that the target asks for. -/
theorem total_ofTemplates {source target : Formula} (determined : source.Determined)
    (vars : ∀ x ∈ target.freeVars, x ∈ source.freeVars)
    (names : ∀ name ∈ target.names, name ∈ source.names)
    (arity : ∀ a ∈ source.applications, ∀ b ∈ target.applications, a.1.full = b.1.full →
      a.2.length = b.2.length) : (ofTemplates source target).Total := by
  intro f r (found : r ∈ (ofTemplate source).matcher f .empty)
  refine Formula.succeeds_fillUnder_iff.mpr ⟨fun x free _ => ?_, fun b used => ?_⟩
  · have nothing : Bindings.empty.BindsOnly [] := by simp [Bindings.BindsOnly]
    exact Formula.exists_bound_of_determined nothing found x (determined x (vars x free))
  · have inside : b.1.full ∈ (ofTemplate source).binds := by
      rw [Formula.binds_ofTemplate]
      exact names _ (List.mem_map_of_mem used)
    obtain ⟨abstraction, bound, use⟩ := exists_bound b.1.full found inside
    rw [Formula.uses_ofTemplate] at use
    obtain ⟨a, member, same⟩ := List.mem_map.mp use
    obtain ⟨name, length⟩ := Prod.mk.inj same
    exact ⟨abstraction, bound, by rw [← length, arity a member b used name]⟩

end Transformation

namespace PatternRule

/-- An accepted definition can be applied to every formula, if each bare name has as many arguments on
one side as on the other, and a match of either side finds a term for each of its free variables. -/
theorem define_applies (accepted : Definition.check lhs rhs = .ok ())
    (arity : ∀ a ∈ lhs.applications, ∀ b ∈ rhs.applications, a.1.full = b.1.full →
      a.2.length = b.2.length)
    (left : lhs.Determined) (right : rhs.Determined) (name : Name) (description : String) :
    ∃ rule, define name description lhs rhs = .ok rule ∧ ∀ f, ∃ gs, rule.results f = .ok gs := by
  obtain ⟨names, vars⟩ := Definition.same_of_check accepted
  have forward : (Transformation.ofTemplates lhs rhs).Total :=
    Transformation.total_ofTemplates left (fun x => (vars x).mpr) (fun name => (names name).mpr) arity
  have backward : (Transformation.ofTemplates rhs lhs).Total :=
    Transformation.total_ofTemplates right (fun x => (vars x).mp) (fun name => (names name).mp)
      fun b second a first same => (arity a first b second same.symm).symm
  refine ⟨exchange name description lhs rhs, ?_, fun f => ?_⟩
  · rw [define, accepted]
    rfl
  · exact (forward.addResults [] f).bind fun known _ => backward.addResults known f

namespace Bounded

def phi (x y : String) : Formula := .atom (.named (.plain "φ")) [.var ⟨x⟩, .var ⟨y⟩]

def q (x y : String) : Formula := .atom (.pred ⟨.plain "q", 2, true⟩) [.var ⟨x⟩, .var ⟨y⟩]

def left : Formula :=
  .and [phi "x" "y", .bind .all ⟨"z"⟩ (.imply (phi "z" "x") (q "z" "w"))]

def right : Formula :=
  .not (.imply (phi "x" "y") (.bind .ex ⟨"z"⟩ (.and [phi "z" "x", .not (q "z" "w")])))

end Bounded

/-- The first use of `φ` determines `x` and `y`, and the predicate determines `w`. Inside, `φ` is used
again with the bound variable. -/
theorem define_applies_bounded : Definition.check Bounded.left Bounded.right = .ok () ∧
    (∀ a ∈ Bounded.left.applications, ∀ b ∈ Bounded.right.applications, a.1.full = b.1.full →
      a.2.length = b.2.length) ∧ Bounded.left.Determined ∧ Bounded.right.Determined ∧
    ∃ rule, define (.plain "d") "" Bounded.left Bounded.right = .ok rule ∧
      ∀ f, ∃ gs, rule.results f = .ok gs := by
  have accepted : Definition.check Bounded.left Bounded.right = .ok () := by cbv
  have arity : ∀ a ∈ Bounded.left.applications, ∀ b ∈ Bounded.right.applications,
      a.1.full = b.1.full → a.2.length = b.2.length := by
    simp [Bounded.left, Bounded.right, Bounded.phi, Bounded.q, Formula.applications]
  have left : Bounded.left.Determined := by
    have free : Bounded.left.freeVars = [⟨"w"⟩, ⟨"x"⟩, ⟨"y"⟩] := by cbv
    have found : Bounded.left.determined [] = [⟨"x"⟩, ⟨"y"⟩, ⟨"w"⟩] := by cbv
    rw [Formula.Determined, free, found]
    simp
  have right : Bounded.right.Determined := by
    have free : Bounded.right.freeVars = [⟨"w"⟩, ⟨"x"⟩, ⟨"y"⟩] := by cbv
    have found : Bounded.right.determined [] = [⟨"x"⟩, ⟨"y"⟩, ⟨"w"⟩] := by cbv
    rw [Formula.Determined, free, found]
    simp
  exact ⟨accepted, arity, left, right, define_applies accepted arity left right (.plain "d") ""⟩

def phi (xs : List String) : Formula := .atom (.named (.plain "φ")) (xs.map fun x => .var ⟨x⟩)

def truth : Formula := .atom (.named (.plain "A")) []

/-- Definitions that are accepted and fail. In the first, `y` stands only where `φ` is used again, and no
term is found for it when `φ` turns out not to depend on its argument. In the second, `φ` has one
argument on one side and two on the other. -/
theorem define_fails :
    Definition.check (.and [phi ["x"], phi ["y"]]) (.and [phi ["y"], phi ["x"]]) = .ok () ∧
    (exchange (.plain "d") "" (.and [phi ["x"], phi ["y"]]) (.and [phi ["y"], phi ["x"]])).results
      (.and [truth, truth]) = .error (.unboundTemplateVariable ⟨"y"⟩) ∧
    Definition.check (phi ["x"]) (phi ["x", "x"]) = .ok () ∧
    (exchange (.plain "d") "" (phi ["x"]) (phi ["x", "x"])).results truth =
      .error (.argumentCount truth 1 2) := by
  exact ⟨by cbv, by cbv, by cbv, by cbv⟩

end PatternRule

end Sequitur
