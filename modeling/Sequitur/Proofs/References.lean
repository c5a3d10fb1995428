import Sequitur.Proofs.Totality

/-! Which references a match binds. Everything that was bound before stays as it was. A formula
reference is newly bound only if the pattern uses it, and a term reference only if it occurs in the
pattern outside the quantifiers of its name: neither the name of a quantifier nor a name that was made
up for a bound variable leaves its scope. -/

namespace Sequitur

variable {r r' r'' : Bindings} {names : String → Prop}

def TermPattern.refs : TermPattern → List String
  | .ref name => [name]
  | .var _ => []
  | .const _ => []
  | .app _ ps => ps.flatMap fun p => p.refs

theorem TermPattern.mem_refs_app {op : Operator} {ps : List TermPattern} {name : String} :
    name ∈ (app op ps).refs ↔ ∃ p ∈ ps, name ∈ p.refs := by
  rw [refs, List.mem_flatMap]

namespace Pattern

def formulaRefs (p : Pattern) : List String := p.uses.map Prod.fst

/-- The term references in a pattern that stand outside every quantifier of the same name. -/
def termRefs : Pattern → List String
  | .nothing => []
  | .ref _ => []
  | .refAt _ args => args.flatMap TermPattern.refs
  | .atom _ args => args.flatMap TermPattern.refs
  | .not p => p.termRefs
  | .multi _ ps others => (ps.flatMap fun p => p.termRefs) ++ others.termRefs
  | .link _ p q => p.termRefs ++ q.termRefs
  | .bind _ name p => p.termRefs.filter (· ≠ name)

variable {p q : Pattern} {name other : String} {args : List TermPattern}

theorem mem_termRefs_refAt : other ∈ (refAt name args).termRefs ↔ ∃ arg ∈ args, other ∈ arg.refs := by
  rw [termRefs, List.mem_flatMap]

theorem mem_termRefs_atom {s : Relation} :
    name ∈ (atom s args).termRefs ↔ ∃ arg ∈ args, name ∈ arg.refs := by
  rw [termRefs, List.mem_flatMap]

theorem mem_termRefs_not : name ∈ (not p).termRefs ↔ name ∈ p.termRefs := by rw [termRefs]

theorem mem_termRefs_multi {c : Junction} {ps : List Pattern} :
    name ∈ (multi c ps q).termRefs ↔ (∃ p ∈ ps, name ∈ p.termRefs) ∨ name ∈ q.termRefs := by
  rw [termRefs, List.mem_append, List.mem_flatMap]

theorem mem_termRefs_link {d : Arrow} :
    name ∈ (link d p q).termRefs ↔ name ∈ p.termRefs ∨ name ∈ q.termRefs := by
  rw [termRefs, List.mem_append]

theorem mem_termRefs_bind {k : Quantifier} :
    other ∈ (bind k name p).termRefs ↔ other ∈ p.termRefs ∧ other ≠ name := by
  simp [termRefs]

end Pattern

namespace Bindings

/-- Everything bound stays bound to the same, and what is newly bound is one of these formula
references or one of these term references. -/
structure ExtendsBy (formulas terms : List String) (r r' : Bindings) : Prop extends r.Extends r' where
  newFormula : ∀ name, r.formula? name = none → r'.formula? name ≠ none → name ∈ formulas
  newTerm : ∀ name, r.term? name = none → r'.term? name ≠ none → name ∈ terms

def TermsWithin (names : String → Prop) (r r' : Bindings) : Prop :=
  ∀ name, r.term? name = none → r'.term? name ≠ none → names name

namespace TermsWithin

theorem refl (r : Bindings) : r.TermsWithin names r := fun _ unbound bound => absurd unbound bound

theorem of_guard {c : Prop} [Decidable c] (found : r' ∈ if c then [r] else []) :
    r.TermsWithin names r' := by
  split at found
  · obtain rfl := List.mem_singleton.mp found
    exact refl r'
  · cases found

theorem trans (first : r.TermsWithin names r') (second : r'.TermsWithin names r'') :
    r.TermsWithin names r'' := by
  intro name unbound bound
  by_cases between : r'.term? name = none
  · exact second name between bound
  · exact first name unbound between

theorem insertTerm {name : String} {t : Term} (inside : names name) :
    r.TermsWithin names (r.insertTerm name t) := by
  intro other unbound bound
  rw [term?_insertTerm] at bound
  split at bound
  · rename_i here
    exact here ▸ inside
  · exact absurd unbound bound

end TermsWithin

/-- The names of the new formulas are those that may have some number of parameters. -/
theorem ExtendsBy.of_adds {s : Supply} {formulas terms : List String} (adds : r.Adds s r')
    (named : ∀ name n, s.arity name n → name ∈ formulas) (within : r.TermsWithin (· ∈ terms) r') :
    r.ExtendsBy formulas terms r' := by
  refine ⟨adds.toExtends, fun name unbound bound => ?_, within⟩
  obtain ⟨a, bound⟩ := Option.ne_none_iff_exists'.mp bound
  rcases adds.newFormula bound with old | new
  · rw [unbound] at old
    cases old
  · exact named name _ new.arity

end Bindings

namespace Matcher

variable {α : Type} {ms : List (Matcher α)} {m : Matcher α} {xs : List α}

/-- A match binds terms to these references at most. -/
def BindsWithin (names : String → Prop) (m : Matcher α) : Prop :=
  ∀ x r r', r' ∈ m x r → r.TermsWithin names r'

theorem BindsWithin.inOrder (each : ∀ m ∈ ms, BindsWithin names m)
    (found : r' ∈ Matcher.inOrder ms xs r) : r.TermsWithin names r' := by
  induction ms generalizing xs r with
  | nil =>
    cases xs with
    | nil =>
      obtain rfl : r' = r := by simpa [Matcher.inOrder] using found
      exact .refl r'
    | cons x xs => simp [Matcher.inOrder] at found
  | cons m ms ih =>
    obtain ⟨here, later⟩ := List.forall_mem_cons.mp each
    cases xs with
    | nil => simp [Matcher.inOrder] at found
    | cons x xs =>
      rw [Matcher.inOrder] at found
      obtain ⟨between, first, found⟩ := List.mem_flatMap.mp found
      exact (here x r between first).trans (ih later found)

theorem BindsWithin.assignments {left : List α} (each : ∀ m ∈ ms, BindsWithin names m)
    (found : (r', left) ∈ Matcher.assignments ms xs r) : r.TermsWithin names r' := by
  induction ms generalizing xs r with
  | nil =>
    obtain ⟨rfl, -⟩ : r' = r ∧ left = xs := by simpa [Matcher.assignments] using found
    exact .refl r'
  | cons m ms ih =>
    obtain ⟨here, later⟩ := List.forall_mem_cons.mp each
    rw [Matcher.assignments] at found
    obtain ⟨p, -, found⟩ := List.mem_flatMap.mp found
    obtain ⟨between, first, found⟩ := List.mem_flatMap.mp found
    exact (here p.1 r between first).trans (ih later found)

theorem BindsWithin.inAnyOrder (each : ∀ m ∈ ms, BindsWithin names m)
    (found : r' ∈ Matcher.inAnyOrder ms xs r) : r.TermsWithin names r' := by
  unfold Matcher.inAnyOrder at found
  split at found
  · obtain ⟨⟨r', left⟩, member, rfl⟩ := List.mem_map.mp found
    exact BindsWithin.assignments each member
  · cases found

end Matcher

namespace TermPattern

theorem bindsWithin_matchRef {name : String} (inside : names name) :
    Matcher.BindsWithin names (matchRef name) := by
  intro t r r' found
  unfold matchRef at found
  split at found
  · exact .of_guard found
  · obtain rfl := List.mem_singleton.mp found
    exact .insertTerm inside

theorem termsWithin_arguments {ordered : Bool} {ps : List TermPattern} {ts : List Term}
    (each : ∀ p ∈ ps, Matcher.BindsWithin names p.matcher)
    (found : r' ∈ arguments ordered (matchers ps) ts r) : r.TermsWithin names r' := by
  rw [matchers_eq, arguments] at found
  have each : ∀ m ∈ ps.map matcher, Matcher.BindsWithin names m := List.forall_mem_map.mpr each
  cases ordered with
  | true => exact Matcher.BindsWithin.inOrder each found
  | false => exact Matcher.BindsWithin.inAnyOrder each found

theorem bindsWithin_matcher {p : TermPattern} (covered : ∀ name ∈ p.refs, names name) :
    Matcher.BindsWithin names p.matcher := by
  induction p with
  | ref name =>
    intro t r r' found
    rw [matcher] at found
    exact bindsWithin_matchRef (covered name (by simp [refs])) t r r' found
  | var v =>
    intro t r r' found
    cases t with
    | var w =>
      rw [matcher] at found
      exact .of_guard found
    | _ => simp [matcher] at found
  | const c =>
    intro t r r' found
    cases t with
    | const d =>
      rw [matcher] at found
      exact .of_guard found
    | _ => simp [matcher] at found
  | app op ps ih =>
    intro t r r' found
    cases t with
    | app op' ts =>
      rw [matcher] at found
      split at found
      · refine termsWithin_arguments (fun p member => ih p member fun name inside => ?_) found
        exact covered name (mem_refs_app.mpr ⟨p, member, inside⟩)
      · cases found
    | _ => simp [matcher] at found

theorem mem_refs_ofInstance {scope : Scope} {t : Term} {name : String}
    (inside : name ∈ (ofInstance scope t).refs) : ∃ entry ∈ scope, name ∈ entry.2.refs := by
  induction t with
  | var v =>
    rcases ofInstance_cases scope v with ⟨-, here⟩ | ⟨p, member, here⟩
    · simp [here, refs] at inside
    · exact ⟨(v, p), member, here ▸ inside⟩
  | const c => simp [ofInstance, refs] at inside
  | app op ts ih =>
    rw [ofInstance, mem_refs_app] at inside
    obtain ⟨p, instances, inside⟩ := inside
    obtain ⟨t, member, rfl⟩ := List.mem_map.mp instances
    exact ih t member inside

end TermPattern

namespace Pattern

variable {f : Formula} {name : String}

/-- The pattern of the instances of a formula refers to what its scope refers to. The names made up
for bound variables are those of its quantifiers. -/
theorem mem_termRefs_ofInstance {scope : TermPattern.Scope}
    (inside : name ∈ (ofInstance scope f).termRefs) : ∃ entry ∈ scope, name ∈ entry.2.refs := by
  induction f generalizing scope with
  | atom s ts =>
    rw [ofInstance, mem_termRefs_atom] at inside
    obtain ⟨p, instances, inside⟩ := inside
    obtain ⟨t, -, rfl⟩ := List.mem_map.mp instances
    exact TermPattern.mem_refs_ofInstance inside
  | not f ih =>
    rw [ofInstance, mem_termRefs_not] at inside
    exact ih inside
  | multi c fs ih =>
    rw [ofInstance, exactly, mem_termRefs_multi] at inside
    rcases inside with ⟨p, instances, inside⟩ | never
    · obtain ⟨f, member, rfl⟩ := List.mem_map.mp instances
      exact ih f member inside
    · simp [termRefs] at never
  | link c a b iha ihb =>
    rw [ofInstance, mem_termRefs_link] at inside
    exact inside.elim iha ihb
  | bind q v f ih =>
    rw [ofInstance, mem_termRefs_bind] at inside
    obtain ⟨inside, other⟩ := inside
    obtain ⟨entry, member, inside⟩ := ih inside
    rcases List.mem_cons.mp member with rfl | outer
    · rw [TermPattern.refs, List.mem_singleton] at inside
      exact absurd inside other
    · exact ⟨entry, outer, inside⟩

theorem termsWithin_matchRef (found : r' ∈ matchRef name f r) : r.TermsWithin names r' := by
  unfold matchRef at found
  split at found
  · exact .of_guard found
  · obtain rfl := List.mem_singleton.mp found
    exact .refl r

/-- The name of the quantifier means again what it meant outside, bound or not. -/
theorem termsWithin_underBinder {m : Matcher Formula} {v : Variable}
    (within : Matcher.BindsWithin (fun other => other = name ∨ names other) m)
    (found : r' ∈ underBinder name m v f r) : r.TermsWithin names r' := by
  obtain ⟨-, inner, found, -, terms⟩ := exists_of_underBinder found
  intro other unbound bound
  rw [terms] at bound
  split at bound
  · rename_i here
    exact absurd (here ▸ unbound) bound
  · rename_i apart
    refine (within f _ inner found other ?_ bound).resolve_left (Ne.symm apart)
    rwa [Bindings.term?_insertTerm, if_neg apart]

variable {applied : String → List TermPattern → Matcher Formula}

theorem termsWithin_withOthers {c : Junction} {ps : List Pattern} {others : Pattern} {fs : List Formula}
    (each : ∀ p ∈ ps, Matcher.BindsWithin names (p.matcherWith applied))
    (rest : Matcher.BindsWithin names (others.matcherWith applied))
    (found : r' ∈ Matcher.withOthers (matchersWith applied ps)
      (if others.isNothing then none else some (matcherWith applied others)) (Formula.multi c) fs r) :
    r.TermsWithin names r' := by
  rw [matchersWith_eq] at found
  have each : ∀ m ∈ ps.map (matcherWith applied), Matcher.BindsWithin names m :=
    List.forall_mem_map.mpr each
  cases nothing : others.isNothing with
  | true =>
    simp only [nothing, ↓reduceIte, Matcher.withOthers] at found
    exact Matcher.BindsWithin.inAnyOrder each found
  | false =>
    simp only [nothing, Bool.false_eq_true, ↓reduceIte, Matcher.withOthers] at found
    split at found
    · obtain ⟨⟨between, left⟩, assigned, found⟩ := List.mem_flatMap.mp found
      have first := Matcher.BindsWithin.assignments each assigned
      rcases mem_others found with ⟨-, rfl⟩ | ⟨-, found⟩
      · exact first
      · exact first.trans (rest _ between r' found)
    · cases found

/-- The step from what an applied reference binds to what any pattern with such references binds. -/
theorem bindsWithin_matcherWith
    (each : ∀ (names : String → Prop) name args, (∀ other ∈ (refAt name args).termRefs, names other) →
      Matcher.BindsWithin names (applied name args))
    {p : Pattern} (covered : ∀ name ∈ p.termRefs, names name) :
    Matcher.BindsWithin names (p.matcherWith applied) := by
  induction p generalizing names with
  | nothing =>
    intro f r r' found
    simp [matcherWith] at found
  | ref name =>
    intro f r r' found
    simp only [matcherWith] at found
    exact termsWithin_matchRef found
  | refAt name args =>
    intro f r r' found
    simp only [matcherWith] at found
    exact each names name args covered f r r' found
  | atom s args =>
    intro f r r' found
    cases f with
    | atom s' ts =>
      simp only [matcherWith] at found
      split at found
      · refine TermPattern.termsWithin_arguments (fun p member => ?_) found
        refine TermPattern.bindsWithin_matcher fun name inside => ?_
        exact covered name (mem_termRefs_atom.mpr ⟨p, member, inside⟩)
      · cases found
    | _ => simp [matcherWith] at found
  | not p ih =>
    intro f r r' found
    cases f with
    | not f =>
      simp only [matcherWith] at found
      exact ih (fun name inside => covered name (mem_termRefs_not.mpr inside)) f r r' found
    | _ => simp [matcherWith] at found
  | multi c ps others ih rest =>
    intro f r r' found
    cases f with
    | multi d fs =>
      simp only [matcherWith] at found
      split at found
      · refine termsWithin_withOthers (fun p member => ih p member fun name inside => ?_)
          (rest fun name inside => ?_) found
        · exact covered name (mem_termRefs_multi.mpr (.inl ⟨p, member, inside⟩))
        · exact covered name (mem_termRefs_multi.mpr (.inr inside))
      · cases found
    | _ => simp [matcherWith] at found
  | link c p q ihp ihq =>
    have left := ihp fun name inside => covered name (mem_termRefs_link.mpr (.inl inside))
    have right := ihq fun name inside => covered name (mem_termRefs_link.mpr (.inr inside))
    have both {a b : Formula} {r r' : Bindings}
        (found : r' ∈ Matcher.onEach (matcherWith applied q) b (matcherWith applied p a r)) :
        r.TermsWithin names r' := by
      obtain ⟨between, first, second⟩ := List.mem_flatMap.mp found
      exact (left a r between first).trans (right b between r' second)
    intro f r r' found
    cases f with
    | link d a b =>
      cases c with
      | imply =>
        cases d with
        | imply =>
          simp only [matcherWith] at found
          exact both found
        | equiv => simp [matcherWith] at found
      | equiv =>
        cases d with
        | imply => simp [matcherWith] at found
        | equiv =>
          simp only [matcherWith, List.mem_append] at found
          rcases found with found | found
          · exact both found
          · exact both found
    | _ => simp [matcherWith] at found
  | bind q name p ih =>
    intro f r r' found
    cases f with
    | bind q' v f =>
      simp only [matcherWith] at found
      split at found
      · refine termsWithin_underBinder (ih fun other inside => ?_) found
        by_cases here : other = name
        · exact .inl here
        · exact .inr (covered other (mem_termRefs_bind.mpr ⟨inside, here⟩))
      · cases found
    | _ => simp [matcherWith] at found

theorem termsWithin_abstractOver {arg : TermPattern} {state next : Abstracting}
    (covered : ∀ name ∈ arg.refs, names name) (found : next ∈ abstractOver f arg state) :
    state.bindings.TermsWithin names next.bindings := by
  unfold abstractOver at found
  split at found
  · obtain rfl := List.mem_singleton.mp found
    exact .refl _
  · obtain rfl := List.mem_singleton.mp found
    exact .refl _
  · rename_i unresolved
    split at found
    · rename_i name
      obtain ⟨v, -, rfl⟩ := List.mem_map.mp found
      exact .insertTerm (covered name (by simp [TermPattern.refs]))
    · cases found

theorem termsWithin_abstracting {rest : List TermPattern} {states : List Abstracting} {state : Abstracting}
    (covered : ∀ arg ∈ rest, ∀ name ∈ arg.refs, names name)
    (before : ∀ state ∈ states, r.TermsWithin names state.bindings)
    (found : state ∈ rest.foldl (fun states arg => states.flatMap (abstractOver f arg)) states) :
    r.TermsWithin names state.bindings := by
  induction rest generalizing states with
  | nil => exact before state found
  | cons arg rest ih =>
    obtain ⟨here, later⟩ := List.forall_mem_cons.mp covered
    refine ih later (fun next member => ?_) found
    obtain ⟨state, earlier, member⟩ := List.mem_flatMap.mp member
    exact (before state earlier).trans (termsWithin_abstractOver here member)

theorem bindsWithin_matchRefAt (names : String → Prop) (name : String) (args : List TermPattern)
    (covered : ∀ other ∈ (refAt name args).termRefs, names other) :
    Matcher.BindsWithin names (matchRefAt name args) := by
  have covered : ∀ arg ∈ args, ∀ other ∈ arg.refs, names other := by
    intro arg member other inside
    exact covered other (mem_termRefs_refAt.mpr ⟨arg, member, inside⟩)
  intro f r r' found
  unfold matchRefAt at found
  split at found
  · rename_i bound _
    split at found
    · refine bindsWithin_matcherWith (fun _ _ _ _ _ _ _ found => by cases found) (fun other inside => ?_)
        f r r' found
      obtain ⟨entry, member, inside⟩ := mem_termRefs_ofInstance inside
      exact covered entry.2 (List.of_mem_zip (List.mem_reverse.mp member)).2 other inside
    · cases found
  · obtain ⟨state, member, rfl⟩ := List.mem_map.mp found
    exact termsWithin_abstracting covered (by simpa using .refl r) member

/-- A match binds terms to the open term references of the pattern at most. -/
theorem bindsWithin_matcher (p : Pattern) : Matcher.BindsWithin (· ∈ p.termRefs) p.matcher :=
  bindsWithin_matcherWith bindsWithin_matchRefAt fun _ inside => inside

/-- Matching only adds bindings. A term pattern binds nothing but its references, and a pattern nothing
but its formula references and its open term references. -/
theorem match_extends :
    (∀ (p : TermPattern) (t : Term) (r : Bindings), ∀ r' ∈ p.matcher t r, r.ExtendsBy [] p.refs r') ∧
    ∀ (p : Pattern) (f : Formula) (r : Bindings), ∀ r' ∈ p.matcher f r,
      r.ExtendsBy p.formulaRefs p.termRefs r' := by
  constructor
  · intro p t r r' found
    -- everything is at hand for a term, and nothing for a formula
    have anything : Supply.HasTerm ⟨fun _ => True, fun _ => True, fun _ _ => False⟩ t :=
      ⟨fun _ _ => .inl trivial, fun _ _ => trivial⟩
    obtain ⟨adds, -⟩ := p.finds_matcher t r r' anything found
    exact .of_adds adds (fun _ _ never => never.elim)
      (TermPattern.bindsWithin_matcher (fun _ inside => inside) t r r' found)
  · intro p f r r' found
    have allows : p.supply.Allows p := fun _ use => use
    have anything : p.supply.HasFormula f := ⟨fun _ _ => trivial, fun _ _ => trivial⟩
    obtain ⟨adds, -⟩ := p.finds_matcher allows f r r' anything found
    exact .of_adds adds (fun _ _ use => List.mem_map_of_mem use) (p.bindsWithin_matcher f r r' found)

namespace Leaving

def atom (t u : Term) : Formula := .atom (.pred ⟨.plain "q", 2, true⟩) [t, u]

def operator : Operator := .fn ⟨.plain "g", some 2, false⟩

/-- `(∀x. φ(x)) ∧ φ(x)`. -/
def pattern : Pattern := exactly .and [.bind .all "x" (.refAt "φ" [.ref "x"]), .refAt "φ" [.ref "x"]]

/-- `(∀a. ∃b. q(a, b)) ∧ (∃d. q(c, d))`. -/
def formula : Formula := .and [
  .all ⟨"a"⟩ (.ex ⟨"b"⟩ (atom (.var ⟨"a"⟩) (.var ⟨"b"⟩))),
  .ex ⟨"d"⟩ (atom (.var ⟨"c"⟩) (.var ⟨"d"⟩))]

def given : Bindings := .insertTerm .empty "w" (.var ⟨"z"⟩)

def abstraction : Abstraction := ⟨[⟨"a"⟩], .ex ⟨"b"⟩ (atom (.var ⟨"a"⟩) (.var ⟨"b"⟩))⟩

def withTerm : Bindings := given.insertTerm "x" (.var ⟨"c"⟩)

def found : Bindings := withTerm.insertFormula "φ" abstraction

end Leaving

/-- Inside the quantifier `x` stands for `a`, and outside it is free to be `c`. The second use of `φ`
makes up a name for `b`, which is gone afterwards. -/
theorem match_extends_leaving :
    Leaving.withTerm ∈ (TermPattern.app Leaving.operator [.ref "x", .ref "w"]).matcher
      (.app Leaving.operator [.var ⟨"z"⟩, .var ⟨"c"⟩]) Leaving.given ∧
    Leaving.given.ExtendsBy [] ["x", "w"] Leaving.withTerm ∧
    Leaving.found ∈ Leaving.pattern.matcher Leaving.formula Leaving.given ∧
    Leaving.given.ExtendsBy ["φ", "φ"] ["x"] Leaving.found := by
  have term : (TermPattern.app Leaving.operator [.ref "x", .ref "w"]).matcher
      (.app Leaving.operator [.var ⟨"z"⟩, .var ⟨"c"⟩]) Leaving.given = [Leaving.withTerm] := by cbv
  have formula : Leaving.pattern.matcher Leaving.formula Leaving.given = [Leaving.found] := by cbv
  have refs : (TermPattern.app Leaving.operator [.ref "x", .ref "w"]).refs = ["x", "w"] := by
    simp [TermPattern.refs]
  have formulaRefs : Leaving.pattern.formulaRefs = ["φ", "φ"] := by
    simp [formulaRefs, uses, Leaving.pattern, exactly]
  have termRefs : Leaving.pattern.termRefs = ["x"] := by
    simp [Pattern.termRefs, TermPattern.refs, Leaving.pattern, exactly]
  refine ⟨by simp [term], ?_, by simp [formula], ?_⟩
  · exact refs ▸ match_extends.1 _ _ _ _ (by rw [term]; simp)
  · exact formulaRefs ▸ termRefs ▸ match_extends.2 _ _ _ _ (by rw [formula]; simp)

end Pattern

end Sequitur
