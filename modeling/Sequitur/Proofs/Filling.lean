import Sequitur.Proofs.Rewriting
import Sequitur.Proofs.Template

/-! What a template says. Filled in with bindings, a template is true if it is true with the values of
the bound terms for its variables and the truth of the bound formulas for its bare names. A formula
that matches a template says the same, as far as the template has no quantifier or a single one in
front. -/

namespace Sequitur

open Arrangement Pattern

universe u

variable {D : Type u} {I : Interpretation D} {r : Bindings} {f g : Formula} {ρ σ : Variable → D}

structure Bindings.Respected (I : Interpretation D) (r : Bindings) : Prop where
  formula : ∀ {name a}, r.formula? name = some a → a.body.Respected I
  term : ∀ {name t}, r.term? name = some t → t.Respected I

/-- Bindings of these references, with any variables and all symbols that the interpretation
respects. -/
def Supply.respecting (I : Interpretation D) (names : String → Prop) : Supply where
  var _ := True
  symbol := I.Respects
  arity name _ := names name

theorem Supply.hasFormula_respecting {names : String → Prop} (respected : f.Respected I) :
    (respecting I names).HasFormula f := ⟨fun _ _ => trivial, respected⟩

theorem Bindings.Respected.extend {names : String → Prop} {r' : Bindings}
    (respected : r.Respected I) (adds : r.Adds (.respecting I names) r') : r'.Respected I := by
  constructor
  · intro name a bound
    rcases adds.newFormula bound with old | new
    · exact respected.formula old
    · exact new.symbol
  · intro name t bound
    rcases adds.newTerm bound with old | new
    · exact respected.term old
    · exact new.2

theorem Bindings.respected_empty : Bindings.empty.Respected I := by
  constructor
  · intro name a bound
    simp at bound
  · intro name t bound
    simp at bound

theorem Bindings.Respected.insertTerm {name : String} {t : Term} (respected : r.Respected I)
    (given : t.Respected I) : (r.insertTerm name t).Respected I := by
  refine ⟨respected.formula, fun {other u} bound => ?_⟩
  rw [term?_insertTerm] at bound
  split at bound
  · obtain rfl := Option.some.inj bound
    exact given
  · exact respected.term bound

/-- A match binds no references but those of the pattern. -/
theorem Pattern.adds_of_mem_matcher {p : Pattern} {r' : Bindings} (names : String → Prop)
    (allowed : ∀ u ∈ p.uses, names u.1) (respected : f.Respected I) (found : r' ∈ p.matcher f r) :
    r.Adds (.respecting I names) r' ∧ p.Fits r' f := by
  have allows : (Supply.respecting I names).Allows p := allowed
  exact p.finds_matcher allows f r r' (Supply.hasFormula_respecting respected) found

theorem Pattern.fits_of_mem_matcher {p : Pattern} (found : r ∈ p.matcher f .empty)
    (respected : f.Respected I) : p.Fits r f ∧ r.Respected I := by
  obtain ⟨adds, fits⟩ := adds_of_mem_matcher (fun _ => True) (fun _ _ => trivial) respected found
  exact ⟨fits, Bindings.respected_empty.extend adds⟩

/-- Values for parameters. The last value of a parameter counts. -/
def assign (ρ : Variable → D) (params : List Variable) (ds : List D) (x : Variable) : D :=
  ((params.zip ds).reverse.lookup x).getD (ρ x)

theorem assign_congr {params : List Variable} {ds : List D} {x : Variable} (same : ρ x = σ x) :
    assign ρ params ds x = assign σ params ds x := by
  rw [assign, assign, same]

theorem assign_nil (ρ : Variable → D) (params : List Variable) : assign ρ params [] = ρ := by
  funext x
  rw [assign, List.zip_nil_right]
  rfl

theorem Term.value_of_identical {t u : Term} (identical : t.identical u = true)
    (respected : t.Respected I) (ρ : Variable → D) : t.value I ρ = u.value I ρ := by
  apply (Term.identical_iff.mp identical).value_eq (fun _ _ same => same) respected
  intro x _ s _ kept
  rw [kept, Term.value]

namespace Abstraction

variable {a : Abstraction} {args : List Term}

theorem instantiate_eq_ok : a.instantiate args = .ok g ↔
    args.length = a.params.length ∧ a.body.subst (.ofList (a.params.zip args)) = g := by
  unfold instantiate
  split <;> simp [*]

theorem respected_instantiate (respected : a.body.Respected I) (given : ∀ t ∈ args, t.Respected I)
    (ok : a.instantiate args = .ok g) : g.Respected I := by
  obtain ⟨-, rfl⟩ := instantiate_eq_ok.mp ok
  refine Formula.respected_subst respected fun x _ => ?_
  rw [Subst.image, Subst.lookup_ofList]
  cases found : (a.params.zip args).reverse.lookup x with
  | none => exact Term.respected_var x
  | some t =>
    have pair := List.mem_reverse.mp (Subst.mem_of_lookup found)
    exact given t (List.of_mem_zip pair).2

/-- An abstraction says of the arguments what it says of the parameters. -/
theorem holds_instantiate (ok : a.instantiate args = .ok g) (ρ : Variable → D) :
    g.holds I ρ ↔ a.body.holds I (assign ρ a.params (args.map (Term.value I ρ))) := by
  obtain ⟨-, rfl⟩ := instantiate_eq_ok.mp ok
  have values : a.params.zip (args.map (Term.value I ρ)) =
      (a.params.zip args).map (Prod.map id (Term.value I ρ)) := List.zip_map_right
  rw [Formula.holds_subst]
  refine Formula.holds_congr fun x _ => ?_
  rw [Subst.image, Subst.lookup_ofList, assign, values, ← List.map_reverse, Subst.lookup_map]
  cases (a.params.zip args).reverse.lookup x with
  | none => rw [Option.getD_none, Term.value, Option.map_none, Option.getD_none]
  | some t => rfl

end Abstraction

/-- A bare name is true of values if what it is bound to is true with these values for its
parameters. -/
def Interpretation.filled (I : Interpretation D) (r : Bindings) (ρ : Variable → D) :
    Interpretation D :=
  { I with
    named := fun name ds => ∃ a, r.formula? name = some a ∧ a.body.holds I (assign ρ a.params ds) }

@[simp] theorem Term.value_filled (t : Term) : t.value (I.filled r ρ) σ = t.value I σ :=
  t.value_named _ σ

/-- What is bound does not depend on a variable that does not occur in it. -/
theorem Interpretation.filled_congr
    (same : ∀ name a, r.formula? name = some a → ∀ x ∈ a.body.freeVars, ρ x = σ x) :
    I.filled r ρ = I.filled r σ := by
  have named (name : String) (ds : List D) :
      (I.filled r ρ).named name ds = (I.filled r σ).named name ds := by
    refine propext (exists_congr fun a => and_congr_right fun bound => ?_)
    exact Formula.holds_congr fun x free => assign_congr (same name a bound x free)
  have all : (I.filled r ρ).named = (I.filled r σ).named := funext fun name => funext (named name)
  show { I with named := (I.filled r ρ).named } = { I with named := (I.filled r σ).named }
  rw [all]

def Bindings.Determines (I : Interpretation D) (r : Bindings) (scope : TemplateScope)
    (ρ σ : Variable → D) (x : Variable) : Prop :=
  ∀ t, (Term.var x).fill r scope = .ok t → σ x = t.value I ρ

namespace Term

variable {t u : Term} {scope : TemplateScope}

/-- A variable becomes the new name of its binder or what it is bound to. -/
theorem fill_var_cases {x : Variable} (ok : (Term.var x).fill r scope = .ok t) :
    (∃ w, scope.lookup x = some w ∧ t = .var w) ∨ r.term? x.name = some t := by
  rw [fill] at ok
  split at ok
  · rename_i w found
    exact .inl ⟨w, found, (Except.ok.inj ok).symm⟩
  · split at ok
    · rename_i bound
      obtain rfl := Except.ok.inj ok
      exact .inr bound
    · cases ok

theorem respected_fill (respected : r.Respected I) (given : t.Respected I)
    (ok : t.fill r scope = .ok u) : u.Respected I := by
  induction t generalizing u with
  | var v =>
    rcases fill_var_cases ok with ⟨w, -, rfl⟩ | bound
    · exact respected_var w
    · exact respected.term bound
  | const c =>
    rw [fill] at ok
    obtain rfl := Except.ok.inj ok
    exact given
  | app op ts ih =>
    obtain ⟨head, args⟩ := respected_app.mp given
    simp only [fill, fillAll_eq, bind_eq_ok, pure_eq_ok] at ok
    obtain ⟨us, ok, rfl⟩ := ok
    refine respected_app.mpr ⟨head, fun u member => ?_⟩
    obtain ⟨t, source, filled⟩ := exists_of_mapM ok member
    exact ih t source (args t source) filled

theorem value_of_fill (ok : t.fill r scope = .ok u)
    (values : ∀ x ∈ t.vars, r.Determines I scope ρ σ x) : u.value I ρ = t.value I σ := by
  induction t generalizing u with
  | var v =>
    rw [value]
    exact (values v (by simp) u ok).symm
  | const c =>
    rw [fill] at ok
    obtain rfl := Except.ok.inj ok
    rw [value, value]
  | app op ts ih =>
    simp only [fill, fillAll_eq, bind_eq_ok, pure_eq_ok] at ok
    obtain ⟨us, ok, rfl⟩ := ok
    obtain ⟨pairs, pairing, all⟩ := exists_pairing_of_mapM ok
    have same : ∀ p ∈ pairs, p.1.value I σ = p.2.value I ρ := by
      intro p pair
      have member := (pairing.mem pair).1
      refine (ih p.1 member (all p pair) fun x occurs => ?_).symm
      exact values x (mem_vars_app.mpr ⟨p.1, member, occurs⟩)
    rw [value, value, pairing.map_eq same]

theorem fill_var_of_bound {x : Variable} (bound : r.term? x.name = some t) :
    (Term.var x).fill r [] = .ok t := by
  rw [fill, List.lookup_nil]
  simp only [bound]

theorem value_of_fits (respected : r.Respected I) (given : t.Respected I)
    (fits : (TermPattern.ofTerm t).Fits r u) (values : ∀ x ∈ t.vars, r.Determines I [] ρ σ x) :
    u.value I ρ = t.value I σ := by
  induction t generalizing u with
  | var v =>
    rw [TermPattern.ofTerm] at fits
    cases fits with
    | @ref _ _ s bound identical =>
      rw [value, values v (by simp) s (fill_var_of_bound bound)]
      exact (value_of_identical identical (respected.term bound) ρ).symm
  | const c =>
    rw [TermPattern.ofTerm] at fits
    cases fits with
    | const same => rw [value, value, Name.same_iff.mp same]
  | app op ts ih =>
    obtain ⟨head, args⟩ := respected_app.mp given
    rw [TermPattern.ofTerm] at fits
    cases fits with
    | app same pairing all =>
      obtain ⟨sources, pairing', images⟩ := pairing.exists_of_map_left
      have each : ∀ p ∈ sources, p.1.value I σ = p.2.value I ρ := by
        intro p pair
        have member := (pairing'.mem pair).1
        refine (ih p.1 member (args p.1 member) (all _ (images p pair)) fun x occurs => ?_).symm
        exact values x (mem_vars_app.mpr ⟨p.1, member, occurs⟩)
      rw [value, value, ← I.operator_congr same]
      exact (I.apply_pairing head pairing' each).symm

end Term

def Bindings.values (I : Interpretation D) (r : Bindings) (ρ : Variable → D) (x : Variable) : D :=
  ((r.term? x.name).map (Term.value I ρ)).getD (ρ x)

theorem Bindings.determines_values (I : Interpretation D) (r : Bindings) (ρ : Variable → D)
    (x : Variable) : r.Determines I [] ρ (r.values I ρ) x := by
  intro t filled
  rcases Term.fill_var_cases filled with ⟨_, none, -⟩ | bound
  · cases none
  · rw [values, bound]
    rfl

namespace Formula

/-- Below each binder of the template, the variables that stand free there and belong to other
binders have been given other names. -/
def RenamedApart (taken : VarSet) (scope : TemplateScope) : Formula → Prop
  | .atom _ _ => True
  | .not f => f.RenamedApart taken scope
  | .multi _ fs => ∀ f ∈ fs, f.RenamedApart taken scope
  | .link _ a b => a.RenamedApart taken scope ∧ b.RenamedApart taken scope
  | .bind _ v f =>
    (∀ x ∈ f.freeVars, x ≠ v → scope.lookup x ≠ some (templateBinder taken v)) ∧
      f.RenamedApart taken ((v, templateBinder taken v) :: scope)

variable {template : Formula} {taken : VarSet} {scope : TemplateScope}

theorem respected_fillUnder (respected : r.Respected I) (given : template.Respected I)
    (ok : template.fillUnder r taken scope = .ok g) : g.Respected I := by
  induction template generalizing scope g with
  | atom s ts =>
    obtain ⟨head, args⟩ := respected_atom.mp given
    cases s with
    | pred p =>
      simp only [fillUnder, Term.fillAll_eq, bind_eq_ok, pure_eq_ok] at ok
      obtain ⟨us, ok, rfl⟩ := ok
      refine respected_atom.mpr ⟨head, fun u member => ?_⟩
      obtain ⟨t, source, filled⟩ := exists_of_mapM ok member
      exact Term.respected_fill respected (args t source) filled
    | named n =>
      simp only [fillUnder, Term.fillAll_eq, bind_eq_ok] at ok
      obtain ⟨us, filled, ok⟩ := ok
      split at ok
      · rename_i a bound
        refine a.respected_instantiate (respected.formula bound) (fun u member => ?_) ok
        obtain ⟨t, source, filled⟩ := exists_of_mapM filled member
        exact Term.respected_fill respected (args t source) filled
      · cases ok
  | not f ih =>
    simp only [fillUnder, bind_eq_ok, pure_eq_ok] at ok
    obtain ⟨h, inside, rfl⟩ := ok
    exact respected_not.mpr (ih (respected_not.mp given) inside)
  | multi c fs ih =>
    simp only [fillUnder, fillAllUnder_eq, bind_eq_ok, pure_eq_ok] at ok
    obtain ⟨gs, inside, rfl⟩ := ok
    refine respected_multi.mpr fun g member => ?_
    obtain ⟨f, source, filled⟩ := exists_of_mapM inside member
    exact ih f source (respected_multi.mp given f source) filled
  | link c a b iha ihb =>
    obtain ⟨left, right⟩ := respected_link.mp given
    simp only [fillUnder, bind_eq_ok, pure_eq_ok] at ok
    obtain ⟨a', oka, b', okb, rfl⟩ := ok
    exact respected_link.mpr ⟨iha left oka, ihb right okb⟩
  | bind q v f ih =>
    simp only [fillUnder, bind_eq_ok, pure_eq_ok] at ok
    obtain ⟨h, inside, rfl⟩ := ok
    exact respected_bind.mpr (ih (respected_bind.mp given) inside)

/-- A template that is filled in says of what is bound what the template says of its names. -/
theorem holds_of_fillUnder (covers : ∀ x ∈ r.vars, x ∈ taken)
    (apart : template.RenamedApart taken scope) (ok : template.fillUnder r taken scope = .ok g)
    (values : ∀ x ∈ template.freeVars, r.Determines I scope ρ σ x) :
    g.holds I ρ ↔ template.holds (I.filled r ρ) σ := by
  induction template generalizing scope g ρ σ with
  | atom s ts =>
    have arguments {us : List Term} (ok : ts.mapM (Term.fill r scope) = .ok us) :
        us.map (Term.value I ρ) = ts.map (Term.value (I.filled r ρ) σ) := by
      obtain ⟨pairs, pairing, all⟩ := exists_pairing_of_mapM ok
      refine (pairing.map_eq fun p pair => ?_).symm
      have member := (pairing.mem pair).1
      rw [Term.value_filled]
      refine (Term.value_of_fill (all p pair) fun x occurs => ?_).symm
      exact values x (mem_freeVars_atom.mpr ⟨p.1, member, occurs⟩)
    cases s with
    | pred p =>
      simp only [fillUnder, Term.fillAll_eq, bind_eq_ok, pure_eq_ok] at ok
      obtain ⟨us, ok, rfl⟩ := ok
      rw [holds_atom, holds_atom, arguments ok]
      rfl
    | named n =>
      simp only [fillUnder, Term.fillAll_eq, bind_eq_ok] at ok
      obtain ⟨us, filled, ok⟩ := ok
      split at ok
      · rename_i a bound
        rw [a.holds_instantiate ok, arguments filled, holds_atom]
        simp only [Interpretation.relation, Interpretation.filled, bound, Option.some.injEq,
          exists_eq_left']
      · cases ok
  | not f ih =>
    simp only [fillUnder, bind_eq_ok, pure_eq_ok] at ok
    obtain ⟨h, inside, rfl⟩ := ok
    rw [RenamedApart] at apart
    rw [holds_not, holds_not, ih apart inside (by simpa using values)]
  | multi c fs ih =>
    simp only [fillUnder, fillAllUnder_eq, bind_eq_ok, pure_eq_ok] at ok
    obtain ⟨gs, inside, rfl⟩ := ok
    obtain ⟨pairs, pairing, all⟩ := exists_pairing_of_mapM inside
    rw [RenamedApart] at apart
    refine (holds_multi_congr pairing.unordered fun p pair => ?_).symm
    have member := (pairing.mem pair).1
    refine (ih p.1 member (apart p.1 member) (all p pair) fun x free => ?_).symm
    exact values x (mem_freeVars_multi.mpr ⟨p.1, member, free⟩)
  | link c a b iha ihb =>
    simp only [fillUnder, bind_eq_ok, pure_eq_ok] at ok
    obtain ⟨a', oka, b', okb, rfl⟩ := ok
    rw [RenamedApart] at apart
    have left := iha apart.1 oka fun x free => values x (mem_freeVars_link.mpr (.inl free))
    have right := ihb apart.2 okb fun x free => values x (mem_freeVars_link.mpr (.inr free))
    cases c with
    | imply => rw [holds_imply, holds_imply, left, right]
    | equiv => rw [holds_equiv, holds_equiv, left, right]
  | bind q v f ih =>
    simp only [fillUnder, bind_eq_ok, pure_eq_ok] at ok
    obtain ⟨h, inside, rfl⟩ := ok
    rw [RenamedApart] at apart
    obtain ⟨others, below⟩ := apart
    have fresh : templateBinder taken v ∉ r.vars :=
      fun occurs => templateBinder_not_mem taken v (covers _ occurs)
    refine holds_bind_congr fun d => ?_
    -- The bound formulas do not mention the new name, so they are as true inside as outside.
    have outside : I.filled r (Function.update ρ (templateBinder taken v) d) = I.filled r ρ := by
      refine I.filled_congr fun name a bound x free => Function.update_of_ne ?_ d ρ
      rintro rfl
      exact fresh (Bindings.mem_vars_of_formula bound (.inr (mem_allVars_of_free free)))
    rw [← outside]
    refine ih below inside fun x free t filled => ?_
    by_cases here : x = v
    · rw [Term.fill, Subst.lookup_cons, if_pos here] at filled
      obtain rfl := Except.ok.inj filled
      rw [here, Function.update_self, Term.value, Function.update_self]
    · have before : (Term.var x).fill r scope = .ok t := by
        rw [Term.fill, Subst.lookup_cons, if_neg here] at filled
        rwa [Term.fill]
      have clear : templateBinder taken v ∉ t.vars := by
        rcases Term.fill_var_cases before with ⟨w, found, rfl⟩ | bound
        · intro occurs
          rw [← Term.mem_vars_var.mp occurs] at found
          exact others x free here found
        · exact fun occurs => fresh (Bindings.mem_vars_of_term bound occurs)
      rw [Function.update_of_ne here, Term.value_update clear]
      exact values x (mem_freeVars_bind.mpr ⟨free, here⟩) t before

inductive QuantifierFree : Formula → Prop
  | prop {n : Name} : QuantifierFree (.atom (.named n) [])
  | pred {p : Predicate} {ts : List Term} : QuantifierFree (.atom (.pred p) ts)
  | not {f : Formula} : QuantifierFree f → QuantifierFree (.not f)
  | multi {c : Junction} {fs : List Formula} : (∀ f ∈ fs, QuantifierFree f) →
      QuantifierFree (.multi c fs)
  | link {c : Arrow} {a b : Formula} : QuantifierFree a → QuantifierFree b →
      QuantifierFree (.link c a b)

namespace QuantifierFree

theorem renamedApart (free : template.QuantifierFree) : template.RenamedApart taken scope := by
  induction free with
  | prop =>
    rw [RenamedApart]
    trivial
  | pred =>
    rw [RenamedApart]
    trivial
  | not _ ih =>
    rw [RenamedApart]
    exact ih
  | multi _ ih =>
    rw [RenamedApart]
    exact ih
  | link _ _ iha ihb =>
    rw [RenamedApart]
    exact ⟨iha, ihb⟩

theorem parameterless (free : template.QuantifierFree) : ∀ a ∈ template.applications, a.2 = [] := by
  induction free with
  | prop => simp [applications]
  | pred => simp [applications]
  | not _ ih =>
    rw [applications]
    exact ih
  | multi _ ih =>
    rw [applications]
    intro a member
    obtain ⟨f, inside, used⟩ := List.mem_flatMap.mp member
    exact ih f inside a used
  | link _ _ iha ihb =>
    rw [applications]
    exact List.forall_mem_append.mpr ⟨iha, ihb⟩

/-- A formula that fits says of what is bound what the template says of its names. -/
theorem holds_of_fits (free : template.QuantifierFree) (respected : r.Respected I)
    (given : template.Respected I) (fits : (ofTemplate template).Fits r f)
    (values : ∀ x ∈ template.freeVars, r.Determines I [] ρ σ x) :
    f.holds I ρ ↔ template.holds (I.filled r ρ) σ := by
  induction free generalizing f with
  | prop =>
    rw [ofTemplate] at fits
    cases fits with
    | ref bound identical =>
      rw [holds_atom, List.map_nil]
      simp only [Interpretation.relation, Interpretation.filled, bound, Option.some.injEq,
        exists_eq_left', assign_nil]
      exact (holds_of_identical identical (respected.formula bound)).symm
  | pred =>
    obtain ⟨head, args⟩ := respected_atom.mp given
    rw [ofTemplate] at fits
    cases fits with
    | atom same pairing all =>
      obtain ⟨sources, pairing', images⟩ := pairing.exists_of_map_left
      rw [holds_atom, holds_atom, ← I.relation_congr same]
      refine (I.relate_pairing head pairing' fun p pair => ?_).symm
      have member := (pairing'.mem pair).1
      rw [Term.value_filled]
      refine (Term.value_of_fits respected (args p.1 member) (all _ (images p pair))
        fun x occurs => ?_).symm
      exact values x (mem_freeVars_atom.mpr ⟨p.1, member, occurs⟩)
  | not _ ih =>
    rw [ofTemplate] at fits
    cases fits with
    | not fits =>
      rw [holds_not, holds_not, ih (respected_not.mp given) fits (by simpa using values)]
  | multi _ ih =>
    rw [ofTemplate] at fits
    obtain ⟨fs, pairs, rfl, pairing, all⟩ := fits.exists_exactly
    obtain ⟨sources, pairing', images⟩ := pairing.exists_of_map_left
    refine (holds_multi_congr pairing' fun p pair => ?_).symm
    have member := (pairing'.mem pair).1
    refine (ih p.1 member (respected_multi.mp given p.1 member) (all _ (images p pair))
      fun x free => ?_).symm
    exact values x (mem_freeVars_multi.mpr ⟨p.1, member, free⟩)
  | link _ _ iha ihb =>
    obtain ⟨lefts, rights⟩ := respected_link.mp given
    have left {f : Formula} (fits : (ofTemplate _).Fits r f) := iha lefts fits fun x free =>
      values x (mem_freeVars_link.mpr (.inl free))
    have right {f : Formula} (fits : (ofTemplate _).Fits r f) := ihb rights fits fun x free =>
      values x (mem_freeVars_link.mpr (.inr free))
    rw [ofTemplate] at fits
    cases fits with
    | imply fitsa fitsb => rw [holds_imply, holds_imply, left fitsa, right fitsb]
    | equiv pairing all =>
      rw [holds_equiv, holds_equiv]
      rcases Pairing.exists_two.mp ⟨_, pairing, all⟩ with ⟨fitsa, fitsb⟩ | ⟨fitsa, fitsb⟩
      · rw [left fitsa, right fitsb]
      · rw [left fitsa, right fitsb]
        exact iff_comm

end QuantifierFree

inductive Shallow : Formula → Prop
  | flat {f : Formula} : f.QuantifierFree → Shallow f
  | bind {q : Quantifier} {v : Variable} {f : Formula} : f.QuantifierFree → Shallow (.bind q v f)

theorem Shallow.renamedApart (shallow : template.Shallow) : template.RenamedApart taken [] := by
  cases shallow with
  | flat free => exact free.renamedApart
  | bind free =>
    rw [RenamedApart]
    exact ⟨fun x _ _ => by simp, free.renamedApart⟩

end Formula

namespace Pattern

/-- References without arguments are bound to formulas without parameters. -/
theorem params_of_mem_matcher {p : Pattern} {name : String} {a : Abstraction}
    (plain : ∀ u ∈ p.uses, u.2 = 0) (found : r ∈ p.matcher f .empty)
    (bound : r.formula? name = some a) : a.params = [] := by
  have allows : Supply.Allows ⟨fun _ => True, fun _ => True, fun _ n => n = 0⟩ p := plain
  have adds := (p.finds_matcher allows f .empty r ⟨fun _ _ => trivial, fun _ _ => trivial⟩ found).1
  rcases adds.newFormula bound with old | new
  · simp at old
  · exact List.eq_nil_of_length_eq_zero new.arity

/-- What was found below a quantifier does not mention its variable. -/
theorem exists_quantified {q : Quantifier} {name : String} {p : Pattern} (respected : f.Respected I)
    (found : r ∈ (Pattern.bind q name p).matcher f .empty) :
    ∃ v body, f = .bind q v body ∧ p.Fits (r.insertTerm name (.var v)) body ∧
      (∀ other t, r.term? other = some t → v ∉ t.vars) ∧
      ∀ other a, r.formula? other = some a → v ∈ a.body.freeVars → v ∈ a.params := by
  have fits := (fits_of_mem_matcher found respected).1
  cases fits with
  | @bind _ _ _ _ v body fits =>
    refine ⟨v, body, rfl, fits, ?_⟩
    simp only [matcher, matcherWith, underBinder, ↓reduceIte, List.mem_filter, Bool.not_eq_true']
      at found
    obtain ⟨terms, formulas⟩ := not_mem_of_not_escapes found.2
    exact ⟨fun other t => terms other t (by simp), fun other a => formulas other a (by simp)⟩

end Pattern

/-- A formula that matches says of what is bound what the template says of its names. -/
theorem Formula.Shallow.holds_of_match {template : Formula} (shallow : template.Shallow)
    (given : template.Respected I) (respected : f.Respected I)
    (found : r ∈ (ofTemplate template).matcher f .empty)
    (values : ∀ x ∈ template.freeVars, r.Determines I [] ρ σ x) :
    f.holds I ρ ↔ template.holds (I.filled r ρ) σ := by
  obtain ⟨fits, bound⟩ := fits_of_mem_matcher found respected
  cases shallow with
  | flat free => exact free.holds_of_fits bound given fits values
  | @bind q v body free =>
    have plain : ∀ u ∈ (ofTemplate (.bind q v body)).uses, u.2 = 0 := by
      rw [uses_ofTemplate, Formula.applications]
      intro u used
      obtain ⟨a, member, rfl⟩ := List.mem_map.mp used
      exact List.length_eq_zero_iff.mpr (free.parameterless a member)
    have params (name : String) (a : Abstraction) (bound : r.formula? name = some a) :
        a.params = [] := params_of_mem_matcher plain found bound
    rw [ofTemplate] at found
    obtain ⟨w, inner, rfl, fits, terms, formulas⟩ := exists_quantified respected found
    refine holds_bind_congr fun d => ?_
    have same : I.filled (r.insertTerm v.name (.var w)) (Function.update ρ w d) =
        I.filled r (Function.update ρ w d) := rfl
    have outside : I.filled r (Function.update ρ w d) = I.filled r ρ := by
      refine I.filled_congr fun name a bound x occurs => Function.update_of_ne ?_ d ρ
      rintro rfl
      have caught := formulas name a bound occurs
      rw [params name a bound] at caught
      cases caught
    rw [← outside, ← same]
    refine free.holds_of_fits (bound.insertTerm (Term.respected_var w)) (respected_bind.mp given) fits
      fun x occurs t filled => ?_
    rcases Term.fill_var_cases filled with ⟨_, none, -⟩ | bound
    · cases none
    · rw [Bindings.term?_insertTerm] at bound
      by_cases here : x = v
      · rw [here, if_pos rfl] at bound
        obtain rfl := Option.some.inj bound
        rw [here, Function.update_self, Term.value, Function.update_self]
      · have apart : v.name ≠ x.name := fun same => here (congrArg Variable.mk same.symm)
        rw [if_neg apart] at bound
        rw [Function.update_of_ne here, Term.value_update (terms _ t bound)]
        exact values x (mem_freeVars_bind.mpr ⟨occurs, here⟩) t (Term.fill_var_of_bound bound)

end Sequitur
