import Sequitur.Proofs.Matching

/-! What a parametrized reference says of a formula. On its first use the formula is the body
with the arguments put back for the parameters. Later it is an instance of the body, as long as
its binders are apart from the variables that can stand free in it. -/

namespace Sequitur

open Arrangement

/-- No quantifier binds a variable that `V` describes, or one that is bound already. -/
def Formula.Apart (V : Variable → Prop) : Formula → Prop
  | .atom _ _ => True
  | .not f => f.Apart V
  | .multi _ fs => ∀ f ∈ fs, f.Apart V
  | .link _ a b => a.Apart V ∧ b.Apart V
  | .bind _ v f => ¬ V v ∧ f.Apart fun x => x = v ∨ V x

theorem Term.eq_var_of_bare {t : Term} {x : Variable} (same : t.bare = (Term.var x).bare) :
    t = .var x := by
  cases t with
  | var y => simpa [bare] using same
  | _ => simp [bare] at same

namespace TermPattern

variable {r : Bindings} {scope : Scope}

/-- What a variable may become under a scope: anything that fits what the scope says. -/
def Scope.change (scope : Scope) (r : Bindings) : Change := fun x s =>
  (ofInstance scope (.var x)).Fits r s

def Scope.resolved (scope : Scope) (r : Bindings) : Change := fun x s =>
  ∃ t, (ofInstance scope (.var x)).resolve r = some t ∧ s.bare = t.bare

theorem ofInstance_cons (v x : Variable) (p : TermPattern) (scope : Scope) :
    ofInstance ((v, p) :: scope) (.var x) = if x = v then p else ofInstance scope (.var x) := by
  simp only [ofInstance, Subst.lookup_cons]
  split <;> rfl

/-- A variable is itself where the scope says nothing. -/
theorem ofInstance_cases (scope : Scope) (x : Variable) :
    (x ∉ scope.map Prod.fst ∧ ofInstance scope (.var x) = .var x) ∨
      ∃ p, (x, p) ∈ scope ∧ ofInstance scope (.var x) = p := by
  cases found : scope.lookup x with
  | none => exact .inl ⟨Subst.not_mem_of_lookup found, by simp [ofInstance, found]⟩
  | some p => exact .inr ⟨p, Subst.mem_of_lookup found, by simp [ofInstance, found]⟩

theorem instance_of_fits {t u : Term} (fits : (ofInstance scope t).Fits r u) :
    Term.Instance Symbol.Same (scope.change r) t u := by
  induction t generalizing u with
  | var x => exact .var fits
  | const c =>
    rw [ofInstance] at fits
    cases fits with
    | const same => exact .const same
  | app op ts ih =>
    rw [ofInstance] at fits
    cases fits with
    | app same pairing all =>
      obtain ⟨sources, pairing', images⟩ := pairing.exists_of_map_left
      refine .app same pairing' fun p pair => ?_
      exact ih p.1 (pairing'.mem pair).1 (all _ (images p pair))

theorem fits_ref_iff {name : String} {s : Term} : (ref name).Fits r s ↔
    ∃ t, r.term? name = some t ∧ Term.Instance Symbol.Same .keep t s := by
  constructor
  · intro fits
    cases fits with
    | ref bound identical => exact ⟨_, bound, Term.identical_iff.mp identical⟩
  · intro found
    obtain ⟨t, bound, inst⟩ := found
    exact .ref bound (Term.identical_iff.mpr inst)

theorem fits_var_iff {v : Variable} {s : Term} : (var v).Fits r s ↔ s = .var v := by
  constructor
  · intro fits
    cases fits
    rfl
  · rintro rfl
    exact .var

/-- Binding another reference changes nothing. -/
theorem fits_insertTerm_iff {name other : String} {t s : Term} (apart : other ≠ name) :
    (ref name).Fits (r.insertTerm other t) s ↔ (ref name).Fits r s := by
  rw [fits_ref_iff, fits_ref_iff, Bindings.term?_insertTerm, if_neg apart]

theorem fits_bound_iff {name : String} {w : Variable} {s : Term} :
    (ref name).Fits (r.insertTerm name (.var w)) s ↔ s = .var w := by
  rw [fits_ref_iff, Bindings.term?_insertTerm, if_pos rfl]
  constructor
  · intro found
    obtain ⟨t, here, inst⟩ := found
    obtain rfl := Option.some.inj here
    cases inst with
    | var kept => exact kept
  · rintro rfl
    exact ⟨_, rfl, .var rfl⟩

/-- The scope consists of references, none of which is to be named for a deeper binder. -/
def Scope.OfReferences (scope : Scope) : Prop :=
  ∀ q ∈ scope, ∃ name, q.2 = .ref name ∧ ∀ i, scope.length ≤ i → name ≠ "#" ++ toString i

theorem Scope.OfReferences.cons (references : Scope.OfReferences scope) (v : Variable) :
    Scope.OfReferences ((v, .ref ("#" ++ toString scope.length)) :: scope) := by
  intro q member
  rcases List.mem_cons.mp member with rfl | member
  · refine ⟨_, rfl, fun i beyond same => ?_⟩
    have equal : scope.length = i := Variable.numbered_injective "#" (congrArg Variable.mk same)
    simp only [List.length_cons] at beyond
    omega
  · obtain ⟨name, here, apart⟩ := references q member
    exact ⟨name, here, fun i beyond => apart i (Nat.le_of_succ_le beyond)⟩

/-- Naming the variable of a binder changes nothing for the variables outside. -/
theorem Scope.OfReferences.change_insertTerm (references : Scope.OfReferences scope)
    (w x : Variable) (s : Term) :
    scope.change (r.insertTerm ("#" ++ toString scope.length) (.var w)) x s ↔
      scope.change r x s := by
  unfold Scope.change
  rcases ofInstance_cases scope x with ⟨-, here⟩ | ⟨p, member, here⟩
  · rw [here, fits_var_iff, fits_var_iff]
  · obtain ⟨name, rfl, apart⟩ := references _ member
    rw [here]
    exact fits_insertTerm_iff (apart _ (Nat.le_refl _)).symm

end TermPattern

namespace Pattern

open TermPattern (Scope)

variable {r : Bindings} {scope : Scope} {f body : Formula} {V : Variable → Prop}
  {args : List TermPattern} {params : List Variable}

theorem instance_of_fits (fits : (ofInstance scope body).Fits r f) (apart : f.Apart V)
    (references : scope.OfReferences)
    (outer : ∀ x ∈ body.freeVars, ∀ s, scope.change r x s → ∀ y ∈ s.vars, V y) :
    body.Instance Symbol.Same (scope.change r) f := by
  induction body generalizing r scope f V with
  | atom s ts =>
    rw [ofInstance] at fits
    cases fits with
    | atom same pairing all =>
      obtain ⟨sources, pairing', images⟩ := pairing.exists_of_map_left
      exact .atom same pairing' fun p pair => TermPattern.instance_of_fits (all _ (images p pair))
  | not body ih =>
    rw [ofInstance] at fits
    cases fits with
    | not fits =>
      rw [Formula.Apart] at apart
      exact .not (ih fits apart references (by simpa using outer))
  | multi c bodies ih =>
    rw [ofInstance] at fits
    obtain ⟨fs, pairs, rfl, pairing, all⟩ := fits.exists_exactly
    obtain ⟨sources, pairing', images⟩ := pairing.exists_of_map_left
    rw [Formula.Apart] at apart
    refine .multi pairing' fun p pair => ?_
    obtain ⟨first, second⟩ := pairing'.mem pair
    apply ih p.1 first (all _ (images p pair)) (apart p.2 second) references
    intro x free
    exact outer x (Formula.mem_freeVars_multi.mpr ⟨p.1, first, free⟩)
  | link c a b iha ihb =>
    have left {f : Formula} (fits : (ofInstance scope a).Fits r f) (apart : f.Apart V) :=
      iha fits apart references fun x free => outer x (Formula.mem_freeVars_link.mpr (.inl free))
    have right {f : Formula} (fits : (ofInstance scope b).Fits r f) (apart : f.Apart V) :=
      ihb fits apart references fun x free => outer x (Formula.mem_freeVars_link.mpr (.inr free))
    rw [ofInstance] at fits
    cases fits with
    | imply fitsa fitsb =>
      rw [Formula.Apart] at apart
      exact .imply (left fitsa apart.1) (right fitsb apart.2)
    | @equiv _ _ _ f g pairs pairing all =>
      rw [Formula.Apart] at apart
      obtain ⟨pairs, pairing, all⟩ : ∃ pairs, Pairing false pairs [a, b] [f, g] ∧
          ∀ p ∈ pairs, Formula.Instance Symbol.Same (scope.change r) p.1 p.2 := by
        apply Pairing.exists_two.mpr
        rcases Pairing.exists_two.mp ⟨pairs, pairing, all⟩ with ⟨fitsa, fitsb⟩ | ⟨fitsa, fitsb⟩
        · exact .inl ⟨left fitsa apart.1, right fitsb apart.2⟩
        · exact .inr ⟨left fitsa apart.2, right fitsb apart.1⟩
      exact .equiv pairing all
  | bind q v body ih =>
    rw [ofInstance] at fits
    cases fits with
    | @bind _ _ _ _ w f fits =>
      rw [Formula.Apart] at apart
      -- the named variable becomes `w`, and everything else what it becomes outside
      have becomes (x : Variable) (s : Term) :
          Scope.change ((v, .ref ("#" ++ toString scope.length)) :: scope)
            (r.insertTerm ("#" ++ toString scope.length) (.var w)) x s ↔
          if x = v then s = .var w else scope.change r x s := by
        rw [Scope.change, TermPattern.ofInstance_cons]
        split
        · exact TermPattern.fits_bound_iff
        · exact references.change_insertTerm w x s
      have inner := ih fits apart.2 (references.cons v) fun x free s change y occurs => by
        rw [becomes] at change
        split at change
        · subst change
          exact .inl (by simpa using occurs)
        · exact .inr (outer x (Formula.mem_freeVars_bind.mpr ⟨free, ‹_›⟩) s change y occurs)
      apply Formula.Instance.bind
      apply inner.mono fun _ _ _ _ same => same
      intro x free s _ change
      rw [becomes] at change
      split at change
      · exact .inl ⟨‹_›, change⟩
      · have outside := outer x (Formula.mem_freeVars_bind.mpr ⟨free, ‹_›⟩) s change
        exact .inr ⟨‹_›, fun caught => apart.1 (outside w caught), change⟩

/-- A parameter is the variable that its argument stands for, or one that was made up. -/
theorem Abstracts.param_cases (abstracts : Abstracts r f args body params) {x : Variable}
    {arg : TermPattern} (member : (x, arg) ∈ params.zip args) :
    arg.resolve r = some (.var x) ∨ ∃ i, x = .numbered "p" i := by
  induction abstracts with
  | nil => simp at member
  | var abstracts resolved ih =>
    rw [List.zip_append abstracts.length_eq, List.mem_append] at member
    rcases member with before | last
    · exact ih before
    · obtain ⟨rfl, rfl⟩ : x = _ ∧ arg = _ := by simpa using last
      exact .inl resolved
  | term abstracts _ _ _ _ _ ih =>
    rw [List.zip_append abstracts.length_eq, List.mem_append] at member
    rcases member with before | last
    · exact ih before
    · obtain ⟨rfl, rfl⟩ : x = _ ∧ arg = _ := by simpa using last
      exact .inr ⟨_, rfl⟩

theorem Abstracts.exists_resolve (abstracts : Abstracts r f args body params) :
    ∀ arg ∈ args, ∃ t, arg.resolve r = some t := by
  induction abstracts with
  | nil => simp
  | var _ resolved ih =>
    exact List.forall_mem_append.mpr ⟨ih, List.forall_mem_singleton.mpr ⟨_, resolved⟩⟩
  | term _ resolved _ _ _ _ ih =>
    exact List.forall_mem_append.mpr ⟨ih, List.forall_mem_singleton.mpr ⟨_, resolved⟩⟩

def Unmistakable (r : Bindings) (args : List TermPattern) : Prop :=
  args.length ≤ 1 ∨ ∀ arg ∈ args, ∀ t, arg.resolve r = some t → ∀ i, .numbered "p" i ∉ t.vars

/-- A parameter is what its argument stands for, or it occurs in no later argument. -/
def ParametersApart (r : Bindings) (params : List Variable) (args : List TermPattern) : Prop :=
  (params.zip args).Pairwise fun a b =>
    a.2.resolve r = some (.var a.1) ∨ ∀ t, b.2.resolve r = some t → a.1 ∉ t.vars

theorem Abstracts.parametersApart (abstracts : Abstracts r f args body params)
    (unmistakable : Unmistakable r args) : ParametersApart r params args := by
  rcases unmistakable with single | clear
  · have short : (params.zip args).length ≤ 1 := by
      rw [List.length_zip]
      omega
    rw [ParametersApart, List.pairwise_iff_getElem]
    intro i j _ last earlier
    omega
  · refine List.Pairwise.imp_of_mem ?_ (List.pairwise_of_forall fun _ _ => trivial)
    intro a b first second _
    refine (abstracts.param_cases first).imp_right fun numbered t resolved => ?_
    obtain ⟨i, made⟩ := numbered
    rw [made]
    exact clear b.2 (List.of_mem_zip second).2 t resolved i

/-- Putting back the earlier arguments does not touch the next one. -/
theorem ParametersApart.fixed {param : Variable} {arg : TermPattern} {t : Term}
    (apart : ParametersApart r (params ++ [param]) (args ++ [arg]))
    (length : params.length = args.length) (resolved : arg.resolve r = some t) :
    ∀ x ∈ t.vars, ∀ s, Scope.resolved (params.zip args).reverse r x s → s = .var x := by
  intro x occurs s becomes
  obtain ⟨u, value, same⟩ := becomes
  suffices itself : u = .var x from Term.eq_var_of_bare (itself ▸ same)
  rcases TermPattern.ofInstance_cases (params.zip args).reverse x with ⟨-, here⟩ | ⟨p, inside, here⟩
  · rw [here, TermPattern.resolve] at value
    exact (Option.some.inj value).symm
  · rw [here] at value
    rw [ParametersApart, List.zip_append length, List.pairwise_append] at apart
    rcases apart.2.2 _ (List.mem_reverse.mp inside) (param, arg) (by simp) with same | clear
    · exact Option.some.inj (value.symm.trans same)
    · exact absurd occurs (clear t resolved)

theorem ParametersApart.init {param : Variable} {arg : TermPattern}
    (apart : ParametersApart r (params ++ [param]) (args ++ [arg]))
    (length : params.length = args.length) : ParametersApart r params args := by
  rw [ParametersApart, List.zip_append length, List.pairwise_append] at apart
  exact apart.1

theorem Abstracts.expands (abstracts : Abstracts r f args body params)
    (apart : ParametersApart r params args) :
    body.Expands (Scope.resolved (params.zip args).reverse r) f := by
  have last {params : List Variable} {args : List TermPattern} (length : params.length = args.length)
      (v : Variable) (arg : TermPattern) :
      ((params ++ [v]).zip (args ++ [arg])).reverse = (v, arg) :: (params.zip args).reverse := by
    simp [List.zip_append length]
  induction abstracts with
  | nil => exact .refl fun x _ => ⟨.var x, by simp [TermPattern.ofInstance, TermPattern.resolve], rfl⟩
  | @var args arg body params v abstracts resolved ih =>
    have length := abstracts.length_eq
    rw [last length]
    apply (ih (apart.init length)).mono
    intro x free s becomes
    rw [Scope.resolved, TermPattern.ofInstance_cons]
    split
    · rename_i here
      subst here
      have same := apart.fixed length resolved x (by simp) s becomes
      exact ⟨.var x, resolved, by rw [same]⟩
    · exact becomes
  | @term args arg body params t i abstracts resolved _ _ fresh _ ih =>
    have length := abstracts.length_eq
    rw [last length]
    have putBack := (ih (apart.init length)).replace fresh (apart.fixed length resolved)
    apply putBack.mono
    intro x free s becomes
    rw [Scope.resolved, TermPattern.ofInstance_cons]
    rcases becomes with ⟨here, same⟩ | ⟨other, becomes⟩
    · exact ⟨t, by rw [if_pos here, resolved], same⟩
    · rw [if_neg other]
      exact becomes

/-- What fits a parametrized reference is an instance of the formula the reference is bound to. -/
theorem Fits.exists_instance {name : String} (fits : (Pattern.refAt name args).Fits r f)
    (apart : f.Apart V) (unmistakable : Unmistakable r args)
    (references : ∀ arg ∈ args, ∃ name, arg = .ref name ∧ ∀ i : Nat, name ≠ "#" ++ toString i)
    (values : ∀ arg ∈ args, ∀ s, arg.Fits r s → ∀ y ∈ s.vars, V y)
    (outer : ∀ a, r.formula? name = some a → ∀ x ∈ a.body.freeVars, x ∈ a.params ∨ V x) :
    ∃ a, r.formula? name = some a ∧ a.params.length = args.length ∧
      a.body.Instance Symbol.Same (Scope.change (a.params.zip args).reverse r) f := by
  have argument {params : List Variable} {x : Variable} {p : TermPattern}
      (member : (x, p) ∈ (params.zip args).reverse) : p ∈ args :=
    (List.of_mem_zip (List.mem_reverse.mp member)).2
  cases fits with
  | @first _ _ _ _ body params bound abstracts =>
    refine ⟨_, bound, abstracts.length_eq, ?_⟩
    have expands := abstracts.expands (abstracts.parametersApart unmistakable)
    apply expands.inst.mono fun _ _ _ _ same => Symbol.same_of_eq same
    intro x free s _ becomes
    obtain ⟨t, resolved, same⟩ := becomes
    rw [Scope.change]
    rcases TermPattern.ofInstance_cases (params.zip args).reverse x with
      ⟨-, here⟩ | ⟨p, inside, here⟩
    · rw [here, TermPattern.resolve] at resolved
      obtain rfl := Option.some.inj resolved
      exact here ▸ TermPattern.fits_var_iff.mpr (Term.eq_var_of_bare same)
    · rw [here] at resolved ⊢
      obtain ⟨name, rfl, -⟩ := references p (argument inside)
      rw [TermPattern.resolve] at resolved
      exact TermPattern.fits_ref_iff.mpr ⟨t, resolved, Term.instance_of_bare same.symm⟩
  | @later _ _ _ _ a bound length fits =>
    refine ⟨a, bound, length, instance_of_fits fits apart ?_ ?_⟩
    · intro q member
      obtain ⟨name, here, clear⟩ := references q.2 (argument member)
      exact ⟨name, here, fun i _ => clear i⟩
    · intro x free s becomes y occurs
      rw [Scope.change] at becomes
      rcases TermPattern.ofInstance_cases (a.params.zip args).reverse x with
        ⟨outside, here⟩ | ⟨p, inside, here⟩
      · rw [here, TermPattern.fits_var_iff] at becomes
        subst becomes
        obtain rfl := Term.mem_vars_var.mp occurs
        refine (outer a bound y free).resolve_left fun param => outside ?_
        rw [List.map_reverse, List.map_fst_zip (Nat.le_of_eq length)]
        exact List.mem_reverse.mpr param
      · rw [here] at becomes
        exact values p (argument inside) s becomes y occurs

end Pattern

end Sequitur
