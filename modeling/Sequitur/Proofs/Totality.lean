import Sequitur.Proofs.Uniformity

/-! Every match of a pattern of the catalogue gives a result: the references that the result asks for
are bound, and to abstractions with as many parameters as it gives arguments. -/

namespace Sequitur

open Arrangement

variable {m : Relabelling} {r r' : Bindings} {f : Formula} {name : String} {a : Abstraction}

namespace Pattern

variable {p : Pattern}

/-- The formula references that every match binds. Those of the part that takes what is left over are
not among them, since nothing may be left. -/
def binds : Pattern → List String
  | .nothing => []
  | .ref name => [name]
  | .refAt name _ => [name]
  | .atom _ _ => []
  | .not p => p.binds
  | .multi _ ps _ => ps.flatMap fun p => p.binds
  | .link _ p q => p.binds ++ q.binds
  | .bind _ _ p => p.binds

theorem Fits.exists_bound (fits : p.Fits r f) (member : name ∈ p.binds) :
    ∃ a, r.formula? name = some a := by
  have members {ps : List Pattern} {pairs : List (Pattern × Formula)} {r : Bindings}
      (first : pairs.map Prod.fst = ps) (member : name ∈ ps.flatMap fun p => p.binds)
      (ih : ∀ q ∈ pairs, name ∈ q.1.binds → ∃ a, r.formula? name = some a) :
      ∃ a, r.formula? name = some a := by
    subst first
    obtain ⟨p, inside, bound⟩ := List.mem_flatMap.mp member
    obtain ⟨q, pair, rfl⟩ := List.mem_map.mp inside
    exact ih q pair bound
  induction fits with
  | ref bound _ =>
    rw [binds, List.mem_singleton] at member
    exact ⟨_, member ▸ bound⟩
  | first bound _ =>
    rw [binds, List.mem_singleton] at member
    exact ⟨_, member ▸ bound⟩
  | later bound _ _ _ =>
    rw [binds, List.mem_singleton] at member
    exact ⟨_, member ▸ bound⟩
  | atom _ _ _ => simp [binds] at member
  | not _ ih =>
    rw [binds] at member
    exact ih member
  | exactly pairing _ ih =>
    rw [binds] at member
    exact members pairing.1 member ih
  | others first _ _ _ _ ih _ =>
    rw [binds] at member
    exact members first member ih
  | imply _ _ ihp ihq =>
    rw [binds] at member
    exact (List.mem_append.mp member).elim ihp ihq
  | @equiv _ p q _ _ _ pairing _ ih =>
    have listed : name ∈ [p, q].flatMap fun p => p.binds := by simpa [binds] using member
    exact members pairing.1 listed ih
  | bind _ ih =>
    rw [binds] at member
    simpa using ih member

def supply (p : Pattern) : Supply where
  var _ := True
  symbol _ := True
  arity name n := (name, n) ∈ p.uses

theorem fits_of_found (found : r ∈ p.matcher f .empty) :
    p.Fits r f ∧ ∀ name a, r.formula? name = some a → (name, a.params.length) ∈ p.uses := by
  have allows : p.supply.Allows p := fun _ use => use
  have made : p.supply.HasFormula f := ⟨fun _ _ => trivial, fun _ _ => trivial⟩
  obtain ⟨adds, fits⟩ := p.finds_matcher allows f .empty r made found
  refine ⟨fits, fun name a bound => ?_⟩
  rcases adds.newFormula bound with old | new
  · simp at old
  · exact new.arity

theorem exists_bound (name : String) (found : r ∈ p.matcher f .empty) (member : name ∈ p.binds) :
    ∃ a, r.formula? name = some a ∧ (name, a.params.length) ∈ p.uses := by
  obtain ⟨fits, arity⟩ := fits_of_found found
  obtain ⟨a, bound⟩ := fits.exists_bound member
  exact ⟨a, bound, arity name a bound⟩

end Pattern

theorem Abstraction.instantiate_agree (m : Relabelling) {args : List Term}
    (length : args.length = a.params.length) :
    Agree (Formula.relabel m) (a.instantiate args)
      ((a.relabel m).instantiate (args.map (.relabel m))) := by
  simp only [instantiate, relabel, List.length_map, length, ↓reduceIte, Subst.ofList_relabel,
    Formula.subst_relabel]
  exact .ok _

namespace Bindings.Relabels

theorem formula (relabels : r.Relabels m r') (bound : r.formula? name = some a) :
    Agree (Formula.relabel m) (r.formula name) (r'.formula name) := by
  unfold Bindings.formula
  rw [relabels.formula?, bound]
  exact .ok a.body

theorem term (relabels : r.Relabels m r') {t : Term} (bound : r.term? name = some t) :
    Agree (Term.relabel m) (r.term name) (r'.term name) := by
  unfold Bindings.term
  rw [relabels.term?, bound]
  exact .ok t

theorem apply (relabels : r.Relabels m r') (bound : r.formula? name = some a) (args : List Term)
    (length : args.length = a.params.length) :
    Agree (Formula.relabel m) (r.apply name args) (r'.apply name (args.map (.relabel m))) := by
  unfold Bindings.apply
  rw [relabels.formula?, bound]
  exact a.instantiate_agree m length

end Bindings.Relabels

namespace Formula.Propositional

variable {template : Formula}

theorem pair {c : Junction} {a b : Formula} (left : a.Propositional) (right : b.Propositional) :
    (Formula.multi c [a, b]).Propositional := by
  refine .multi fun f member => ?_
  rcases List.mem_pair.mp member with rfl | rfl
  · exact left
  · exact right

theorem uses_ofTemplate (propositional : template.Propositional) :
    ∀ u ∈ (Pattern.ofTemplate template).uses, u.2 = 0 := by
  induction propositional with
  | prop => simp [Pattern.ofTemplate, Pattern.uses]
  | not _ ih => simpa [Pattern.ofTemplate, Pattern.uses] using ih
  | multi _ ih =>
    intro u use
    simp only [Pattern.ofTemplate, Pattern.exactly, Pattern.uses, List.append_nil, List.mem_flatMap,
      List.mem_map] at use
    obtain ⟨_, ⟨f, member, rfl⟩, use⟩ := use
    exact ih f member u use
  | link _ _ iha ihb =>
    intro u use
    rw [Pattern.ofTemplate, Pattern.uses] at use
    exact (List.mem_append.mp use).elim (iha u) (ihb u)

/-- A template of propositions is filled in when all of them are bound. -/
theorem fillUnder (propositional : template.Propositional) (relabels : r.Relabels m r')
    (taken : VarSet) (scope : TemplateScope)
    (bound : ∀ name ∈ (Pattern.ofTemplate template).binds,
      ∃ a, r.formula? name = some a ∧ a.params.length = 0) :
    Agree (Formula.relabel m) (template.fillUnder r taken scope)
      (template.fillUnder r' taken scope) := by
  have members {fs : List Formula} (ih : ∀ f ∈ fs,
      (∀ name ∈ (Pattern.ofTemplate f).binds, ∃ a, r.formula? name = some a ∧ a.params.length = 0) →
      Agree (Formula.relabel m) (f.fillUnder r taken scope) (f.fillUnder r' taken scope))
      (bound : ∀ f ∈ fs, ∀ name ∈ (Pattern.ofTemplate f).binds,
        ∃ a, r.formula? name = some a ∧ a.params.length = 0) :
      Agree (List.map (Formula.relabel m)) (fillAllUnder r taken scope fs)
        (fillAllUnder r' taken scope fs) := by
    induction fs with
    | nil =>
      rw [fillAllUnder, fillAllUnder]
      exact .ok []
    | cons f fs rest =>
      obtain ⟨here, later⟩ := List.forall_mem_cons.mp ih
      obtain ⟨bound, bounds⟩ := List.forall_mem_cons.mp bound
      rw [fillAllUnder, fillAllUnder]
      exact (here bound).bind fun g => (rest later bounds).bind fun gs => .ok (g :: gs)
  induction propositional with
  | @prop n =>
    obtain ⟨a, found, none⟩ := bound n.full (by simp [Pattern.ofTemplate, Pattern.binds])
    simp only [Formula.fillUnder, Term.fillAll, relabels.formula?, found]
    exact a.instantiate_agree m none.symm
  | not _ ih =>
    rw [Pattern.ofTemplate, Pattern.binds] at bound
    rw [Formula.fillUnder, Formula.fillUnder]
    exact (ih bound).bind fun g => .ok_of_eq (by simp)
  | multi _ ih =>
    simp only [Pattern.ofTemplate, Pattern.exactly, Pattern.binds, List.mem_flatMap,
      List.mem_map] at bound
    rw [Formula.fillUnder, Formula.fillUnder]
    refine (members ih fun f member name inside => ?_).bind fun gs => .ok_of_eq (by simp)
    exact bound name ⟨_, ⟨f, member, rfl⟩, inside⟩
  | link _ _ iha ihb =>
    rw [Pattern.ofTemplate, Pattern.binds] at bound
    rw [Formula.fillUnder, Formula.fillUnder]
    exact (iha fun name inside => bound name (List.mem_append_left _ inside)).bind fun g =>
      (ihb fun name inside => bound name (List.mem_append_right _ inside)).bind fun h =>
        .ok_of_eq (by simp)

end Formula.Propositional

def Inference.Uniform (rule : Inference) : Prop := ∀ w ∈ rule.transformations, w.Uniform

namespace Catalogue

open Transformation Pattern

theorem uniform_formula {pattern : Pattern} {kept : String} (binds : kept ∈ pattern.binds) :
    Uniform ⟨pattern, (·.formula kept)⟩ := by
  refine uniform_of_results fun m f r r' found relabels => ?_
  obtain ⟨a, bound, -⟩ := exists_bound kept found binds
  exact relabels.formula bound

theorem uniform_beside {pattern : Pattern} {c : Junction} {others kept : String}
    (binds : kept ∈ pattern.binds) : Uniform ⟨pattern, beside c others kept⟩ := by
  refine uniform_of_results fun m f r r' found relabels => ?_
  obtain ⟨a, bound, -⟩ := exists_bound kept found binds
  refine (relabels.formula bound).bind fun g => ?_
  rw [relabels.formula?]
  cases r.formula? others with
  | some a => exact .ok_of_eq (by simp [Abstraction.relabel])
  | none => exact .ok g

theorem uniform_exchange {lhs rhs : Formula} (left : lhs.Propositional) (right : rhs.Propositional)
    (covers : (ofTemplate rhs).binds ⊆ (ofTemplate lhs).binds) : Uniform (.ofTemplates lhs rhs) := by
  refine uniform_of_results fun m f r r' found relabels => ?_
  have bound (name : String) (inside : name ∈ (ofTemplate rhs).binds) :
      ∃ a, r.formula? name = some a ∧ a.params.length = 0 := by
    obtain ⟨a, bound, use⟩ := exists_bound name found (covers inside)
    exact ⟨a, bound, left.uses_ofTemplate _ use⟩
  show Agree _ (rhs.fillUnder r r.vars []) (rhs.fillUnder r' r'.vars [])
  rw [relabels.vars_eq]
  exact right.fillUnder relabels r.vars [] bound

theorem uniform_implyCompose : implyCompose.Uniform := by
  intro w member
  obtain rfl := List.mem_singleton.mp member
  refine uniform_of_results fun m f r r' found relabels => ?_
  obtain ⟨a, first, -⟩ := exists_bound "P" found (by simp [exactly, binds])
  obtain ⟨b, second, -⟩ := exists_bound "R" found (by simp [exactly, binds])
  exact (relabels.formula first).bind fun p => (relabels.formula second).bind fun q =>
    .ok_of_eq (by simp)

theorem uniform_equalReplace : equalReplace.Uniform := by
  intro w member
  obtain rfl := List.mem_singleton.mp member
  refine uniform_of_results fun m f r r' found relabels => ?_
  obtain ⟨a, phi, use⟩ := exists_bound "phi" found (by simp [exactly, binds, Pattern.equal])
  have one : a.params.length = 1 := by simpa [exactly, uses, Pattern.equal] using use
  obtain ⟨fs, pairs, -, pairing, all⟩ := (fits_of_found found).1.exists_exactly
  obtain ⟨g, -, pair⟩ := pairing.exists_right (x := .equal "x" "y") (by simp)
  have equation := all _ pair
  cases equation with
  | atom _ pairing' all' =>
    obtain ⟨t, -, pair'⟩ := pairing'.exists_right (x := .ref "y") (by simp)
    have side := all' _ pair'
    cases side with
    | ref bound _ =>
      refine (relabels.term bound).bind fun y => ?_
      exact relabels.apply phi [y] (by simp [one])

theorem uniform_forAnyAnd : forAnyAnd.Uniform := by
  intro w member
  obtain rfl := List.mem_singleton.mp member
  refine uniform_of_results fun m f r r' found relabels => ?_
  obtain ⟨a, phi, use⟩ := exists_bound "phi" found (by simp [exactly, binds])
  obtain ⟨b, psi, use'⟩ := exists_bound "psi" found (by simp [exactly, binds])
  have one : a.params.length = 1 := by simpa [exactly, uses] using use
  have one' : b.params.length = 1 := by simpa [exactly, uses] using use'
  have fresh : r'.freshVar = r.freshVar := by
    rw [Bindings.freshVar, relabels.vars_eq, Bindings.freshVar]
  have left : Agree (Formula.relabel m) (r.apply "phi" [.var r.freshVar])
      (r'.apply "phi" [.var r'.freshVar]) := by
    simpa [fresh] using relabels.apply phi [.var r.freshVar] (by simp [one])
  have right : Agree (Formula.relabel m) (r.apply "psi" [.var r.freshVar])
      (r'.apply "psi" [.var r'.freshVar]) := by
    simpa [fresh] using relabels.apply psi [.var r.freshVar] (by simp [one'])
  exact left.bind fun p => right.bind fun q => .ok_of_eq (by simp [fresh])

theorem uniform_oneWay {s description : String} {pattern : Pattern}
    {result : Bindings → Except Error Formula} (uniform : Uniform ⟨pattern, result⟩) :
    (oneWay s description pattern result).Uniform := by
  intro w member
  rwa [List.mem_singleton.mp member]

theorem uniform_twoWay {s description : String} {lhs rhs : Formula} (left : lhs.Propositional)
    (right : rhs.Propositional)
    (same : ∀ name, name ∈ (ofTemplate lhs).binds ↔ name ∈ (ofTemplate rhs).binds) :
    (exchange s description lhs rhs).Uniform := by
  intro w member
  rcases List.mem_pair.mp member with rfl | rfl
  · exact uniform_exchange left right fun name => (same name).mpr
  · exact uniform_exchange right left fun name => (same name).mp

theorem uniform : ∀ rule ∈ rules, rule.Uniform := by
  have negate : doubleNegate.Uniform := uniform_oneWay (uniform_formula (by simp [binds]))
  have identity (c : Junction) :
      Uniform ⟨.multi c [.ref "P", .ref "P"] (.ref "Q"), beside c "Q" "P"⟩ :=
    uniform_beside (by simp [binds])
  have absorption (c d : Junction) :
      Uniform ⟨.multi c [.ref "P", .multi d [.ref "P"] (.ref "Q")] (.ref "R"), beside c "R" "P"⟩ :=
    uniform_beside (by simp [binds])
  have project : andProject.Uniform := uniform_oneWay (uniform_formula (by simp [binds]))
  have imply : defImply.Uniform :=
    uniform_twoWay (.link .prop .prop) (.pair (.not .prop) .prop)
      (by simp [ofTemplate, exactly, binds])
  have equiv : defEquivTo.Uniform :=
    uniform_twoWay (.pair (.link .prop .prop) (.link .prop .prop)) (.link .prop .prop)
      (by grind [ofTemplate, exactly, binds])
  have none : Inference.Uniform .flattening := by simp [Inference.Uniform, Inference.transformations]
  simp only [rules, combined, List.cons_append, List.nil_append, List.forall_mem_cons]
  exact ⟨none, negate, uniform_oneWay (identity .and), uniform_oneWay (identity .or),
    uniform_oneWay (absorption .and .or), uniform_oneWay (absorption .or .and), none, project,
    uniform_implyCompose, imply, none, equiv, uniform_equalReplace, none, uniform_forAnyAnd, none,
    by simp⟩

end Catalogue

end Sequitur
