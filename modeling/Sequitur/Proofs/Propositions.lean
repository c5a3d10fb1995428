import Mathlib
import Sequitur.Proofs.Replacement

/-! Replacing a proposition by a formula. The result says what the formula said, read with the truth
value of the new formula for the proposition: no binder catches a free variable of the new formula,
wherever it is put in, and the new formula itself is read as before, also if it mentions the
proposition. -/

namespace Sequitur

universe u

variable {D : Type u}

/-- The proposition `name` has this truth value. The same name with arguments means what it meant. -/
def Interpretation.withProp (I : Interpretation D) (name : Name) (truth : Prop) :
    Interpretation D :=
  { I with named := fun text ds => if text = name.full ∧ ds = [] then truth else I.named text ds }

variable {I : Interpretation D} {name : Name} {truth : Prop}

theorem Term.value_withProp (t : Term) (ρ : Variable → D) :
    t.value (I.withProp name truth) ρ = t.value I ρ := t.value_named _ ρ

namespace Formula

variable {ρ : Variable → D}

theorem holds_prop_withProp {n : Name} (same : n.same name = true) :
    (atom (.named n) []).holds (I.withProp name truth) ρ ↔ truth := by
  rw [holds_atom, List.map_nil]
  simp [Interpretation.relation, Interpretation.withProp, Name.same_iff.mp same]

/-- All other atoms mean what they meant. -/
theorem holds_atom_withProp {r : Relation} {ts : List Term}
    (other : ∀ n, r = .named n → ts = [] → ¬ n.same name = true) :
    (atom r ts).holds (I.withProp name truth) ρ ↔ (atom r ts).holds I ρ := by
  have values : ts.map (Term.value (I.withProp name truth) ρ) = ts.map (Term.value I ρ) :=
    List.map_congr_left fun t _ => t.value_withProp ρ
  rw [holds_atom, holds_atom, values]
  cases r with
  | pred p => rfl
  | named n =>
    have apart : ¬ (n.full = name.full ∧ ts.map (Term.value I ρ) = []) := by
      rintro ⟨text, none⟩
      exact other n rfl (List.map_eq_nil_iff.mp none) (Name.same_iff.mpr text)
    simp only [Interpretation.relation, Interpretation.withProp, if_neg apart]

theorem holds_replaceProp (name : Name) (new f : Formula) (I : Interpretation D)
    (ρ : Variable → D) :
    (f.replaceProp name new).holds I ρ ↔ f.holds (I.withProp name (new.holds I ρ)) ρ := by
  fun_induction replaceProp f name new generalizing ρ with
  | case1 n same => exact (holds_prop_withProp same).symm
  | case2 n other =>
    refine (holds_atom_withProp fun m head _ => ?_).symm
    rwa [← Relation.named.inj head]
  | case3 r ts other =>
    exact (holds_atom_withProp fun n head none => absurd none (other n head)).symm
  | case4 f ih => rw [holds_not, holds_not, ih]
  | case5 c fs ih =>
    refine (holds_multi_congr (.map_right _ fs _) fun p pair => ?_).symm
    obtain ⟨f, member, rfl⟩ := List.mem_map.mp pair
    exact (ih f member ρ).symm
  | case6 c a b iha ihb =>
    cases c with
    | imply => rw [holds_imply, holds_imply, iha, ihb]
    | equiv => rw [holds_equiv, holds_equiv, iha, ihb]
  | case7 q v f _ w ih =>
    have fresh : w ∉ VarSet.union f.allVars new.freeVars := Variable.fresh_not_mem _ _
    obtain ⟨clear, outside⟩ := not_or.mp (mt VarSet.mem_union.mpr fresh)
    refine holds_bind_congr fun d => (ih _).trans ?_
    rw [propext (holds_update outside d)]
    exact holds_renameFree_update clear ρ d
  | case8 q v f unbound ih =>
    have outside : v ∉ new.freeVars := by simpa using unbound
    refine holds_bind_congr fun d => (ih _).trans ?_
    rw [propext (holds_update outside d)]

/-- Replacing a proposition avoids capture: the result is true exactly where the formula is true with
the truth value of the new formula, at the values outside all binders, for the proposition. The same
name with arguments is another name and means what it meant. -/
theorem replaceProp_avoids_capture (name : Name) (new f : Formula) (I : Interpretation D)
    (ρ : Variable → D) :
    ((f.replaceProp name new).holds I ρ ↔ f.holds (I.withProp name (new.holds I ρ)) ρ) ∧
    ∀ t ts truth σ, (atom (.named name) (t :: ts)).holds (I.withProp name truth) σ ↔
      (atom (.named name) (t :: ts)).holds I σ :=
  ⟨holds_replaceProp name new f I ρ, fun _ _ _ _ => holds_atom_withProp fun _ _ none => nomatch none⟩

/-- `y = z` for `P` in `∀y. P ∧ y = y`. -/
example : (Formula.all ⟨"y"⟩ (.and [.prop "P", .equal (.var ⟨"y"⟩) (.var ⟨"y"⟩)])).replaceProp
      (.plain "P") (.equal (.var ⟨"y"⟩) (.var ⟨"z"⟩)) =
    .all ⟨"y1"⟩ (.and [.equal (.var ⟨"y"⟩) (.var ⟨"z"⟩), .equal (.var ⟨"y1"⟩) (.var ⟨"y1"⟩)]) := by
  cbv

end Formula

end Sequitur
