import Sequitur.Proofs.Soundness

/-! Replacing equals by equals. A term may take the place of another one of the same value anywhere
in a formula, also where binders have to give way to its variables. A match of an equation beside a
formula that depends on one side of it therefore yields a consequence, whatever the symbols of the
formula mean. -/

namespace Sequitur

universe u

/-- Replacing equals by equals: where two terms have the same value, putting one in the place of the
other does not change the truth of a formula. A variable takes any value in this way: with a term in
its place the formula says of the term what it said of the variable. -/
theorem replace_equals {D : Type u} (I : Interpretation D) (ρ : Variable → D) (f : Formula)
    (new : Term) :
    (∀ target, target.value I ρ = new.value I ρ →
      ((f.replace target new).holds I ρ ↔ f.holds I ρ)) ∧
    ∀ v, (f.replace (.var v) new).holds I ρ ↔ f.holds I (Function.update ρ v (new.value I ρ)) := by
  constructor
  · intro target values
    exact Formula.holds_replace values fun _ _ _ => rfl
  · intro v
    apply Formula.holds_replace
    · rw [Term.value, Function.update_self]
    · intro x _ other
      refine Function.update_of_ne ?_ _ _
      rintro rfl
      exact other rfl

namespace Counting

def interpretation : Interpretation Nat where
  named _ _ := True
  pred _ ds := ds.IsChain (· = ·)
  namedTerm _ _ := 0
  fn _ _ := 0
  const _ := 0

def zero : Term := .const ⟨.plain "c"⟩

def attained : Formula := .and [.equal zero (.var ⟨"y"⟩), .ex ⟨"x"⟩ (.equal (.var ⟨"x"⟩) zero)]

def replaced : Formula :=
  .and [.equal (.var ⟨"x"⟩) (.var ⟨"y"⟩), .ex ⟨"x1"⟩ (.equal (.var ⟨"x1"⟩) (.var ⟨"x"⟩))]

end Counting

/-- With `x` for `c` the binder of `x` gives way. -/
theorem replace_equals_zero :
    Counting.zero.value Counting.interpretation (fun _ => 0) =
      (Term.var ⟨"x"⟩).value Counting.interpretation (fun _ => 0) ∧
    Counting.attained.replace Counting.zero (.var ⟨"x"⟩) = Counting.replaced ∧
    (Counting.replaced.holds Counting.interpretation (fun _ => 0) ↔
      Counting.attained.holds Counting.interpretation fun _ => 0) := by
  have values : Counting.zero.value Counting.interpretation (fun _ => 0) =
      (Term.var ⟨"x"⟩).value Counting.interpretation (fun _ => 0) := by
    simp [Counting.zero, Term.value, Counting.interpretation]
  have result : Counting.attained.replace Counting.zero (.var ⟨"x"⟩) = Counting.replaced := by cbv
  have same := (replace_equals Counting.interpretation (fun _ => 0) Counting.attained _).1 _ values
  exact ⟨values, result, result ▸ same⟩

namespace Catalogue

/-- The rule `x = y ∧ φ(x) ⇒ φ(y)` on a formula that it matches: the result exists, and wherever
equality means equality it is true if the formula is. -/
theorem equalReplace_follows {w : Transformation} (direction : w ∈ equalReplace.transformations)
    {f : Formula} {r : Bindings} (found : r ∈ w.pattern.matcher f .empty) :
    ∃ y g, r.term "y" = .ok y ∧ r.apply "phi" [y] = .ok g ∧ w.result r = .ok g ∧
      ∀ (D : Type u) (I : Interpretation D), I.Standard → ∀ ρ, f.holds I ρ → g.holds I ρ := by
  obtain rfl := List.mem_singleton.mp direction
  obtain ⟨_, _, _, _, y, a, _, _, _, _, boundy, bound, abstracts⟩ := exists_equated found
  have single : a.instantiate [y] = .ok (a.body.subst (.ofList (a.params.zip [y]))) :=
    Abstraction.instantiate_eq_ok.mpr ⟨abstracts.length_eq.symm, rfl⟩
  have term : r.term "y" = .ok y := Bindings.term_eq_ok.mpr boundy
  have applied := Bindings.apply_eq_ok.mpr ⟨a, bound, single⟩
  refine ⟨y, _, term, applied, bind_eq_ok.mpr ⟨y, term, applied⟩, ?_⟩
  intro D I standard ρ true
  exact holds_equalReplace standard found boundy bound single true

namespace Caught

def successor : Term := .app (.fn ⟨.plain "g", some 1, true⟩) [.var ⟨"z"⟩]

def below (t u : Term) : Formula := .atom (.pred ⟨.plain "q", 2, true⟩) [t, u]

/-- `g(z) = y ∧ ∃y. q(g(z), y)`. -/
def formula : Formula :=
  .and [.equal successor (.var ⟨"y"⟩), .ex ⟨"y"⟩ (below successor (.var ⟨"y"⟩))]

def replaced : Formula := .ex ⟨"y1"⟩ (below (.var ⟨"y"⟩) (.var ⟨"y1"⟩))

def found : Bindings :=
  ((Bindings.empty.insertTerm "x" successor).insertTerm "y" (.var ⟨"y"⟩)).insertFormula "phi"
    ⟨[⟨"p1"⟩], .ex ⟨"y"⟩ (below (.var ⟨"p1"⟩) (.var ⟨"y"⟩))⟩

/-- The equation is read the other way: `y` is the parameter, and it is not free. -/
def reversed : Bindings :=
  ((Bindings.empty.insertTerm "x" (.var ⟨"y"⟩)).insertTerm "y" successor).insertFormula "phi"
    ⟨[⟨"y"⟩], .ex ⟨"y"⟩ (below successor (.var ⟨"y"⟩))⟩

end Caught

/-- The term `g(z)` is replaced by a parameter, and then the parameter by `y`, before which the binder
of `y` gives way. -/
theorem equalReplace_follows_caught :
    Caught.found ∈ (Pattern.exactly .and [.equal "x" "y", .refAt "phi" [.ref "x"]]).matcher
      Caught.formula .empty ∧
    Caught.found.apply "phi" [.var ⟨"y"⟩] = .ok Caught.replaced ∧
    ∀ (D : Type) (I : Interpretation D), I.Standard →
      ∀ ρ, Caught.formula.holds I ρ → Caught.replaced.holds I ρ := by
  have results : (Pattern.exactly .and [.equal "x" "y", .refAt "phi" [.ref "x"]]).matcher
    Caught.formula .empty = [Caught.found, Caught.reversed] := by cbv
  have found : Caught.found ∈ (Pattern.exactly .and [.equal "x" "y", .refAt "phi" [.ref "x"]]).matcher
    Caught.formula .empty := by simp [results]
  have applied : Caught.found.apply "phi" [.var ⟨"y"⟩] = .ok Caught.replaced := by cbv
  obtain ⟨y, g, term, applied', -, follows⟩ :=
    equalReplace_follows (List.mem_singleton_self _) found
  have same : y = .var ⟨"y"⟩ := by
    rw [show Caught.found.term "y" = .ok (.var ⟨"y"⟩) by cbv] at term
    exact (Except.ok.inj term).symm
  subst same
  obtain rfl := Except.ok.inj (applied.symm.trans applied')
  exact ⟨found, applied, follows⟩

end Catalogue

end Sequitur
