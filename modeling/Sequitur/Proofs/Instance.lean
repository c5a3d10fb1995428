import Sequitur.Proofs.Arrangement
import Sequitur.Proofs.Syntax

/-! When one formula is an instance of another: its free variables have become terms, its bound
variables may have other names, and its commutative parts may stand in another order. Which
symbols count as the same is a parameter. Renaming, substitution, identity and matching all
produce instances, so the facts that they share are proved here once. -/

namespace Sequitur

open Arrangement

abbrev Change := Variable → Term → Prop

/-- The change below a binder of `v` that becomes a binder of `w`: no other variable may become
a term that the new binder would catch. -/
def Change.under (E : Change) (v w : Variable) : Change := fun x t =>
  (x = v ∧ t = .var w) ∨ (x ≠ v ∧ w ∉ t.vars ∧ E x t)

def Change.Renames (E : Change) : Prop := ∀ x t, E x t → ∃ y, t = .var y

theorem Change.Renames.under {E : Change} (renames : E.Renames) (v w : Variable) :
    (E.under v w).Renames := by
  rintro x t (⟨-, rfl⟩ | ⟨-, -, becomes⟩)
  · exact ⟨w, rfl⟩
  · exact renames x t becomes

/-- Variables that become the same variable become each other. -/
def Change.Meet (E E' E'' : Change) : Prop :=
  ∀ x x' y, E x (.var y) → E' x' (.var y) → E'' x (.var x')

theorem Change.Meet.under {E E' E'' : Change} (meet : Change.Meet E E' E'') (v v' w : Variable) :
    Change.Meet (E.under v w) (E'.under v' w) (E''.under v v') := by
  rintro x x' y (⟨rfl, here⟩ | ⟨apart, clear, becomes⟩) (⟨rfl, there⟩ | ⟨apart', clear', becomes'⟩)
  · exact .inl ⟨rfl, rfl⟩
  · exact absurd (by simp [Term.var.inj here]) clear'
  · exact absurd (by simp [Term.var.inj there]) clear
  · exact .inr ⟨apart, by simpa using Ne.symm apart', meet x x' y becomes becomes'⟩

inductive Term.Instance (R : Symbol → Symbol → Prop) (E : Change) : Term → Term → Prop
  | var {x : Variable} {t : Term} : E x t → Instance R E (.var x) t
  | const {c d : Constant} : R (.constant c) (.constant d) → Instance R E (.const c) (.const d)
  | app {f g : Operator} {ts us : List Term} {pairs : List (Term × Term)} :
      R (.operator f) (.operator g) → Pairing f.ordered pairs ts us →
      (∀ p ∈ pairs, Instance R E p.1 p.2) → Instance R E (.app f ts) (.app g us)

inductive Formula.Instance (R : Symbol → Symbol → Prop) : Change → Formula → Formula → Prop
  | atom {E : Change} {r s : Relation} {ts us : List Term} {pairs : List (Term × Term)} :
      R (.relation r) (.relation s) → Pairing r.ordered pairs ts us →
      (∀ p ∈ pairs, Term.Instance R E p.1 p.2) → Instance R E (.atom r ts) (.atom s us)
  | not {E : Change} {f g : Formula} : Instance R E f g → Instance R E (.not f) (.not g)
  | multi {E : Change} {c : Junction} {fs gs : List Formula} {pairs : List (Formula × Formula)} :
      Pairing false pairs fs gs → (∀ p ∈ pairs, Instance R E p.1 p.2) →
      Instance R E (.multi c fs) (.multi c gs)
  | imply {E : Change} {a b a' b' : Formula} : Instance R E a a' → Instance R E b b' →
      Instance R E (.imply a b) (.imply a' b')
  | equiv {E : Change} {a b a' b' : Formula} {pairs : List (Formula × Formula)} :
      Pairing false pairs [a, b] [a', b'] → (∀ p ∈ pairs, Instance R E p.1 p.2) →
      Instance R E (.equiv a b) (.equiv a' b')
  | bind {E : Change} {q : Quantifier} {v w : Variable} {f g : Formula} :
      Instance R (E.under v w) f g → Instance R E (.bind q v f) (.bind q w g)

section Symbols

variable {s : Symbol} {c : Constant} {op : Operator} {r : Relation} {ts : List Term}
  {j : Junction} {d : Arrow} {q : Quantifier} {v : Variable} {f a b : Formula} {fs : List Formula}

@[simp] theorem Term.mem_symbols_const : s ∈ (Term.const c).symbols ↔ s = .constant c := by
  simp [Term.symbols]

@[simp] theorem Term.mem_symbols_app :
    s ∈ (Term.app op ts).symbols ↔ s = .operator op ∨ ∃ t ∈ ts, s ∈ t.symbols := by
  simp [Term.symbols]

namespace Formula

@[simp] theorem mem_symbols_atom :
    s ∈ (atom r ts).symbols ↔ s = .relation r ∨ ∃ t ∈ ts, s ∈ t.symbols := by simp [symbols]

@[simp] theorem mem_symbols_not : s ∈ (Formula.not f).symbols ↔ s ∈ f.symbols := by simp [symbols]

@[simp] theorem mem_symbols_multi : s ∈ (multi j fs).symbols ↔ ∃ f ∈ fs, s ∈ f.symbols := by
  simp [symbols]

@[simp] theorem mem_symbols_link :
    s ∈ (link d a b).symbols ↔ s ∈ a.symbols ∨ s ∈ b.symbols := by simp [symbols]

theorem mem_symbols_sides : s ∈ (link d a b).symbols ↔ ∃ f ∈ [a, b], s ∈ f.symbols := by simp

theorem mem_freeVars_sides : v ∈ (link d a b).freeVars ↔ ∃ f ∈ [a, b], v ∈ f.freeVars := by simp

theorem mem_allVars_sides : v ∈ (link d a b).allVars ↔ ∃ f ∈ [a, b], v ∈ f.allVars := by simp

@[simp] theorem mem_symbols_bind : s ∈ (bind q v f).symbols ↔ s ∈ f.symbols := by simp [symbols]

end Formula

end Symbols

namespace Term.Instance

variable {R S T : Symbol → Symbol → Prop} {E E' E'' : Change} {t u w : Term}

/-- A variable of the instance comes from some variable of the term. -/
theorem exists_source (inst : Instance R E t u) {y : Variable} (occurs : y ∈ u.vars) :
    ∃ x ∈ t.vars, ∃ s, E x s ∧ y ∈ s.vars := by
  induction inst with
  | var becomes => exact ⟨_, by simp, _, becomes, occurs⟩
  | const _ => simp at occurs
  | app _ pairing _ ih =>
    obtain ⟨u, member, occurs⟩ := Term.mem_vars_app.mp occurs
    obtain ⟨t, source, pair⟩ := pairing.exists_left member
    obtain ⟨x, inside, s, becomes, occurs⟩ := ih _ pair occurs
    exact ⟨x, Term.mem_vars_app.mpr ⟨t, source, inside⟩, s, becomes, occurs⟩

/-- What a variable of the term becomes is part of the instance. -/
theorem exists_target (inst : Instance R E t u) {x : Variable} (occurs : x ∈ t.vars) :
    ∃ s, E x s ∧ ∀ y ∈ s.vars, y ∈ u.vars := by
  induction inst with
  | var becomes =>
    obtain rfl := Term.mem_vars_var.mp occurs
    exact ⟨_, becomes, fun _ inside => inside⟩
  | const _ => simp at occurs
  | app _ pairing _ ih =>
    obtain ⟨t, member, occurs⟩ := Term.mem_vars_app.mp occurs
    obtain ⟨u, target, pair⟩ := pairing.exists_right member
    obtain ⟨s, becomes, inside⟩ := ih _ pair occurs
    exact ⟨s, becomes, fun y occurs => Term.mem_vars_app.mpr ⟨u, target, inside y occurs⟩⟩

/-- Every symbol of the instance comes from the term or from what a variable became. -/
theorem exists_symbol (inst : Instance R E t u) {n : Symbol} (occurs : n ∈ u.symbols) :
    (∃ m ∈ t.symbols, R m n) ∨ ∃ x ∈ t.vars, ∃ s, E x s ∧ n ∈ s.symbols := by
  induction inst with
  | var becomes => exact .inr ⟨_, by simp, _, becomes, occurs⟩
  | const same =>
    obtain rfl := Term.mem_symbols_const.mp occurs
    exact .inl ⟨_, Term.mem_symbols_const.mpr rfl, same⟩
  | app same pairing _ ih =>
    rcases Term.mem_symbols_app.mp occurs with rfl | ⟨u, member, occurs⟩
    · exact .inl ⟨_, by simp, same⟩
    · obtain ⟨t, source, pair⟩ := pairing.exists_left member
      rcases ih _ pair occurs with ⟨m, inside, related⟩ | ⟨x, inside, rest⟩
      · exact .inl ⟨m, Term.mem_symbols_app.mpr (.inr ⟨t, source, inside⟩), related⟩
      · exact .inr ⟨x, Term.mem_vars_app.mpr ⟨t, source, inside⟩, rest⟩

theorem mono (inst : Instance R E t u)
    (symbols : ∀ s ∈ t.symbols, ∀ s' ∈ u.symbols, R s s' → S s s')
    (change : ∀ x ∈ t.vars, ∀ s, (∀ y ∈ s.vars, y ∈ u.vars) → E x s → E' x s) :
    Instance S E' t u := by
  induction inst with
  | var becomes => exact .var (change _ (by simp) _ (fun _ inside => inside) becomes)
  | const same => exact .const (symbols _ (by simp) _ (by simp) same)
  | app same pairing _ ih =>
    refine .app (symbols _ (by simp) _ (by simp) same) pairing fun p pair => ?_
    obtain ⟨first, second⟩ := pairing.mem pair
    apply ih p pair
    · intro s left s' right
      exact symbols s (by simp only [Term.mem_symbols_app]; exact .inr ⟨_, first, left⟩)
        s' (by simp only [Term.mem_symbols_app]; exact .inr ⟨_, second, right⟩)
    · intro x occurs s inside
      exact change x (Term.mem_vars_app.mpr ⟨_, first, occurs⟩) s
        fun y within => Term.mem_vars_app.mpr ⟨_, second, inside y within⟩

theorem refl (symbols : ∀ s, R s s) (keeps : ∀ x ∈ t.vars, E x (.var x)) : Instance R E t t := by
  induction t with
  | var v => exact .var (keeps v (by simp))
  | const c => exact .const (symbols _)
  | app op ts ih =>
    refine .app (symbols _) (.refl _ ts) ?_
    intro p pair
    obtain ⟨t, member, rfl⟩ := List.mem_map.mp pair
    exact ih t member fun x occurs => keeps x (Term.mem_vars_app.mpr ⟨t, member, occurs⟩)

/-- An instance of an instance. -/
theorem comp (first : Instance R E t u) (second : Instance S E' u w)
    (flags : ∀ s m, R s m → s.ordered = m.ordered) (symbols : ∀ s m n, R s m → S m n → T s n) :
    Instance T (fun x s => ∃ m, E x m ∧ Instance S E' m s) t w := by
  induction first generalizing w with
  | var becomes => exact .var ⟨_, becomes, second⟩
  | const same =>
    cases second with
    | const same' => exact .const (symbols _ _ _ same same')
  | @app f g _ _ _ same pairing _ ih =>
    cases second with
    | app same' pairing' all =>
      have order : f.ordered = g.ordered := flags _ _ same
      rw [← order] at pairing'
      obtain ⟨through, pairing'', meet⟩ := pairing.trans pairing'
      refine .app (symbols _ _ _ same same') pairing'' fun p pair => ?_
      obtain ⟨y, left, right⟩ := meet p pair
      exact ih _ left (all _ right)

/-- Two instances of one term are instances of each other where what becomes of its variables
is. -/
theorem span (first : Instance R E t u) (second : Instance S E' t w)
    (flags : ∀ s m, R s m → s.ordered = m.ordered) (symbols : ∀ s m n, R s m → S s n → T m n)
    (meet : ∀ x ∈ t.vars, ∀ m n, E x m → E' x n → Instance T E'' m n) : Instance T E'' u w := by
  induction first generalizing w with
  | var becomes =>
    cases second with
    | var becomes' => exact meet _ (by simp) _ _ becomes becomes'
  | const same =>
    cases second with
    | const same' => exact .const (symbols _ _ _ same same')
  | @app f g _ _ _ same pairing _ ih =>
    cases second with
    | app same' pairing' all =>
      have order : f.ordered = g.ordered := flags _ _ same
      obtain ⟨across, pairing'', from_both⟩ := pairing.span pairing'
      rw [order] at pairing''
      refine .app (symbols _ _ _ same same') pairing'' fun p pair => ?_
      obtain ⟨y, left, right⟩ := from_both p pair
      refine ih _ left (all _ right) ?_
      intro x occurs
      exact meet x (Term.mem_vars_app.mpr ⟨y, (pairing.mem left).1, occurs⟩)

/-- Two terms with a common instance are instances of each other where their variables are. The order
of arguments has to be read alike in both terms, whatever the instance says. -/
theorem cospan (first : Instance R E t w) (second : Instance S E' u w)
    (flags : ∀ s ∈ t.symbols, ∀ m ∈ u.symbols, T s m → s.ordered = m.ordered)
    (symbols : ∀ s m n, R s n → S m n → T s m) (renames : E.Renames) (renames' : E'.Renames)
    (meet : Change.Meet E E' E'') : Instance T E'' t u := by
  induction first generalizing u with
  | @var x w becomes =>
    obtain ⟨y, rfl⟩ := renames x w becomes
    cases second with
    | var becomes' => exact .var (meet _ _ y becomes becomes')
  | const same =>
    cases second with
    | var becomes' =>
      obtain ⟨y, impossible⟩ := renames' _ _ becomes'
      cases impossible
    | const same' => exact .const (symbols _ _ _ same same')
  | @app f g ts _ _ same pairing _ ih =>
    cases second with
    | var becomes' =>
      obtain ⟨y, impossible⟩ := renames' _ _ becomes'
      cases impossible
    | @app f' _ us _ _ same' pairing' all =>
      have related := symbols _ _ _ same same'
      have order : f.ordered = f'.ordered := flags _ (by simp) _ (by simp) related
      rw [← order] at pairing'
      obtain ⟨across, pairing'', from_both⟩ := pairing.cospan pairing'
      refine .app related pairing'' fun p pair => ?_
      obtain ⟨y, left, right⟩ := from_both p pair
      obtain ⟨inside, inside'⟩ := pairing''.mem pair
      refine ih _ left (all _ right) fun s occurs m occurs' => flags s ?_ m ?_
      · exact Term.mem_symbols_app.mpr (.inr ⟨_, inside, occurs⟩)
      · exact Term.mem_symbols_app.mpr (.inr ⟨_, inside', occurs'⟩)

end Term.Instance

namespace Formula.Instance

variable {R S T : Symbol → Symbol → Prop} {E E' E'' : Change} {f g h : Formula}

theorem exists_source (inst : Instance R E f g) {y : Variable} (free : y ∈ g.freeVars) :
    ∃ x ∈ f.freeVars, ∃ s, E x s ∧ y ∈ s.vars := by
  induction inst with
  | atom _ pairing all =>
    obtain ⟨u, member, occurs⟩ := mem_freeVars_atom.mp free
    obtain ⟨t, source, pair⟩ := pairing.exists_left member
    obtain ⟨x, inside, s, becomes, occurs⟩ := (all _ pair).exists_source occurs
    exact ⟨x, mem_freeVars_atom.mpr ⟨t, source, inside⟩, s, becomes, occurs⟩
  | not _ ih => simpa using ih (by simpa using free)
  | multi pairing _ ih =>
    obtain ⟨g, member, free⟩ := mem_freeVars_multi.mp free
    obtain ⟨f, source, pair⟩ := pairing.exists_left member
    obtain ⟨x, inside, s, becomes, occurs⟩ := ih _ pair free
    exact ⟨x, mem_freeVars_multi.mpr ⟨f, source, inside⟩, s, becomes, occurs⟩
  | imply _ _ iha ihb =>
    rcases mem_freeVars_link.mp free with free | free
    · obtain ⟨x, inside, rest⟩ := iha free
      exact ⟨x, mem_freeVars_link.mpr (.inl inside), rest⟩
    · obtain ⟨x, inside, rest⟩ := ihb free
      exact ⟨x, mem_freeVars_link.mpr (.inr inside), rest⟩
  | equiv pairing _ ih =>
    obtain ⟨g, member, free⟩ := mem_freeVars_sides.mp free
    obtain ⟨f, source, pair⟩ := pairing.exists_left member
    obtain ⟨x, inside, rest⟩ := ih _ pair free
    exact ⟨x, mem_freeVars_sides.mpr ⟨f, source, inside⟩, rest⟩
  | bind _ ih =>
    obtain ⟨free, other⟩ := mem_freeVars_bind.mp free
    obtain ⟨x, inside, s, ⟨rfl, rfl⟩ | ⟨apart, _, becomes⟩, occurs⟩ := ih free
    · exact absurd (Term.mem_vars_var.mp occurs) other
    · exact ⟨x, mem_freeVars_bind.mpr ⟨inside, apart⟩, s, becomes, occurs⟩

theorem exists_target (inst : Instance R E f g) {x : Variable} (free : x ∈ f.freeVars) :
    ∃ s, E x s ∧ ∀ y ∈ s.vars, y ∈ g.freeVars := by
  induction inst with
  | atom _ pairing all =>
    obtain ⟨t, member, occurs⟩ := mem_freeVars_atom.mp free
    obtain ⟨u, target, pair⟩ := pairing.exists_right member
    obtain ⟨s, becomes, inside⟩ := (all _ pair).exists_target occurs
    exact ⟨s, becomes, fun y occurs => mem_freeVars_atom.mpr ⟨u, target, inside y occurs⟩⟩
  | not _ ih => simpa using ih (by simpa using free)
  | multi pairing _ ih =>
    obtain ⟨f, member, free⟩ := mem_freeVars_multi.mp free
    obtain ⟨g, target, pair⟩ := pairing.exists_right member
    obtain ⟨s, becomes, inside⟩ := ih _ pair free
    exact ⟨s, becomes, fun y occurs => mem_freeVars_multi.mpr ⟨g, target, inside y occurs⟩⟩
  | imply _ _ iha ihb =>
    rcases mem_freeVars_link.mp free with free | free
    · obtain ⟨s, becomes, inside⟩ := iha free
      exact ⟨s, becomes, fun y occurs => mem_freeVars_link.mpr (.inl (inside y occurs))⟩
    · obtain ⟨s, becomes, inside⟩ := ihb free
      exact ⟨s, becomes, fun y occurs => mem_freeVars_link.mpr (.inr (inside y occurs))⟩
  | equiv pairing _ ih =>
    obtain ⟨f, member, free⟩ := mem_freeVars_sides.mp free
    obtain ⟨g, target, pair⟩ := pairing.exists_right member
    obtain ⟨s, becomes, inside⟩ := ih _ pair free
    exact ⟨s, becomes, fun y occurs => mem_freeVars_sides.mpr ⟨g, target, inside y occurs⟩⟩
  | bind _ ih =>
    obtain ⟨free, other⟩ := mem_freeVars_bind.mp free
    obtain ⟨s, ⟨same, _⟩ | ⟨_, clear, becomes⟩, inside⟩ := ih free
    · exact absurd same other
    · refine ⟨s, becomes, fun y occurs => mem_freeVars_bind.mpr ⟨inside y occurs, ?_⟩⟩
      rintro rfl
      exact clear occurs

theorem exists_symbol (inst : Instance R E f g) {n : Symbol} (occurs : n ∈ g.symbols) :
    (∃ m ∈ f.symbols, R m n) ∨ ∃ x ∈ f.freeVars, ∃ s, E x s ∧ n ∈ s.symbols := by
  induction inst with
  | atom same pairing all =>
    rcases mem_symbols_atom.mp occurs with rfl | ⟨u, member, occurs⟩
    · exact .inl ⟨_, by simp, same⟩
    · obtain ⟨t, source, pair⟩ := pairing.exists_left member
      rcases (all _ pair).exists_symbol occurs with ⟨m, inside, related⟩ | ⟨x, inside, rest⟩
      · exact .inl ⟨m, mem_symbols_atom.mpr (.inr ⟨t, source, inside⟩), related⟩
      · exact .inr ⟨x, mem_freeVars_atom.mpr ⟨t, source, inside⟩, rest⟩
  | not _ ih => simpa using ih (by simpa using occurs)
  | multi pairing _ ih =>
    obtain ⟨g, member, occurs⟩ := mem_symbols_multi.mp occurs
    obtain ⟨f, source, pair⟩ := pairing.exists_left member
    rcases ih _ pair occurs with ⟨m, inside, related⟩ | ⟨x, inside, rest⟩
    · exact .inl ⟨m, mem_symbols_multi.mpr ⟨f, source, inside⟩, related⟩
    · exact .inr ⟨x, mem_freeVars_multi.mpr ⟨f, source, inside⟩, rest⟩
  | imply _ _ iha ihb =>
    rcases mem_symbols_link.mp occurs with occurs | occurs
    · rcases iha occurs with ⟨m, inside, related⟩ | ⟨x, inside, rest⟩
      · exact .inl ⟨m, mem_symbols_link.mpr (.inl inside), related⟩
      · exact .inr ⟨x, mem_freeVars_link.mpr (.inl inside), rest⟩
    · rcases ihb occurs with ⟨m, inside, related⟩ | ⟨x, inside, rest⟩
      · exact .inl ⟨m, mem_symbols_link.mpr (.inr inside), related⟩
      · exact .inr ⟨x, mem_freeVars_link.mpr (.inr inside), rest⟩
  | equiv pairing _ ih =>
    obtain ⟨g, member, occurs⟩ := mem_symbols_sides.mp occurs
    obtain ⟨f, source, pair⟩ := pairing.exists_left member
    rcases ih _ pair occurs with ⟨m, inside, related⟩ | ⟨x, inside, rest⟩
    · exact .inl ⟨m, mem_symbols_sides.mpr ⟨f, source, inside⟩, related⟩
    · exact .inr ⟨x, mem_freeVars_sides.mpr ⟨f, source, inside⟩, rest⟩
  | bind _ ih =>
    rcases ih (by simpa using occurs) with ⟨m, inside, related⟩ | ⟨x, inside, s, becomes, within⟩
    · exact .inl ⟨m, mem_symbols_bind.mpr inside, related⟩
    · rcases becomes with ⟨-, rfl⟩ | ⟨apart, -, becomes⟩
      · simp [Term.symbols] at within
      · exact .inr ⟨x, mem_freeVars_bind.mpr ⟨inside, apart⟩, s, becomes, within⟩

theorem mono (inst : Instance R E f g)
    (symbols : ∀ s ∈ f.symbols, ∀ s' ∈ g.symbols, R s s' → S s s')
    (change : ∀ x ∈ f.freeVars, ∀ s, (∀ y ∈ s.vars, y ∈ g.freeVars) → E x s → E' x s) :
    Instance S E' f g := by
  induction inst generalizing E' with
  | atom same pairing all =>
    refine .atom (symbols _ (by simp) _ (by simp) same) pairing fun p pair => ?_
    obtain ⟨first, second⟩ := pairing.mem pair
    apply (all p pair).mono
    · intro s left s' right
      exact symbols s (mem_symbols_atom.mpr (.inr ⟨_, first, left⟩))
        s' (mem_symbols_atom.mpr (.inr ⟨_, second, right⟩))
    · intro x occurs s inside
      exact change x (mem_freeVars_atom.mpr ⟨_, first, occurs⟩) s
        fun y within => mem_freeVars_atom.mpr ⟨_, second, inside y within⟩
  | not _ ih => exact .not (ih (by simpa using symbols) (by simpa using change))
  | multi pairing _ ih =>
    refine .multi pairing fun p pair => ?_
    obtain ⟨first, second⟩ := pairing.mem pair
    apply ih p pair
    · intro s left s' right
      exact symbols s (mem_symbols_multi.mpr ⟨_, first, left⟩)
        s' (mem_symbols_multi.mpr ⟨_, second, right⟩)
    · intro x free s inside
      exact change x (mem_freeVars_multi.mpr ⟨_, first, free⟩) s
        fun y within => mem_freeVars_multi.mpr ⟨_, second, inside y within⟩
  | imply _ _ iha ihb =>
    simp only [mem_symbols_link, mem_freeVars_link] at symbols change
    exact .imply
      (iha (fun s left s' right => symbols s (.inl left) s' (.inl right))
        fun x free s inside => change x (.inl free) s fun y within => .inl (inside y within))
      (ihb (fun s left s' right => symbols s (.inr left) s' (.inr right))
        fun x free s inside => change x (.inr free) s fun y within => .inr (inside y within))
  | equiv pairing _ ih =>
    refine .equiv pairing fun p pair => ?_
    obtain ⟨first, second⟩ := pairing.mem pair
    apply ih p pair
    · intro s left s' right
      exact symbols s (mem_symbols_sides.mpr ⟨_, first, left⟩)
        s' (mem_symbols_sides.mpr ⟨_, second, right⟩)
    · intro x free s inside
      exact change x (mem_freeVars_sides.mpr ⟨_, first, free⟩) s
        fun y within => mem_freeVars_sides.mpr ⟨_, second, inside y within⟩
  | bind _ ih =>
    refine .bind (ih (by simpa using symbols) ?_)
    rintro x free s inside (here | ⟨apart, clear, becomes⟩)
    · exact .inl here
    · refine .inr ⟨apart, clear, change x (mem_freeVars_bind.mpr ⟨free, apart⟩) s ?_ becomes⟩
      intro y within
      refine mem_freeVars_bind.mpr ⟨inside y within, ?_⟩
      rintro rfl
      exact clear within

/-- What becomes of a free variable stays free. -/
theorem contained (inst : Instance R E f g) :
    Instance R (fun x s => E x s ∧ ∀ y ∈ s.vars, y ∈ g.freeVars) f g :=
  inst.mono (fun _ _ _ _ same => same) fun _ _ _ inside becomes => ⟨becomes, inside⟩

theorem refl (symbols : ∀ s, R s s) (keeps : ∀ x ∈ f.freeVars, E x (.var x)) :
    Instance R E f f := by
  induction f generalizing E with
  | atom r ts =>
    refine .atom (symbols _) (.refl _ ts) ?_
    intro p pair
    obtain ⟨t, member, rfl⟩ := List.mem_map.mp pair
    exact .refl symbols fun x occurs => keeps x (mem_freeVars_atom.mpr ⟨t, member, occurs⟩)
  | not f ih => exact .not (ih (by simpa using keeps))
  | multi c fs ih =>
    refine .multi (.refl _ fs) ?_
    intro p pair
    obtain ⟨f, member, rfl⟩ := List.mem_map.mp pair
    exact ih f member fun x free => keeps x (mem_freeVars_multi.mpr ⟨f, member, free⟩)
  | link c a b iha ihb =>
    have left := iha fun x free => keeps x (mem_freeVars_link.mpr (.inl free))
    have right := ihb fun x free => keeps x (mem_freeVars_link.mpr (.inr free))
    cases c with
    | imply => exact .imply left right
    | equiv => exact .equiv (.refl _ [a, b]) (by simpa using ⟨left, right⟩)
  | bind q v f ih =>
    refine .bind (ih fun x free => ?_)
    by_cases here : x = v
    · exact .inl ⟨here, by rw [here]⟩
    · refine .inr ⟨here, ?_, keeps x (mem_freeVars_bind.mpr ⟨free, here⟩)⟩
      simpa using Ne.symm here

theorem comp (first : Instance R E f g) (second : Instance S E' g h)
    (flags : ∀ s m, R s m → s.ordered = m.ordered) (symbols : ∀ s m n, R s m → S m n → T s n) :
    Instance T (fun x s => ∃ m, E x m ∧ Term.Instance S E' m s) f h := by
  induction first generalizing E' h with
  | @atom _ r s _ _ _ same pairing all =>
    cases second with
    | atom same' pairing' all' =>
      have order : r.ordered = s.ordered := flags _ _ same
      rw [← order] at pairing'
      obtain ⟨through, pairing'', meet⟩ := pairing.trans pairing'
      refine .atom (symbols _ _ _ same same') pairing'' fun p pair => ?_
      obtain ⟨y, left, right⟩ := meet p pair
      exact (all _ left).comp (all' _ right) flags symbols
  | not _ ih =>
    cases second with
    | not second => exact .not (ih second)
  | multi pairing _ ih =>
    cases second with
    | multi pairing' all =>
      obtain ⟨through, pairing'', meet⟩ := pairing.trans pairing'
      refine .multi pairing'' fun p pair => ?_
      obtain ⟨y, left, right⟩ := meet p pair
      exact ih _ left (all _ right)
  | imply _ _ iha ihb =>
    cases second with
    | imply left right => exact .imply (iha left) (ihb right)
  | equiv pairing _ ih =>
    cases second with
    | equiv pairing' all =>
      obtain ⟨through, pairing'', meet⟩ := pairing.trans pairing'
      refine .equiv pairing'' fun p pair => ?_
      obtain ⟨y, left, right⟩ := meet p pair
      exact ih _ left (all _ right)
  | @bind E q v w _ _ _ ih =>
    cases second with
    | @bind _ _ _ z _ _ second =>
      refine .bind ((ih second).mono (fun _ _ _ _ same => same) ?_)
      rintro x free s - ⟨m, ⟨rfl, rfl⟩ | ⟨apart, clear, becomes⟩, inst⟩
      · cases inst with
        | var becomes =>
          rcases becomes with ⟨-, here⟩ | ⟨apart, -⟩
          · exact .inl ⟨rfl, here⟩
          · exact absurd rfl apart
      · -- the middle term does not mention the bound variable, so it stays in the outer change
        have outer : ∀ y ∈ m.vars, ∀ s, (E'.under w z) y s → z ∉ s.vars ∧ E' y s := by
          rintro y occurs s (⟨rfl, -⟩ | ⟨-, clear', becomes⟩)
          · exact absurd occurs clear
          · exact ⟨clear', becomes⟩
        refine .inr ⟨apart, fun caught => ?_, m, becomes, ?_⟩
        · obtain ⟨y, occurs, s, becomes, inside⟩ := inst.exists_source caught
          exact (outer y occurs s becomes).1 inside
        · exact inst.mono (fun _ _ _ _ same => same)
            fun y occurs s _ becomes => (outer y occurs s becomes).2

theorem span (first : Instance R E f g) (second : Instance S E' f h)
    (flags : ∀ s m, R s m → s.ordered = m.ordered) (symbols : ∀ s m n, R s m → S s n → T m n)
    (meet : ∀ x ∈ f.freeVars, ∀ m n, E x m → E' x n → Term.Instance T E'' m n) :
    Instance T E'' g h := by
  induction first generalizing E' E'' h with
  | @atom _ r s _ _ _ same pairing all =>
    cases second with
    | atom same' pairing' all' =>
      have order : r.ordered = s.ordered := flags _ _ same
      obtain ⟨across, pairing'', from_both⟩ := pairing.span pairing'
      rw [order] at pairing''
      refine .atom (symbols _ _ _ same same') pairing'' fun p pair => ?_
      obtain ⟨y, left, right⟩ := from_both p pair
      refine (all _ left).span (all' _ right) flags symbols ?_
      intro x occurs
      exact meet x (mem_freeVars_atom.mpr ⟨y, (pairing.mem left).1, occurs⟩)
  | not _ ih =>
    cases second with
    | not second => exact .not (ih second (by simpa using meet))
  | multi pairing _ ih =>
    cases second with
    | multi pairing' all =>
      obtain ⟨across, pairing'', from_both⟩ := pairing.span pairing'
      refine .multi pairing'' fun p pair => ?_
      obtain ⟨y, left, right⟩ := from_both p pair
      refine ih _ left (all _ right) ?_
      intro x free
      exact meet x (mem_freeVars_multi.mpr ⟨y, (pairing.mem left).1, free⟩)
  | imply _ _ iha ihb =>
    cases second with
    | imply left right =>
      exact .imply (iha left fun x free => meet x (mem_freeVars_link.mpr (.inl free)))
        (ihb right fun x free => meet x (mem_freeVars_link.mpr (.inr free)))
  | equiv pairing _ ih =>
    cases second with
    | equiv pairing' all =>
      obtain ⟨across, pairing'', from_both⟩ := pairing.span pairing'
      refine .equiv pairing'' fun p pair => ?_
      obtain ⟨y, left, right⟩ := from_both p pair
      refine ih _ left (all _ right) ?_
      intro x free
      exact meet x (mem_freeVars_sides.mpr ⟨y, (pairing.mem left).1, free⟩)
  | bind _ ih =>
    cases second with
    | bind second =>
      refine .bind (ih second ?_)
      rintro x free m n (⟨rfl, rfl⟩ | ⟨apart, clear, becomes⟩) (⟨here, rfl⟩ | ⟨apart', clear', becomes'⟩)
      · exact .var (.inl ⟨rfl, rfl⟩)
      · exact absurd rfl apart'
      · exact absurd here apart
      · refine (meet x (mem_freeVars_bind.mpr ⟨free, apart⟩) m n becomes becomes').mono
          (fun _ _ _ _ same => same) ?_
        intro y occurs s inside becomes
        refine .inr ⟨?_, fun caught => clear' (inside _ caught), becomes⟩
        rintro rfl
        exact clear occurs

theorem cospan (first : Instance R E f h) (second : Instance S E' g h)
    (flags : ∀ s ∈ f.symbols, ∀ m ∈ g.symbols, T s m → s.ordered = m.ordered)
    (symbols : ∀ s m n, R s n → S m n → T s m) (renames : E.Renames) (renames' : E'.Renames)
    (meet : Change.Meet E E' E'') : Instance T E'' f g := by
  induction first generalizing E' E'' g with
  | @atom _ r s _ _ _ same pairing all =>
    cases second with
    | @atom _ r' _ _ _ _ same' pairing' all' =>
      have related := symbols _ _ _ same same'
      have order : r.ordered = r'.ordered := flags _ (by simp) _ (by simp) related
      rw [← order] at pairing'
      obtain ⟨across, pairing'', from_both⟩ := pairing.cospan pairing'
      refine .atom related pairing'' fun p pair => ?_
      obtain ⟨y, left, right⟩ := from_both p pair
      obtain ⟨inside, inside'⟩ := pairing''.mem pair
      refine (all _ left).cospan (all' _ right) (fun s occurs m occurs' => flags s ?_ m ?_) symbols
        renames renames' meet
      · exact mem_symbols_atom.mpr (.inr ⟨_, inside, occurs⟩)
      · exact mem_symbols_atom.mpr (.inr ⟨_, inside', occurs'⟩)
  | not _ ih =>
    cases second with
    | not second => exact .not (ih second (by simpa using flags) renames renames' meet)
  | multi pairing _ ih =>
    cases second with
    | multi pairing' all =>
      obtain ⟨across, pairing'', from_both⟩ := pairing.cospan pairing'
      refine .multi pairing'' fun p pair => ?_
      obtain ⟨y, left, right⟩ := from_both p pair
      obtain ⟨inside, inside'⟩ := pairing''.mem pair
      refine ih _ left (all _ right) (fun s occurs m occurs' => flags s ?_ m ?_) renames renames' meet
      · exact mem_symbols_multi.mpr ⟨_, inside, occurs⟩
      · exact mem_symbols_multi.mpr ⟨_, inside', occurs'⟩
  | imply _ _ iha ihb =>
    simp only [mem_symbols_link] at flags
    cases second with
    | imply left right =>
      simp only [mem_symbols_link] at flags
      exact .imply
        (iha left (fun s occurs m occurs' => flags s (.inl occurs) m (.inl occurs')) renames renames'
          meet)
        (ihb right (fun s occurs m occurs' => flags s (.inr occurs) m (.inr occurs')) renames renames'
          meet)
  | equiv pairing _ ih =>
    cases second with
    | equiv pairing' all =>
      obtain ⟨across, pairing'', from_both⟩ := pairing.cospan pairing'
      refine .equiv pairing'' fun p pair => ?_
      obtain ⟨y, left, right⟩ := from_both p pair
      obtain ⟨inside, inside'⟩ := pairing''.mem pair
      refine ih _ left (all _ right) (fun s occurs m occurs' => flags s ?_ m ?_) renames renames' meet
      · exact mem_symbols_sides.mpr ⟨_, inside, occurs⟩
      · exact mem_symbols_sides.mpr ⟨_, inside', occurs'⟩
  | @bind _ _ v w _ _ _ ih =>
    cases second with
    | @bind _ _ v' _ _ _ second =>
      exact .bind (ih second (by simpa using flags) (renames.under v w) (renames'.under v' w)
        (meet.under v v' w))

end Formula.Instance

end Sequitur
