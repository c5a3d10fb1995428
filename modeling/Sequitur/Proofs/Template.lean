import Mathlib
import Sequitur.Proofs.Abstraction
import Sequitur.Template

/-! Filling in a template with what matching it has found. The result is the formula again, up to
bound names and the order of commutative parts, if the names that are bound, made up and renamed
on the way stay apart. -/

namespace Sequitur

open Arrangement

/-- If the results fit what the sources are paired with, the lists of both can be paired. -/
theorem exists_mapM {α β γ : Type} {result : α → Except Error β} {related : β → γ → Prop}
    {ordered : Bool} {pairs : List (α × γ)} {xs : List α} {zs : List γ}
    (pairing : Pairing ordered pairs xs zs)
    (each : ∀ p ∈ pairs, ∃ y, result p.1 = .ok y ∧ related y p.2) :
    ∃ ys results, xs.mapM result = .ok ys ∧ Pairing ordered results ys zs ∧
      ∀ p ∈ results, related p.1 p.2 := by
  obtain ⟨rfl, second⟩ := pairing
  have lists : ∃ results : List (β × γ), (pairs.map Prod.fst).mapM result =
      .ok (results.map Prod.fst) ∧ results.map Prod.snd = pairs.map Prod.snd ∧
        ∀ p ∈ results, related p.1 p.2 := by
    clear second
    induction pairs with
    | nil => exact ⟨[], rfl, rfl, by simp⟩
    | cons p pairs ih =>
      obtain ⟨y, here, fits⟩ := each p (by simp)
      obtain ⟨results, rest, seconds, all⟩ := ih fun q member => each q (by simp [member])
      refine ⟨(y, p.2) :: results, ?_, by simp [seconds], List.forall_mem_cons.mpr ⟨fits, all⟩⟩
      rw [List.map_cons, List.mapM_cons, here, rest]
      rfl
  obtain ⟨results, ok, seconds, all⟩ := lists
  exact ⟨_, results, ok, ⟨rfl, by rwa [seconds]⟩, all⟩

namespace Formula

def applications : Formula → List (Name × List Term)
  | .atom (.named n) ts => [(n, ts)]
  | .atom (.pred _) _ => []
  | .not f => f.applications
  | .multi _ fs => fs.flatMap fun f => f.applications
  | .link _ a b => a.applications ++ b.applications
  | .bind _ _ f => f.applications

theorem uses_ofTemplate (template : Formula) : (Pattern.ofTemplate template).uses =
    template.applications.map fun a => (a.1.full, a.2.length) := by
  induction template with
  | atom s ts =>
    cases s with
    | named n => cases ts <;> simp [Pattern.ofTemplate, Pattern.uses, applications]
    | pred p => simp [Pattern.ofTemplate, Pattern.uses, applications]
  | not f ih => simpa [Pattern.ofTemplate, Pattern.uses, applications] using ih
  | multi c fs ih =>
    simp only [Pattern.ofTemplate, Pattern.exactly, Pattern.uses, applications, List.append_nil,
      List.flatMap_map, List.map_flatMap]
    exact List.flatMap_congr ih
  | link c a b iha ihb => simp [Pattern.ofTemplate, Pattern.uses, applications, iha, ihb]
  | bind q v f ih => simpa [Pattern.ofTemplate, Pattern.uses, applications] using ih

/-- A part that stands in the scope of no further quantifier. -/
structure Part (f g : Formula) : Prop where
  free : ∀ x ∈ g.freeVars, x ∈ f.freeVars
  all : ∀ x ∈ g.allVars, x ∈ f.allVars
  binder : ∀ x ∈ g.binders, x ∈ f.binders
  application : ∀ a ∈ g.applications, a ∈ f.applications
  apart : ∀ V, f.Apart V → g.Apart V

namespace Part

variable {f a b : Formula} {fs : List Formula} {c : Junction} {d : Arrow}

theorem negated (f : Formula) : (Formula.not f).Part f := by
  constructor <;> simp [applications, binders, Apart]

theorem member (c : Junction) (inside : f ∈ fs) : (multi c fs).Part f where
  free x free := mem_freeVars_multi.mpr ⟨f, inside, free⟩
  all x occurs := mem_allVars_multi.mpr ⟨f, inside, occurs⟩
  binder x bound := by
    rw [binders]
    exact List.mem_flatMap.mpr ⟨f, inside, bound⟩
  application a used := by
    rw [applications]
    exact List.mem_flatMap.mpr ⟨f, inside, used⟩
  apart V apart := by
    rw [Apart] at apart
    exact apart f inside

theorem left (d : Arrow) (a b : Formula) : (link d a b).Part a := by
  constructor <;> simp +contextual [applications, binders, Apart]

theorem right (d : Arrow) (a b : Formula) : (link d a b).Part b := by
  constructor <;> simp +contextual [applications, binders, Apart]

end Part

def FreeWith (f : Formula) (r : Bindings) (x : Variable) : Prop :=
  x ∈ f.freeVars ∨ ∃ name t, r.term? name = some t ∧ x ∈ t.vars

/-- The names in a template and in the formula that was matched stay apart. -/
structure Recoverable (template f : Formula) (r : Bindings) : Prop where
  /-- Every free variable of the template has been found. -/
  bound : ∀ x ∈ template.freeVars, ∃ t, r.term? x.name = some t
  /-- A bare name has the same number of parameters wherever it is used. -/
  arity : ∀ a ∈ template.applications, ∀ b ∈ template.applications, a.1.full = b.1.full →
    a.2.length = b.2.length
  /-- Binders of the formula catch nothing that stands free, and no variable is bound twice. -/
  apart : f.Apart (f.FreeWith r)
  /-- Binders of the template that differ still do when they have been renamed. -/
  renamed : ∀ x ∈ template.binders, ∀ y ∈ template.binders,
    templateBinder r.vars x = templateBinder r.vars y → x = y
  /-- With several parameters, no variable is mistaken for one that was made up. -/
  unmistakable : (∃ a ∈ template.applications, 1 < a.2.length) → ∀ i,
    .numbered "p" i ∉ f.binders ∧ ∀ name t, r.term? name = some t → .numbered "p" i ∉ t.vars

def supply (template f : Formula) : Supply where
  var x := x ∈ f.freeVars
  symbol _ := True
  arity name n := ∃ a ∈ template.applications, a.1.full = name ∧ a.2.length = n

structure Matched (template f : Formula) (r : Bindings) : Prop extends
    template.Recoverable f r where
  parameters : ∀ a ∈ template.applications, ∀ t ∈ a.2, ∃ x, t = .var x
  reserved : ∀ x ∈ template.allVars, ∀ i, x ≠ .numbered "#" i
  found : ∀ {name a}, r.formula? name = some a → (template.supply f).HasAbstraction name a

theorem templateBinder_not_mem (taken : VarSet) (v : Variable) : templateBinder taken v ∉ taken := by
  unfold templateBinder
  split
  · exact Variable.fresh_not_mem v.name taken
  · rename_i free
    simpa using free

end Formula

theorem Term.fillAll_eq (r : Bindings) (scope : TemplateScope) (ts : List Term) :
    fillAll r scope ts = ts.mapM (fill r scope) := by
  induction ts with
  | nil => rfl
  | cons t ts ih => rw [fillAll, List.mapM_cons, ih]

theorem Formula.fillAllUnder_eq (r : Bindings) (taken : VarSet) (scope : TemplateScope)
    (fs : List Formula) : fillAllUnder r taken scope fs = fs.mapM (fillUnder r taken scope) := by
  induction fs with
  | nil => rfl
  | cons f fs ih => rw [fillAllUnder, List.mapM_cons, ih]

/-- A quantifier on the way to a part of a template: the variable it binds there, the variable it
binds in the formula that was matched, and the one it binds in the result. -/
structure Passed where
  own : Variable
  met : Variable
  new : Variable

namespace Passed

variable {r : Bindings} {passed : List Passed} {x : Variable} {name : String}

def bindings (r : Bindings) (passed : List Passed) : Bindings :=
  passed.foldr (fun b r => r.insertTerm b.own.name (.var b.met)) r

def scope (passed : List Passed) : TemplateScope := passed.map fun b => (b.own, b.new)

def pairs (passed : List Passed) : BinderPairs := passed.map fun b => (b.new, b.met)

/-- Whatever fits the term `t` of the template is an instance of `s`. -/
def Covers (r : Bindings) (passed : List Passed) (s t : Term) : Prop :=
  ∀ u, (TermPattern.ofTerm t).Fits (bindings r passed) u →
    Term.Instance Symbol.Same (pairs passed).change s u

@[simp] theorem formula?_bindings : (bindings r passed).formula? name = r.formula? name := by
  induction passed with
  | nil => rfl
  | cons b passed ih => exact ih

theorem term?_bindings_cons (b : Passed) (passed : List Passed) :
    (bindings r (b :: passed)).term? x.name =
      if x = b.own then some (.var b.met) else (bindings r passed).term? x.name := by
  have names : b.own.name = x.name ↔ x = b.own := by
    constructor
    · exact fun same => congrArg Variable.mk same.symm
    · exact fun same => congrArg Variable.name same.symm
  have inserted := Bindings.term?_insertTerm (bindings r passed) b.own.name x.name (.var b.met)
  simp only [names] at inserted
  exact inserted

theorem term?_cases {t : Term} (bound : (bindings r passed).term? x.name = some t) :
    (∃ b ∈ passed, t = .var b.met) ∨ r.term? x.name = some t := by
  induction passed with
  | nil => exact .inr bound
  | cons b passed ih =>
    rw [term?_bindings_cons] at bound
    split at bound
    · exact .inl ⟨b, by simp, (Option.some.inj bound).symm⟩
    · apply (ih bound).imp_left
      intro found
      obtain ⟨c, member, here⟩ := found
      exact ⟨c, List.mem_cons_of_mem b member, here⟩

theorem term?_of_lookup_eq_none (outside : (scope passed).lookup x = none) :
    (bindings r passed).term? x.name = r.term? x.name := by
  induction passed with
  | nil => rfl
  | cons b passed ih =>
    rw [scope, List.map_cons, Subst.lookup_cons] at outside
    split at outside
    · cases outside
    · rw [term?_bindings_cons, if_neg ‹_›]
      exact ih outside

end Passed

/-- Where a part of the template meets a part of the formula, below the quantifiers that both have
passed. -/
structure Crossing (template f : Formula) (r : Bindings) (passed : List Passed)
    (part met : Formula) : Prop where
  own : ∀ b ∈ passed, b.own ∈ template.binders
  new : ∀ b ∈ passed, b.new = Formula.templateBinder r.vars b.own
  outside : ∀ b ∈ passed, ¬ f.FreeWith r b.met
  bound : ∀ b ∈ passed, b.met ∈ f.binders
  distinct : passed.Pairwise fun b c => b.met ≠ c.met
  free : ∀ x ∈ part.freeVars, x ∈ template.freeVars ∨ ∃ b ∈ passed, b.own = x
  all : ∀ x ∈ part.allVars, x ∈ template.allVars
  binder : ∀ x ∈ part.binders, x ∈ template.binders
  application : ∀ a ∈ part.applications, a ∈ template.applications
  inside : ∀ x ∈ met.binders, x ∈ f.binders
  apart : met.Apart fun x => (∃ b ∈ passed, x = b.met) ∨ f.FreeWith r x

namespace Crossing

variable {template f part met : Formula} {r : Bindings} {passed : List Passed} {x : Variable}

theorem start (matched : template.Matched f r) : Crossing template f r [] template f := by
  constructor <;> simp
  exact matched.apart

theorem parts (crossing : Crossing template f r passed part met) {part' met' : Formula}
    (first : part.Part part') (second : met.Part met') :
    Crossing template f r passed part' met' where
  own := crossing.own
  new := crossing.new
  outside := crossing.outside
  bound := crossing.bound
  distinct := crossing.distinct
  free x free := crossing.free x (first.free x free)
  all x occurs := crossing.all x (first.all x occurs)
  binder x bound := crossing.binder x (first.binder x bound)
  application a used := crossing.application a (first.application a used)
  inside x bound := crossing.inside x (second.binder x bound)
  apart := second.apart _ crossing.apart

theorem body {q : Quantifier} {v w : Variable}
    (crossing : Crossing template f r passed (.bind q v part) (.bind q w met)) :
    Crossing template f r (⟨v, w, Formula.templateBinder r.vars v⟩ :: passed) part met := by
  obtain ⟨own, new, outside, bound, distinct, free, all, binder, application, inside, apart⟩ :=
    crossing
  rw [Formula.Apart, not_or] at apart
  obtain ⟨⟨unmet, unfree⟩, apart⟩ := apart
  constructor
  · exact List.forall_mem_cons.mpr ⟨binder v (by simp [Formula.binders]), own⟩
  · exact List.forall_mem_cons.mpr ⟨rfl, new⟩
  · exact List.forall_mem_cons.mpr ⟨unfree, outside⟩
  · exact List.forall_mem_cons.mpr ⟨inside w (by simp [Formula.binders]), bound⟩
  · exact List.pairwise_cons.mpr ⟨fun b member same => unmet ⟨b, member, same⟩, distinct⟩
  · intro x inner
    by_cases here : x = v
    · exact .inr ⟨_, List.mem_cons_self, here.symm⟩
    · apply (free x (Formula.mem_freeVars_bind.mpr ⟨inner, here⟩)).imp_right
      intro found
      obtain ⟨b, member, same⟩ := found
      exact ⟨b, List.mem_cons_of_mem _ member, same⟩
  · exact fun x occurs => all x (Formula.mem_allVars_bind.mpr (.inr occurs))
  · exact fun x inner => binder x (by simp [Formula.binders, inner])
  · exact fun a used => application a (by simpa [Formula.applications] using used)
  · exact fun x inner => inside x (by simp [Formula.binders, inner])
  · simpa [or_assoc] using apart

/-- A variable from outside stays itself: no new name catches it, and no quantifier of the
formula. -/
theorem agree_self (crossing : Crossing template f r passed part met) (outer : f.FreeWith r x)
    (taken : x ∈ r.vars) : (Passed.pairs passed).agree x x = true := by
  have new := crossing.new
  have outside := crossing.outside
  clear crossing
  induction passed with
  | nil => simp [Passed.pairs, BinderPairs.agree]
  | cons b passed ih =>
    have renamed : x ≠ b.new := by
      intro same
      rw [new b (by simp)] at same
      exact Formula.templateBinder_not_mem r.vars b.own (same ▸ taken)
    have unmet : x ≠ b.met := by
      intro same
      exact outside b (by simp) (same ▸ outer)
    have rest := ih (fun c member => new c (List.mem_cons_of_mem b member))
      fun c member => outside c (List.mem_cons_of_mem b member)
    simpa [Passed.pairs, BinderPairs.agree, renamed, unmet] using rest

/-- A variable that is bound on the way becomes the new variable of its quantifier, and stands for
the one that the formula has there. -/
theorem exists_of_lookup (crossing : Crossing template f r passed part met)
    (matched : template.Matched f r) {w : Variable} (found : (Passed.scope passed).lookup x = some w) :
    ∃ b ∈ passed, b.own = x ∧ b.new = w ∧
      (Passed.bindings r passed).term? x.name = some (.var b.met) ∧
      (Passed.pairs passed).agree b.new b.met = true := by
  have own := crossing.own
  have new := crossing.new
  have distinct := crossing.distinct
  clear crossing
  induction passed with
  | nil => cases found
  | cons b passed ih =>
    rw [Passed.scope, List.map_cons, Subst.lookup_cons] at found
    split at found
    · rename_i here
      refine ⟨b, by simp, here.symm, Option.some.inj found, ?_, ?_⟩
      · rw [Passed.term?_bindings_cons, if_pos here]
      · simp [Passed.pairs, BinderPairs.agree]
    · rename_i other
      obtain ⟨c, member, rfl, rfl, bound, agrees⟩ := ih found
        (fun c member => own c (List.mem_cons_of_mem b member))
        (fun c member => new c (List.mem_cons_of_mem b member)) (List.pairwise_cons.mp distinct).2
      have inside := List.mem_cons_of_mem b member
      have renamed : c.new ≠ b.new := by
        intro same
        rw [new c inside, new b (by simp)] at same
        exact other (matched.renamed _ (own c inside) _ (own b (by simp)) same)
      have unmet : c.met ≠ b.met := ((List.pairwise_cons.mp distinct).1 c member).symm
      refine ⟨c, inside, rfl, rfl, ?_, ?_⟩
      · rw [Passed.term?_bindings_cons, if_neg other, bound]
      · simpa [Passed.pairs, BinderPairs.agree, renamed, unmet] using agrees

theorem exists_fill_term (crossing : Crossing template f r passed part met)
    (matched : template.Matched f r) {t u : Term}
    (fits : (TermPattern.ofTerm t).Fits (Passed.bindings r passed) u) :
    ∃ s, t.fill r (Passed.scope passed) = .ok s ∧
      Term.Instance Symbol.Same (Passed.pairs passed).change s u := by
  induction t generalizing u with
  | var x =>
    rw [TermPattern.ofTerm, TermPattern.fits_ref_iff] at fits
    obtain ⟨v, bound, kept⟩ := fits
    rw [Term.fill]
    cases found : (Passed.scope passed).lookup x with
    | some w =>
      obtain ⟨b, -, -, rfl, here, agrees⟩ := crossing.exists_of_lookup matched found
      obtain rfl := Option.some.inj (bound.symm.trans here)
      cases kept with
      | var same => exact ⟨_, rfl, .var ⟨b.met, same, agrees⟩⟩
    | none =>
      rw [Passed.term?_of_lookup_eq_none found] at bound
      simp only [bound]
      refine ⟨v, rfl, kept.mono (fun _ _ _ _ same => same) ?_⟩
      intro y occurs s _ same
      exact ⟨y, same, crossing.agree_self (.inr ⟨_, v, bound, occurs⟩)
        (Bindings.mem_vars_of_term bound occurs)⟩
  | const c =>
    rw [TermPattern.ofTerm] at fits
    cases fits with
    | const same => exact ⟨.const c, by rw [Term.fill], .const same⟩
  | app op ts ih =>
    rw [TermPattern.ofTerm] at fits
    cases fits with
    | app same pairing all =>
      obtain ⟨sources, pairing', images⟩ := pairing.exists_of_map_left
      obtain ⟨ss, results, ok, pairing'', insts⟩ := exists_mapM pairing' fun p pair =>
        ih p.1 (pairing'.mem pair).1 (all _ (images p pair))
      refine ⟨.app op ss, ?_, .app same pairing'' insts⟩
      rw [Term.fill, Term.fillAll_eq, ok]
      rfl

/-- What a free variable of the template is filled in with does not depend on what it met. -/
theorem exists_fill_var (crossing : Crossing template f r passed part met)
    (matched : template.Matched f r) (free : x ∈ part.freeVars) :
    ∃ s, (Term.var x).fill r (Passed.scope passed) = .ok s ∧
      Passed.Covers r passed s (.var x) := by
  have value : ∃ v, (Passed.bindings r passed).term? x.name = some v := by
    cases found : (Passed.scope passed).lookup x with
    | some w =>
      obtain ⟨b, -, -, -, bound, -⟩ := crossing.exists_of_lookup matched found
      exact ⟨_, bound⟩
    | none =>
      rw [Passed.term?_of_lookup_eq_none found]
      rcases crossing.free x free with outer | ⟨b, member, rfl⟩
      · exact matched.bound x outer
      · refine absurd ?_ (Subst.not_mem_of_lookup found)
        rw [Passed.scope, List.map_map]
        exact List.mem_map_of_mem member
  obtain ⟨v, bound⟩ := value
  have itself : (TermPattern.ofTerm (.var x)).Fits (Passed.bindings r passed) v := by
    rw [TermPattern.ofTerm, TermPattern.fits_ref_iff]
    exact ⟨v, bound, .refl (fun _ => Symbol.same_of_eq rfl) fun _ _ => rfl⟩
  obtain ⟨s, ok, -⟩ := crossing.exists_fill_term matched itself
  refine ⟨s, ok, fun u fits => ?_⟩
  obtain ⟨s', ok', inst⟩ := crossing.exists_fill_term matched fits
  obtain rfl := Except.ok.inj (ok.symm.trans ok')
  exact inst

section Named

variable {n : Name} {ts : List Term}
  (crossing : Crossing template f r passed (.atom (.named n) ts) met)
  (matched : template.Matched f r)

include crossing matched

theorem exists_var {t : Term} (member : t ∈ ts) :
    ∃ x, t = .var x ∧ x ∈ (Formula.atom (.named n) ts).freeVars ∧ ∀ i, x ≠ .numbered "#" i := by
  have used := crossing.application (n, ts) (by simp [Formula.applications])
  obtain ⟨x, rfl⟩ := matched.parameters (n, ts) used t member
  have free : x ∈ (Formula.atom (.named n) ts).freeVars :=
    Formula.mem_freeVars_atom.mpr ⟨.var x, member, by simp⟩
  exact ⟨x, rfl, free, matched.reserved x (crossing.all x (Formula.mem_allVars_of_free free))⟩

theorem params_length {a : Abstraction} (bound : r.formula? n.full = some a) :
    a.params.length = ts.length := by
  obtain ⟨b, used, name, length⟩ := (matched.found bound).arity
  have here := crossing.application (n, ts) (by simp [Formula.applications])
  rw [← length]
  exact matched.arity b used (n, ts) here name

theorem unmistakable :
    Pattern.Unmistakable (Passed.bindings r passed) (ts.map TermPattern.ofTerm) := by
  rw [Pattern.Unmistakable, List.length_map]
  rcases Nat.lt_or_ge 1 ts.length with several | single
  · right
    intro arg member t resolved i occurs
    obtain ⟨u, inside, rfl⟩ := List.mem_map.mp member
    obtain ⟨x, rfl, -, -⟩ := crossing.exists_var matched inside
    have used := crossing.application (n, ts) (by simp [Formula.applications])
    obtain ⟨unbound, unfound⟩ := matched.unmistakable ⟨_, used, several⟩ i
    rw [TermPattern.ofTerm, TermPattern.resolve] at resolved
    rcases Passed.term?_cases resolved with ⟨b, passing, rfl⟩ | bound
    · rw [Term.mem_vars_var.mp occurs] at unbound
      exact unbound (crossing.bound b passing)
    · exact unfound _ t bound occurs
  · exact .inl single

/-- The formula is an instance of what the bare name was bound to. -/
theorem exists_instance
    (fits : (Pattern.ofTemplate (.atom (.named n) ts)).Fits (Passed.bindings r passed) met) :
    ∃ a, r.formula? n.full = some a ∧ a.body.Instance Symbol.Same (TermPattern.Scope.change
      (a.params.zip (ts.map TermPattern.ofTerm)).reverse (Passed.bindings r passed)) met := by
  by_cases plain : ts = []
  · subst plain
    rw [Pattern.ofTemplate] at fits
    cases fits with
    | @ref _ _ a _ bound identical =>
      rw [Passed.formula?_bindings] at bound
      refine ⟨a, bound, (Formula.identical_iff.mp identical).mono (fun _ _ _ _ same => same) ?_⟩
      intro x _ s _ same
      have itself : TermPattern.ofInstance [] (.var x) = .var x := by simp [TermPattern.ofInstance]
      rw [List.map_nil, List.zip_nil_right, List.reverse_nil, TermPattern.Scope.change, itself]
      exact TermPattern.fits_var_iff.mpr same
  · have applied : Pattern.ofTemplate (.atom (.named n) ts) =
        .refAt n.full (ts.map TermPattern.ofTerm) := by
      rw [Pattern.ofTemplate]
      exact plain
    have references : ∀ arg ∈ ts.map TermPattern.ofTerm,
        ∃ name, arg = .ref name ∧ ∀ i : Nat, name ≠ "#" ++ toString i := by
      intro arg member
      obtain ⟨t, inside, rfl⟩ := List.mem_map.mp member
      obtain ⟨x, rfl, -, clear⟩ := crossing.exists_var matched inside
      exact ⟨x.name, by rw [TermPattern.ofTerm], fun i same => clear i (congrArg Variable.mk same)⟩
    have values : ∀ arg ∈ ts.map TermPattern.ofTerm, ∀ s, arg.Fits (Passed.bindings r passed) s →
        ∀ y ∈ s.vars, (∃ b ∈ passed, y = b.met) ∨ f.FreeWith r y := by
      intro arg member s fits y occurs
      obtain ⟨t, inside, rfl⟩ := List.mem_map.mp member
      obtain ⟨x, rfl, -, -⟩ := crossing.exists_var matched inside
      rw [TermPattern.ofTerm, TermPattern.fits_ref_iff] at fits
      obtain ⟨v, bound, kept⟩ := fits
      obtain ⟨z, here, _, rfl, same⟩ := kept.exists_source occurs
      obtain rfl := Term.mem_vars_var.mp same
      rcases Passed.term?_cases bound with ⟨b, passing, rfl⟩ | bound
      · exact .inl ⟨b, passing, Term.mem_vars_var.mp here⟩
      · exact .inr (.inr ⟨_, v, bound, here⟩)
    have outer : ∀ a, (Passed.bindings r passed).formula? n.full = some a → ∀ x ∈ a.body.freeVars,
        x ∈ a.params ∨ (∃ b ∈ passed, x = b.met) ∨ f.FreeWith r x := by
      intro a bound x free
      rw [Passed.formula?_bindings] at bound
      exact ((matched.found bound).var x free).imp_right fun outer => .inr (.inl outer)
    rw [applied] at fits
    obtain ⟨a, bound, -, inst⟩ := fits.exists_instance crossing.apart
      (crossing.unmistakable matched) references values outer
    rw [Passed.formula?_bindings] at bound
    exact ⟨a, bound, inst⟩

theorem exists_fill_named
    (fits : (Pattern.ofTemplate (.atom (.named n) ts)).Fits (Passed.bindings r passed) met) :
    ∃ g, (Formula.atom (.named n) ts).fillUnder r r.vars (Passed.scope passed) = .ok g ∧
      g.Instance Symbol.Same (Passed.pairs passed).change met := by
  obtain ⟨a, bound, inst⟩ := crossing.exists_instance matched fits
  have length := crossing.params_length matched bound
  have filled : ∀ p ∈ ts.map fun t => (t, t),
      ∃ s, p.1.fill r (Passed.scope passed) = .ok s ∧ Passed.Covers r passed s p.2 := by
    intro p pair
    obtain ⟨t, member, rfl⟩ := List.mem_map.mp pair
    obtain ⟨x, rfl, free, -⟩ := crossing.exists_var matched member
    exact crossing.exists_fill_var matched free
  obtain ⟨args, results, ok, ⟨rfl, rfl⟩, covers⟩ := exists_mapM (.refl true ts) filled
  refine ⟨a.body.subst (.ofList (a.params.zip (results.map Prod.fst))), ?_, ?_⟩
  · rw [Formula.fillUnder, Term.fillAll_eq, ok]
    simp only [bind, Except.bind, bound]
    rw [Abstraction.instantiate, if_pos (by simpa using length.symm)]
  · apply (a.body.instance_subst _).span inst
    · rintro s _ rfl
      rfl
    · rintro s _ m rfl same
      exact same
    · intro x free m u image becomes
      -- the parameter and its argument are found at the same place
      rw [Subst.change, Subst.image, Subst.lookup_ofList, List.zip_map_right, ← List.map_reverse,
        Subst.lookup_map] at image
      rw [TermPattern.Scope.change, TermPattern.ofInstance, List.map_map, List.zip_map_right,
        ← List.map_reverse, Subst.lookup_map] at becomes
      cases found : (a.params.zip results).reverse.lookup x with
      | some q =>
        have member := List.mem_reverse.mp (Subst.mem_of_lookup found)
        rw [found] at image becomes
        subst image
        exact covers q (List.of_mem_zip member).2 u becomes
      | none =>
        rw [found] at image becomes
        subst image
        have outside : x ∉ a.params := by
          have absent := Subst.not_mem_of_lookup found
          rwa [List.map_reverse, List.map_fst_zip (by simpa using Nat.le_of_eq length),
            List.mem_reverse] at absent
        have outer : f.FreeWith r x := .inl (((matched.found bound).var x free).resolve_left outside)
        have taken : x ∈ r.vars :=
          Bindings.mem_vars_of_formula bound (.inr (Formula.mem_allVars_of_free free))
        exact .var ⟨x, TermPattern.fits_var_iff.mp becomes, crossing.agree_self outer taken⟩

end Named

/-- Below the quantifiers passed so far, the template is filled in with success, and what it met is
an instance of the result. -/
theorem exists_fill (crossing : Crossing template f r passed part met)
    (matched : template.Matched f r)
    (fits : (Pattern.ofTemplate part).Fits (Passed.bindings r passed) met) :
    ∃ g, part.fillUnder r r.vars (Passed.scope passed) = .ok g ∧
      g.Instance Symbol.Same (Passed.pairs passed).change met := by
  induction part generalizing passed met with
  | atom s ts =>
    cases s with
    | named n => exact crossing.exists_fill_named matched fits
    | pred p =>
      rw [Pattern.ofTemplate] at fits
      cases fits with
      | atom same pairing all =>
        obtain ⟨sources, pairing', images⟩ := pairing.exists_of_map_left
        obtain ⟨ss, results, ok, pairing'', insts⟩ := exists_mapM pairing' fun q pair =>
          crossing.exists_fill_term matched (all _ (images q pair))
        refine ⟨.atom (.pred p) ss, ?_, .atom same pairing'' insts⟩
        rw [Formula.fillUnder, Term.fillAll_eq, ok]
        rfl
  | not part ih =>
    rw [Pattern.ofTemplate] at fits
    cases fits with
    | not fits =>
      obtain ⟨g, ok, inst⟩ := ih (crossing.parts (.negated _) (.negated _)) fits
      refine ⟨.not g, ?_, .not inst⟩
      rw [Formula.fillUnder, ok]
      rfl
  | multi c parts ih =>
    rw [Pattern.ofTemplate] at fits
    obtain ⟨fs, pairs, rfl, pairing, all⟩ := fits.exists_exactly
    obtain ⟨sources, pairing', images⟩ := pairing.exists_of_map_left
    obtain ⟨gs, results, ok, pairing'', insts⟩ := exists_mapM pairing' fun q pair => by
      obtain ⟨first, second⟩ := pairing'.mem pair
      exact ih q.1 first (crossing.parts (.member c first) (.member c second)) (all _ (images q pair))
    refine ⟨.multi c gs, ?_, .multi pairing'' insts⟩
    rw [Formula.fillUnder, Formula.fillAllUnder_eq, ok]
    rfl
  | link c a b iha ihb =>
    rw [Pattern.ofTemplate] at fits
    cases fits with
    | @imply _ _ _ a' b' fitsa fitsb =>
      obtain ⟨g, oka, insta⟩ := iha (crossing.parts (.left ..) (.left ..)) fitsa
      obtain ⟨h, okb, instb⟩ := ihb (crossing.parts (.right ..) (.right ..)) fitsb
      refine ⟨.imply g h, ?_, .imply insta instb⟩
      rw [Formula.fillUnder, oka, okb]
      rfl
    | @equiv _ _ _ a' b' pairs pairing all =>
      -- the sides may have met straight or crosswise
      have sides : ∃ g h, a.fillUnder r r.vars (Passed.scope passed) = .ok g ∧
          b.fillUnder r r.vars (Passed.scope passed) = .ok h ∧
          ∃ pairs, Pairing false pairs [g, h] [a', b'] ∧
            ∀ p ∈ pairs, Formula.Instance Symbol.Same (Passed.pairs passed).change p.1 p.2 := by
        rcases Pairing.exists_two.mp ⟨pairs, pairing, all⟩ with ⟨fitsa, fitsb⟩ | ⟨fitsa, fitsb⟩
        · obtain ⟨g, oka, insta⟩ := iha (crossing.parts (.left ..) (.left ..)) fitsa
          obtain ⟨h, okb, instb⟩ := ihb (crossing.parts (.right ..) (.right ..)) fitsb
          exact ⟨g, h, oka, okb, Pairing.exists_two.mpr (.inl ⟨insta, instb⟩)⟩
        · obtain ⟨g, oka, insta⟩ := iha (crossing.parts (.left ..) (.right ..)) fitsa
          obtain ⟨h, okb, instb⟩ := ihb (crossing.parts (.right ..) (.left ..)) fitsb
          exact ⟨g, h, oka, okb, Pairing.exists_two.mpr (.inr ⟨insta, instb⟩)⟩
      obtain ⟨g, h, oka, okb, pairs, pairing, insts⟩ := sides
      refine ⟨.equiv g h, ?_, .equiv pairing insts⟩
      rw [Formula.fillUnder, oka, okb]
      rfl
  | bind q v part ih =>
    rw [Pattern.ofTemplate] at fits
    cases fits with
    | @bind _ _ _ _ w met fits =>
      obtain ⟨g, ok, inst⟩ := ih crossing.body fits
      refine ⟨.bind q (Formula.templateBinder r.vars v) g, ?_, .bind ?_⟩
      · rw [Formula.fillUnder]
        exact congrArg (fun result => result >>= fun g =>
          pure (Formula.bind q (Formula.templateBinder r.vars v) g)) ok
      · rwa [Passed.pairs, List.map_cons, BinderPairs.change_cons] at inst

end Crossing

/-- Matching a template whose parameters are variables, and filling it in with what was found,
gives the formula again, as long as names stay apart. -/
theorem Formula.fill_recovers {template f : Formula} {r : Bindings}
    (parameters : ∀ a ∈ template.applications, ∀ t ∈ a.2, ∃ x, t = .var x)
    (reserved : ∀ x ∈ template.allVars, ∀ i, x ≠ .numbered "#" i)
    (found : r ∈ (Pattern.ofTemplate template).matcher f .empty)
    (recoverable : template.Recoverable f r) :
    ∃ g, template.fill r = .ok g ∧ g.identical f = true := by
  have allows : (template.supply f).Allows (.ofTemplate template) := by
    intro u member
    rw [uses_ofTemplate] at member
    obtain ⟨a, used, rfl⟩ := List.mem_map.mp member
    exact ⟨a, used, rfl, rfl⟩
  have made : (template.supply f).HasFormula f := ⟨fun _ free => free, fun _ _ => trivial⟩
  obtain ⟨adds, fits⟩ := (Pattern.ofTemplate template).finds_matcher allows f .empty r made found
  have matched : template.Matched f r := by
    refine ⟨recoverable, parameters, reserved, fun {name a} bound => ?_⟩
    apply (adds.newFormula bound).resolve_left
    simp
  obtain ⟨g, ok, inst⟩ := (Crossing.start matched).exists_fill matched fits
  refine ⟨g, ok, identical_iff.mpr ?_⟩
  rwa [Passed.pairs, List.map_nil, BinderPairs.change_nil] at inst

namespace Formula

def thrice (r : Relation) (v : Variable) (t : Term) : Formula :=
  .and [.atom (.pred ⟨.plain "p", 1, true⟩) [t], .bind .all v (.atom r [.var v, t]), .atom r [t, t]]

namespace Thrice

def template : Formula := thrice (.named (.plain "φ")) ⟨"a"⟩ (.var ⟨"y"⟩)

def value : Term := .app (.fn ⟨.plain "g", some 1, true⟩) [.const ⟨.plain "c"⟩]

def formula : Formula := thrice (.pred ⟨.plain "q", 2, true⟩) ⟨"a"⟩ value

def found : Bindings := (Bindings.empty.insertTerm "y" value).insertFormula "φ"
  ⟨[⟨"a"⟩, ⟨"p1"⟩], .atom (.pred ⟨.plain "q", 2, true⟩) [.var ⟨"a"⟩, .var ⟨"p1"⟩]⟩

theorem recoverable : template.Recoverable formula found := by
  have closed {name : String} {t : Term} (bound : found.term? name = some t) (x : Variable) :
      x ∉ t.vars := by
    rw [found, Bindings.term?_insertFormula, Bindings.term?_insertTerm] at bound
    split at bound
    · obtain rfl := Option.some.inj bound
      simp [value]
    · simp at bound
  constructor
  · have free : template.freeVars = [⟨"y"⟩] := by cbv
    rw [free]
    simp [found, Bindings.term?_insertTerm]
  · have two : ∀ a ∈ template.applications, a.2.length = 2 := by
      simp [template, thrice, applications]
    intro a first b second _
    rw [two a first, two b second]
  · have free : formula.freeVars = [] := by cbv
    have none (x : Variable) : ¬ formula.FreeWith found x := by
      intro outer
      rcases outer with inside | ⟨name, t, bound, inside⟩
      · simp [free] at inside
      · exact closed bound x inside
    generalize formula.FreeWith found = V at none
    simp [formula, thrice, Apart, none]
  · simp [template, thrice, binders]
  · intro _ i
    refine ⟨?_, fun name t bound => closed bound _⟩
    simpa [formula, thrice, binders] using (Variable.ne_numbered (by decide) i).symm

end Thrice

/-- With `g(c)` for `y` and `q` for `φ`: the bound variable becomes a parameter, `g(c)` is
abstracted from the formula, and the last part is met when both parameters are known. -/
theorem fill_recovers_thrice :
    Thrice.found ∈ (Pattern.ofTemplate Thrice.template).matcher Thrice.formula .empty ∧
    Thrice.template.Recoverable Thrice.formula Thrice.found ∧
    ∃ g, Thrice.template.fill Thrice.found = .ok g ∧ g.identical Thrice.formula = true := by
  have found : Thrice.found ∈ (Pattern.ofTemplate Thrice.template).matcher Thrice.formula .empty := by
    have only : (Pattern.ofTemplate Thrice.template).matcher Thrice.formula .empty =
      [Thrice.found] := by cbv
    simp [only]
  have parameters : ∀ a ∈ Thrice.template.applications, ∀ t ∈ a.2, ∃ x, t = .var x := by
    simp [Thrice.template, thrice, applications]
  have reserved : ∀ x ∈ Thrice.template.allVars, ∀ i, x ≠ .numbered "#" i := by
    have vars : Thrice.template.allVars = [⟨"a"⟩, ⟨"y"⟩] := by cbv
    rw [vars]
    exact List.forall_mem_cons.mpr ⟨Variable.ne_numbered (by decide),
      List.forall_mem_singleton.mpr (Variable.ne_numbered (by decide))⟩
  exact ⟨found, Thrice.recoverable, fill_recovers parameters reserved found Thrice.recoverable⟩

def beside (x v : Variable) : Formula :=
  .and [.atom (.pred ⟨.plain "p", 1, true⟩) [.var x],
    .bind .all v (.atom (.pred ⟨.plain "q", 2, true⟩) [.var x, .var v])]

/-- A quantifier of the formula that binds a variable found outside makes the match forget which
of the two was meant. -/
theorem fill_beside_not_identical :
    (beside ⟨"x"⟩ ⟨"z"⟩).applications = [] ∧
    (∀ x ∈ (beside ⟨"x"⟩ ⟨"z"⟩).allVars, ∀ i, x ≠ .numbered "#" i) ∧
    (Pattern.ofTemplate (beside ⟨"x"⟩ ⟨"z"⟩)).matcher (beside ⟨"y"⟩ ⟨"y"⟩) .empty =
      [.insertTerm .empty "x" (.var ⟨"y"⟩)] ∧
    (beside ⟨"x"⟩ ⟨"z"⟩).fill (.insertTerm .empty "x" (.var ⟨"y"⟩)) = .ok (beside ⟨"y"⟩ ⟨"z"⟩) ∧
    (beside ⟨"y"⟩ ⟨"z"⟩).identical (beside ⟨"y"⟩ ⟨"y"⟩) = false := by
  have vars : (beside ⟨"x"⟩ ⟨"z"⟩).allVars = [⟨"x"⟩, ⟨"z"⟩] := by cbv
  refine ⟨by cbv, ?_, by cbv, by cbv, by cbv⟩
  rw [vars]
  exact List.forall_mem_cons.mpr ⟨Variable.ne_numbered (by decide),
    List.forall_mem_singleton.mpr (Variable.ne_numbered (by decide))⟩

end Formula

end Sequitur
