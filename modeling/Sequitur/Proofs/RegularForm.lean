import Mathlib
import Sequitur.Proofs.Canonicity
import Sequitur.Proofs.Identity
import Sequitur.Proofs.Indices

/-! The regular form of a formula is identical to it, is its own regular form, and is the same
for exactly the formulas that are identical. -/

namespace Sequitur.Formula

open Arrangement

variable {f g r : Formula}

theorem instance_regularForm (ok : f.regularForm = .ok r) : Instance Eq .keep f r := by
  obtain ⟨fits, rfl⟩ := regularForm_eq_ok ok
  exact (numberedFrom_number low_startIndex fits).inst

namespace Instance

/-- An instance that keeps free variables can be read backwards. -/
theorem symm {R S : Symbol → Symbol → Prop} (inst : Instance R .keep f g)
    (flags : ∀ s m, R s m → s.ordered = m.ordered) (symbols : ∀ s m, R s m → S m s) :
    Instance S .keep g f := by
  have same : Instance Eq .keep f f := .refl (fun _ => rfl) fun _ _ => rfl
  refine inst.span same flags (fun s m n first second => second ▸ symbols s m first) ?_
  rintro x - m n rfl rfl
  exact .var rfl

theorem trans {R S T : Symbol → Symbol → Prop} {h : Formula} (first : Instance R .keep f g)
    (second : Instance S .keep g h) (flags : ∀ s m, R s m → s.ordered = m.ordered)
    (symbols : ∀ s m n, R s m → S m n → T s n) : Instance T .keep f h := by
  refine (first.comp second flags symbols).mono (fun _ _ _ _ same => same) ?_
  rintro x - s - ⟨m, rfl, inst⟩
  cases inst with
  | var becomes => exact becomes

theorem mem_freeVars_iff {R : Symbol → Symbol → Prop} (inst : Instance R .keep f g)
    {x : Variable} : x ∈ g.freeVars ↔ x ∈ f.freeVars := by
  constructor
  · intro free
    obtain ⟨y, free, s, rfl, occurs⟩ := inst.exists_source free
    rwa [Term.mem_vars_var.mp occurs]
  · intro free
    obtain ⟨s, rfl, inside⟩ := inst.exists_target free
    exact inside x (by simp)

end Instance

theorem sorted_freeVars (f : Formula) : VarSet.Sorted f.freeVars := by
  induction f with
  | atom r ts => rw [freeVars]; exact VarSet.sorted_unions _
  | not f ih => rwa [freeVars]
  | multi c fs ih => rw [freeVars]; exact VarSet.sorted_unions _
  | link c a b iha ihb => rw [freeVars]; exact ihb.union
  | bind q v f ih => rw [freeVars]; exact ih.remove v

theorem Instance.freeVars_eq {R : Symbol → Symbol → Prop} (inst : Instance R .keep f g) :
    g.freeVars = f.freeVars :=
  (sorted_freeVars g).ext (sorted_freeVars f) fun _ => inst.mem_freeVars_iff

theorem Instance.startIndex_eq {R : Symbol → Symbol → Prop} (inst : Instance R .keep f g) :
    g.startIndex = f.startIndex := by
  rw [startIndex, startIndex, inst.freeVars_eq]

theorem regularForm_regular (ok : f.regularForm = .ok r) : r.regularForm = .ok r := by
  have start := (instance_regularForm ok).startIndex_eq
  obtain ⟨fits, rfl⟩ := regularForm_eq_ok ok
  have again : (f.number id f.startIndex).formula.number id f.startIndex =
      f.number id f.startIndex := number_number low_startIndex fits fun _ _ => rfl
  have counts := congrArg Numbered.last again
  simp only [number_last, Nat.add_left_cancel_iff] at counts
  rw [regularForm_eq, start, again, counts, if_pos fits]

/-- The regular form of a formula is identical to it, has the same free variables and is its own
regular form, whatever the flags of the symbols say. -/
theorem regularForm_representative (ok : f.regularForm = .ok r) :
    r.identical f = true ∧ f.identical r = true ∧ r.freeVars = f.freeVars ∧
      r.regularForm = .ok r := by
  have inst := instance_regularForm ok
  have back : Instance Eq .keep r f :=
    inst.symm (fun s m same => congrArg Symbol.ordered same) fun s m same => same.symm
  refine ⟨?_, ?_, inst.freeVars_eq, regularForm_regular ok⟩
  · exact identical_iff.mpr (back.mono (fun _ _ _ _ => Symbol.same_of_eq) fun _ _ _ _ becomes => becomes)
  · exact identical_iff.mpr (inst.mono (fun _ _ _ _ => Symbol.same_of_eq) fun _ _ _ _ becomes => becomes)

/-- `(∀y. q(y, $1)) ∨ (∃z. p(z))`, where `q` is unordered. -/
def allOrSome : Formula := .or [
  .all ⟨"y"⟩ (.atom (.pred ⟨.plain "q", 2, false⟩) [.var ⟨"y"⟩, .var ⟨"$1"⟩]),
  .ex ⟨"z"⟩ (.atom (.pred ⟨.plain "p", 1, true⟩) [.var ⟨"z"⟩])]

def allOrSomeNumbered : Formula := .or [
  .all ⟨"$2"⟩ (.atom (.pred ⟨.plain "q", 2, false⟩) [.var ⟨"$1"⟩, .var ⟨"$2"⟩]),
  .ex ⟨"$3"⟩ (.atom (.pred ⟨.plain "p", 1, true⟩) [.var ⟨"$3"⟩])]

theorem regularForm_representative_allOrSome :
    allOrSome.regularForm = .ok allOrSomeNumbered ∧
      allOrSomeNumbered.identical allOrSome = true ∧ allOrSome.identical allOrSomeNumbered = true ∧
      allOrSomeNumbered.freeVars = allOrSome.freeVars ∧
      allOrSomeNumbered.regularForm = .ok allOrSomeNumbered := by
  have ok : allOrSome.regularForm = .ok allOrSomeNumbered := by cbv
  exact ⟨ok, regularForm_representative ok⟩

theorem mem_symbols_of_regularForm (ok : f.regularForm = .ok r) {s : Symbol}
    (occurs : s ∈ r.symbols) : s ∈ f.symbols := by
  rcases (instance_regularForm ok).exists_symbol occurs with ⟨m, inside, rfl⟩ | ⟨x, -, t, rfl, within⟩
  · exact inside
  · simp [Term.symbols] at within

theorem SingleOrder.twin (single : SingleOrder [f, g]) {s t : Symbol} (left : s ∈ f.symbols)
    (right : t ∈ g.symbols) (same : s.Same t) : s.Twin t :=
  ⟨same, single f (by simp) g (by simp) s left t right same⟩

/-- Where each name has a single orderedness flag, two formulas are identical exactly when
their regular forms are the same. -/
theorem identical_iff_regularForm {rf rg : Formula} (single : SingleOrder [f, g])
    (okf : f.regularForm = .ok rf) (okg : g.regularForm = .ok rg) :
    f.identical g = true ↔ rf.same rg = true := by
  rw [identical_iff, same_iff]
  constructor
  · intro identical
    have twins : Instance Symbol.Twin .keep f g :=
      identical.mono (fun _ left _ right => single.twin left right) fun _ _ _ _ becomes => becomes
    obtain ⟨-, rfl⟩ := regularForm_eq_ok okf
    obtain ⟨-, rfl⟩ := regularForm_eq_ok okg
    rw [twins.startIndex_eq]
    exact number_bare twins fun x _ s becomes => ⟨x, becomes, rfl⟩
  · intro same
    have across : Instance Symbol.Twin .keep rf rg :=
      (instance_of_bare same).mono (fun s left t right => single.twin
        (mem_symbols_of_regularForm okf left) (mem_symbols_of_regularForm okg right))
        fun _ _ _ _ becomes => becomes
    have there : Instance Symbol.Twin .keep f rg := (instance_regularForm okf).trans across
      (fun s m equal => congrArg Symbol.ordered equal) fun s m n equal twin => equal ▸ twin
    have back : Instance Eq .keep rg g := (instance_regularForm okg).symm
      (fun s m equal => congrArg Symbol.ordered equal) fun s m equal => equal.symm
    exact there.trans back (fun s m twin => twin.2) fun s m n twin equal => equal ▸ twin.1

def someOrAll : Formula := .or [
  .ex ⟨"u"⟩ (.atom (.pred ⟨.plain "p", 1, true⟩) [.var ⟨"u"⟩]),
  .all ⟨"w"⟩ (.atom (.pred ⟨.plain "q", 2, false⟩) [.var ⟨"$1"⟩, .var ⟨"w"⟩])]

theorem identical_iff_regularForm_allOrSome :
    SingleOrder [allOrSome, someOrAll] ∧ allOrSome.regularForm = .ok allOrSomeNumbered ∧
      someOrAll.regularForm = .ok allOrSomeNumbered ∧ allOrSome.identical someOrAll = true := by
  have single : SingleOrder [allOrSome, someOrAll] := by
    simp [SingleOrder, allOrSome, someOrAll, symbols, Term.symbols, Symbol.same, Symbol.ordered,
      Relation.same, Predicate.same, Name.plain, Relation.ordered]
  have first : allOrSome.regularForm = .ok allOrSomeNumbered := by cbv
  have second : someOrAll.regularForm = .ok allOrSomeNumbered := by cbv
  exact ⟨single, first, second,
    (identical_iff_regularForm single first second).mpr (same_iff.mpr rfl)⟩

end Sequitur.Formula
