import Sequitur.Proofs.Premises

/-! Known formulas as a set up to identity. However formulas are added, the list and the map by
regular forms say the same: each listed formula is filed once, under its own regular form. What is
known then depends on which formulas were added and not on when. -/

namespace Sequitur

variable {f g form : Formula} {facts facts' : Facts} {fs gs : List Formula}

/-- A list in strict order is determined by what it has, but for what is shown and recorded. -/
theorem Formula.map_bare_eq_of_ordered (left : fs.Pairwise fun f g => f.compare g = .lt)
    (right : gs.Pairwise fun f g => f.compare g = .lt)
    (same : ∀ form : Formula, (∃ f ∈ fs, f.bare = form.bare) ↔ ∃ g ∈ gs, g.bare = form.bare) :
    fs.map bare = gs.map bare := by
  have ordered {fs : List Formula} (strict : fs.Pairwise fun f g => f.compare g = .lt) :
      (fs.map bare).Pairwise fun f g => f.compare g = .lt := by
    rw [List.pairwise_map]
    simpa only [compare_bare] using strict
  have nodup {fs : List Formula} (strict : fs.Pairwise fun f g => f.compare g = .lt) :
      (fs.map bare).Nodup := by
    refine (ordered strict).imp fun {f g} below equal => ?_
    rw [equal, compare_eq_iff.mpr rfl] at below
    cases below
  refine List.Perm.eq_of_pairwise (fun f g _ _ below above => ?_) (ordered left) (ordered right) ?_
  · exact absurd above (Std.OrientedCmp.not_lt_of_lt below)
  · rw [List.perm_ext_iff_of_nodup (nodup left) (nodup right)]
    intro form
    constructor
    · intro member
      obtain ⟨f, inside, rfl⟩ := List.mem_map.mp member
      obtain ⟨g, there, equal⟩ := (same f).mp ⟨f, inside, rfl⟩
      exact equal ▸ List.mem_map_of_mem there
    · intro member
      obtain ⟨g, inside, rfl⟩ := List.mem_map.mp member
      obtain ⟨f, there, equal⟩ := (same g).mpr ⟨g, inside, rfl⟩
      exact equal ▸ List.mem_map_of_mem there

namespace Formula

variable {P : Symbol → Prop}

theorem SingleOrder.symbols (single : SingleOrder fs) :
    Symbol.Single fun s => ∃ f ∈ fs, s ∈ f.symbols := by
  rintro s t ⟨f, member, occurs⟩ ⟨g, member', occurs'⟩
  exact single f member g member' s occurs t occurs'

theorem Regular.of_ok (ok : f.regularForm = .ok form) (symbols : ∀ s ∈ f.symbols, P s) :
    form.Regular P :=
  ⟨regularForm_regular ok, fun s occurs => symbols s (mem_symbols_of_regularForm ok occurs)⟩

theorem twinInstance_of_identical (single : Symbol.Single P) (symbols : ∀ s ∈ f.symbols, P s)
    (symbols' : ∀ s ∈ g.symbols, P s) (identical : f.identical g = true) : f.TwinInstance g := by
  refine (identical_iff.mp identical).mono (fun s left t right same => ⟨same, ?_⟩)
    fun _ _ _ _ becomes => becomes
  exact single s t (symbols s left) (symbols' t right) same

/-- Where names have a single flag, formulas with the same regular form differ only in binders and
order. -/
theorem twinInstance_of_key {form' : Formula} (single : Symbol.Single P)
    (ok : f.regularForm = .ok form) (ok' : g.regularForm = .ok form')
    (symbols : ∀ s ∈ f.symbols, P s) (symbols' : ∀ s ∈ g.symbols, P s) (same : f.key = g.key) :
    f.TwinInstance g := by
  rw [key_eq ok, key_eq ok'] at same
  have alike : form.Alike form' := (Regular.of_ok ok symbols).alike single (.of_ok ok' symbols') same
  exact ((twinInstance_regularForm ok).trans alike.twinInstance).trans
    (twinInstance_regularForm ok').symm

theorem key_eq_iff_identical {form' : Formula} (single : Symbol.Single P)
    (ok : f.regularForm = .ok form) (ok' : g.regularForm = .ok form')
    (symbols : ∀ s ∈ f.symbols, P s) (symbols' : ∀ s ∈ g.symbols, P s) :
    f.key = g.key ↔ f.identical g = true :=
  ⟨fun same => (twinInstance_of_key single ok ok' symbols symbols' same).identical,
    fun same => (twinInstance_of_identical single symbols symbols' same).key_eq⟩

end Formula

namespace Facts

inductive Addition where
  | one (f : Formula)
  | several (fs : List Formula)

def Addition.formulas : Addition → List Formula
  | .one f => [f]
  | .several fs => fs

def extend (facts : Facts) : List Addition → Except Error Facts
  | [] => .ok facts
  | .one f :: more => do
    let (facts, _) ← facts.add f
    facts.extend more
  | .several fs :: more => do
    let (facts, _) ← facts.addAll fs
    facts.extend more

theorem mem_forms_of_mem_toList {p : Formula × Formula} (member : p ∈ facts.forms.toList) :
    p.1 ∈ facts.forms := by
  have key : p.1 ∈ facts.forms.keys := by
    rw [← Std.TreeMap.map_fst_toList_eq_keys]
    exact List.mem_map_of_mem member
  exact Std.TreeMap.mem_of_mem_keys key

/-- Each formula is filed once and nothing else is filed. -/
structure Indexed (facts : Facts) : Prop extends facts.Filed where
  perm : (facts.forms.toList.map Prod.snd).Perm facts.formulas

theorem indexed_empty : Facts.empty.Indexed := ⟨filed_empty, .refl []⟩

/-- What adding a formula does: a formula that is known leaves everything as it is, and a new one
goes to the end of the list. -/
theorem add_cases (facts : Facts) (ok : f.regularForm = .ok form) :
    if form ∈ facts.forms then facts.add f = .ok (facts, false)
    else facts.add f = .ok (⟨facts.formulas ++ [f], facts.forms.insert form f⟩, true) := by
  simp only [add, ok, ← Std.TreeMap.contains_iff_mem]
  split
  · rename_i known
    simp only [bind, Except.bind, known, ↓reduceIte]
    rfl
  · rename_i missing
    simp only [bind, Except.bind, missing]
    rfl

theorem exists_form_of_add {new : Bool} (ok : facts.add f = .ok (facts', new)) :
    ∃ form, f.regularForm = .ok form := by
  simp only [add, bind_eq_ok] at ok
  obtain ⟨form, okf, -⟩ := ok
  exact ⟨form, okf⟩

theorem mem_formulas_add {new : Bool} (ok : facts.add f = .ok (facts', new))
    (member : g ∈ facts'.formulas) : g ∈ facts.formulas ∨ g = f := by
  obtain ⟨form, okf⟩ := exists_form_of_add ok
  have cases := facts.add_cases okf
  split at cases
  · obtain ⟨rfl, -⟩ := Prod.mk.inj (Except.ok.inj (cases.symm.trans ok))
    exact .inl member
  · obtain ⟨rfl, -⟩ := Prod.mk.inj (Except.ok.inj (cases.symm.trans ok))
    simpa using member

theorem exists_form_of_addAll {count : Nat} (ok : facts.addAll fs = .ok (facts', count))
    (member : f ∈ fs) : ∃ form, f.regularForm = .ok form := by
  induction fs generalizing facts count with
  | nil => cases member
  | cons g fs ih =>
    simp only [addAll, bind_eq_ok, pure_eq_ok] at ok
    obtain ⟨⟨between, new⟩, first, ⟨last, more⟩, rest, equal⟩ := ok
    obtain ⟨rfl, -⟩ := Prod.mk.inj equal
    rcases List.mem_cons.mp member with rfl | later
    · exact exists_form_of_add first
    · exact ih rest later

namespace Indexed

theorem add {new : Bool} (indexed : facts.Indexed) (ok : facts.add f = .ok (facts', new)) :
    facts'.Indexed := by
  refine ⟨indexed.toFiled.add ok, ?_⟩
  obtain ⟨form, okf⟩ := exists_form_of_add ok
  have cases := facts.add_cases okf
  split at cases
  · obtain ⟨rfl, -⟩ := Prod.mk.inj (Except.ok.inj (cases.symm.trans ok))
    exact indexed.perm
  · rename_i missing
    obtain ⟨rfl, -⟩ := Prod.mk.inj (Except.ok.inj (cases.symm.trans ok))
    let _ : BEq Formula := ⟨Formula.same⟩
    have _ : Std.LawfulBEqCmp Formula.compare :=
      ⟨fun {f g} => Formula.compare_eq_iff.trans Formula.same_iff.symm⟩
    -- no entry is displaced
    have kept : facts.forms.toList.filter (fun p => decide ¬ (form == p.1) = true) =
        facts.forms.toList := by
      refine List.filter_eq_self.mpr fun p member => decide_eq_true fun same => missing ?_
      exact (mem_forms_congr (Formula.same_iff.mp same)).mpr (mem_forms_of_mem_toList member)
    have inserted := Std.TreeMap.toList_insert_perm (t := facts.forms) (k := form) (v := f)
    rw [kept] at inserted
    refine (inserted.map Prod.snd).trans ?_
    rw [List.map_cons]
    exact (indexed.perm.cons f).trans (List.perm_append_singleton f _).symm

theorem addAll {count : Nat} (indexed : facts.Indexed)
    (ok : facts.addAll fs = .ok (facts', count)) : facts'.Indexed := by
  induction fs generalizing facts count with
  | nil =>
    obtain ⟨rfl, -⟩ := Prod.mk.inj (Except.ok.inj ok)
    exact indexed
  | cons f fs ih =>
    simp only [Facts.addAll, bind_eq_ok, pure_eq_ok] at ok
    obtain ⟨⟨between, new⟩, first, ⟨last, more⟩, rest, equal⟩ := ok
    obtain ⟨rfl, -⟩ := Prod.mk.inj equal
    exact ih (indexed.add first) rest

theorem ofList (ok : Facts.ofList fs = .ok facts) : facts.Indexed := by
  obtain ⟨count, added⟩ := ofList_eq_ok.mp ok
  exact indexed_empty.addAll added

theorem mem_toList (indexed : facts.Indexed) :
    (form, f) ∈ facts.forms.toList ↔ f ∈ facts.formulas ∧ f.regularForm = .ok form := by
  constructor
  · exact indexed.form (form, f)
  · rintro ⟨listed, ok⟩
    obtain ⟨p, member, rfl⟩ := List.mem_map.mp (indexed.perm.symm.subset listed)
    obtain rfl := Except.ok.inj ((indexed.form p member).2.symm.trans ok)
    exact member

/-- No two listed formulas have the same regular form. -/
theorem pairwise_key (indexed : facts.Indexed) :
    facts.formulas.Pairwise fun f g => f.key ≠ g.key := by
  rw [← indexed.perm.pairwise_iff fun {f g} apart => apart.symm, List.pairwise_map]
  refine Std.TreeMap.distinct_keys_toList.imp_of_mem fun {p q} first second apart same => apart ?_
  rw [Formula.key_eq (indexed.form p first).2, Formula.key_eq (indexed.form q second).2] at same
  exact Formula.compare_eq_iff.mpr same

end Indexed

theorem addAll_append {between last : Facts} {count more : Nat}
    (first : facts.addAll fs = .ok (between, count)) (second : between.addAll gs = .ok (last, more)) :
    facts.addAll (fs ++ gs) = .ok (last, count + more) := by
  induction fs generalizing facts count with
  | nil =>
    obtain ⟨rfl, rfl⟩ := Prod.mk.inj (Except.ok.inj first)
    rw [List.nil_append, Nat.zero_add, second]
  | cons f fs ih =>
    simp only [addAll, bind_eq_ok, pure_eq_ok] at first
    obtain ⟨⟨start, new⟩, added, ⟨later, rest⟩, okr, equal⟩ := first
    obtain ⟨rfl, rfl⟩ := Prod.mk.inj equal
    rw [List.cons_append]
    simp only [addAll, added, bind, Except.bind, ih okr]
    cases new with
    | true => exact congrArg (fun n => Except.ok (last, n)) (Nat.add_right_comm rest more 1)
    | false => rfl

/-- Several calls come to one that adds all their formulas. -/
theorem addAll_of_extend {additions : List Addition} (ok : facts.extend additions = .ok facts') :
    ∃ count, facts.addAll (additions.flatMap Addition.formulas) = .ok (facts', count) := by
  induction additions generalizing facts with
  | nil =>
    obtain rfl := Except.ok.inj ok
    exact ⟨0, rfl⟩
  | cons addition more ih =>
    have first : ∃ between count, facts.addAll addition.formulas = .ok (between, count) ∧
        between.extend more = .ok facts' := by
      cases addition with
      | one f =>
        simp only [extend, bind_eq_ok] at ok
        obtain ⟨⟨between, new⟩, added, ok⟩ := ok
        refine ⟨between, if new then 0 + 1 else 0, ?_, ok⟩
        simp only [Addition.formulas, addAll, added, bind, Except.bind]
        rfl
      | several fs =>
        simp only [extend, bind_eq_ok] at ok
        obtain ⟨⟨between, count⟩, added, ok⟩ := ok
        exact ⟨between, count, added, ok⟩
    obtain ⟨between, count, added, rest⟩ := first
    obtain ⟨later, all⟩ := ih rest
    exact ⟨count + later, addAll_append added all⟩

theorem exists_add (facts : Facts) (ok : f.regularForm = .ok form) :
    ∃ facts' new, facts.add f = .ok (facts', new) := by
  have cases := facts.add_cases ok
  split at cases
  · exact ⟨_, _, cases⟩
  · exact ⟨_, _, cases⟩

theorem exists_addAll (facts : Facts) (fits : ∀ f ∈ fs, ∃ form, f.regularForm = .ok form) :
    ∃ facts' count, facts.addAll fs = .ok (facts', count) := by
  induction fs generalizing facts with
  | nil => exact ⟨facts, 0, rfl⟩
  | cons f fs ih =>
    obtain ⟨⟨form, here⟩, later⟩ := List.forall_mem_cons.mp fits
    obtain ⟨between, new, first⟩ := facts.exists_add here
    obtain ⟨last, count, rest⟩ := ih between later
    refine ⟨last, if new then count + 1 else count, ?_⟩
    simp only [addAll, first, rest, bind, Except.bind]
    rfl

/-- Where every formula has a regular form, no call fails. -/
theorem exists_extend (facts : Facts) (additions : List Addition)
    (fits : ∀ f ∈ additions.flatMap Addition.formulas, ∃ form, f.regularForm = .ok form) :
    ∃ facts', facts.extend additions = .ok facts' := by
  induction additions generalizing facts with
  | nil => exact ⟨facts, rfl⟩
  | cons addition more ih =>
    rw [List.flatMap_cons] at fits
    obtain ⟨here, later⟩ := List.forall_mem_append.mp fits
    cases addition with
    | one f =>
      obtain ⟨form, ok⟩ := here f (List.mem_singleton_self f)
      obtain ⟨between, new, added⟩ := facts.exists_add ok
      obtain ⟨last, rest⟩ := ih between later
      refine ⟨last, ?_⟩
      simp only [extend, added, bind, Except.bind, rest]
    | several fs =>
      obtain ⟨between, count, added⟩ := facts.exists_addAll here
      obtain ⟨last, rest⟩ := ih between later
      refine ⟨last, ?_⟩
      simp only [extend, bind, Except.bind]
      rw [show facts.addAll fs = .ok (between, count) from added]
      exact rest

theorem Filed.mem_forms_iff (filed : facts.Filed) :
    form ∈ facts.forms ↔ ∃ g ∈ facts.formulas, g.key = form.bare := by
  constructor
  · intro known
    obtain ⟨filedAs, source, member, same⟩ := exists_filed known
    obtain ⟨listed, regular⟩ := filed.form _ member
    exact ⟨source, listed, by rw [Formula.key_eq regular, same]⟩
  · rintro ⟨g, listed, same⟩
    obtain ⟨filedAs, ok, known⟩ := filed.formula g listed
    rw [Formula.key_eq ok] at same
    exact (mem_forms_congr same).mp known

theorem contains_eq (facts : Facts) (ok : f.regularForm = .ok form) :
    facts.contains f = .ok (facts.forms.contains form) := by
  simp only [contains, ok, bind, Except.bind]
  rfl

/-- Among formulas whose names have a single flag, those are known that are identical to a listed
one. -/
theorem Filed.contains_iff {P : Symbol → Prop} (filed : facts.Filed) (single : Symbol.Single P)
    (known : ∀ g ∈ facts.formulas, ∀ s ∈ g.symbols, P s) (symbols : ∀ s ∈ f.symbols, P s)
    (ok : f.regularForm = .ok form) :
    facts.forms.contains form = true ↔ ∃ g ∈ facts.formulas, g.identical f = true := by
  rw [Std.TreeMap.contains_iff_mem, filed.mem_forms_iff, ← Formula.key_eq ok]
  refine exists_congr fun g => and_congr_right fun member => ?_
  obtain ⟨form', ok', -⟩ := filed.formula g member
  exact Formula.key_eq_iff_identical single ok' ok (known g member) symbols

theorem mem_forms_iff_keys : form ∈ facts.forms ↔ ∃ k ∈ facts.forms.keys, k.bare = form.bare := by
  constructor
  · intro known
    obtain ⟨filedAs, source, member, same⟩ := exists_filed known
    rw [← Std.TreeMap.map_fst_toList_eq_keys]
    exact ⟨filedAs, List.mem_map_of_mem member, same⟩
  · rintro ⟨k, member, same⟩
    exact (mem_forms_congr same).mp (Std.TreeMap.mem_of_mem_keys member)

/-- The regular forms are the same in their order. -/
theorem sameAll_keys (same : ∀ form, form ∈ facts.forms ↔ form ∈ facts'.forms) :
    Formula.sameAll facts.forms.keys facts'.forms.keys = true := by
  rw [Formula.sameAll_iff fun f _ g => Formula.same_iff]
  refine Formula.map_bare_eq_of_ordered Std.TreeMap.ordered_keys Std.TreeMap.ordered_keys ?_
  exact fun form => by rw [← mem_forms_iff_keys, ← mem_forms_iff_keys, same]

/-- After any calls that add formulas in which every name has a single flag: the map has as many
entries as the list, and they are the listed formulas under their regular forms; no two listed
formulas are identical; a formula is known if a listed one is identical to it, and only then is it
not new and changes nothing when it is added; and other calls that add the same formulas, in any
order, lead to the same regular forms. -/
theorem extend_represents {additions : List Addition}
    (single : Formula.SingleOrder (additions.flatMap Addition.formulas))
    (built : Facts.empty.extend additions = .ok facts) :
    facts.formulas.length = facts.forms.size ∧
      (∀ form f, (form, f) ∈ facts.forms.toList ↔
        f ∈ facts.formulas ∧ f.regularForm = .ok form) ∧
      facts.formulas.Pairwise (fun f g => f.identical g = false ∧ g.identical f = false) ∧
      (∀ f form, f.regularForm = .ok form →
        (Formula.SingleOrder (f :: additions.flatMap Addition.formulas) →
          ∃ known, facts.contains f = .ok known ∧
            (known = true ↔ ∃ g ∈ facts.formulas, g.identical f = true)) ∧
        ∃ facts' new, facts.add f = .ok (facts', new) ∧
          (new = true ↔ facts.contains f = .ok false) ∧ (new = false → facts' = facts)) ∧
      ∀ others : List Addition,
        (others.flatMap Addition.formulas).Perm (additions.flatMap Addition.formulas) →
        ∃ facts', Facts.empty.extend others = .ok facts' ∧
          Formula.sameAll facts'.forms.keys facts.forms.keys = true := by
  obtain ⟨count, added⟩ := addAll_of_extend built
  have indexed := indexed_empty.addAll added
  have listed (f : Formula) (member : f ∈ facts.formulas) :
      f ∈ additions.flatMap Addition.formulas :=
    (mem_formulas_addAll added member).resolve_left (by simp [empty])
  refine ⟨?_, fun form f => indexed.mem_toList, ?_, fun f form ok => ⟨fun flags => ?_, ?_⟩, ?_⟩
  · rw [← indexed.perm.length_eq, List.length_map, Std.TreeMap.length_toList]
  · refine indexed.pairwise_key.imp_of_mem fun {f g} first second apart => ?_
    have pair := single.pair (listed f first) (listed g second)
    have pair' := single.pair (listed g second) (listed f first)
    exact ⟨Bool.eq_false_iff.mpr fun same => apart (pair.twinInstance same).key_eq,
      Bool.eq_false_iff.mpr fun same => apart (pair'.twinInstance same).key_eq.symm⟩
  · refine ⟨_, facts.contains_eq ok, indexed.contains_iff flags.symbols ?_ ?_ ok⟩
    · exact fun g member s occurs => ⟨g, List.mem_cons_of_mem f (listed g member), occurs⟩
    · exact fun s occurs => ⟨f, List.mem_cons_self, occurs⟩
  · rw [facts.contains_eq ok]
    have cases := facts.add_cases ok
    split at cases
    · rename_i known
      exact ⟨facts, false, cases, by simp [known], fun _ => rfl⟩
    · rename_i missing
      rw [← Std.TreeMap.contains_iff_mem, Bool.not_eq_true] at missing
      exact ⟨_, true, cases, by simp [missing], by simp⟩
  · intro others perm
    obtain ⟨facts', built'⟩ := exists_extend .empty others fun f member =>
      exists_form_of_addAll added (perm.subset member)
    obtain ⟨count', added'⟩ := addAll_of_extend built'
    refine ⟨facts', built', sameAll_keys fun form => ?_⟩
    rw [mem_forms_addAll added, mem_forms_addAll added']
    exact or_congr_right (exists_congr fun f => and_congr_left' perm.mem_iff)

/-- Of two identical formulas and another one, the second is not listed, and it is known. -/
theorem extend_represents_allOrSome :
    ∃ facts : Facts, Formula.SingleOrder [.allOrSome, .someOrAll, .prop "A"] ∧
      Facts.empty.extend [.one .allOrSome, .several [.someOrAll, .prop "A"]] = .ok facts ∧
      facts.formulas = [.allOrSome, .prop "A"] ∧ facts.formulas.length = facts.forms.size ∧
      (.allOrSomeNumbered, .allOrSome) ∈ facts.forms.toList ∧
      ∃ facts', facts.add .someOrAll = .ok (facts', false) ∧ facts' = facts := by
  have single : Formula.SingleOrder [.allOrSome, .someOrAll, .prop "A"] := by
    simp [Formula.SingleOrder, Formula.allOrSome, Formula.someOrAll, Formula.prop, Formula.symbols,
      Term.symbols, Symbol.same, Symbol.ordered, Relation.same, Predicate.same, Name.plain,
      Relation.ordered]
  have first : Formula.allOrSome.regularForm = .ok .allOrSomeNumbered := by cbv
  have second : Formula.someOrAll.regularForm = .ok .allOrSomeNumbered := by cbv
  have listed : (Facts.empty.extend [.one .allOrSome, .several [.someOrAll, .prop "A"]] >>=
      fun facts => pure facts.formulas) = .ok [.allOrSome, .prop "A"] := by cbv
  obtain ⟨facts, built, formulas⟩ := bind_eq_ok.mp listed
  rw [pure_eq_ok] at formulas
  obtain ⟨sizes, filed, -, each, -⟩ :=
    @extend_represents facts [.one .allOrSome, .several [.someOrAll, .prop "A"]] single built
  have member : (.allOrSomeNumbered, .allOrSome) ∈ facts.forms.toList :=
    (filed _ _).mpr ⟨by simp [formulas], first⟩
  obtain ⟨-, facts', new, added, isNew, kept⟩ := each _ _ second
  have known : facts.forms.contains .allOrSomeNumbered = true :=
    Std.TreeMap.contains_iff_mem.mpr (Facts.mem_forms_of_mem_toList member)
  rw [facts.contains_eq second, known] at isNew
  obtain rfl : new = false := by simpa using isNew
  exact ⟨facts, single, built, formulas, sizes, member, facts', added, kept rfl⟩

end Facts

end Sequitur
