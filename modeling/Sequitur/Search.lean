import Sequitur.Rule.Inference

/-! A search combines inference steps over a bounded number of rounds. Each round applies
every step to what the round before obtained. A formula that is identical to one reached
before is dropped, and each reached formula remembers the step that gave it, with the regular
forms of its premises. From these steps the derivation of a goal is built at the end. -/

namespace Sequitur

structure Search where
  rules : List Inference
  depth : Nat

/-- How a formula was reached. -/
structure Step where
  formula : Formula
  /-- None for known formulas. -/
  rule : Option Name
  /-- The regular forms of the direct premises. -/
  premises : List Formula
  /-- The known formulas that this rests on. -/
  roots : List Formula
  deriving Inhabited

/-- What was reached, by regular form. -/
abbrev ReachedForms := Std.TreeMap Formula Step Formula.compare

abbrev Built := Std.TreeMap Formula Derivation Formula.compare

namespace Search

def name : Name := .qualified ["logic"] "Logic"

def description : String := "Combination of all logic rules."

def addRule (s : Search) (rule : Inference) : Except Error Search :=
  if s.rules.any fun r => r.name.same rule.name then .error (.alreadyInSearch rule.name)
  else .ok { s with rules := s.rules ++ [rule] }

def addRoot (roots : List Formula) (f : Formula) : List Formula :=
  if roots.any (·.same f) then roots else roots ++ [f]

/-- The roots of a step with the given premises, each with its regular form: first those of
the first premise, and so on, without repetition. -/
def rootsOf (reached : ReachedForms) (premises : List (Formula × Formula)) : List Formula :=
  premises.foldl (fun roots p =>
    match reached[p.1]? with
    | some r => r.roots.foldl addRoot roots
    | none => roots ++ [p.2]) []

def withForms : List Formula → Except Error (List (Formula × Formula))
  | [] => .ok []
  | f :: fs => do
    let form ← f.regularForm
    let rest ← withForms fs
    return (form, f) :: rest

def step (reached : ReachedForms) (d : Deduction) : Except Error Step := do
  let premises ← withForms d.dependencies
  return ⟨d.formula, some d.rule, premises.map Prod.fst, rootsOf reached premises⟩

def without (form : Formula) (left : List Formula) : List Formula :=
  left.filter fun g => !g.same form

theorem length_without_lt {left : List Formula} {form : Formula}
    (found : left.any (·.same form) = true) : (without form left).length < left.length := by
  rw [without, List.length_filter_lt_length_iff_exists]
  obtain ⟨g, member, same⟩ := List.any_eq_true.mp found
  exact ⟨g, member, by simp [same]⟩

mutual

/-- The derivation of a form, from the steps that were recorded. Each form is built once. The
forms `left` are not being built yet: one that is met again below itself has no derivation. -/
def build (reached : ReachedForms) (left : List Formula) (form : Formula) (built : Built) :
    Option (Derivation × Built) :=
  match built[form]? with
  | some d => some (d, built)
  | none =>
    match reached[form]? with
    | none => some (.leaf form, built.insert form (.leaf form))
    | some step =>
      if _ : left.any (·.same form) then do
        let (premises, built) ← buildAll reached (without form left) step.premises built
        let d := Derivation.node step.rule step.formula premises
        return (d, built.insert form d)
      else none
termination_by (left.length, 0)
decreasing_by exact .left _ _ (length_without_lt ‹_›)

def buildAll (reached : ReachedForms) (left : List Formula) :
    List Formula → Built → Option (List Derivation × Built)
  | [], built => some ([], built)
  | form :: forms, built => do
    let (d, built) ← build reached left form built
    let (ds, built) ← buildAll reached left forms built
    return (d :: ds, built)
termination_by forms => (left.length, forms.length + 1)
decreasing_by
  · exact .right _ (by omega)
  · exact .right _ (by simp)

end

def conclude (reached : ReachedForms) (d : Deduction) : Except Error Deduction := do
  let last ← step reached d
  return {
    rule := name
    formula := last.formula
    dependencies := last.roots
    info := d.info
    derivation := (buildAll reached reached.keys last.premises {}).map fun built =>
      .node last.rule last.formula built.1 }

/-- What one round has reached so far, and which of it is new in this round. -/
structure Progress where
  reached : ReachedForms
  fresh : FormulaSet

/-- Enters candidates that were not reached before. -/
def enter (p : Progress) : List Deduction → Except Error Progress
  | [] => .ok p
  | d :: ds => do
    let form ← d.formula.regularForm
    if p.reached.contains form then enter p ds
    else
      let r ← step p.reached d
      enter ⟨p.reached.insert form r, p.fresh.insert form⟩ ds

/-- One round: the rules in turn, up to the first that reaches the goal. -/
def round (facts : Facts) (frontier : FormulaSet) (hints : Hints) (goal : Formula)
    (p : Progress) : List Inference → Except Error (Deduction ⊕ Progress)
  | [] => .ok (.inr p)
  | rule :: rules => do
    match ← rule.advance facts frontier hints goal with
    | .reached d => return .inl (← conclude p.reached d)
    | .candidates ds => round facts frontier hints goal (← enter p ds) rules

/-- Up to `depth` rounds; a round that obtains nothing new is the last. -/
def rounds (rules : List Inference) (hints : Hints) (goal : Formula) :
    Nat → Facts → FormulaSet → ReachedForms → Except Error (Option Deduction)
  | 0, _, _, _ => .ok none
  | depth + 1, facts, frontier, reached => do
    match ← round facts frontier hints goal ⟨reached, {}⟩ rules with
    | .inl d => return some d
    | .inr p =>
      if p.fresh.isEmpty then return none
      let (facts, _) ← facts.addAll p.fresh.toList
      rounds rules hints goal depth facts p.fresh p.reached

/-- The known formulas, which rest on themselves. -/
def start (facts : Facts) : ReachedForms :=
  facts.forms.map fun _ f => ⟨f, none, [], [f]⟩

def run (s : Search) (facts : Facts) (hints : Hints) (goal : Formula) :
    Except Error (Option Deduction) :=
  rounds s.rules hints goal s.depth facts facts.regularForms (start facts)

def towards (s : Search) (facts : Facts) (hints : Hints) (goal : Formula) :
    Except Error Outcome := do
  match ← s.run facts hints goal with
  | some d => return .reached d
  | none => return .candidates []

def ruleNames (s : Search) : List Name := s.rules.map Inference.name

def describe (s : Search) : String :=
  "LogicSearch(depth=" ++ toString s.depth ++ ", " ++
    Text.bracketed (s.ruleNames.map fun n => Text.quote n.full) ++ ")"

end Search

end Sequitur
