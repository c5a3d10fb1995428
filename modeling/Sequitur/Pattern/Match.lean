import Sequitur.Identity
import Sequitur.Matcher
import Sequitur.Pattern
import Sequitur.Replacement

/-! Matching terms and formulas against patterns. All matches are listed, in the order in
which members are assigned from left to right. Whether arguments match in order is read off
the pattern's symbol. -/

namespace Sequitur

namespace TermPattern

mutual

def resolve (r : Bindings) : TermPattern → Option Term
  | .ref name => r.term? name
  | .var v => some (.var v)
  | .const c => some (.const c)
  | .app op ps => (resolveAll r ps).map (.app op)

def resolveAll (r : Bindings) : List TermPattern → Option (List Term)
  | [] => some []
  | p :: ps => do return (← resolve r p) :: (← resolveAll r ps)

end

/-- A reference takes the first term it meets, and later terms identical to it. -/
def matchRef (name : String) : Matcher Term := fun t r =>
  match r.term? name with
  | some bound => if bound.identical t then [r] else []
  | none => [r.insertTerm name t]

def arguments (ordered : Bool) (ms : List (Matcher Term)) (ts : List Term) (r : Bindings) :
    List Bindings :=
  if ordered then Matcher.inOrder ms ts r else Matcher.inAnyOrder ms ts r

mutual

def matcher : TermPattern → Matcher Term
  | .ref name, t, r => matchRef name t r
  | .var v, .var w, r => if v = w then [r] else []
  | .const c, .const d, r => if c.same d then [r] else []
  | .app f ps, .app g ts, r => if f.same g then arguments f.ordered (matchers ps) ts r else []
  | _, _, _ => []

def matchers : List TermPattern → List (Matcher Term)
  | [] => []
  | p :: ps => matcher p :: matchers ps

end

end TermPattern

namespace Pattern

/-- A plain reference takes the first formula it meets, and later formulas identical to it. -/
def matchRef (name : String) : Matcher Formula := fun f r =>
  match r.formula? name with
  | some bound => if bound.body.identical f then [r] else []
  | none => [r.insertFormula name ⟨[], f⟩]

/-- Some reference that was bound under the binder of `v` mentions `v`, so that `v` would
leave its scope. Parameters of a reference are not its variables. -/
def escapes (v : Variable) (before after : Bindings) : Bool :=
  (after.terms.toList.any fun p =>
    (before.term? p.1).isNone && p.2.vars.contains v) ||
  (after.formulas.toList.any fun p =>
    (before.formula? p.1).isNone && p.2.body.freeVars.contains v && !p.2.params.contains v)

/-- Matches a body with `name` standing for the bound variable, and then gives `name` back
the meaning it had outside. -/
def underBinder (name : String) (m : Matcher Formula) (v : Variable) (body : Formula)
    (r : Bindings) : List Bindings :=
  let restore (r' : Bindings) : Bindings :=
    match r.term? name with
    | some t => r'.insertTerm name t
    | none => r'.eraseTerm name
  ((m body (r.insertTerm name (.var v))).map restore).filter fun r' => !escapes v r r'

mutual

/-- Matching, where `applied` says what a parametrized reference matches. -/
def matcherWith (applied : String → List TermPattern → Matcher Formula) :
    Pattern → Matcher Formula
  | .nothing, _, _ => []
  | .ref name, f, r => matchRef name f r
  | .refAt name ps, f, r => applied name ps f r
  | .atom s ps, .atom s' ts, r =>
    if s.same s' then TermPattern.arguments s.ordered (TermPattern.matchers ps) ts r else []
  | .not p, .not f, r => matcherWith applied p f r
  | .multi c ps others, .multi d fs, r =>
    if c = d then
      Matcher.withOthers (matchersWith applied ps)
        (if others.isNothing then none else some (matcherWith applied others))
        (Formula.multi c) fs r
    else []
  | .link .imply p q, .link .imply a b, r =>
    Matcher.onEach (matcherWith applied q) b (matcherWith applied p a r)
  | .link .equiv p q, .link .equiv a b, r =>
    Matcher.onEach (matcherWith applied q) b (matcherWith applied p a r) ++
      Matcher.onEach (matcherWith applied q) a (matcherWith applied p b r)
  | .bind q name p, .bind q' v f, r =>
    if q = q' then underBinder name (matcherWith applied p) v f r else []
  | _, _, _ => []

def matchersWith (applied : String → List TermPattern → Matcher Formula) :
    List Pattern → List (Matcher Formula)
  | [] => []
  | p :: ps => matcherWith applied p :: matchersWith applied ps

end

structure Abstracting where
  bindings : Bindings
  body : Formula
  params : List Variable

/-- A parameter that occurs neither in the body nor in the term it replaces. -/
def newParam (s : Abstracting) (t : Term) : Variable :=
  .fresh "p" (VarSet.union s.params (VarSet.union s.body.allVars t.vars))

def Abstracting.addParam (s : Abstracting) (v : Variable) : Abstracting :=
  { s with params := s.params ++ [v] }

/-- Abstracts over one more argument. A variable is a parameter as it is, and any other term
is replaced by a fresh one. A reference that nothing binds yet may be any free variable of
the whole formula `f`, or a fresh one if it has none; another argument that is not determined
matches nothing. -/
def abstractOver (f : Formula) (arg : TermPattern) (s : Abstracting) : List Abstracting :=
  match arg.resolve s.bindings with
  | some (.var v) => [s.addParam v]
  | some t =>
    let p := newParam s t
    [{ s with body := s.body.replace t (.var p) }.addParam p]
  | none =>
    match arg with
    | .ref name =>
      let choices :=
        if f.freeVars.isEmpty then [newParam s (.var ⟨"x"⟩)] else f.freeVars
      choices.map fun v => { s with bindings := s.bindings.insertTerm name (.var v) }.addParam v
    | _ => []

/-- A parametrized reference. On its first use the formula is abstracted over the arguments;
later it has to be an instance of that abstraction at the arguments. -/
def matchRefAt (name : String) (args : List TermPattern) : Matcher Formula := fun f r =>
  match r.formula? name with
  | some bound =>
    if bound.params.length = args.length then
      matcherWith (fun _ _ _ _ => []) (ofInstance (bound.params.zip args).reverse bound.body) f r
    else []
  | none =>
    let states := args.foldl (fun states arg => states.flatMap (abstractOver f arg)) [⟨r, f, []⟩]
    states.map fun s => s.bindings.insertFormula name ⟨s.params, s.body⟩

def matcher : Pattern → Matcher Formula := matcherWith matchRefAt

end Pattern

end Sequitur
