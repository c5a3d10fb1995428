import Sequitur.Rule.Inference
import Sequitur.Search

/-! The rules of first-order logic, in the order in which a search tries them. -/

namespace Sequitur.Catalogue

def logicName (s : String) : Name := .qualified ["logic"] s

def oneWay (s description : String) (pattern : Pattern)
    (result : Bindings → Except Error Formula) : Inference :=
  .pattern ⟨logicName s, description, .oneWay ⟨pattern, result⟩⟩

def exchange (s description : String) (lhs rhs : Formula) : Inference :=
  .pattern (.exchange (logicName s) description lhs rhs)

/-- What `kept` is bound to, joined to the members left over if there are any. -/
def beside (c : Junction) (others kept : String) (r : Bindings) : Except Error Formula := do
  let f ← r.formula kept
  match r.formula? others with
  | some a => return .multi c [a.body, f]
  | none => return f

def doubleNegate : Inference :=
  oneWay "DoubleNegate" "¬¬P ⇒ P" (.not (.not (.ref "P"))) (·.formula "P")

def identityAnd : Inference :=
  oneWay "IdentityAnd" "P∧P ⇒ P" (.multi .and [.ref "P", .ref "P"] (.ref "Q"))
    (beside .and "Q" "P")

def identityOr : Inference :=
  oneWay "IdentityOr" "P∨P ⇒ P" (.multi .or [.ref "P", .ref "P"] (.ref "Q"))
    (beside .or "Q" "P")

def absorptionAnd : Inference :=
  oneWay "AbsorptionAnd" "P∧(P∨Q) ⇒ P"
    (.multi .and [.ref "P", .multi .or [.ref "P"] (.ref "Q")] (.ref "R")) (beside .and "R" "P")

def absorptionOr : Inference :=
  oneWay "AbsorptionOr" "P∨(P∧Q) ⇒ P"
    (.multi .or [.ref "P", .multi .and [.ref "P"] (.ref "Q")] (.ref "R")) (beside .or "R" "P")

def andProject : Inference :=
  oneWay "AndProject" "P∧Q ⇒ P" (.multi .and [.ref "P"] (.ref "Q")) (·.formula "P")

def implyCompose : Inference :=
  oneWay "ImplyCompose" "(P→Q)∧(Q→R) ⇒ P→R"
    (.exactly .and [.link .imply (.ref "P") (.ref "Q"), .link .imply (.ref "Q") (.ref "R")])
    fun r => do
      let p ← r.formula "P"
      let q ← r.formula "R"
      return .imply p q

def defImply : Inference :=
  exchange "DefImply" "P→Q ⇔ ¬P∨Q"
    (.imply (.prop "P") (.prop "Q")) (.or [.not (.prop "P"), .prop "Q"])

def defEquivTo : Inference :=
  exchange "DefEquivTo" "(P→Q)∧(Q→P) ⇔ P↔Q"
    (.and [.imply (.prop "P") (.prop "Q"), .imply (.prop "Q") (.prop "P")])
    (.equiv (.prop "P") (.prop "Q"))

def equalReplace : Inference :=
  oneWay "EqualReplace" "x=y ∧ φ(x) ⇒ φ(y)"
    (.exactly .and [.equal "x" "y", .refAt "phi" [.ref "x"]])
    fun r => do
      let y ← r.term "y"
      r.apply "phi" [y]

def forAnyAnd : Inference :=
  oneWay "ForAnyAnd" "∀xφ(x) ∧ ∀xψ(x) ⇒ ∀x(φ(x)∧ψ(x))"
    (.exactly .and [.bind .all "x" (.refAt "phi" [.ref "x"]),
      .bind .all "x" (.refAt "psi" [.ref "x"])])
    fun r => do
      let z := r.freshVar
      let phi ← r.apply "phi" [.var z]
      let psi ← r.apply "psi" [.var z]
      return .all z (.and [phi, psi])

def combined : List Inference := [
  .flattening,
  doubleNegate,
  identityAnd,
  identityOr,
  absorptionAnd,
  absorptionOr,
  .conjunction,
  andProject,
  implyCompose,
  defImply,
  .modusPonens,
  defEquivTo,
  equalReplace,
  .excludedMiddle,
  forAnyAnd]

def rules : List Inference := combined ++ [.existential]

def defaultDepth : Nat := 4

def search : Search := ⟨combined, defaultDepth⟩

def find? (display : String) : Option Inference :=
  rules.find? fun rule => rule.name.display == display

end Sequitur.Catalogue
