import Sequitur.Arrangement
import Sequitur.Bindings
import Sequitur.Deduction
import Sequitur.Error
import Sequitur.Facts
import Sequitur.Formula
import Sequitur.Formula.Printer
import Sequitur.Identity
import Sequitur.Matcher
import Sequitur.Name
import Sequitur.Name.Parser
import Sequitur.Order
import Sequitur.Pattern
import Sequitur.Pattern.Match
import Sequitur.Proofs.Abstraction
import Sequitur.Proofs.Agreement
import Sequitur.Proofs.Arrangement
import Sequitur.Proofs.Assignments
import Sequitur.Proofs.Associativity
import Sequitur.Proofs.Attempt
import Sequitur.Proofs.Availability
import Sequitur.Proofs.Backtracking
import Sequitur.Proofs.BinderOrder
import Sequitur.Proofs.Canonicity
import Sequitur.Proofs.Catalogue
import Sequitur.Proofs.Comparison
import Sequitur.Proofs.Congruence
import Sequitur.Proofs.DefaultSearch
import Sequitur.Proofs.Definitions
import Sequitur.Proofs.Dependencies
import Sequitur.Proofs.Equality
import Sequitur.Proofs.Equivalences
import Sequitur.Proofs.Exactness
import Sequitur.Proofs.Facts
import Sequitur.Proofs.Filling
import Sequitur.Proofs.FirstUse
import Sequitur.Proofs.Flattening
import Sequitur.Proofs.Identity
import Sequitur.Proofs.Indices
import Sequitur.Proofs.Instance
import Sequitur.Proofs.Instantiation
import Sequitur.Proofs.Matching
import Sequitur.Proofs.Monotonicity
import Sequitur.Proofs.Numbering
import Sequitur.Proofs.Occurrences
import Sequitur.Proofs.Order
import Sequitur.Proofs.Overflow
import Sequitur.Proofs.Pattern
import Sequitur.Proofs.Premises
import Sequitur.Proofs.Propositions
import Sequitur.Proofs.Provenance
import Sequitur.Proofs.Queue
import Sequitur.Proofs.References
import Sequitur.Proofs.Registration
import Sequitur.Proofs.RegularForm
import Sequitur.Proofs.Relabelling
import Sequitur.Proofs.Renaming
import Sequitur.Proofs.Replacement
import Sequitur.Proofs.Rewriting
import Sequitur.Proofs.Room
import Sequitur.Proofs.RoundTrip
import Sequitur.Proofs.Saturation
import Sequitur.Proofs.Scopes
import Sequitur.Proofs.Session
import Sequitur.Proofs.Soundness
import Sequitur.Proofs.Steps
import Sequitur.Proofs.Substitution
import Sequitur.Proofs.SubstitutionLaws
import Sequitur.Proofs.Sufficiency
import Sequitur.Proofs.Syntax
import Sequitur.Proofs.Template
import Sequitur.Proofs.Totality
import Sequitur.Proofs.Truth
import Sequitur.Proofs.Uniformity
import Sequitur.Proofs.Variable
import Sequitur.RegularForm
import Sequitur.Replacement
import Sequitur.Rule
import Sequitur.Rule.Catalogue
import Sequitur.Rule.Conjunction
import Sequitur.Rule.ExcludedMiddle
import Sequitur.Rule.Existential
import Sequitur.Rule.Flattening
import Sequitur.Rule.Inference
import Sequitur.Rule.ModusPonens
import Sequitur.Rule.PatternRule
import Sequitur.Search
import Sequitur.Session
import Sequitur.Settings
import Sequitur.Substitution
import Sequitur.Symbol
import Sequitur.Template
import Sequitur.Term
import Sequitur.Text.Blank
import Sequitur.Text.Numeral
import Sequitur.Text.Quoted
import Sequitur.Text.Unprinted
import Sequitur.Theory
import Sequitur.Transformation
import Sequitur.Variable
