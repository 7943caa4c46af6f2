import FuzzyInference.Binary64.Instances
import FuzzyInference.Engine
import FuzzyInference.Proofs.Antecedent.Grammar
import FuzzyInference.Proofs.Decimal.Literal
import FuzzyInference.Proofs.Formula.Lexeme
import FuzzyInference.Proofs.Formula.Builtin
import FuzzyInference.Proofs.Formula.Grammar
import FuzzyInference.Proofs.Cycle.Frame
import FuzzyInference.Proofs.Cycle.History
import FuzzyInference.Proofs.Cycle.Order
import FuzzyInference.Proofs.Cycle.Triggers
import FuzzyInference.Proofs.Loading.Resolved
import FuzzyInference.Proofs.Consequent.Conclusions
import FuzzyInference.Proofs.Cycle.Entries
import FuzzyInference.Proofs.Rule.Language
import FuzzyInference.Proofs.Infix.Contents
import FuzzyInference.Proofs.Infix.WellFormed
import FuzzyInference.Proofs.Formula.Placement
import FuzzyInference.Proofs.Antecedent.Reading
import FuzzyInference.Proofs.Antecedent.Placement
import FuzzyInference.Proofs.Antecedent.Printing
import FuzzyInference.Proofs.Json.Written
import FuzzyInference.Proofs.Definition.Lossless
import FuzzyInference.Proofs.Decimal.Rounding
import FuzzyInference.Proofs.Binary64.Text
import FuzzyInference.Proofs.Rule.Printing
import FuzzyInference.Proofs.Activation.Printing
import FuzzyInference.Proofs.Rule.Lifecycle
import FuzzyInference.Proofs.Definition.Export
import FuzzyInference.Proofs.Definition.Rebuild
import FuzzyInference.Proofs.Rule.InPlace
import FuzzyInference.Proofs.Cycle.Steps
import FuzzyInference.Proofs.Rule.Consistency
import FuzzyInference.Proofs.Cycle.Stops
import FuzzyInference.Proofs.Cycle.Marks
import FuzzyInference.Proofs.Text.Messages
import FuzzyInference.Proofs.Loading.Causes
import FuzzyInference.Proofs.Loading.Reload
import FuzzyInference.Proofs.Loading.Handles
import FuzzyInference.Proofs.Loading.Definition
import FuzzyInference.Proofs.Cycle.Simulation
import FuzzyInference.Proofs.Cycle.Transient
import FuzzyInference.Proofs.Cycle.Unread
import FuzzyInference.Proofs.Exact.Number
import FuzzyInference.Proofs.Exact.Traced
import FuzzyInference.Proofs.Exact.Unit
import FuzzyInference.Proofs.Exact.Degree
import FuzzyInference.Proofs.Cycle.InPlace
import FuzzyInference.Proofs.Cycle.TwoPhase
import FuzzyInference.Proofs.Cycle.Atomic
import FuzzyInference.Proofs.Cycle.Ranking
import FuzzyInference.Proofs.Cycle.Quota
import FuzzyInference.Proofs.Cycle.Received
import FuzzyInference.Proofs.Cycle.Forward
import FuzzyInference.Proofs.Cycle.Selection
import FuzzyInference.Proofs.Cycle.Interleaving
import FuzzyInference.Proofs.Cycle.Permuted
import FuzzyInference.Proofs.Proposition.WellFormed
import FuzzyInference.Proofs.Antecedent.Evaluation
import FuzzyInference.Proofs.Cycle.Share
import FuzzyInference.Proofs.Binary64.Unpacked
import FuzzyInference.Proofs.Binary64.Rounding
import FuzzyInference.Proofs.Binary64.Arithmetic
import FuzzyInference.Proofs.Term.Shoulder
import FuzzyInference.Proofs.Consequent.Language
import FuzzyInference.Proofs.Formula.Evaluation
import FuzzyInference.Proofs.Infix.Trees
import FuzzyInference.Proofs.Formula.Spacing
import FuzzyInference.Proofs.Formula.Readability
import FuzzyInference.Proofs.Definition.Report
import FuzzyInference.Proofs.Activation.Unregistered
import FuzzyInference.Proofs.Norm.Value
import FuzzyInference.Proofs.Norm.Laws
import FuzzyInference.Proofs.Norm.Duality
import FuzzyInference.Proofs.Norm.Registered
import FuzzyInference.Proofs.Definition.Keys
import FuzzyInference.Proofs.Rule.FreeClauses
import FuzzyInference.Proofs.Infix.Calls
import FuzzyInference.Proofs.Exact.Membership
import FuzzyInference.Proofs.Exact.Tolerance
