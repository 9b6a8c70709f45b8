import Formula.Calculator
import Formula.CommandLine
import Formula.Main
import Formula.Proofs.Evaluation.Assignment
import Formula.Proofs.Evaluation.Calls
import Formula.Proofs.Evaluation.Counted
import Formula.Proofs.Evaluation.Discards
import Formula.Proofs.Evaluation.Effects
import Formula.Proofs.Evaluation.Equality
import Formula.Proofs.Evaluation.Ground
import Formula.Proofs.Evaluation.NanFree
import Formula.Proofs.Evaluation.NormalForm
import Formula.Proofs.Evaluation.ReadBack
import Formula.Proofs.Evaluation.Settles
import Formula.Proofs.Evaluation.Simplify
import Formula.Proofs.Evaluation.Stepwise
import Formula.Proofs.Evaluation.Weight
import Formula.Proofs.Grammar.DefaultPatterns
import Formula.Proofs.Grammar.Expansion
import Formula.Proofs.Grammar.Occurrence
import Formula.Proofs.Grammar.Operand
import Formula.Proofs.Grammar.OperandSearch
import Formula.Proofs.Grammar.Select
import Formula.Proofs.Grammar.UnarySearch
import Formula.Proofs.Reader.Cached
import Formula.Proofs.Reader.Depth
import Formula.Proofs.Reader.Editing
import Formula.Proofs.Reader.Frame
import Formula.Proofs.Reader.InRange
import Formula.Proofs.Reader.KeyForm
import Formula.Proofs.Reader.Lists
import Formula.Proofs.Reader.Precedence
import Formula.Proofs.Reader.Reentry
import Formula.Proofs.Reader.Shown
import Formula.Proofs.Reader.UnaryRuns
import Formula.Proofs.Reader.Unbalanced
import Formula.Proofs.Text.Reversible
import Formula.Proofs.Text.TopLevel
