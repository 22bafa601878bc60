import Abacus.Double.Grid
import Abacus.Double.Basic
import Abacus.Double.Arithmetic
import Abacus.Double.Order
import Abacus.Double.Text
import Abacus.Single
import Abacus.HostNumber
import Abacus.Decimal.Basic
import Abacus.Decimal.Shortest
import Abacus.Decimal.Positional
import Abacus.Literal.Form
import Abacus.Literal.Reader
import Abacus.Operator
import Abacus.Expr.Basic
import Abacus.Expr.Render
import Abacus.Expr.Assembly
import Abacus.Scope
import Abacus.Journal
import Abacus.Evaluation.Error
import Abacus.Evaluation.Basic
import Abacus.Evaluation.Resolve
import Abacus.Session.Basic
import Abacus.Session.Setup
import Abacus.Session.Workspace
import Abacus.Proofs.Evaluation.StackMachine
import Abacus.Proofs.Literal.Numeral
import Abacus.Proofs.Literal.Digits
import Abacus.Proofs.Literal.Reading
import Abacus.Proofs.Text.Encoding
import Abacus.Proofs.Literal.Bytes
import Abacus.Proofs.Literal.Acceptance
import Abacus.Proofs.Double.Nearest
import Abacus.Proofs.Decimal.Rounding
import Abacus.Proofs.Literal.Denotation
import Abacus.Proofs.Decimal.RoundTrip
import Abacus.Proofs.Expr.Grammar
import Abacus.Proofs.Expr.Rendering
import Abacus.Proofs.Expr.LiteralText
import Abacus.Proofs.Evaluation.Course
import Abacus.Proofs.Evaluation.Visit
import Abacus.Proofs.Scope.Writes
import Abacus.Proofs.Evaluation.Record
import Abacus.Proofs.Journal.Report
import Abacus.Proofs.Journal.Traffic
import Abacus.Proofs.Journal.Nesting
import Abacus.Proofs.Session.Independence
import Abacus.Proofs.Evaluation.Footprint
import Abacus.Proofs.Session.Commutation
import Abacus.Proofs.Journal.Levels
import Abacus.Proofs.Evaluation.DefiniteAssignment
import Abacus.Proofs.Evaluation.Effect
import Abacus.Proofs.Decimal.Shortest
import Abacus.Proofs.Double.WrittenForm
import Abacus.Proofs.Literal.Refusal
import Abacus.Proofs.Evaluation.Noninterference
import Abacus.Proofs.Evaluation.Propagation
import Abacus.Proofs.Evaluation.Repetition
import Abacus.Proofs.Expr.Parentheses
import Abacus.Proofs.Text.ByteOrder
import Abacus.Proofs.Scope.Listing
import Abacus.Proofs.Session.Continuation
import Abacus.Proofs.Literal.Radix
import Abacus.Proofs.Expr.Equality
import Abacus.Proofs.Double.Order
import Abacus.Proofs.Double.Exact
import Abacus.Proofs.HostNumber
import Abacus.Proofs.Evaluation.Integers
