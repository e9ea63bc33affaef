import PocketCalculator.Binary64.Basic
import PocketCalculator.Binary64.Arithmetic
import PocketCalculator.Decimal.Basic
import PocketCalculator.Decimal.Shortest
import PocketCalculator.Decimal.Written
import PocketCalculator.Decimal.Display
import PocketCalculator.Text.WhiteSpace
import PocketCalculator.Text.Lines
import PocketCalculator.Operator
import PocketCalculator.Token.Basic
import PocketCalculator.Token.Scan
import PocketCalculator.Fault
import PocketCalculator.Operand
import PocketCalculator.Expression.Basic
import PocketCalculator.Expression.Parse
import PocketCalculator.Evaluation
import PocketCalculator.Keypad.Key
import PocketCalculator.Keypad.Submission
import PocketCalculator.Keypad.Basic
import PocketCalculator.Keypad.Replay
import PocketCalculator.Report.Json
import PocketCalculator.Report.Record
import PocketCalculator.Report.Summary
import PocketCalculator.Report.Transcript
import PocketCalculator.Session
import PocketCalculator.CommandLine.Options
import PocketCalculator.CommandLine.Parse
import PocketCalculator.CommandLine.Program
import PocketCalculator.Main
import PocketCalculator.Proofs.Reading.Exact
import PocketCalculator.Proofs.Rewriting.Innermost
import PocketCalculator.Proofs.Keypad.Reachable
import PocketCalculator.Proofs.Keypad.Equals
import PocketCalculator.Proofs.Scanning.Range
import PocketCalculator.Proofs.Decimal.Rounding
import PocketCalculator.Proofs.Decimal.Order
import PocketCalculator.Proofs.Evaluation.Parentheses
import PocketCalculator.Proofs.Scanning.Parentheses
import PocketCalculator.Proofs.Keypad.Retyped
import PocketCalculator.Proofs.Formula
import PocketCalculator.Proofs.Decimal.Plain
import PocketCalculator.Proofs.Evaluation.Plain
import PocketCalculator.Proofs.Evaluation.Denoted
import PocketCalculator.Proofs.Evaluation.Rounded
import PocketCalculator.Proofs.Keypad.Rounded
import PocketCalculator.Proofs.Reading.Grouped
import PocketCalculator.Proofs.Keypad.Typed
import PocketCalculator.Proofs.Reading.Resumed
import PocketCalculator.Proofs.Binary64.Value
import PocketCalculator.Proofs.Decimal.Value
import PocketCalculator.Proofs.Decimal.Scaled
import PocketCalculator.Proofs.Evaluation.Sums
import PocketCalculator.Proofs.Evaluation.Integers
import PocketCalculator.Proofs.Report.Records
import PocketCalculator.Proofs.Session.Lines
import PocketCalculator.Proofs.CommandLine.Evaluation
import PocketCalculator.Proofs.Decimal.Displayed
import PocketCalculator.Proofs.Scanning.Products
import PocketCalculator.Proofs.Scanning.Blanks
import PocketCalculator.Proofs.Reading.Offending
import PocketCalculator.Proofs.Reading.Adjacent
import PocketCalculator.Proofs.Binary64.Unbounded
import PocketCalculator.Proofs.Decimal.Numerals
import PocketCalculator.Proofs.Keypad.Undone
import PocketCalculator.Proofs.Keypad.Restored
import PocketCalculator.Proofs.Keypad.Completion
import PocketCalculator.Proofs.CommandLine.Unreadable
import PocketCalculator.Proofs.CommandLine.Replay
import PocketCalculator.Proofs.CommandLine.Placement
