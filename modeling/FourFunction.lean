import FourFunction.Expr.Depth
import FourFunction.Grammar.Derivation
import FourFunction.Grammar.Verdict
import FourFunction.Main
import FourFunction.Precedence
import FourFunction.Scanner.Bookmark
import FourFunction.Proofs.Cursor.Reads
import FourFunction.Proofs.Grammar.Soundness
import FourFunction.Proofs.Grammar.Verdict
import FourFunction.Proofs.Cursor.Splits
import FourFunction.Proofs.Grammar.Exactness
import FourFunction.Proofs.Scanner.Refinement
import FourFunction.Proofs.Evaluation
import FourFunction.Grammar.Frame
import FourFunction.Proofs.Grammar.Exit
import FourFunction.Proofs.Grammar.Nesting
import FourFunction.Proofs.Grammar.Prefix
import FourFunction.Proofs.Numeric.Nearest
import FourFunction.Proofs.Decimal.Layout
import FourFunction.Proofs.Numeric.Reading
import FourFunction.Proofs.Decimal.Shortest
import FourFunction.Proofs.Decimal.Plain
import FourFunction.Proofs.Expr.RoundTrip
import FourFunction.Proofs.Expr.Rendering
import FourFunction.Proofs.Expr.Depth
import FourFunction.Proofs.Cursor.Tiling
import FourFunction.Proofs.Grammar.Session
import FourFunction.Proofs.Scanner.Shift
import FourFunction.Proofs.Grammar.Shift
import FourFunction.Grammar.Layout
import FourFunction.Proofs.Grammar.Layout
import FourFunction.Text.Parens
import FourFunction.Proofs.Grammar.Concatenation
import FourFunction.Text.Slice
import FourFunction.Proofs.Grammar.Places
import FourFunction.Trace.Replay
import FourFunction.Proofs.Trace.Replay
import FourFunction.Trace.Account
import FourFunction.Proofs.Trace.Account
import FourFunction.Proofs.Numeric.Error
import FourFunction.Proofs.Numeric.Equality
import FourFunction.Proofs.Numeric.Overflow
import FourFunction.Proofs.Numeric.Rounded
import FourFunction.Proofs.Numeric.Order
import FourFunction.Proofs.Agreement
import FourFunction.Proofs.Decimal.Significant
import FourFunction.Proofs.Decimal.Reparse
import FourFunction.Proofs.Numeral
import FourFunction.Proofs.Error
import FourFunction.Proofs.Decimal.Rounded
import FourFunction.Proofs.Decimal.Reduced
import FourFunction.Text.Split
import FourFunction.Decimal.SixDigits
import FourFunction.Proofs.Decimal.General
import FourFunction.Proofs.Line
import FourFunction.CommandLine.Arguments
import FourFunction.Proofs.CommandLine.Run
import FourFunction.Proofs.Expr.Walk
import FourFunction.Proofs.CommandLine.Log
import FourFunction.Proofs.Decimal.Stripped
