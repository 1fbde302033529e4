import EquationCompiler.Number.Machine
import EquationCompiler.Expr.Basic
import EquationCompiler.Expr.Equivalence
import EquationCompiler.Expr.Simplify
import EquationCompiler.Expr.Derivative
import EquationCompiler.Expr.Evaluate
import EquationCompiler.Expr.Substitute
import EquationCompiler.Expr.Print
import EquationCompiler.Formula.Compile
import EquationCompiler.Record.Line
import EquationCompiler.Record.Shape
import EquationCompiler.Text.Basic
import EquationCompiler.Equation
import EquationCompiler.Report
import EquationCompiler.Template.Basic
import EquationCompiler.Template.Builtin
import EquationCompiler.Template.Reader
import EquationCompiler.Artifacts
import EquationCompiler.Files.Store
import EquationCompiler.Files.Tree
import EquationCompiler.Run
import EquationCompiler.CommandLine
import EquationCompiler.Main
import EquationCompiler.Proofs.IntegerDivision
import EquationCompiler.Proofs.PartialDerivative
import EquationCompiler.Proofs.ResolveValue
import EquationCompiler.Proofs.RoundTrip
import EquationCompiler.Proofs.BestEffort
import EquationCompiler.Proofs.PaddedText
import EquationCompiler.Proofs.RecordText
import EquationCompiler.Proofs.FailedRun
import EquationCompiler.Proofs.NamedExpression
import EquationCompiler.Proofs.Policies
import EquationCompiler.Proofs.Scope
import EquationCompiler.Proofs.CalledNames
import EquationCompiler.Proofs.RenamedRecord
import EquationCompiler.Proofs.Orderly
import EquationCompiler.Proofs.ClassText
import EquationCompiler.Proofs.LineByLine
import EquationCompiler.Proofs.Regeneration
import EquationCompiler.Proofs.Listing
import EquationCompiler.Proofs.PrintedText
import EquationCompiler.Proofs.ExponentLimit
import EquationCompiler.Proofs.Reordering
import EquationCompiler.Proofs.ArgumentOrder
import EquationCompiler.Proofs.Evaluation
import EquationCompiler.Proofs.Cancellation
import EquationCompiler.Proofs.Commented
import EquationCompiler.Proofs.LineShape
import EquationCompiler.Proofs.Shadowing
import EquationCompiler.Proofs.DeclaredNames
import EquationCompiler.Proofs.PrintTermination
import EquationCompiler.Proofs.FoldedReciprocals
