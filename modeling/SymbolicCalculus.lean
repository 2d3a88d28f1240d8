import SymbolicCalculus.Error
import SymbolicCalculus.Expr.Basic
import SymbolicCalculus.Expr.Evaluate
import SymbolicCalculus.Expr.Fold
import SymbolicCalculus.Expr.Kind
import SymbolicCalculus.Expr.Render
import SymbolicCalculus.Format.Binary
import SymbolicCalculus.Format.Bytes
import SymbolicCalculus.Format.Output
import SymbolicCalculus.Format.Readable
import SymbolicCalculus.Format.Settings
import SymbolicCalculus.Formula.Context
import SymbolicCalculus.Formula.Lexer
import SymbolicCalculus.Formula.Parser
import SymbolicCalculus.Formula.Token
import SymbolicCalculus.Number.Binary64
import SymbolicCalculus.Number.Numeral
import SymbolicCalculus.Number.Positional
import SymbolicCalculus.Number.Rounding
import SymbolicCalculus.Number.Shortest
import SymbolicCalculus.Proofs.Expr.Display
import SymbolicCalculus.Proofs.Expr.Fault
import SymbolicCalculus.Proofs.Expr.Interpretation
import SymbolicCalculus.Proofs.Expr.Position
import SymbolicCalculus.Proofs.Expr.Signs
import SymbolicCalculus.Proofs.Expr.SmoothGerm
import SymbolicCalculus.Proofs.Expr.Structure
import SymbolicCalculus.Proofs.Expr.Visits
import SymbolicCalculus.Proofs.Format.Binary
import SymbolicCalculus.Proofs.Format.Reader
import SymbolicCalculus.Proofs.Formula.Grammar
import SymbolicCalculus.Proofs.Formula.Lexeme
import SymbolicCalculus.Proofs.Formula.Numeral
import SymbolicCalculus.Proofs.Formula.Reading
import SymbolicCalculus.Proofs.Formula.RoundTrip
import SymbolicCalculus.Proofs.Formula.ShuntingYard
import SymbolicCalculus.Proofs.Formula.Spelling
import SymbolicCalculus.Proofs.Formula.StackBalance
import SymbolicCalculus.Proofs.Number.Sign
import SymbolicCalculus.Proofs.Reduction.CompleteRun
import SymbolicCalculus.Proofs.Reduction.Derivation
import SymbolicCalculus.Proofs.Reduction.Innermost
import SymbolicCalculus.Proofs.Reduction.Leftmost
import SymbolicCalculus.Proofs.Reduction.LoopDetection
import SymbolicCalculus.Proofs.Reduction.Period
import SymbolicCalculus.Proofs.Reduction.Ranking
import SymbolicCalculus.Proofs.Reduction.Repetition
import SymbolicCalculus.Proofs.Reduction.Replay
import SymbolicCalculus.Proofs.Reduction.Residual
import SymbolicCalculus.Proofs.Reduction.RuleChoice
import SymbolicCalculus.Proofs.Reduction.RuleSequence
import SymbolicCalculus.Proofs.Reduction.Settling
import SymbolicCalculus.Proofs.Reduction.Stability
import SymbolicCalculus.Proofs.Rules.CanonicalForm
import SymbolicCalculus.Proofs.Rules.Congruence
import SymbolicCalculus.Proofs.Rules.ConstantFolding
import SymbolicCalculus.Proofs.Rules.Derivative
import SymbolicCalculus.Proofs.Rules.DerivativeValue
import SymbolicCalculus.Proofs.Rules.Inversion
import SymbolicCalculus.Proofs.Rules.Laws
import SymbolicCalculus.Proofs.Rules.NoSuppression
import SymbolicCalculus.Proofs.Rules.NormalForms
import SymbolicCalculus.Proofs.Rules.OneStep
import SymbolicCalculus.Proofs.Rules.Retirement
import SymbolicCalculus.Proofs.Rules.Safety
import SymbolicCalculus.Proofs.Rules.Simpler
import SymbolicCalculus.Proofs.Rules.Spine
import SymbolicCalculus.Proofs.Rules.Symbols
import SymbolicCalculus.Proofs.Rules.Termination
import SymbolicCalculus.Proofs.Rules.Turns
import SymbolicCalculus.Proofs.Rules.ValuePreservation
import SymbolicCalculus.Reduction.Configuration
import SymbolicCalculus.Reduction.Engine
import SymbolicCalculus.Reduction.Log
import SymbolicCalculus.Reduction.Rule
import SymbolicCalculus.Reduction.Trace
import SymbolicCalculus.Rules.Differentiation
import SymbolicCalculus.Rules.Simplification
import SymbolicCalculus.Rules.Tailored
import SymbolicCalculus.Simplify
import SymbolicCalculus.Text.Blank
import SymbolicCalculus.Text.Quoted
import SymbolicCalculus.Text.Unprintable
import SymbolicCalculus.Workbench
import SymbolicCalculus.Yaml.BlockText
import SymbolicCalculus.Yaml.Composition
import SymbolicCalculus.Yaml.Cursor
import SymbolicCalculus.Yaml.Document
import SymbolicCalculus.Yaml.Layout
import SymbolicCalculus.Yaml.Node
import SymbolicCalculus.Yaml.Plain
import SymbolicCalculus.Yaml.Property
import SymbolicCalculus.Yaml.Quotation
import SymbolicCalculus.Yaml.Scalar
import SymbolicCalculus.Yaml.Token
