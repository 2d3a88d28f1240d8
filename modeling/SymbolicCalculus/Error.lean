import SymbolicCalculus.Expr.Render
import SymbolicCalculus.Formula.Token

/-! # What can go wrong

Each failure is recorded as its cause; the wording of all messages is in `Flaw.message` and
`Error.message`.
-/
namespace SymbolicCalculus

/-- What is wrong with a formula that cannot be read. -/
inductive Flaw
  /-- No token starts here. -/
  | unreadable (rest : String)
  /-- An exponent mark without digits; `rest` follows the mark and its sign. -/
  | missingExponent (rest : String)
  | unexpected (token : Token)
  | unmatched (token : Token)
  | unclosedBracket
  | unexpectedEnd
  | missingOperand
  | danglingOperands
  | missingEnd

def Flaw.message : Flaw → String
  | unreadable rest => "Unexpected input '" ++ rest ++ "'"
  | missingExponent rest =>
    "Parsing Failure: Error \x7b input: " ++ Text.quote rest ++ ", code: Digit \x7d"
  | unexpected token => "Unexpected " ++ token.describe
  | unmatched token => "Unmatched " ++ token.describe
  | unclosedBracket => "Unclosed '('"
  | unexpectedEnd => "Unexpected end of input"
  | missingOperand => "Missing operand"
  | danglingOperands => "Dangling operands"
  | missingEnd => "Missing end of input"

inductive Error
  /-- A node that has no numeric value. -/
  | unsupported (kind : Kind)
  /-- A rule was applied to a node, or with a fit, that it does not match. -/
  | misuse (rule : String) (node : Expr)
  | flawed (flaw : Flaw)
  | unknownFunction (name : String)
  | file
  | yaml
  | binary

/-- The message, for the failures that have one. -/
def Error.message? : Error → Option String
  | unsupported kind => some ("Can not evaluate expressions containing '" ++ kind.name ++ "'")
  | misuse rule node => some ("Rule '" ++ rule ++ "' does not fit '" ++ node.display ++ "'")
  | flawed flaw => some ("Syntax error: " ++ flaw.message)
  | unknownFunction name => some ("Unknown function '" ++ name ++ "'")
  | file | yaml | binary => none

end SymbolicCalculus
