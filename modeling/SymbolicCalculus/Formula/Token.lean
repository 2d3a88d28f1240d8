import SymbolicCalculus.Number.Numeral
import SymbolicCalculus.Text.Quoted

/-! # Tokens of a formula -/
namespace SymbolicCalculus

inductive Token
  | ident (name : String)
  | number (value : Binary64)
  | plus
  | minus
  | divide
  | multiply
  | power
  | openBracket
  | closeBracket
  | endOfInput
deriving DecidableEq

/-- The token as error messages name it. -/
def Token.describe : Token → String
  | ident name => "Ident(" ++ Text.quote name ++ ")"
  | number value => "Number(" ++ value.toText ++ ")"
  | plus => "Plus"
  | minus => "Minus"
  | divide => "Divide"
  | multiply => "Multiply"
  | power => "Power"
  | openBracket => "BracketL"
  | closeBracket => "BracketR"
  | endOfInput => "EOF"

end SymbolicCalculus
