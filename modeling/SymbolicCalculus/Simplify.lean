import SymbolicCalculus.Formula.Parser
import SymbolicCalculus.Reduction.Engine
import SymbolicCalculus.Rules.Differentiation
import SymbolicCalculus.Rules.Simplification

/-! # Simplifying and differentiating

The standard rules simplify expressions and resolve their derivatives. Differentiating an expression
only marks it; the derivative is computed when the result is simplified.
-/
namespace SymbolicCalculus

/-- Simplification rules followed by differentiation rules. -/
def standardRules : List Rule := Simplification.rules ++ Differentiation.rules

def ruleNamed? (name : String) : Option Rule := standardRules.find? (·.name == name)

def differentiate (e : Expr) (symbol : String) : Expr := .diff symbol e

def standardEngine (extra : List Rule) : Engine := .new (standardRules ++ extra) {}

/-- Simplifies with the standard rules and some additional ones, and reports every step. -/
def simplifyWith (extra : List Rule) (e : Expr) : Outcome Trace := (standardEngine extra).run e

def simplify (e : Expr) : Outcome Trace := simplifyWith [] e

end SymbolicCalculus
