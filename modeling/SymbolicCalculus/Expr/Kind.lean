import SymbolicCalculus.Number.Numeral

/-! # Kinds of nodes

The closed set of operations an expression is made of, with the number of operands each expects,
how tightly it binds when printed, and the template it is printed with.
-/
namespace SymbolicCalculus

/-- How tightly a printed node holds together, from loosest to tightest. -/
inductive Precedence
  | lowest
  | equals
  | sum
  | product
  | power
  | unary
  | function
  | literal
deriving DecidableEq

namespace Precedence

def rank : Precedence → Nat
  | lowest => 0
  | equals => 1
  | sum => 2
  | product => 3
  | power => 4
  | unary => 5
  | function => 6
  | literal => 7

def all : List Precedence := [lowest, equals, sum, product, power, unary, function, literal]

def name : Precedence → String
  | lowest => "PLowest"
  | equals => "PEquals"
  | sum => "PSum"
  | product => "PProduct"
  | power => "PPower"
  | unary => "PUnary"
  | function => "PFunction"
  | literal => "PLiteral"

instance : LT Precedence := ⟨fun p q => p.rank < q.rank⟩

instance (p q : Precedence) : Decidable (p < q) := inferInstanceAs (Decidable (p.rank < q.rank))

end Precedence

inductive Kind
  | var (name : String)
  | real (value : Binary64)
  | integer (value : Int64)
  | negate
  | sin
  | cos
  | exp
  | log
  /-- Marks its operand to be differentiated with regard to a symbol. -/
  | diff (regard : String)
  | add
  | sub
  | mul
  | div
  | pow
deriving DecidableEq

namespace Kind

/-- Whether two kinds agree. Constants agree by their values: the two zeros do, a NaN never does. -/
def agrees : Kind → Kind → Bool
  | real x, real y => x.equals y
  | k, l => k = l

def arity : Kind → Nat
  | var _ | real _ | integer _ => 0
  | negate | sin | cos | exp | log | diff _ => 1
  | add | sub | mul | div | pow => 2

def precedence : Kind → Precedence
  | var _ | real _ | integer _ => .literal
  | negate => .unary
  | sin | cos | exp | log | diff _ => .function
  | add | sub => .sum
  | mul | div => .product
  | pow => .power

/-- The text a node is printed with; `%0`, `%1`, … mark the places of its operands. -/
def template : Kind → String
  | var name => name
  | real value => value.toText
  | integer value => toString value.toInt
  | negate => "-%0"
  | sin => "sin %0"
  | cos => "cos %0"
  | exp => "exp %0"
  | log => "log %0"
  | diff regard => "d/d" ++ regard ++ " %0"
  | add => "%0 + %1"
  | sub => "%0 - %1"
  | mul => "%0 * %1"
  | div => "%0 / %1"
  | pow => "%0 ^ %1"

def name : Kind → String
  | var _ => "Variable"
  | real _ => "RealConstant"
  | integer _ => "IntConstant"
  | negate => "Negate"
  | sin => "Sin"
  | cos => "Cos"
  | exp => "Exp"
  | log => "Log"
  | diff _ => "Diff"
  | add => "Add"
  | sub => "Sub"
  | mul => "Mul"
  | div => "Div"
  | pow => "Pow"

end Kind

end SymbolicCalculus
