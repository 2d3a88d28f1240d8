import SymbolicCalculus.Error

/-! # Numeric value of an expression

Evaluation follows the arithmetic of binary64 numbers, so `1 / 0` is infinite and `log 0` is
negative infinite. Variables, uncomputed derivatives and nodes with a wrong number of operands have
no value; of several such nodes the first one met from the left and from below is reported.
-/
namespace SymbolicCalculus.Expr

/-- The values in order, or the leftmost failure. -/
def collect : List (Except Error Binary64) → Except Error (List Binary64)
  | [] => .ok []
  | .error e :: _ => .error e
  | .ok x :: rest =>
    match collect rest with
    | .ok xs => .ok (x :: xs)
    | .error e => .error e

def operate : Kind → List Binary64 → Except Error Binary64
  | .real x, [] => .ok x
  | .integer i, [] => .ok (Binary64.ofInt i.toInt)
  | .negate, [x] => .ok (-x)
  | .sin, [x] => .ok x.sin
  | .cos, [x] => .ok x.cos
  | .exp, [x] => .ok x.exp
  | .log, [x] => .ok x.log
  | .add, [x, y] => .ok (x + y)
  | .sub, [x, y] => .ok (x - y)
  | .mul, [x, y] => .ok (x * y)
  | .div, [x, y] => .ok (x / y)
  | .pow, [x, y] => .ok (x.pow y)
  | kind, _ => .error (.unsupported kind)

def evaluate (e : Expr) : Except Error Binary64 :=
  e.fold fun e below =>
    match collect below with
    | .ok values => operate e.kind values
    | .error e => .error e

end SymbolicCalculus.Expr
