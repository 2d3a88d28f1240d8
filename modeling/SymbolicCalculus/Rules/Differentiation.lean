import SymbolicCalculus.Reduction.Rule

/-! # Differentiation

Every rule resolves one level of a derivative. The parts that still have to be differentiated are
marked with the same symbol again.
-/
namespace SymbolicCalculus.Differentiation

def derivative? (e : Expr) : Option (String × Expr) :=
  match e.kind with
  | .diff x => e.operand?.map (x, ·)
  | _ => none

def splitDerivative (name : String) (e : Expr) : Except Error (String × Expr) :=
  match e.kind with
  | .diff x => do
    let u ← Rule.splitOperand name e
    return (x, u)
  | _ => .error (.misuse name e)

/-! DiffConstant: anything without the symbol is constant. -/

namespace Constant

def constant : Fit := ⟨0⟩

def fit? (e : Expr) : Option Fit := do
  let (x, u) ← derivative? e
  if u.mentions (some x) then none else some constant

def reduce (_name : String) (_e : Expr) (_fit : Fit) : Except Error Expr := .ok (.real .zero)

end Constant

/-- `(u * v)' = u * v' + v * u'` -/
def productRule (x : String) (u v : Expr) : Expr :=
  .add (.mul u (.diff x v)) (.mul v (.diff x u))

/-- `(u / v)' = (v * u' - u * v') / v ^ 2` -/
def quotientRule (x : String) (u v : Expr) : Expr :=
  .div (.sub (.mul v (.diff x u)) (.mul u (.diff x v))) (.pow v (.real .two))

/-! DiffArithmetic: linearity, product and quotient rule. -/

namespace Arithmetic

@[match_pattern] def negate : Fit := ⟨0⟩

@[match_pattern] def sum : Fit := ⟨1⟩

@[match_pattern] def difference : Fit := ⟨2⟩

@[match_pattern] def product : Fit := ⟨3⟩

@[match_pattern] def quotient : Fit := ⟨4⟩

def fit? (e : Expr) : Option Fit := do
  let (_, inner) ← derivative? e
  match inner.kind with
  | .negate => some negate
  | .add => some sum
  | .sub => some difference
  | .mul => some product
  | .div => some quotient
  | _ => none

def reduce (name : String) (e : Expr) (fit : Fit) : Except Error Expr := do
  let (x, inner) ← splitDerivative name e
  if fit = negate then
    let u ← Rule.splitOperand name inner
    return .neg (.diff x u)
  else
    let (u, v) ← Rule.splitPair name inner
    match fit with
    | sum => return .add (.diff x u) (.diff x v)
    | difference => return .sub (.diff x u) (.diff x v)
    | product => return productRule x u v
    | quotient => return quotientRule x u v
    | _ => throw (.misuse name (.diff x (.node inner.kind [u, v])))

end Arithmetic

/-- `(b ^ n)' = n * b ^ (n - 1) * b'` for an exponent without the symbol. -/
def powerRule (x : String) (b n : Expr) : Expr :=
  .mul (.mul n (.pow b (.sub n (.real .one)))) (.diff x b)

/-- A power with the symbol in its exponent is differentiated as `exp (b * log n)`. Base and
exponent trade places with respect to `b ^ n = exp (n * log b)`. -/
def exponentialRule (x : String) (b n : Expr) : Expr := .diff x (.exp (.mul b (.log n)))

/-! DiffPower: the derivative of the symbol itself, and of powers. -/

namespace Power

@[match_pattern] def symbol : Fit := ⟨0⟩

@[match_pattern] def constantExponent : Fit := ⟨1⟩

@[match_pattern] def generalExponent : Fit := ⟨2⟩

def fit? (e : Expr) : Option Fit := do
  let (x, inner) ← derivative? e
  if inner.variableName? = some x then some symbol
  else
    match inner.kind, inner.right? with
    | .pow, some exponent =>
      if exponent.mentions (some x) then some generalExponent else some constantExponent
    | _, _ => none

def reduce (name : String) (e : Expr) (fit : Fit) : Except Error Expr := do
  let (x, inner) ← splitDerivative name e
  if fit = symbol then
    return .real .one
  else
    let (b, n) ← Rule.splitPair name inner
    match fit with
    | constantExponent => return powerRule x b n
    | generalExponent => return exponentialRule x b n
    | _ => throw (.misuse name (.diff x (.pow b n)))

end Power

/-! DiffExpLog: chain rule for `exp` and `log`. -/

namespace ExpLog

@[match_pattern] def exp : Fit := ⟨0⟩

@[match_pattern] def log : Fit := ⟨1⟩

def fit? (e : Expr) : Option Fit := do
  let (_, inner) ← derivative? e
  match inner.kind with
  | .exp => some exp
  | .log => some log
  | _ => none

def reduce (name : String) (e : Expr) (fit : Fit) : Except Error Expr := do
  let (x, inner) ← splitDerivative name e
  let u ← Rule.splitOperand name inner
  match fit with
  | exp => return .mul (.exp u) (.diff x u)
  | log => return .mul (.div (.real .one) u) (.diff x u)
  | _ => throw (.misuse name (.diff x u))

end ExpLog

/-! DiffTrig: chain rule for `sin` and `cos`. -/

namespace Trig

@[match_pattern] def sin : Fit := ⟨0⟩

@[match_pattern] def cos : Fit := ⟨1⟩

def fit? (e : Expr) : Option Fit := do
  let (_, inner) ← derivative? e
  match inner.kind with
  | .sin => some sin
  | .cos => some cos
  | _ => none

def reduce (name : String) (e : Expr) (fit : Fit) : Except Error Expr := do
  let (x, inner) ← splitDerivative name e
  let u ← Rule.splitOperand name inner
  match fit with
  | sin => return .mul (.cos u) (.diff x u)
  | cos => return .mul (.neg (.sin u)) (.diff x u)
  | _ => throw (.misuse name (.diff x u))

end Trig

def constant : Rule := .checked "DiffConstant" 10 Constant.fit? Constant.reduce

def arithmetic : Rule := .checked "DiffArithmetic" 9 Arithmetic.fit? Arithmetic.reduce

def power : Rule := .checked "DiffPower" 9 Power.fit? Power.reduce

def expLog : Rule := .checked "DiffExpLog" 9 ExpLog.fit? ExpLog.reduce

def trig : Rule := .checked "DiffTrig" 9 Trig.fit? Trig.reduce

def rules : List Rule := [constant, arithmetic, power, expLog, trig]

end SymbolicCalculus.Differentiation
