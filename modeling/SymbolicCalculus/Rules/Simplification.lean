import SymbolicCalculus.Expr.Evaluate
import SymbolicCalculus.Reduction.Rule

/-! # Algebraic simplification

The rules move numbers to the left, align chains of sums and products to the left, and compute
whatever can be computed. A chain of sums continues with sums and differences, a chain of products
with products and quotients.
-/
namespace SymbolicCalculus.Simplification

def sameVariable (u v : Expr) : Bool :=
  match u.variableName?, v.variableName? with
  | some a, some b => a == b
  | _, _ => false

/-- Whether the expression continues a chain of the kind. -/
def continues (kind : Kind) (e : Expr) : Bool :=
  match kind, e.kind with
  | .add, .add | .add, .sub | .mul, .mul | .mul, .div => true
  | _, _ => false

/-! Evaluate replaces a constant tree by its value. -/

namespace Evaluate

def constant : Fit := ⟨0⟩

def fit? (e : Expr) : Option Fit :=
  if e.isNumber || e.isOpen then none else some constant

def reduce (_name : String) (e : Expr) (_fit : Fit) : Except Error Expr := do
  let x ← e.evaluate
  return .real x

end Evaluate

/-! Identity knows the neutral and absorbing elements, one fit for each of the laws `u ^ 1 = u`,
`u ^ 0 = 1`, `1 * v = v`, `0 * v = 0`, `0 + v = v`, `u + 0 = u`, `u - 0 = u`, `x - x = 0`,
`x / x = 1` and `0 / v = 0`. -/

namespace Identity

@[match_pattern] def powOne : Fit := ⟨0⟩

@[match_pattern] def powZero : Fit := ⟨1⟩

@[match_pattern] def mulOne : Fit := ⟨2⟩

@[match_pattern] def mulZero : Fit := ⟨3⟩

@[match_pattern] def addZeroLeft : Fit := ⟨4⟩

@[match_pattern] def addZeroRight : Fit := ⟨5⟩

@[match_pattern] def subZero : Fit := ⟨6⟩

@[match_pattern] def subSelf : Fit := ⟨7⟩

@[match_pattern] def divSelf : Fit := ⟨8⟩

@[match_pattern] def divZero : Fit := ⟨9⟩

def fit? (e : Expr) : Option Fit := do
  let (u, v) ← e.pair?
  match e.kind with
  | .pow =>
    if v.isNumberOf .one then some powOne else if v.isNumberOf .zero then some powZero else none
  | .mul =>
    if u.isNumberOf .one then some mulOne else if u.isNumberOf .zero then some mulZero else none
  | .add =>
    if u.isNumberOf .zero then some addZeroLeft
    else if v.isNumberOf .zero then some addZeroRight
    else none
  | .sub =>
    if v.isNumberOf .zero then some subZero else if sameVariable u v then some subSelf else none
  | .div =>
    if sameVariable u v then some divSelf else if u.isNumberOf .zero then some divZero else none
  | _ => none

def reduce (name : String) (e : Expr) (fit : Fit) : Except Error Expr := do
  let (u, v) ← Rule.splitPair name e
  match fit with
  | powOne | addZeroRight | subZero => return u
  | mulOne | addZeroLeft => return v
  | powZero | divSelf => return .real .one
  | mulZero | subSelf | divZero => return .real .zero
  | _ => throw (.misuse name (.node e.kind [u, v]))

end Identity

/-! Combine brings neighbouring numbers of a chain together: `(p + 2) + 3 = p + (2 + 3)`,
`2 * (3 * p) = (2 * 3) * p`, `(p - 2) - 3 = p - (2 + 3)` and `(p / 2) / 3 = p / (2 * 3)`. -/

namespace Combine

@[match_pattern] def trailing : Fit := ⟨0⟩

@[match_pattern] def leading : Fit := ⟨1⟩

@[match_pattern] def subtrahends : Fit := ⟨2⟩

@[match_pattern] def divisors : Fit := ⟨3⟩

/-- Both `v` and the right operand of `u`, a node of the kind, are numbers. -/
def isTrailing (kind : Kind) (u v : Expr) : Bool :=
  v.isNumber && u.kind = kind && u.right?.any Expr.isNumber

/-- Both `u` and the left operand of `v`, a node of the kind, are numbers. -/
def isLeading (kind : Kind) (u v : Expr) : Bool :=
  u.isNumber && v.kind = kind && v.left?.any Expr.isNumber

def fit? (e : Expr) : Option Fit := do
  let (u, v) ← e.pair?
  match e.kind with
  | .add | .mul =>
    if isTrailing e.kind u v then some trailing
    else if isLeading e.kind u v then some leading
    else none
  | .sub => if isTrailing e.kind u v then some subtrahends else none
  | .div => if isTrailing e.kind u v then some divisors else none
  | _ => none

/-- The kind of node that the numbers are brought together in. -/
def innerKind (kind : Kind) : Fit → Kind
  | subtrahends => .add
  | divisors => .mul
  | _ => kind

def reduce (name : String) (e : Expr) (fit : Fit) : Except Error Expr := do
  let (u, v) ← Rule.splitPair name e
  match fit with
  | leading =>
    let (r, p) ← Rule.splitPair name v
    return .node e.kind [.node e.kind [u, r], p]
  | _ =>
    let (p, r) ← Rule.splitPair name u
    return .node e.kind [p, .node (innerKind e.kind fit) [r, v]]

end Combine

/-! Reorder swaps the operands of a sum or product so that numbers come first and variables after
them. -/

namespace Reorder

def numberFirst : Fit := ⟨0⟩

def variableFirst : Fit := ⟨1⟩

def fit? (e : Expr) : Option Fit :=
  match e.kind with
  | .add | .mul => do
    let (u, v) ← e.pair?
    if v.isNumber && !u.isNumber then some numberFirst
    else if v.isVariable && !u.isNumber && !u.isVariable && !continues e.kind u then
      some variableFirst
    else none
  | _ => none

def reduce (name : String) (e : Expr) (_fit : Fit) : Except Error Expr := do
  let (u, v) ← Rule.splitPair name e
  return .node e.kind [v, u]

end Reorder

/-! LeftAlign turns chains that lean to the right into chains that lean to the left:
`a + (b - c) = (a + b) - c`. -/

namespace LeftAlign

def align : Fit := ⟨0⟩

def fit? (e : Expr) : Option Fit :=
  match e.kind with
  | .add | .mul => do
    let v ← e.right?
    if continues e.kind v then some align else none
  | _ => none

def reduce (name : String) (e : Expr) (_fit : Fit) : Except Error Expr := do
  let (a, right) ← Rule.splitPair name e
  let (b, c) ← Rule.splitPair name right
  return .node right.kind [.node e.kind [a, b], c]

end LeftAlign

/-! HoistDivision moves a quotient out of a product: `a / b * c = a * c / b`. -/

namespace HoistDivision

def hoist : Fit := ⟨0⟩

def fit? (e : Expr) : Option Fit :=
  match e.kind, e.left?.map Expr.kind with
  | .mul, some .div => some hoist
  | _, _ => none

def reduce (name : String) (e : Expr) (_fit : Fit) : Except Error Expr := do
  let (quotient, c) ← Rule.splitPair name e
  let (a, b) ← Rule.splitPair name quotient
  return .div (.mul a c) b

end HoistDivision

/-- Whether a right operand on the left spine of `link` nodes is the variable `symbol`. -/
def isOnSpine (link : Kind) (symbol : String) : Expr → Bool
  | .node kind [left, right] =>
    kind = link && (right.variableName? == some symbol || isOnSpine link symbol left)
  | _ => false

/-- Replaces the topmost right operand on the left spine of `link` nodes that is the variable
`symbol`. A chain without one is handed back. -/
def neutralize (link : Kind) (symbol : String) (neutral : Binary64) :
    Expr → Except Expr Expr
  | .node kind [left, right] =>
    if kind = link then
      if right.variableName? = some symbol then .ok (.node link [left, .real neutral])
      else
        match neutralize link symbol neutral left with
        | .ok left => .ok (.node link [left, right])
        | .error left => .error (.node link [left, right])
    else .error (.node kind [left, right])
  | chain => .error chain

/-- What a kind undoes: the links of a chain, and the element that a cancelled operand becomes. -/
def undone? : Kind → Option (Kind × Binary64)
  | .sub => some (.add, .zero)
  | .div => some (.mul, .one)
  | _ => none

/-! Cancel takes a variable out against the same variable inside a chain:
`a + x + b - x = a + 0 + b` and `2 * x / x = 2 * 1`. -/

namespace Cancel

def cancel : Fit := ⟨0⟩

def fit? (e : Expr) : Option Fit := do
  let (link, _) ← undone? e.kind
  let (chain, right) ← e.pair?
  let symbol ← right.variableName?
  if isOnSpine link symbol chain then some cancel else none

def reduce (name : String) (e : Expr) (_fit : Fit) : Except Error Expr :=
  match undone? e.kind with
  | none => .error (.misuse name e)
  | some (link, neutral) => do
    let (chain, right) ← Rule.splitPair name e
    match right.variableName? with
    | none => throw (.misuse name right)
    | some symbol =>
      match neutralize link symbol neutral chain with
      | .ok chain => return chain
      | .error chain => throw (.misuse name (.node e.kind [chain, right]))

end Cancel

def evaluate : Rule := .checked "Evaluate" 10 Evaluate.fit? Evaluate.reduce

def identity : Rule := .checked "Identity" 9 Identity.fit? Identity.reduce

def combine : Rule := .checked "Combine" 8 Combine.fit? Combine.reduce

def reorder : Rule := .checked "Reorder" 7 Reorder.fit? Reorder.reduce

def leftAlign : Rule := .checked "LeftAlign" 6 LeftAlign.fit? LeftAlign.reduce

def hoistDivision : Rule := .checked "HoistDivision" 5 HoistDivision.fit? HoistDivision.reduce

def cancel : Rule := .checked "Cancel" 4 Cancel.fit? Cancel.reduce

/-- Rules that bring expressions into a canonical, smaller form. -/
def rules : List Rule :=
  [evaluate, identity, combine, reorder, leftAlign, hoistDivision, cancel]

end SymbolicCalculus.Simplification
