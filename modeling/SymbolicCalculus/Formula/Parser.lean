import SymbolicCalculus.Formula.Context
import SymbolicCalculus.Formula.Lexer

/-! # Reading formulas

A formula is read with two stacks, one of operands and one of operations that still wait for an
operand. An incoming binary operator first completes the waiting operations that bind at least as
tightly; the power operator groups to the right and so lets its equals wait. Brackets and calls wait
until their bracket closes.
-/
namespace SymbolicCalculus

inductive Operator
  | add
  | sub
  | mul
  | div
  | pow
deriving DecidableEq

namespace Operator

def kind : Operator → Kind
  | add => .add
  | sub => .sub
  | mul => .mul
  | div => .div
  | pow => .pow

def rank : Operator → Nat
  | add | sub => 1
  | mul | div => 2
  | pow => 4

def groupsRight (op : Operator) : Bool := op = pow

end Operator

inductive Waiting
  | binary (op : Operator)
  | negate
  | positive
  /-- A function or derivative whose bracket lies above it on the stack. -/
  | call (kind : Kind)
  | bracket

namespace Waiting

def rank : Waiting → Nat
  | binary op => op.rank
  | negate | positive => 3
  | call _ | bracket => 0

def awaitsBracket : Waiting → Bool
  | call _ | bracket => true
  | _ => false

/-- Whether the waiting operation gets its operand before `op` does. -/
def precedes (waiting : Waiting) (op : Operator) : Bool :=
  !waiting.awaitsBracket &&
    (op.rank < waiting.rank || (op.rank == waiting.rank && !op.groupsRight))

/-- Builds the node of the operation from the newest operands. -/
def complete : Waiting → List Expr → Except Error (List Expr)
  | binary op, right :: left :: operands => .ok (.node op.kind [left, right] :: operands)
  | negate, u :: operands => .ok (.neg u :: operands)
  | positive, u :: operands => .ok (u :: operands)
  | call kind, u :: operands => .ok (.node kind [u] :: operands)
  | bracket, _ => .error (.flawed .unclosedBracket)
  | _, _ => .error (.flawed .missingOperand)

end Waiting

namespace Parser

/-- The stacks, newest entries first, and whether an operand has to come next. -/
structure State where
  waiting : List Waiting
  operands : List Expr
  expectsOperand : Bool

def start : State := ⟨[], [], true⟩

/-- Completes the operations that precede `op`. -/
def settle (op : Operator) :
    List Waiting → List Expr → Except Error (List Waiting × List Expr)
  | [], operands => .ok ([], operands)
  | w :: waiting, operands =>
    if w.precedes op then
      match w.complete operands with
      | .ok operands => settle op waiting operands
      | .error e => .error e
    else .ok (w :: waiting, operands)

/-- Completes everything down to the newest bracket, and the call that the bracket belongs to. -/
def close : List Waiting → List Expr → Except Error (List Waiting × List Expr)
  | [], _ => .error (.flawed (.unmatched .closeBracket))
  | .bracket :: .call kind :: waiting, operands =>
    match (Waiting.call kind).complete operands with
    | .ok operands => .ok (waiting, operands)
    | .error e => .error e
  | .bracket :: waiting, operands => .ok (waiting, operands)
  | w :: waiting, operands =>
    match w.complete operands with
    | .ok operands => close waiting operands
    | .error e => .error e

def drain : List Waiting → List Expr → Except Error (List Expr)
  | [], operands => .ok operands
  | w :: waiting, operands =>
    match w.complete operands with
    | .ok operands => drain waiting operands
    | .error e => .error e

namespace State

def pushOperand (s : State) (e : Expr) : State :=
  { s with operands := e :: s.operands, expectsOperand := false }

def pushWaiting (s : State) (w : Waiting) : State := { s with waiting := w :: s.waiting }

def pushOperator (s : State) (op : Operator) : Except Error State :=
  match settle op s.waiting s.operands with
  | .ok (waiting, operands) => .ok ⟨.binary op :: waiting, operands, true⟩
  | .error e => .error e

def closeBracket (s : State) : Except Error State :=
  match close s.waiting s.operands with
  | .ok (waiting, operands) => .ok ⟨waiting, operands, false⟩
  | .error e => .error e

/-- The expression that is left once everything is completed. -/
def finish (s : State) : Except Error Expr :=
  match drain s.waiting s.operands with
  | .ok [e] => .ok e
  | .ok [] => .error (.flawed .missingOperand)
  | .ok _ => .error (.flawed .danglingOperands)
  | .error e => .error e

def readOperand (s : State) : Token → Except Error State
  | .number value => .ok (s.pushOperand (.real value))
  | .ident name => .ok (s.pushOperand (.var name))
  | .openBracket => .ok (s.pushWaiting .bracket)
  | .minus => .ok (s.pushWaiting .negate)
  | .plus => .ok (s.pushWaiting .positive)
  | .endOfInput => .error (.flawed .unexpectedEnd)
  | t => .error (.flawed (.unexpected t))

/-- Reads a token, other than the end of input, where an operand is complete. -/
def readOperator (s : State) : Token → Except Error State
  | .closeBracket => s.closeBracket
  | .plus => s.pushOperator .add
  | .minus => s.pushOperator .sub
  | .multiply => s.pushOperator .mul
  | .divide => s.pushOperator .div
  | .power => s.pushOperator .pow
  | t => .error (.flawed (.unexpected t))

def readCall (context : Context) (s : State) (name : String) : Except Error State :=
  if s.expectsOperand then
    match context.called name with
    | .ok kind => .ok ((s.pushWaiting (.call kind)).pushWaiting .bracket)
    | .error e => .error e
  else .error (.flawed (.unexpected (.ident name)))

def read (s : State) (t : Token) : Except Error State :=
  if s.expectsOperand then s.readOperand t else s.readOperator t

end State

/-- Reads the tokens up to the end of input. -/
def run (context : Context) (s : State) : List Token → Except Error Expr
  | [] => .error (.flawed .missingEnd)
  | .ident name :: .openBracket :: ts =>
    match s.readCall context name with
    | .ok s => run context s ts
    | .error e => .error e
  | t :: ts =>
    if t = .endOfInput ∧ s.expectsOperand = false then s.finish
    else
      match s.read t with
      | .ok s => run context s ts
      | .error e => .error e

def parseTokens (context : Context) (ts : List Token) : Except Error Expr := run context start ts

end Parser

/-- Reads a formula such as `x ** 2 + sin(x) - dx(x * z)`. All numerals become real constants, and
there is no implicit multiplication. -/
def parseIn (context : Context) (code : String) : Except Error Expr :=
  match Lexer.tokens code with
  | .ok ts => Parser.parseTokens context ts
  | .error flaw => .error (.flawed flaw)

def parse (code : String) : Except Error Expr := parseIn .standard code

end SymbolicCalculus
