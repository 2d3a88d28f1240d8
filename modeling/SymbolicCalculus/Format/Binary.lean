import SymbolicCalculus.Format.Bytes
import SymbolicCalculus.Reduction.Trace

/-! # The binary form of expressions and traces

A kind is its number, in four bytes, followed by its name, value or symbol if it has one. A node is
its kind and the list of its operands; records are their fields in order. Each form tells where it
ends, so a reader leaves alone what follows. The number of operands is not checked against the kind.
-/
namespace SymbolicCalculus

namespace Kind

def number : Kind → Nat
  | var _ => 0
  | real _ => 1
  | integer _ => 2
  | negate => 3
  | sin => 4
  | cos => 5
  | exp => 6
  | log => 7
  | diff _ => 8
  | add => 9
  | sub => 10
  | mul => 11
  | div => 12
  | pow => 13

/-- What a kind carries beside its number. -/
def payload : Kind → Bytes
  | var name => Bytes.ofText name
  | real value => Bytes.ofNat 8 value.bits.toNat
  | integer value => Bytes.ofNat 8 value.toUInt64.toNat
  | diff regard => Bytes.ofText regard
  | _ => []

def encode (kind : Kind) : Bytes := Bytes.ofNat 4 kind.number ++ kind.payload

/-- Reads what the kind with the given number carries. -/
def readPayload : Nat → ByteReader Kind
  | 0, bytes => (Bytes.readText bytes).map fun (name, rest) => (var name, rest)
  | 1, bytes => (Bytes.readNat 8 bytes).map fun (n, rest) => (real ⟨n.toUInt64⟩, rest)
  | 2, bytes => (Bytes.readNat 8 bytes).map fun (n, rest) => (integer ⟨n.toUInt64⟩, rest)
  | 3, bytes => some (negate, bytes)
  | 4, bytes => some (sin, bytes)
  | 5, bytes => some (cos, bytes)
  | 6, bytes => some (exp, bytes)
  | 7, bytes => some (log, bytes)
  | 8, bytes => (Bytes.readText bytes).map fun (regard, rest) => (diff regard, rest)
  | 9, bytes => some (add, bytes)
  | 10, bytes => some (sub, bytes)
  | 11, bytes => some (mul, bytes)
  | 12, bytes => some (div, bytes)
  | 13, bytes => some (pow, bytes)
  | _, _ => none

def read : ByteReader Kind := fun bytes =>
  match Bytes.readNat 4 bytes with
  | some (n, bytes) => readPayload n bytes
  | none => none

end Kind

namespace Expr

mutual

def encode : Expr → Bytes
  | node kind operands => kind.encode ++ Bytes.ofCount operands.length ++ encodeAll operands

def encodeAll : List Expr → Bytes
  | [] => []
  | e :: es => e.encode ++ encodeAll es

end

/-- Reads an expression of at most `levels` levels. -/
def readLevels : Nat → ByteReader Expr
  | 0, _ => none
  | levels + 1, bytes =>
    match Kind.read bytes with
    | some (kind, bytes) =>
      match Bytes.readList (readLevels levels) bytes with
      | some (operands, rest) => some (node kind operands, rest)
      | none => none
    | none => none

/-- Reads an expression. Every level takes up bytes, so there are no more levels than bytes. -/
def read : ByteReader Expr := fun bytes => readLevels bytes.length bytes

end Expr

namespace Step

def encode (step : Step) : Bytes :=
  Bytes.ofList Bytes.ofCount step.path ++ Bytes.ofCount step.ruleId ++ Bytes.ofText step.rule

def read : ByteReader Step := fun bytes => do
  let (path, bytes) ← Bytes.readList Bytes.readCount bytes
  let (ruleId, bytes) ← Bytes.readCount bytes
  let (rule, bytes) ← Bytes.readText bytes
  return (⟨path, ruleId, rule⟩, bytes)

end Step

namespace Trace

def encode (trace : Trace) : Bytes :=
  Bytes.ofBool trace.changed ++ trace.expression.encode ++
    Bytes.ofList Step.encode trace.steps ++ Bytes.ofList Step.encode trace.suppressed

def read : ByteReader Trace := fun bytes => do
  let (changed, bytes) ← Bytes.readBool bytes
  let (expression, bytes) ← Expr.read bytes
  let (steps, bytes) ← Bytes.readList Step.read bytes
  let (suppressed, bytes) ← Bytes.readList Step.read bytes
  return (⟨changed, expression, steps, suppressed⟩, bytes)

end Trace

end SymbolicCalculus
