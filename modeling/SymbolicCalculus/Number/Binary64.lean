/-! # Binary64 numbers

A number is its 64-bit pattern: a sign, eleven exponent bits and 52 fraction bits. The pattern
tells the two zeros and the many NaNs apart, as the binary form of a trace has to. Comparisons are
stated on the pattern itself; arithmetic is that of the machine, with the sign and payload of a NaN
result fixed here.
-/
namespace SymbolicCalculus

structure Binary64 where
  bits : UInt64
deriving DecidableEq, Inhabited

namespace Binary64

def isNegative (x : Binary64) : Bool := x.bits >>> 63 == 1

/-- The pattern without its sign. -/
def magnitude (x : Binary64) : Nat := (x.bits &&& 0x7FFFFFFFFFFFFFFF).toNat

def infiniteMagnitude : Nat := 0x7FF0000000000000

def isNaN (x : Binary64) : Bool := infiniteMagnitude < x.magnitude

def isInfinite (x : Binary64) : Bool := x.magnitude == infiniteMagnitude

def isZero (x : Binary64) : Bool := x.magnitude == 0

/-- The place of a number on the line: patterns of equal sign are ordered like their values. -/
def place (x : Binary64) : Int := if x.isNegative then -(x.magnitude : Int) else x.magnitude

/-- Equality of values: the two zeros are equal and a NaN equals nothing. -/
def equals (x y : Binary64) : Bool := !x.isNaN && !y.isNaN && x.place == y.place

/-- The order of values, in which a NaN is comparable to nothing. -/
def less (x y : Binary64) : Bool := !x.isNaN && !y.isNaN && decide (x.place < y.place)

def ofMagnitude (negative : Bool) (magnitude : Nat) : Binary64 :=
  ⟨(if negative then 0x8000000000000000 else 0) ||| magnitude.toUInt64⟩

def zero : Binary64 := ⟨0⟩

def one : Binary64 := ⟨0x3FF0000000000000⟩

def two : Binary64 := ⟨0x4000000000000000⟩

def infinity (negative : Bool) : Binary64 := ofMagnitude negative infiniteMagnitude

def quietNaN (negative : Bool) : Binary64 := ofMagnitude negative 0x7FF8000000000000

/-- A NaN as an operation passes it on. -/
def quiet (x : Binary64) : Binary64 := ⟨x.bits ||| 0x0008000000000000⟩

/-- The outcome of an operation. A NaN outcome repeats the first NaN among the operands; if there is
none, the operation was invalid and the NaN has its sign set. -/
def ofResult (operands : List Binary64) (result : Float) : Binary64 :=
  if result.isNaN then
    match operands.find? isNaN with
    | some x => x.quiet
    | none => quietNaN true
  else ⟨result.toBits⟩

def toFloat (x : Binary64) : Float := Float.ofBits x.bits

def lift₁ (f : Float → Float) (x : Binary64) : Binary64 := ofResult [x] (f x.toFloat)

def lift₂ (f : Float → Float → Float) (x y : Binary64) : Binary64 :=
  ofResult [x, y] (f x.toFloat y.toFloat)

/-- Negation changes the sign of every number, NaN included. -/
instance : Neg Binary64 := ⟨fun x => ⟨x.bits ^^^ 0x8000000000000000⟩⟩

instance : Add Binary64 := ⟨lift₂ (· + ·)⟩

instance : Sub Binary64 := ⟨lift₂ (· - ·)⟩

instance : Mul Binary64 := ⟨lift₂ (· * ·)⟩

instance : Div Binary64 := ⟨lift₂ (· / ·)⟩

def sin : Binary64 → Binary64 := lift₁ Float.sin

def cos : Binary64 → Binary64 := lift₁ Float.cos

def exp : Binary64 → Binary64 := lift₁ Float.exp

def log : Binary64 → Binary64 := lift₁ Float.log

/-- Whether the value is an odd integer: the last bit that is set has weight one. -/
def isOddInteger (x : Binary64) : Bool :=
  let biased := x.magnitude / Nat.pow 2 52
  let unit := Nat.pow 2 (1075 - biased)
  1023 ≤ biased && biased ≤ 1075 &&
    (x.magnitude % Nat.pow 2 52 + Nat.pow 2 52) % (2 * unit) == unit

/-- A power. The sign of a NaN base is taken off before an odd power is formed and not put back. -/
def pow (x y : Binary64) : Binary64 :=
  let base := if x.isNaN && x.isNegative && y.isOddInteger then -x else x
  lift₂ Float.pow base y

theorem equals_iff {x y : Binary64} :
    x.equals y = true ↔ x.isNaN = false ∧ y.isNaN = false ∧ x.place = y.place := by
  simp [equals, and_assoc]

theorem less_iff {x y : Binary64} :
    x.less y = true ↔ x.isNaN = false ∧ y.isNaN = false ∧ x.place < y.place := by
  simp [less, and_assoc]

theorem equals_zero_zero : zero.equals zero = true := by decide

theorem equals_one_one : one.equals one = true := by decide

end Binary64

end SymbolicCalculus
