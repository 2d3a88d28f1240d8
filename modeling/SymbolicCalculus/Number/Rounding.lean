import SymbolicCalculus.Number.Binary64

/-! # Rounding to the nearest number

A non-negative fraction is rounded to the closest binary64 number, a tie going to the even pattern.
Everything is exact arithmetic on natural numbers. Decimal numerals and integers both become numbers
through this one function.
-/
namespace SymbolicCalculus

/-- The natural number closest to `num / den`; of two equally close ones the even one. -/
def roundHalfEven (num den : Nat) : Nat :=
  let q := num / den
  let twice := 2 * (num % den)
  if twice < den then q
  else if den < twice then q + 1
  else q + q % 2

/-- The fraction `num / den` measured in units of `2 ^ e`, as numerator and denominator. -/
def inUnits (num den : Nat) (e : Int) : Nat × Nat :=
  match e with
  | .ofNat k => (num, den * Nat.pow 2 k)
  | .negSucc k => (num * Nat.pow 2 (k + 1), den)

namespace Binary64

/-- Exponent of the last place that a number near `num / den` has: 53 significant bits, and no place
below `2 ^ -1074`. -/
def lastPlace (num den : Nat) : Int :=
  let e : Int := (num.log2 : Int) - (den.log2 : Int) - 53
  let (n, d) := inUnits num den e
  max (-1074) (if Nat.pow 2 53 ≤ n / d then e + 1 else e)

/-- The number closest to `num / den`, with the given sign. -/
def ofRatio (negative : Bool) (num den : Nat) : Binary64 :=
  if num = 0 then ofMagnitude negative 0
  else
    let e := lastPlace num den
    let (n, d) := inUnits num den e
    let magnitude := roundHalfEven n d + (e + 1074).toNat * Nat.pow 2 52
    ofMagnitude negative (min magnitude infiniteMagnitude)

def ofInt (i : Int) : Binary64 := ofRatio (decide (i < 0)) i.natAbs 1

/-- The number closest to `digits * 10 ^ exponent`. Exponents beyond all numbers are not
expanded. -/
def ofDecimal (negative : Bool) (digits : Nat) (exponent : Int) : Binary64 :=
  let size : Int := digits.log2
  -- `2 ^ size ≤ digits < 2 ^ (size + 1)`, and `10 ^ exponent` lies on the same side of one as
  -- `2 ^ (3 * exponent)`
  if digits = 0 then ofMagnitude negative 0
  else if 0 ≤ exponent ∧ 1024 ≤ size + 3 * exponent then infinity negative
  else if exponent < 0 ∧ size + 1 + 3 * exponent ≤ -1080 then ofMagnitude negative 0
  else match exponent with
    | .ofNat k => ofRatio negative (digits * Nat.pow 10 k) 1
    | .negSucc k => ofRatio negative digits (Nat.pow 10 (k + 1))

end Binary64

end SymbolicCalculus
