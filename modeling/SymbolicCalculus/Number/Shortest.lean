import SymbolicCalculus.Number.Rounding

/-! # The fewest digits that read back

A positive finite number owns the interval of reals that round to it. On the grid of multiples of a
power of ten only the two neighbours of the number need a look: the coarsest grid that meets the
interval in one of them gives the fewest digits, and of two neighbours the nearer is taken.
-/
namespace SymbolicCalculus

/-- Which of two equally near decimals is taken. -/
inductive Tie
  | away
  | toEven
deriving DecidableEq

/-- The decimal `digits * 10 ^ exponent`. -/
structure Decimal where
  digits : Nat
  exponent : Int
deriving DecidableEq

namespace Decimal

/-- Drops trailing zeros of the digits, at most `fuel` of them. -/
def trim : Nat → Decimal → Decimal
  | 0, d => d
  | fuel + 1, d =>
    if d.digits ≠ 0 ∧ d.digits % 10 = 0 then trim fuel ⟨d.digits / 10, d.exponent + 1⟩ else d

end Decimal

/-- The reals `low … high` around `value`, all three in units of `2 ^ exponent`. -/
structure RoundingInterval where
  low : Nat
  value : Nat
  high : Nat
  exponent : Int
  closed : Bool

namespace RoundingInterval

/-- The interval of a finite non-zero number. Half a place reaches to either side; the place below a
power of two is half as wide. The ends belong to the interval when the pattern is even. -/
def ofMagnitude (magnitude : Nat) : RoundingInterval :=
  let fraction := magnitude % Nat.pow 2 52
  let biased := magnitude / Nat.pow 2 52
  let m := if biased = 0 then fraction else fraction + Nat.pow 2 52
  let narrow := fraction = 0 ∧ 1 < biased
  { low := 4 * m - (if narrow then 1 else 2)
    value := 4 * m
    high := 4 * m + 2
    exponent := (max biased 1 : Nat) - 1077
    closed := m % 2 = 0 }

/-- The interval on the grid of multiples of `10 ^ g`: a common factor that makes the three ends and
the grid step natural numbers. -/
def onGrid (i : RoundingInterval) (g : Int) : Nat × Nat :=
  let up := Nat.pow 2 i.exponent.toNat * Nat.pow 10 (-g).toNat
  let step := Nat.pow 2 (-i.exponent).toNat * Nat.pow 10 g.toNat
  (up, step)

def contains (i : RoundingInterval) (g : Int) (point : Nat) : Bool :=
  let (up, step) := i.onGrid g
  let p := point * step
  if i.closed then i.low * up ≤ p && p ≤ i.high * up else i.low * up < p && p < i.high * up

/-- The neighbour of the value on the grid that lies in the interval, the nearer one if both do. -/
def nearest? (i : RoundingInterval) (tie : Tie) (g : Int) : Option Nat :=
  let (up, step) := i.onGrid g
  let below := i.value * up / step
  let twice := 2 * (i.value * up % step)
  let roundUp : Bool := match tie with
    | .away => step ≤ twice
    | .toEven => step < twice || (step == twice && below % 2 == 1)
  match i.contains g below, i.contains g (below + 1) with
  | true, true => some (if roundUp then below + 1 else below)
  | true, false => some below
  | false, true => some (below + 1)
  | false, false => none

/-- No power of ten above this exponent is as small as the interval's upper end. -/
def coarsest (i : RoundingInterval) : Int :=
  ((i.high.log2 : Int) + 1 + i.exponent) * 30103 / 100000 + 1

/-- The first hit on the grids `10 ^ g`, `10 ^ (g - 1)`, … -/
def search (i : RoundingInterval) (tie : Tie) : Nat → Int → Decimal
  | 0, g => ⟨(i.onGrid g).1 * i.value / (i.onGrid g).2, g⟩
  | fuel + 1, g =>
    match i.nearest? tie g with
    | some digits => ⟨digits, g⟩
    | none => search i tie fuel (g - 1)

/-- Seventeen digits always suffice, so the search ends within twenty grids. -/
def shortest (i : RoundingInterval) (tie : Tie) : Decimal :=
  (i.search tie 24 i.coarsest).trim 24

end RoundingInterval

/-- The shortest decimal that reads back as the finite non-zero number `x`, sign aside. -/
def Binary64.shortest (tie : Tie) (x : Binary64) : Decimal :=
  (RoundingInterval.ofMagnitude x.magnitude).shortest tie

end SymbolicCalculus
