import SymbolicCalculus.Number.Shortest

/-! # Numbers as text

A layout fixes what a printed number looks like beyond its digits: which magnitudes are written
positionally, how a tie is broken and what the special values are called. Reading accepts an
optional sign, decimal digits with an optional point and exponent, and the special values in any
case. -/
namespace SymbolicCalculus

/-- How numbers are written. Those from `10 ^ leastPositional` up to `10 ^ 16` are written
positionally with a digit after the point, all others with an exponent. -/
structure NumeralLayout where
  leastPositional : Int
  tie : Tie
  nan : String
  infinite : String
  negativeInfinite : String

namespace NumeralLayout

def expression : NumeralLayout where
  leastPositional := -4
  tie := .away
  nan := "NaN"
  infinite := "inf"
  negativeInfinite := "-inf"

def yaml : NumeralLayout where
  leastPositional := -5
  tie := .toEven
  nan := ".nan"
  infinite := ".inf"
  negativeInfinite := "-.inf"

def zeros (n : Nat) : List Char := List.replicate n '0'

/-- The digits with the point after the first `exponent + digits.length` of them. -/
def positional (digits : List Char) (exponent : Int) : List Char :=
  let whole := exponent + digits.length
  if 0 ≤ exponent then digits ++ zeros exponent.toNat ++ ['.', '0']
  else if 0 < whole then digits.take whole.toNat ++ '.' :: digits.drop whole.toNat
  else ['0', '.'] ++ zeros (-whole).toNat ++ digits

def scientific (digits : List Char) (exponent : Int) : List Char :=
  let leading := exponent + digits.length - 1
  let fraction := digits.drop 1
  digits.take 1 ++ (if fraction.isEmpty then [] else '.' :: fraction) ++
    'e' :: (toString leading).toList

def decimal (layout : NumeralLayout) (d : Decimal) : List Char :=
  let digits := Nat.toDigits 10 d.digits
  let leading := d.exponent + digits.length - 1
  if layout.leastPositional ≤ leading ∧ leading < 16 then positional digits d.exponent
  else scientific digits d.exponent

def render (layout : NumeralLayout) (x : Binary64) : String :=
  if x.isNaN then layout.nan
  else if x.isInfinite then if x.isNegative then layout.negativeInfinite else layout.infinite
  else
    let body := if x.isZero then ['0', '.', '0'] else layout.decimal (x.shortest layout.tie)
    String.ofList (if x.isNegative then '-' :: body else body)

end NumeralLayout

def Binary64.toText (x : Binary64) : String := NumeralLayout.expression.render x

namespace Numeral

def natOfDigits (digits : List Char) : Nat :=
  digits.foldl (fun n c => 10 * n + (c.toNat - '0'.toNat)) 0

/-- A leading sign: whether it is a minus, and what follows it. -/
def splitSign : List Char → Bool × List Char
  | '-' :: rest => (true, rest)
  | '+' :: rest => (false, rest)
  | rest => (false, rest)

/-- The exponent that makes up all of the text; no text means exponent zero. -/
def exponent? : List Char → Option Int
  | [] => some 0
  | c :: rest =>
    let (negative, digits) := splitSign rest
    if (c == 'e' || c == 'E') && !digits.isEmpty && digits.all Char.isDigit then
      let n : Int := natOfDigits digits
      some (if negative then -n else n)
    else none

/-- The fraction digits after a point, and what follows them. -/
def splitFraction : List Char → List Char × List Char
  | '.' :: rest => (rest.takeWhile Char.isDigit, rest.dropWhile Char.isDigit)
  | rest => ([], rest)

def decimal? (negative : Bool) (text : List Char) : Option Binary64 :=
  let whole := text.takeWhile Char.isDigit
  let (fraction, rest) := splitFraction (text.dropWhile Char.isDigit)
  if whole.isEmpty && fraction.isEmpty then none
  else (exponent? rest).map fun e =>
    Binary64.ofDecimal negative (natOfDigits (whole ++ fraction)) (e - fraction.length)

def special? (negative : Bool) (text : List Char) : Option Binary64 :=
  match String.ofList (text.map Char.toLower) with
  | "inf" => some (Binary64.infinity negative)
  | "infinity" => some (Binary64.infinity negative)
  | "nan" => some (Binary64.quietNaN negative)
  | _ => none

/-- The number that the whole text stands for. -/
def read? (text : List Char) : Option Binary64 :=
  let (negative, body) := splitSign text
  (special? negative body).or (decimal? negative body)

end Numeral

end SymbolicCalculus
