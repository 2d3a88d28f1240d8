import SymbolicCalculus.Number.Numeral

/-! # The sign of a number

Negation flips the sign bit and leaves the magnitude alone. Decimals of either sign are rounded to
numbers that differ by it, and a negative number is printed as a minus and its opposite; no other
number is printed with a sign.
-/
namespace SymbolicCalculus

namespace Binary64

theorem toBitVec_signBit : (0x8000000000000000 : UInt64).toBitVec = BitVec.twoPow 64 63 := by
  decide

theorem neg_neg (x : Binary64) : - -x = x := by
  change Binary64.mk ((x.bits ^^^ 0x8000000000000000) ^^^ 0x8000000000000000) = x
  rw [UInt64.xor_assoc, UInt64.xor_self, UInt64.xor_zero]

theorem magnitude_neg (x : Binary64) : (-x).magnitude = x.magnitude := by
  change ((x.bits ^^^ 0x8000000000000000) &&& 0x7FFFFFFFFFFFFFFF).toNat = _
  have hmask : (0x7FFFFFFFFFFFFFFF : UInt64).toBitVec = ~~~ BitVec.twoPow 64 63 := by decide
  rw [magnitude]
  congr 1
  apply UInt64.eq_of_toBitVec_eq
  rw [UInt64.toBitVec_and, UInt64.toBitVec_and, UInt64.toBitVec_xor, toBitVec_signBit, hmask]
  ext i
  by_cases htop : i = 63
  · simp [htop]
  · simp [BitVec.getElem_twoPow, htop]

theorem isNegative_neg (x : Binary64) : (-x).isNegative = !x.isNegative := by
  have hbit : x.bits >>> 63 = 0 ∨ x.bits >>> 63 = 1 := by
    have hlt : (x.bits >>> 63).toNat < 2 := by
      have := x.bits.toNat_lt
      rw [UInt64.toNat_shiftRight, Nat.shiftRight_eq_div_pow]
      simp
      omega
    rcases (by omega : (x.bits >>> 63).toNat = 0 ∨ (x.bits >>> 63).toNat = 1) with h | h
    · exact .inl (UInt64.toNat_inj.mp h)
    · exact .inr (UInt64.toNat_inj.mp h)
  change ((x.bits ^^^ 0x8000000000000000) >>> 63 == 1) = !(x.bits >>> 63 == 1)
  rw [UInt64.shiftRight_xor]
  rcases hbit with h | h <;> rw [h] <;> decide

/-- Below the sign bit it makes no difference whether the bit is set or flipped. -/
theorem or_signBit {bits : UInt64} (h : bits.toNat < Nat.pow 2 63) :
    0x8000000000000000 ||| bits = bits ^^^ 0x8000000000000000 := by
  apply UInt64.eq_of_toBitVec_eq
  rw [UInt64.toBitVec_or, UInt64.toBitVec_xor, toBitVec_signBit]
  ext i
  by_cases htop : i = 63
  · subst htop
    have hclear : bits.toBitVec[63] = false := by
      rw [BitVec.getElem_eq_testBit_toNat]
      exact Nat.testBit_lt_two_pow h
    simp [hclear]
  · simp [BitVec.getElem_twoPow, htop]

theorem ofMagnitude_true {magnitude : Nat} (h : magnitude < Nat.pow 2 63) :
    ofMagnitude true magnitude = -ofMagnitude false magnitude := by
  change Binary64.mk (0x8000000000000000 ||| magnitude.toUInt64) =
    ⟨(0 ||| magnitude.toUInt64) ^^^ 0x8000000000000000⟩
  rw [UInt64.zero_or, or_signBit]
  rw [Nat.toUInt64_eq, UInt64.toNat_ofNat']
  omega

theorem ofRatio_true (num den : Nat) : ofRatio true num den = -ofRatio false num den := by
  unfold ofRatio
  split
  · exact ofMagnitude_true (by decide)
  · exact ofMagnitude_true (Nat.lt_of_le_of_lt (Nat.min_le_right _ _) (by decide))

theorem ofDecimal_true (digits : Nat) (exponent : Int) :
    ofDecimal true digits exponent = -ofDecimal false digits exponent := by
  unfold ofDecimal
  dsimp only
  split
  · exact ofMagnitude_true (by decide)
  · split
    · exact ofMagnitude_true (by decide)
    · split
      · exact ofMagnitude_true (by decide)
      · cases exponent <;> exact ofRatio_true _ _

end Binary64

namespace NumeralLayout

def StartsDigit (text : List Char) : Prop := ∃ c tail, text = c :: tail ∧ c.isDigit = true

theorem startsDigit_toDigits (n : Nat) : StartsDigit (Nat.toDigits 10 n) := by
  cases h : Nat.toDigits 10 n with
  | nil => exact absurd h (by simp)
  | cons c tail =>
    have hmem : c ∈ Nat.toDigits 10 n := by simp [h]
    exact ⟨c, tail, rfl, Nat.isDigit_of_mem_toDigits (by decide) (by decide) hmem⟩

theorem StartsDigit.append {text : List Char} (h : StartsDigit text) (later : List Char) :
    StartsDigit (text ++ later) := by
  obtain ⟨c, tail, rfl, hc⟩ := h
  exact ⟨c, tail ++ later, rfl, hc⟩

theorem StartsDigit.take {text : List Char} (h : StartsDigit text) {n : Nat} (hn : 0 < n) :
    StartsDigit (text.take n) := by
  obtain ⟨c, tail, rfl, hc⟩ := h
  exact ⟨c, tail.take (n - 1), List.take_cons hn, hc⟩

theorem startsDigit_positional {digits : List Char} (h : StartsDigit digits) (exponent : Int) :
    StartsDigit (positional digits exponent) := by
  unfold positional
  dsimp only
  split
  · exact (h.append _).append _
  · split
    · exact (h.take (by omega)).append _
    · exact ⟨'0', _, rfl, rfl⟩

theorem startsDigit_scientific {digits : List Char} (h : StartsDigit digits) (exponent : Int) :
    StartsDigit (scientific digits exponent) :=
  ((h.take (by decide)).append _).append _

theorem startsDigit_decimal (layout : NumeralLayout) (d : Decimal) :
    StartsDigit (layout.decimal d) := by
  have hdigits := startsDigit_toDigits d.digits
  unfold decimal
  dsimp only
  split
  · exact startsDigit_positional hdigits d.exponent
  · exact startsDigit_scientific hdigits d.exponent

end NumeralLayout

namespace Binary64

theorem toText_of_isNaN {x : Binary64} (h : x.isNaN = true) : x.toText = "NaN" := if_pos h

theorem toText_of_isInfinite {x : Binary64} (hnan : x.isNaN = false) (h : x.isInfinite = true) :
    x.toText = if x.isNegative then "-inf" else "inf" := by
  rw [toText, NumeralLayout.render, hnan, h]
  rfl

theorem toText_neg {x : Binary64} (hnan : x.isNaN = false) (hinfinite : x.isInfinite = false)
    (h : x.isNegative = true) : x.toText.toList = '-' :: (-x).toText.toList := by
  simp only [toText, NumeralLayout.render, isNaN, isInfinite, isZero, shortest, magnitude_neg,
    isNegative_neg] at *
  simp [hnan, hinfinite, h]

theorem toText_head {x : Binary64} (h : x.isNegative = false) :
    ∃ c tail, x.toText.toList = c :: tail ∧ c ≠ '+' ∧ c ≠ '-' := by
  unfold toText NumeralLayout.render
  split
  · exact ⟨'N', ['a', 'N'], rfl, by decide, by decide⟩
  · split
    · rw [h]
      exact ⟨'i', ['n', 'f'], rfl, by decide, by decide⟩
    · have hbody : NumeralLayout.StartsDigit (if x.isZero then ['0', '.', '0']
          else NumeralLayout.expression.decimal (x.shortest NumeralLayout.expression.tie)) := by
        split
        · exact ⟨'0', _, rfl, rfl⟩
        · exact NumeralLayout.startsDigit_decimal _ _
      obtain ⟨c, tail, hbody, hc⟩ := hbody
      refine ⟨c, tail, ?_, ?_, ?_⟩
      · simp [h, hbody]
      · rintro rfl
        cases hc
      · rintro rfl
        cases hc

end Binary64

end SymbolicCalculus
