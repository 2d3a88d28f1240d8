import SymbolicCalculus.Proofs.Formula.Reading
import SymbolicCalculus.Proofs.Number.Sign

/-! # Numerals

What a numeral looks like, said without reading one: digits with at most one point, and an optional
exponent. Reading a number takes a numeral off the front of a text, a text that is a numeral is read
as a whole, and every numeral has a value.
-/
namespace SymbolicCalculus.Lexer

def AllDigits (text : List Char) : Prop := ∀ c ∈ text, c.isDigit = true

/-- `12`, `12.`, `12.5` or `.5`. -/
inductive IsSignificand : List Char → Prop
  | whole {ds : List Char} : AllDigits ds → ds ≠ [] → IsSignificand ds
  | point {ds fs : List Char} : AllDigits ds → ds ≠ [] → AllDigits fs →
    IsSignificand (ds ++ '.' :: fs)
  | fraction {fs : List Char} : AllDigits fs → fs ≠ [] → IsSignificand ('.' :: fs)

/-- Nothing, or a mark, an optional sign and digits. -/
inductive IsExponent : List Char → Prop
  | none : IsExponent []
  | marked {mark : Char} {sign ds : List Char} : mark = 'e' ∨ mark = 'E' →
    sign = [] ∨ sign = ['+'] ∨ sign = ['-'] → AllDigits ds → ds ≠ [] →
    IsExponent (mark :: sign ++ ds)

/-- A significand and its exponent, without a sign in front. -/
inductive IsNumeral : List Char → Prop
  | mk {significand exponent : List Char} : IsSignificand significand → IsExponent exponent →
    IsNumeral (significand ++ exponent)

section Number

theorem allDigits_digits (text : List Char) : AllDigits (digits text) :=
  fun _ => isDigit_of_mem_digits

theorem isSignificand_of_significand? {text spelling rest : List Char}
    (h : significand? text = some (spelling, rest)) : IsSignificand spelling := by
  unfold significand? at h
  split at h
  · split at h
    · split at h
      · cases h
      · rename_i hdigits
        cases h
        exact .fraction (allDigits_digits _) (by simpa using hdigits)
    · cases h
  · rename_i hdigits
    have hne : digits text ≠ [] := by simpa using hdigits
    split at h
    · cases h
      exact .point (allDigits_digits text) hne (allDigits_digits _)
    · cases h
      exact .whole (allDigits_digits text) hne

theorem exponentPart_spelling {text spelling rest : List Char}
    (h : exponentPart text = .ok (spelling, rest)) :
    text = spelling ++ rest ∧ IsExponent spelling := by
  unfold exponentPart at h
  split at h
  · cases h
    exact ⟨rfl, .none⟩
  · rename_i mark tail
    split at h
    · rename_i hmark
      obtain ⟨htail, hsign⟩ := optionalSign_spelling tail
      dsimp only at h
      split at h
      · cases h
      · rename_i hdigits
        cases h
        refine ⟨?_, .marked hmark hsign (allDigits_digits _) (by simpa using hdigits)⟩
        rw [List.append_assoc, digits_append_afterDigits, List.cons_append, ← htail]
    · cases h
      exact ⟨rfl, .none⟩

/-- A number is read from a sign, if there is one, and a numeral in front of the text. -/
theorem number?_spelling {text rest : List Char} {t : Token}
    (h : number? text = .ok (some (t, rest))) :
    ∃ spelling value, t = .number value ∧ text = (optionalSign text).1 ++ spelling ++ rest ∧
      IsNumeral spelling ∧ Numeral.read? ((optionalSign text).1 ++ spelling) = some value := by
  obtain ⟨htext, -⟩ := optionalSign_spelling text
  unfold number? at h
  split at h
  · cases h
  · rename_i significand later hsignificand
    split at h
    · cases h
    · rename_i exponent last hexponent
      simp only [Except.ok.injEq, Option.map_eq_some_iff, Prod.mk.injEq] at h
      obtain ⟨value, hvalue, rfl, rfl⟩ := h
      obtain ⟨hbody, -⟩ := significand?_spelling hsignificand
      obtain ⟨rfl, hexp⟩ := exponentPart_spelling hexponent
      refine ⟨significand ++ exponent, value, rfl, ?_,
        .mk (isSignificand_of_significand? hsignificand) hexp, ?_⟩
      · rw [hbody] at htext
        simpa only [List.append_assoc] using htext
      · rwa [List.append_assoc] at hvalue

variable {ds rest : List Char}

theorem takeWhile_digits (hds : AllDigits ds) (hrest : ∀ c ∈ rest.head?, c.isDigit = false) :
    (ds ++ rest).takeWhile Char.isDigit = ds := by
  rw [takeWhile_append_of_head hrest, List.takeWhile_eq_self_iff]
  exact hds

theorem dropWhile_digits (hds : AllDigits ds) (hrest : ∀ c ∈ rest.head?, c.isDigit = false) :
    (ds ++ rest).dropWhile Char.isDigit = rest := by
  rw [dropWhile_append_of_head hrest, List.dropWhile_eq_nil_iff.mpr hds]
  rfl

/-- Where the exponent starts, neither the digits nor the point go on. -/
theorem IsExponent.head (h : IsExponent rest) : ∀ c ∈ rest.head?, c.isDigit = false ∧ c ≠ '.' := by
  cases h with
  | none => simp
  | marked hmark _ _ _ => rcases hmark with rfl | rfl <;> simp

theorem significand?_of_isSignificand {text : List Char} (h : IsSignificand text)
    (hrest : IsExponent rest) : significand? (text ++ rest) = some (text, rest) := by
  have hdigit : ∀ c ∈ rest.head?, c.isDigit = false := fun c hc => (hrest.head c hc).1
  unfold significand? digits afterDigits
  cases h with
  | whole hds hne =>
    rw [takeWhile_digits hds hdigit, dropWhile_digits hds hdigit, if_neg (by simpa using hne)]
    split
    · exact absurd rfl (hrest.head '.' rfl).2
    · rfl
  | @point ds fs hds hne hfs =>
    have hpoint : ∀ c ∈ ('.' :: (fs ++ rest)).head?, c.isDigit = false := by simp
    rw [List.append_assoc, List.cons_append, takeWhile_digits hds hpoint,
      dropWhile_digits hds hpoint, if_neg (by simpa using hne)]
    simp only [takeWhile_digits hfs hdigit, dropWhile_digits hfs hdigit]
  | @fraction fs hfs hne =>
    simp [takeWhile_digits hfs hdigit, dropWhile_digits hfs hdigit, hne]

theorem optionalSign_digits {sign : List Char} (hsign : sign = [] ∨ sign = ['+'] ∨ sign = ['-'])
    (hds : AllDigits ds) : optionalSign (sign ++ ds) = (sign, ds) := by
  rcases hsign with rfl | rfl | rfl
  · cases ds with
    | nil => rfl
    | cons c ds =>
      have hc := hds c List.mem_cons_self
      unfold optionalSign
      split <;> simp_all
  · rfl
  · rfl

theorem exponentPart_of_isExponent {text : List Char} (h : IsExponent text) :
    exponentPart text = .ok (text, []) := by
  cases h with
  | none => rfl
  | @marked mark sign ds hmark hsign hds hne =>
    have htake : digits ds = ds := List.takeWhile_eq_self_iff.mpr hds
    have hdrop : afterDigits ds = [] := List.dropWhile_eq_nil_iff.mpr hds
    rw [List.cons_append, exponentPart, if_pos hmark]
    simp [optionalSign_digits hsign hds, htake, hdrop, hne]

theorem IsSignificand.exists_head {text : List Char} (h : IsSignificand text) :
    ∃ c tail, text = c :: tail ∧ (c.isDigit = true ∨ c = '.') := by
  cases h with
  | whole hds hne =>
    obtain ⟨c, tail, rfl⟩ := List.exists_cons_of_ne_nil hne
    exact ⟨c, tail, rfl, .inl (hds c List.mem_cons_self)⟩
  | @point ds fs hds hne hfs =>
    obtain ⟨c, tail, rfl⟩ := List.exists_cons_of_ne_nil hne
    exact ⟨c, tail ++ '.' :: fs, rfl, .inl (hds c List.mem_cons_self)⟩
  | @fraction fs _ _ => exact ⟨'.', fs, rfl, .inr rfl⟩

theorem IsNumeral.exists_head {text : List Char} (h : IsNumeral text) :
    ∃ c tail, text = c :: tail ∧ (c.isDigit = true ∨ c = '.') := by
  obtain ⟨hsignificand, -⟩ := h
  obtain ⟨c, tail, rfl, hc⟩ := hsignificand.exists_head
  exact ⟨c, _, rfl, hc⟩

theorem IsNumeral.unsigned {text : List Char} (h : IsNumeral text) : Unsigned text := by
  obtain ⟨c, tail, rfl, hc⟩ := h.exists_head
  apply unsigned_of_head <;> rintro rfl <;> simp at hc

theorem number?_of_isNumeral {text : List Char} {value : Binary64} (h : IsNumeral text)
    (hvalue : Numeral.read? text = some value) :
    number? text = .ok (some (.number value, [])) := by
  have hunsigned := h.unsigned
  cases h with
  | mk hsignificand hexponent =>
    simp only [number?, hunsigned.optionalSign_snd, show (optionalSign _).1 = [] from hunsigned,
      significand?_of_isSignificand hsignificand hexponent,
      exponentPart_of_isExponent hexponent, List.nil_append, hvalue, Option.map_some]

section Value

variable {fs exponent : List Char} {negative : Bool}

theorem splitSign_snd (text : List Char) :
    (Numeral.splitSign text).2 = (optionalSign text).2 := by
  unfold Numeral.splitSign optionalSign
  split <;> simp_all

theorem IsExponent.exists_exponent? {text : List Char} (h : IsExponent text) :
    ∃ e, Numeral.exponent? text = some e := by
  cases h with
  | none => exact ⟨0, rfl⟩
  | @marked mark sign ds hmark hsign hds hne =>
    have hall : ds.all Char.isDigit = true := List.all_eq_true.mpr hds
    rw [List.cons_append, Numeral.exponent?]
    simp [splitSign_snd, optionalSign_digits hsign hds, hmark, hall, hne]

theorem IsExponent.splitFraction {text : List Char} (h : IsExponent text) :
    Numeral.splitFraction text = ([], text) := by
  cases h with
  | none => rfl
  | marked hmark _ _ _ => rcases hmark with rfl | rfl <;> rfl

theorem decimal?_whole (hds : AllDigits ds) (hne : ds ≠ []) (hexponent : IsExponent exponent) :
    Numeral.decimal? negative (ds ++ exponent) = (Numeral.exponent? exponent).map fun e =>
      Binary64.ofDecimal negative (Numeral.natOfDigits ds) e := by
  have hdigit : ∀ c ∈ exponent.head?, c.isDigit = false := fun c hc => (hexponent.head c hc).1
  rw [Numeral.decimal?, takeWhile_digits hds hdigit, dropWhile_digits hds hdigit]
  simp [hexponent.splitFraction, hne]

/-- The digits behind the point lower the exponent. -/
theorem decimal?_point (hds : AllDigits ds) (hfs : AllDigits fs) (hne : ds ++ fs ≠ [])
    (hexponent : IsExponent exponent) :
    Numeral.decimal? negative (ds ++ '.' :: (fs ++ exponent)) =
      (Numeral.exponent? exponent).map fun e =>
        Binary64.ofDecimal negative (Numeral.natOfDigits (ds ++ fs)) (e - fs.length) := by
  have hdigit : ∀ c ∈ exponent.head?, c.isDigit = false := fun c hc => (hexponent.head c hc).1
  have hpoint : ∀ c ∈ ('.' :: (fs ++ exponent)).head?, c.isDigit = false := by simp
  have hempty : (ds.isEmpty && fs.isEmpty) = false := by
    cases ds <;> cases fs <;> simp_all
  rw [Numeral.decimal?, takeWhile_digits hds hpoint, dropWhile_digits hds hpoint]
  simp [Numeral.splitFraction, takeWhile_digits hfs hdigit, dropWhile_digits hfs hdigit, hempty]

/-- The value of a numeral is a decimal, rounded with the sign in front. -/
theorem IsNumeral.exists_decimal {text : List Char} (h : IsNumeral text) :
    ∃ (digits : Nat) (e : Int), ∀ negative, Numeral.decimal? negative text =
      some (Binary64.ofDecimal negative digits e) := by
  obtain ⟨hsignificand, hexponent⟩ := h
  obtain ⟨e, he⟩ := hexponent.exists_exponent?
  cases hsignificand with
  | whole hds hne => exact ⟨_, e, fun _ => by rw [decimal?_whole hds hne hexponent, he]; rfl⟩
  | @point ds fs hds hne hfs =>
    refine ⟨Numeral.natOfDigits (ds ++ fs), e - fs.length, fun _ => ?_⟩
    rw [List.append_assoc, List.cons_append, decimal?_point hds hfs (by simp [hne]) hexponent, he]
    rfl
  | @fraction fs hfs hne =>
    refine ⟨Numeral.natOfDigits fs, e - fs.length, fun _ => ?_⟩
    have hnil : AllDigits [] := by simp [AllDigits]
    rw [List.cons_append]
    exact (decimal?_point hnil hfs (by simp [hne]) hexponent).trans (by rw [he]; rfl)

theorem toLower_of_digit {c : Char} (h : c.isDigit = true ∨ c = '.') : c.toLower = c := by
  rcases h with h | rfl
  · refine dif_neg fun hupper => ?_
    have halpha : c.isAlpha = true := Bool.or_eq_true_iff.mpr (.inl (decide_eq_true hupper))
    rw [isDigit_of_isAlpha halpha] at h
    cases h
  · rfl

/-- No numeral is the name of a special value: those begin with a letter. -/
theorem IsNumeral.special?_eq_none {text : List Char} (h : IsNumeral text) (negative : Bool) :
    Numeral.special? negative text = none := by
  obtain ⟨c, tail, rfl, hc⟩ := h.exists_head
  unfold Numeral.special?
  split
  case h_4 => rfl
  all_goals
    rename_i heq
    have hlist := congrArg String.toList heq
    rw [String.toList_ofList, List.map_cons, toLower_of_digit hc] at hlist
    obtain ⟨rfl, _⟩ := List.cons.inj hlist
    exact absurd hc (by decide)

theorem IsNumeral.read?_eq {text : List Char} (h : IsNumeral text) :
    Numeral.read? text = Numeral.decimal? false text := by
  have hsign : Numeral.splitSign text = (false, text) := by
    obtain ⟨c, tail, rfl, hc⟩ := h.exists_head
    unfold Numeral.splitSign
    split <;> simp_all
  rw [Numeral.read?, hsign]
  dsimp only
  rw [h.special?_eq_none, Option.none_or]

theorem IsNumeral.read?_minus {text : List Char} (h : IsNumeral text) :
    Numeral.read? ('-' :: text) = Numeral.decimal? true text := by
  rw [Numeral.read?, Numeral.splitSign]
  dsimp only
  rw [h.special?_eq_none, Option.none_or]

theorem IsNumeral.exists_read? {text : List Char} (h : IsNumeral text) :
    ∃ value, Numeral.read? text = some value := by
  obtain ⟨digits, e, hdecimal⟩ := h.exists_decimal
  exact ⟨_, h.read?_eq.trans (hdecimal false)⟩

theorem IsNumeral.read?_of_minus {text : List Char} {value : Binary64} (h : IsNumeral text)
    (hvalue : Numeral.read? ('-' :: text) = some value) : Numeral.read? text = some (-value) := by
  obtain ⟨digits, e, hdecimal⟩ := h.exists_decimal
  rw [h.read?_minus, hdecimal, Binary64.ofDecimal_true] at hvalue
  obtain rfl := Option.some.inj hvalue
  rw [h.read?_eq, hdecimal, Binary64.neg_neg]

end Value

end Number

end SymbolicCalculus.Lexer
