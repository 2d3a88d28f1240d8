import Mathlib.Data.List.DropRight
import SymbolicCalculus.Proofs.Formula.Grammar

/-! # Reading the tokens of a text piece by piece

`Reads` relates a text to the tokens at its start and to the text behind them, so the tokens of a
text can be put together from those of its pieces. A word ends where a character follows that cannot
belong to it; up to there a name is read as an identifier, and a text that is a numeral by itself as
that numeral.
-/
namespace SymbolicCalculus.Lexer

/-- The text starts with these tokens. Separators may stand before each of them. -/
inductive Reads : List Char → List Token → List Char → Prop
  | done {rest : List Char} : Reads rest [] rest
  | separator {c : Char} {text rest : List Char} {ts : List Token} :
    Text.isSeparator c = true → Reads text ts rest → Reads (c :: text) ts rest
  | token {text later rest : List Char} {t : Token} {ts : List Token} :
    token? text = .ok (some (t, later)) → Reads later ts rest → Reads text (t :: ts) rest

theorem Reads.append {text later rest : List Char} {ts us : List Token}
    (h : Reads text ts later) (hlater : Reads later us rest) : Reads text (ts ++ us) rest := by
  induction h with
  | done => exact hlater
  | separator hc _ ih => exact .separator hc (ih hlater)
  | token ht _ ih => exact .token ht (ih hlater)

theorem Reads.single {text rest : List Char} {t : Token}
    (h : token? text = .ok (some (t, rest))) : Reads text [t] rest := .token h .done

theorem Reads.space {text rest : List Char} {ts : List Token} (h : Reads text ts rest) :
    Reads (' ' :: text) ts rest := .separator rfl h

section Scan

theorem token?_separator {c : Char} {text : List Char} (h : Text.isSeparator c = true) :
    token? (c :: text) = .ok none := by
  simp only [Text.isSeparator, Bool.or_eq_true, beq_iff_eq] at h
  rcases h with ((rfl | rfl) | rfl) | rfl <;> rfl

theorem skip_of_token {text later : List Char} {t : Token}
    (h : token? text = .ok (some (t, later))) : skip text = text := by
  cases text with
  | nil => rfl
  | cons c text =>
    cases hc : Text.isSeparator c with
    | false => simp [skip, hc]
    | true =>
      rw [token?_separator hc] at h
      cases h

theorem skip_skip (text : List Char) : skip (skip text) = skip text := by
  simp only [skip, List.dropWhile_idempotent Text.isSeparator text]

/-- Scanning finds the tokens behind the leading separators, up to where no further one starts. -/
theorem Reads.scan_skip {text rest : List Char} {ts : List Token} (h : Reads text ts rest)
    (hrest : token? (skip rest) = .ok none) : scan (skip text) = .ok (ts, skip rest) := by
  induction h with
  | done =>
    apply scan_of_none
    rw [skip_skip]
    exact hrest
  | @separator c text _ _ hc _ ih =>
    have hskip : skip (c :: text) = skip text := by simp [skip, hc]
    rw [hskip]
    exact ih hrest
  | token ht _ ih =>
    refine scan_of_token ?_ (ih hrest)
    rw [skip_skip, skip_of_token ht]
    exact ht

theorem trim_eq_nil_iff {text : List Char} :
    Text.trim text = [] ↔ ∀ c ∈ text, Text.isBlank c = true := by
  rw [Text.trim, List.reverse_eq_nil_iff, List.dropWhile_eq_nil_iff]
  simp only [List.mem_reverse]
  constructor
  · intro h
    -- What is left in front starts with a character that is no blank.
    cases hleft : text.dropWhile Text.isBlank with
    | nil => exact List.dropWhile_eq_nil_iff.mp hleft
    | cons c left =>
      have hc := List.head?_dropWhile_not Text.isBlank text
      rw [hleft] at h hc
      simp [h c List.mem_cons_self] at hc
  · intro h c hc
    exact h c ((List.dropWhile_sublist Text.isBlank).subset hc)

theorem trim_of_trim_skip {text : List Char} (h : Text.trim (skip text) = []) :
    Text.trim text = [] := by
  rw [trim_eq_nil_iff] at h ⊢
  intro c hc
  rw [← List.takeWhile_append_dropWhile (p := Text.isSeparator) (l := text), List.mem_append] at hc
  rcases hc with hc | hc
  · exact Text.isBlank_of_isSeparator (List.mem_takeWhile_imp hc)
  · exact h c hc

/-- Leading separators do not matter, but where there is no token they are left. -/
theorem scan_of_scan_skip {text rest : List Char} {ts : List Token}
    (h : scan (skip text) = .ok (ts, rest)) (hrest : Text.trim rest = []) :
    ∃ rest, scan text = .ok (ts, rest) ∧ Text.trim rest = [] := by
  unfold scan at h
  split at h
  · cases h
  · rename_i hnone
    rw [skip_skip] at hnone
    simp only [Except.ok.injEq, Prod.mk.injEq] at h
    obtain ⟨rfl, rfl⟩ := h
    exact ⟨text, scan_of_none hnone, trim_of_trim_skip hrest⟩
  · rename_i htoken
    rw [skip_skip] at htoken
    split at h
    · cases h
    · rename_i hscan
      cases h
      exact ⟨_, scan_of_token htoken hscan, hrest⟩

/-- A text has these tokens and the end of input if none starts in what is left, and only blanks
stand there. -/
theorem Reads.tokens_eq_of_trim {text rest : List Char} {ts : List Token} (h : Reads text ts rest)
    (hnone : token? (skip rest) = .ok none) (hrest : Text.trim (skip rest) = []) :
    tokens (String.ofList text) = .ok (ts ++ [.endOfInput]) := by
  obtain ⟨rest, hscan, htrim⟩ := scan_of_scan_skip (h.scan_skip hnone) hrest
  simp only [tokens, String.toList_ofList, hscan, htrim]

theorem Reads.tokens_eq {text : List Char} {ts : List Token} (h : Reads text ts []) :
    tokens (String.ofList text) = .ok (ts ++ [.endOfInput]) :=
  h.tokens_eq_of_trim rfl rfl

end Scan

def inWord (c : Char) : Bool := c.isAlphanum || c == '.'

/-- A name or numeral in front of the text ends where the text starts. -/
def EndsWord (rest : List Char) : Prop := ∀ c ∈ rest.head?, inWord c = false

theorem takeWhile_append_of_head {p : Char → Bool} {rest : List Char}
    (h : ∀ c ∈ rest.head?, p c = false) (text : List Char) :
    (text ++ rest).takeWhile p = text.takeWhile p := by
  induction text with
  | nil =>
    cases rest with
    | nil => rfl
    | cons c rest => simp [h c rfl]
  | cons c text ih => simp only [List.cons_append, List.takeWhile_cons, ih]

theorem dropWhile_append_of_head {p : Char → Bool} {rest : List Char}
    (h : ∀ c ∈ rest.head?, p c = false) (text : List Char) :
    (text ++ rest).dropWhile p = text.dropWhile p ++ rest := by
  induction text with
  | nil =>
    cases rest with
    | nil => rfl
    | cons c rest => simp [h c rfl]
  | cons c text ih =>
    simp only [List.cons_append, List.dropWhile_cons, ih]
    split <;> rfl

section Word

variable {text rest later : List Char}

theorem EndsWord.alphanum (h : EndsWord rest) : ∀ c ∈ rest.head?, c.isAlphanum = false := by
  intro c hc
  exact (Bool.or_eq_false_iff.mp (h c hc)).1

theorem EndsWord.digit (h : EndsWord rest) : ∀ c ∈ rest.head?, c.isDigit = false := by
  intro c hc
  exact (Bool.or_eq_false_iff.mp (h.alphanum c hc)).2

theorem EndsWord.digits_append (h : EndsWord rest) (text : List Char) :
    digits (text ++ rest) = digits text := takeWhile_append_of_head h.digit text

theorem EndsWord.afterDigits_append (h : EndsWord rest) (text : List Char) :
    afterDigits (text ++ rest) = afterDigits text ++ rest := dropWhile_append_of_head h.digit text

theorem significand?_append {spelling : List Char} (hrest : EndsWord rest)
    (h : significand? text = some (spelling, later)) :
    significand? (text ++ rest) = some (spelling, later ++ rest) := by
  unfold significand? at h ⊢
  rw [hrest.digits_append, hrest.afterDigits_append]
  split at h
  · rename_i hempty
    rw [if_pos hempty]
    split at h
    · simp only [List.cons_append, hrest.digits_append, hrest.afterDigits_append]
      split at h
      · cases h
      · rename_i hdigits
        cases h
        rw [if_neg hdigits]
    · cases h
  · rename_i hempty
    rw [if_neg hempty]
    split at h
    · rename_i tail hpoint
      cases h
      simp only [hpoint, List.cons_append, hrest.digits_append, hrest.afterDigits_append]
    · rename_i hpoint
      cases h
      split
      · rename_i tail heq
        rcases List.append_eq_cons_iff.mp heq with ⟨-, rfl⟩ | ⟨later, hlater, -⟩
        · exact absurd (hrest '.' rfl) (by decide)
        · exact absurd hlater (hpoint later)
      · rfl

theorem optionalSign_append (h : text ≠ []) (rest : List Char) :
    optionalSign (text ++ rest) = ((optionalSign text).1, (optionalSign text).2 ++ rest) := by
  cases text with
  | nil => exact absurd rfl h
  | cons c text =>
    rw [List.cons_append]
    unfold optionalSign
    split <;> simp_all

theorem optionalSign_spelling (text : List Char) :
    text = (optionalSign text).1 ++ (optionalSign text).2 ∧
      ((optionalSign text).1 = [] ∨ (optionalSign text).1 = ['+'] ∨
        (optionalSign text).1 = ['-']) := by
  unfold optionalSign
  split <;> simp

theorem exponentPart_append {spelling : List Char} (hrest : EndsWord rest)
    (h : exponentPart text = .ok (spelling, later)) :
    exponentPart (text ++ rest) = .ok (spelling, later ++ rest) := by
  cases text with
  | nil =>
    cases h
    cases rest with
    | nil => rfl
    | cons c rest =>
      have hc : ¬(c = 'e' ∨ c = 'E') := by
        rintro (rfl | rfl)
        · exact absurd (hrest 'e' rfl) (by decide)
        · exact absurd (hrest 'E' rfl) (by decide)
      simp only [List.nil_append, exponentPart, if_neg hc]
  | cons c text =>
    simp only [List.cons_append, exponentPart] at h ⊢
    split at h
    · rename_i hc
      split at h
      · cases h
      · rename_i hdigits
        cases h
        have hne : text ≠ [] := by
          rintro rfl
          simp [optionalSign, digits] at hdigits
        simp only [if_pos hc, optionalSign_append hne, hrest.digits_append,
          hrest.afterDigits_append, if_neg hdigits]
    · rename_i hc
      cases h
      rw [if_neg hc]
      rfl

/-- A numeral is read as far as without the text behind it. -/
theorem number?_append {t : Token} (hrest : EndsWord rest)
    (h : number? text = .ok (some (t, later))) :
    number? (text ++ rest) = .ok (some (t, later ++ rest)) := by
  have hne : text ≠ [] := by
    rintro rfl
    cases h
  unfold number? at h
  split at h
  · cases h
  · rename_i significand tail hsignificand
    split at h
    · cases h
    · rename_i exponent last hexponent
      simp only [Except.ok.injEq, Option.map_eq_some_iff, Prod.mk.injEq] at h
      obtain ⟨value, hvalue, rfl, rfl⟩ := h
      simp only [number?, optionalSign_append hne, significand?_append hrest hsignificand,
        exponentPart_append hrest hexponent, hvalue, Option.map_some]

theorem isDigit_of_mem_digits {c : Char} (h : c ∈ digits text) : c.isDigit = true :=
  List.mem_takeWhile_imp h

theorem digits_append_afterDigits (text : List Char) : digits text ++ afterDigits text = text :=
  List.takeWhile_append_dropWhile

theorem significand?_spelling {spelling : List Char}
    (h : significand? text = some (spelling, later)) :
    text = spelling ++ later ∧ ∀ c ∈ spelling, c.isDigit = true ∨ c = '.' := by
  unfold significand? at h
  split at h
  · split at h
    · rename_i tail
      split at h
      · cases h
      · cases h
        refine ⟨by rw [List.cons_append, digits_append_afterDigits], fun c hc => ?_⟩
        rcases List.mem_cons.mp hc with rfl | hc
        · exact .inr rfl
        · exact .inl (isDigit_of_mem_digits hc)
    · cases h
  · split at h
    · rename_i tail hpoint
      cases h
      constructor
      · rw [List.append_assoc, List.cons_append, digits_append_afterDigits, ← hpoint,
          digits_append_afterDigits]
      · intro c hc
        rw [List.mem_append, List.mem_cons] at hc
        rcases hc with hc | rfl | hc
        · exact .inl (isDigit_of_mem_digits hc)
        · exact .inr rfl
        · exact .inl (isDigit_of_mem_digits hc)
    · cases h
      exact ⟨(digits_append_afterDigits text).symm, fun c hc => .inl (isDigit_of_mem_digits hc)⟩

theorem inWord_of_digit {c : Char} (h : c.isDigit = true ∨ c = '.') : inWord c = true := by
  rcases h with h | rfl
  · simp [inWord, Char.isAlphanum, h]
  · rfl

def Unsigned (text : List Char) : Prop := (optionalSign text).1 = []

theorem Unsigned.optionalSign_snd (h : Unsigned text) : (optionalSign text).2 = text := by
  obtain ⟨hspelling, -⟩ := optionalSign_spelling text
  rw [h] at hspelling
  exact hspelling.symm

theorem unsigned_of_head {c : Char} (hplus : c ≠ '+') (hminus : c ≠ '-') (text : List Char) :
    Unsigned (c :: text) := by
  unfold Unsigned optionalSign
  split <;> simp_all

theorem number?_head {t : Token} (h : number? text = .ok (some (t, later)))
    (hunsigned : Unsigned text) : ∃ c tail, text = c :: tail ∧ inWord c = true := by
  unfold number? at h
  rw [hunsigned.optionalSign_snd] at h
  split at h
  · cases h
  · rename_i significand tail hsignificand
    have hshorter := length_of_significand? hsignificand
    obtain ⟨rfl, hchars⟩ := significand?_spelling hsignificand
    cases significand with
    | nil => exact absurd hshorter (Nat.lt_irrefl _)
    | cons c significand =>
      exact ⟨c, significand ++ tail, rfl, inWord_of_digit (hchars c List.mem_cons_self)⟩

theorem sign?_of_inWord {c : Char} (h : inWord c = true) (text : List Char) :
    sign? (c :: text) = none := by
  unfold sign?
  split
  case h_11 => rfl
  all_goals simp_all [inWord]

theorem Reads.number {t : Token} (h : number? text = .ok (some (t, [])))
    (hunsigned : Unsigned text) (hrest : EndsWord rest) : Reads (text ++ rest) [t] rest := by
  have hnumber := number?_append hrest h
  obtain ⟨c, tail, htext, hc⟩ := number?_head h hunsigned
  have hsign : sign? (text ++ rest) = none := by
    rw [htext]
    exact sign?_of_inWord hc _
  apply Reads.single
  simp only [token?, hsign, hnumber, List.nil_append]

def IsIdentifier (text : List Char) : Prop :=
  ∃ c tail, text = c :: tail ∧ c.isAlpha = true ∧ ∀ d ∈ tail, d.isAlphanum = true

theorem isDigit_of_isAlpha {c : Char} (h : c.isAlpha = true) : c.isDigit = false := by
  rw [Bool.eq_false_iff]
  intro hdigit
  have hle := of_decide_eq_true (Bool.and_eq_true_iff.mp hdigit).2
  rcases Bool.or_eq_true_iff.mp h with hupper | hlower
  · have hge := (of_decide_eq_true hupper).1
    exact absurd (UInt32.le_trans hge hle) (by decide)
  · have hge := of_decide_eq_true (Bool.and_eq_true_iff.mp hlower).1
    exact absurd (UInt32.le_trans hge hle) (by decide)

theorem number?_of_head {c : Char} (hdigit : c.isDigit = false) (hpoint : c ≠ '.')
    {text : List Char} (hunsigned : Unsigned (c :: text)) : number? (c :: text) = .ok none := by
  have hdigits : digits (c :: text) = [] := by simp [digits, hdigit]
  have hsignificand : significand? (c :: text) = none := by
    unfold significand?
    simp [hdigits, hpoint]
  simp only [number?, hunsigned.optionalSign_snd, hsignificand]

theorem number?_of_isAlpha {c : Char} (h : c.isAlpha = true) (text : List Char) :
    number? (c :: text) = .ok none := by
  have hne {d : Char} (hd : d.isAlpha = false) : c ≠ d := by
    rintro rfl
    rw [h] at hd
    cases hd
  exact number?_of_head (isDigit_of_isAlpha h) (hne rfl) (unsigned_of_head (hne rfl) (hne rfl) text)

theorem Reads.ident {name : String} (h : IsIdentifier name.toList) (hrest : EndsWord rest) :
    Reads (name.toList ++ rest) [.ident name] rest := by
  obtain ⟨c, tail, hname, hc, htail⟩ := h
  have hsign : sign? (c :: (tail ++ rest)) = none :=
    sign?_of_inWord (by simp [inWord, Char.isAlphanum, hc]) _
  have htake : (tail ++ rest).takeWhile Char.isAlphanum = tail := by
    rw [takeWhile_append_of_head hrest.alphanum, List.takeWhile_eq_self_iff]
    exact htail
  have hdrop : (tail ++ rest).dropWhile Char.isAlphanum = rest := by
    rw [dropWhile_append_of_head hrest.alphanum, List.dropWhile_eq_nil_iff.mpr htail]
    rfl
  apply Reads.single
  rw [hname, List.cons_append, token?, hsign, number?_of_isAlpha hc]
  simp only [ident?, if_pos hc, htake, hdrop, ← hname, String.ofList_toList]

end Word

end SymbolicCalculus.Lexer
