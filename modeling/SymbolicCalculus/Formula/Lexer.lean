import SymbolicCalculus.Error
import SymbolicCalculus.Text.Blank

/-! # Tokens of a text

Tokens are read from left to right, the longest spelling first; spaces, tabs and line ends may stand
between them. Reading stops where no token starts, and only blanks may be left there. An exponent
mark commits a numeral to exponent digits.
-/
namespace SymbolicCalculus.Lexer

abbrev Scanned := Option (Token × List Char)

/-- Operators and brackets. The minus sign and the dot operator have a spelling of their own. -/
def sign? : List Char → Scanned
  | '*' :: '*' :: rest => some (.power, rest)
  | '^' :: rest => some (.power, rest)
  | '+' :: rest => some (.plus, rest)
  | '-' :: rest => some (.minus, rest)
  | '−' :: rest => some (.minus, rest)
  | '*' :: rest => some (.multiply, rest)
  | '⋅' :: rest => some (.multiply, rest)
  | '/' :: rest => some (.divide, rest)
  | '(' :: rest => some (.openBracket, rest)
  | ')' :: rest => some (.closeBracket, rest)
  | _ => none

def digits (text : List Char) : List Char := text.takeWhile Char.isDigit

def afterDigits (text : List Char) : List Char := text.dropWhile Char.isDigit

/-- The digits of a numeral with at most one point, and the text after them. At least one digit has
to stand before the point, or else after it. -/
def significand? (text : List Char) : Option (List Char × List Char) :=
  if (digits text).isEmpty then
    match text with
    | '.' :: rest =>
      if (digits rest).isEmpty then none else some ('.' :: digits rest, afterDigits rest)
    | _ => none
  else
    match afterDigits text with
    | '.' :: rest => some (digits text ++ '.' :: digits rest, afterDigits rest)
    | rest => some (digits text, rest)

/-- A sign, if the text starts with one, and the text after it. -/
def optionalSign : List Char → List Char × List Char
  | '+' :: rest => (['+'], rest)
  | '-' :: rest => (['-'], rest)
  | rest => ([], rest)

/-- The exponent of a numeral, empty if there is no mark, and the text after it. -/
def exponentPart : List Char → Except Flaw (List Char × List Char)
  | [] => .ok ([], [])
  | c :: rest =>
    if c = 'e' ∨ c = 'E' then
      let sign := (optionalSign rest).1
      let rest := (optionalSign rest).2
      if (digits rest).isEmpty then .error (.missingExponent (String.ofList rest))
      else .ok (c :: sign ++ digits rest, afterDigits rest)
    else .ok ([], c :: rest)

/-- A numeral with an optional sign. Signs are operators before they are parts of numerals, so no
token is read with one. -/
def number? (text : List Char) : Except Flaw Scanned :=
  match significand? (optionalSign text).2 with
  | none => .ok none
  | some (significand, rest) =>
    match exponentPart rest with
    | .error flaw => .error flaw
    | .ok (exponent, rest) =>
      .ok ((Numeral.read? ((optionalSign text).1 ++ significand ++ exponent)).map fun value =>
        (.number value, rest))

/-- A letter followed by letters and digits, of ASCII only. -/
def ident? : List Char → Scanned
  | [] => none
  | c :: rest =>
    if c.isAlpha then
      some (.ident (String.ofList (c :: rest.takeWhile Char.isAlphanum)),
        rest.dropWhile Char.isAlphanum)
    else none

def token? (text : List Char) : Except Flaw Scanned :=
  match sign? text with
  | some scanned => .ok (some scanned)
  | none =>
    match number? text with
    | .error flaw => .error flaw
    | .ok (some scanned) => .ok (some scanned)
    | .ok none => .ok (ident? text)

theorem length_dropWhile_le {α : Type} (p : α → Bool) (xs : List α) :
    (xs.dropWhile p).length ≤ xs.length :=
  (List.dropWhile_sublist p).length_le

theorem length_of_sign? {text rest : List Char} {t : Token} (h : sign? text = some (t, rest)) :
    rest.length < text.length := by
  unfold sign? at h
  split at h <;> cases h <;> simp only [List.length_cons] <;> omega

theorem length_of_significand? {text spelling rest : List Char}
    (h : significand? text = some (spelling, rest)) : rest.length < text.length := by
  unfold significand? at h
  split at h
  · split at h
    · split at h
      · simp at h
      · simp only [Option.some.injEq, Prod.mk.injEq] at h
        have := length_dropWhile_le Char.isDigit ‹List Char›
        simp only [afterDigits] at h
        rw [← h.2, List.length_cons]
        omega
    · simp at h
  · rename_i hd
    have lt : (afterDigits text).length < text.length := by
      cases text with
      | nil => simp [digits] at hd
      | cons c cs =>
        cases hc : c.isDigit with
        | false => simp [digits, hc] at hd
        | true =>
          have := length_dropWhile_le Char.isDigit cs
          rw [afterDigits, List.dropWhile_cons, if_pos hc, List.length_cons]
          omega
    split at h
    · rename_i tail htail
      have := length_dropWhile_le Char.isDigit tail
      simp only [Option.some.injEq, Prod.mk.injEq, afterDigits] at h
      rw [htail, List.length_cons] at lt
      rw [← h.2]
      omega
    · simp only [Option.some.injEq, Prod.mk.injEq] at h
      rw [← h.2]
      exact lt

theorem length_optionalSign_le (text : List Char) : (optionalSign text).2.length ≤ text.length := by
  unfold optionalSign
  split <;> simp

theorem length_of_exponentPart {text spelling rest : List Char}
    (h : exponentPart text = .ok (spelling, rest)) : rest.length ≤ text.length := by
  unfold exponentPart at h
  split at h
  · simp_all
  · rename_i c tail
    split at h
    · have := length_optionalSign_le tail
      have := length_dropWhile_le Char.isDigit (optionalSign tail).2
      dsimp only at h
      split at h
      · simp at h
      · simp only [Except.ok.injEq, Prod.mk.injEq, afterDigits] at h
        rw [← h.2, List.length_cons]
        omega
    · simp only [Except.ok.injEq, Prod.mk.injEq] at h
      exact Nat.le_of_eq (congrArg List.length h.2.symm)

theorem length_of_number? {text rest : List Char} {t : Token}
    (h : number? text = .ok (some (t, rest))) : rest.length < text.length := by
  unfold number? at h
  split at h
  · simp at h
  · rename_i hs
    split at h
    · simp at h
    · rename_i he
      simp only [Except.ok.injEq, Option.map_eq_some_iff, Prod.mk.injEq] at h
      obtain ⟨_, _, _, rfl⟩ := h
      have := length_optionalSign_le text
      have := length_of_significand? hs
      have := length_of_exponentPart he
      omega

theorem length_of_ident? {text rest : List Char} {t : Token} (h : ident? text = some (t, rest)) :
    rest.length < text.length := by
  unfold ident? at h
  split at h
  · simp at h
  · rename_i c tail
    split at h
    · simp only [Option.some.injEq, Prod.mk.injEq] at h
      have := length_dropWhile_le Char.isAlphanum tail
      rw [← h.2, List.length_cons]
      omega
    · simp at h

/-- A token is never empty. -/
theorem length_of_token? {text rest : List Char} {t : Token}
    (h : token? text = .ok (some (t, rest))) : rest.length < text.length := by
  unfold token? at h
  split at h
  · rename_i hs
    simp only [Except.ok.injEq, Option.some.injEq] at h
    exact length_of_sign? (h ▸ hs)
  · split at h
    · simp at h
    · rename_i hn
      simp only [Except.ok.injEq, Option.some.injEq] at h
      exact length_of_number? (h ▸ hn)
    · simp only [Except.ok.injEq] at h
      exact length_of_ident? h

def skip (text : List Char) : List Char := text.dropWhile Text.isSeparator

/-- The tokens up to the place where none starts, and the text from there on. -/
def scan (text : List Char) : Except Flaw (List Token × List Char) :=
  match _h : token? (skip text) with
  | .error flaw => .error flaw
  | .ok none => .ok ([], text)
  | .ok (some (t, rest)) =>
    match scan (skip rest) with
    | .error flaw => .error flaw
    | .ok (ts, rest) => .ok (t :: ts, rest)
termination_by text.length
decreasing_by
  have := length_of_token? _h
  have := length_dropWhile_le Text.isSeparator text
  have := length_dropWhile_le Text.isSeparator rest
  simp only [skip] at *
  omega

/-- The tokens of the whole text, closed by the end of input. -/
def tokens (code : String) : Except Flaw (List Token) :=
  match scan code.toList with
  | .error flaw => .error flaw
  | .ok (ts, rest) =>
    match Text.trim rest with
    | [] => .ok (ts ++ [.endOfInput])
    | rest => .error (.unreadable (String.ofList rest))

end SymbolicCalculus.Lexer
