import SymbolicCalculus.Proofs.Formula.Numeral

/-! # Lexemes

Every token has its spellings. A text that is read without a flaw is made of spellings of its
tokens, with separators between them and blanks at its end; and whatever spellings are put in a row,
with separators between them, the tokens that they spell are read.
-/
namespace SymbolicCalculus.Lexer

/-- The spellings of operators and brackets. The minus sign and the dot operator have one of their
own. -/
def signs : List (Token × List Char) :=
  [(.power, ['*', '*']), (.power, ['^']), (.plus, ['+']), (.minus, ['-']), (.minus, ['\u2212']),
    (.multiply, ['*']), (.multiply, ['\u22c5']), (.divide, ['/']), (.openBracket, ['(']),
    (.closeBracket, [')'])]

inductive Spelling : Token → List Char → Prop
  | sign {t : Token} {text : List Char} : (t, text) ∈ signs → Spelling t text
  | ident {name : String} : IsIdentifier name.toList → Spelling (.ident name) name.toList
  | number {text : List Char} {value : Binary64} : IsNumeral text →
    Numeral.read? text = some value → Spelling (.number value) text

structure Lexeme where
  token : Token
  spelling : List Char
  gap : List Char
  spells : Spelling token spelling
  separates : ∀ c ∈ gap, Text.isSeparator c = true

def Lexeme.text (lexeme : Lexeme) : List Char := lexeme.spelling ++ lexeme.gap

/-- The lexemes make up the text, with separators in front of them and blanks behind them. -/
def MakeUp (lexemes : List Lexeme) (text : List Char) : Prop :=
  ∃ lead rest, (∀ c ∈ lead, Text.isSeparator c = true) ∧ (∀ c ∈ rest, Text.isBlank c = true) ∧
    text = lead ++ lexemes.flatMap Lexeme.text ++ rest

section Spelled

variable {text rest : List Char} {t : Token} {ts : List Token}

theorem sign?_spelling (h : sign? text = some (t, rest)) :
    ∃ spelling, (t, spelling) ∈ signs ∧ text = spelling ++ rest := by
  unfold sign? at h
  split at h
  case h_1 =>
    cases h
    exact ⟨['*', '*'], by decide, rfl⟩
  case h_11 => cases h
  all_goals
    cases h
    exact ⟨[_], by decide, rfl⟩

theorem ident?_spelling (h : ident? text = some (t, rest)) :
    ∃ name : String, t = .ident name ∧ IsIdentifier name.toList ∧ text = name.toList ++ rest := by
  unfold ident? at h
  split at h
  · cases h
  · rename_i c tail
    split at h
    · rename_i hc
      cases h
      refine ⟨_, rfl, ⟨c, tail.takeWhile Char.isAlphanum, String.toList_ofList, hc, ?_⟩, ?_⟩
      · exact fun _ => List.mem_takeWhile_imp
      · rw [String.toList_ofList, List.cons_append, List.takeWhile_append_dropWhile]
    · cases h

/-- Where no operator is read, there is no sign for a numeral either. -/
theorem unsigned_of_sign? (h : sign? text = none) : Unsigned text := by
  unfold Unsigned optionalSign
  split
  · cases h
  · cases h
  · rfl

theorem token?_spelling (h : token? text = .ok (some (t, rest))) :
    ∃ spelling, Spelling t spelling ∧ text = spelling ++ rest := by
  unfold token? at h
  split at h
  · rename_i hsign
    cases h
    obtain ⟨spelling, hmem, htext⟩ := sign?_spelling hsign
    exact ⟨spelling, .sign hmem, htext⟩
  · rename_i hsign
    split at h
    · cases h
    · rename_i hnumber
      cases h
      obtain ⟨spelling, value, rfl, htext, hnumeral, hvalue⟩ := number?_spelling hnumber
      rw [unsigned_of_sign? hsign, List.nil_append] at htext hvalue
      exact ⟨spelling, .number hnumeral hvalue, htext⟩
    · simp only [Except.ok.injEq] at h
      obtain ⟨name, rfl, hname, htext⟩ := ident?_spelling h
      exact ⟨name.toList, .ident hname, htext⟩

theorem exists_gap (text : List Char) :
    ∃ gap, (∀ c ∈ gap, Text.isSeparator c = true) ∧ text = gap ++ skip text :=
  ⟨text.takeWhile Text.isSeparator, fun _ => List.mem_takeWhile_imp,
    List.takeWhile_append_dropWhile.symm⟩

/-- Scanning takes a text apart into lexemes, up to where it stops. -/
theorem exists_lexemes_of_scan (h : scan text = .ok (ts, rest)) :
    ∃ (lead : List Char) (lexemes : List Lexeme), (∀ c ∈ lead, Text.isSeparator c = true) ∧
      ts = lexemes.map Lexeme.token ∧ text = lead ++ lexemes.flatMap Lexeme.text ++ rest := by
  fun_induction scan text generalizing ts rest with
  | case1 => cases h
  | case2 text =>
    cases h
    exact ⟨[], [], by simp, rfl, rfl⟩
  | case3 => cases h
  | case4 text t later htoken _ _ hscan ih =>
    cases h
    obtain ⟨lead, hlead, htext⟩ := exists_gap text
    obtain ⟨spelling, hspells, hskip⟩ := token?_spelling htoken
    obtain ⟨gap, hgap, hlater⟩ := exists_gap later
    -- What leads the lexemes found later belongs to the gap behind this one.
    obtain ⟨gap', lexemes, hgap', rfl, hrest⟩ := ih hscan
    refine ⟨lead, ⟨t, spelling, gap ++ gap', hspells, ?_⟩ :: lexemes, hlead, rfl, ?_⟩
    · intro c hc
      exact (List.mem_append.mp hc).elim (hgap c) (hgap' c)
    · rw [htext, hskip, hlater, hrest]
      simp [Lexeme.text]

theorem exists_makeUp_of_tokens {code : String} (h : tokens code = .ok ts) :
    ∃ lexemes : List Lexeme, MakeUp lexemes code.toList ∧
      ts = lexemes.map Lexeme.token ++ [.endOfInput] := by
  unfold tokens at h
  split at h
  · cases h
  · rename_i rest hscan
    split at h
    · rename_i htrim
      cases h
      obtain ⟨lead, lexemes, hlead, rfl, htext⟩ := exists_lexemes_of_scan hscan
      exact ⟨lexemes, ⟨lead, rest, hlead, trim_eq_nil_iff.mp htrim, htext⟩, rfl⟩
    · cases h

end Spelled

section Read

variable {text rest spelling gap : List Char} {t : Token} {ts : List Token}
  {lexemes : List Lexeme}

/-- Words are made of printed characters of ASCII. -/
theorem toNat_of_inWord {c : Char} (h : inWord c = true) : 46 ≤ c.toNat ∧ c.toNat ≤ 122 := by
  have hbetween {a b : UInt32} (ha : 46 ≤ a.toNat) (hb : b.toNat ≤ 122) (hac : a ≤ c.val)
      (hcb : c.val ≤ b) : 46 ≤ c.toNat ∧ c.toNat ≤ 122 :=
    ⟨ha.trans (UInt32.le_iff_toNat_le.mp hac), (UInt32.le_iff_toNat_le.mp hcb).trans hb⟩
  rcases Bool.or_eq_true_iff.mp h with halphanum | hpoint
  · rcases Bool.or_eq_true_iff.mp halphanum with halpha | hdigit
    · rcases Bool.or_eq_true_iff.mp halpha with hupper | hlower
      · obtain ⟨hge, hle⟩ := of_decide_eq_true hupper
        exact hbetween (by decide) (by decide) hge hle
      · obtain ⟨hge, hle⟩ := Bool.and_eq_true_iff.mp hlower
        exact hbetween (by decide) (by decide) (of_decide_eq_true hge) (of_decide_eq_true hle)
    · obtain ⟨hge, hle⟩ := Bool.and_eq_true_iff.mp hdigit
      exact hbetween (by decide) (by decide) (of_decide_eq_true hge) (of_decide_eq_true hle)
  · rw [beq_iff_eq.mp hpoint]
    decide

theorem inWord_of_isBlank {c : Char} (h : Text.isBlank c = true) : inWord c = false := by
  by_contra hword
  rw [Bool.not_eq_false] at hword
  obtain ⟨hge, hle⟩ := toNat_of_inWord hword
  simp only [Text.isBlank, Bool.or_eq_true, Bool.and_eq_true, decide_eq_true_eq, beq_iff_eq] at h
  omega

theorem token?_of_isBlank {c : Char} (h : Text.isBlank c = true) (text : List Char) :
    token? (c :: text) = .ok none := by
  have hsign : sign? (c :: text) = none := by
    unfold sign?
    split
    case h_11 => rfl
    all_goals
      rename_i heq
      cases heq
      exact absurd h (by decide)
  have hword := inWord_of_isBlank h
  simp only [inWord, Char.isAlphanum, Bool.or_eq_false_iff, beq_eq_false_iff_ne] at hword
  obtain ⟨⟨halpha, hdigit⟩, hpoint⟩ := hword
  have hnumber := number?_of_head hdigit hpoint (unsigned_of_sign? hsign)
  simp only [token?, hsign, hnumber, ident?, halpha, Bool.false_eq_true, if_false]

def StartsBlank (text : List Char) : Prop := ∀ c ∈ text.head?, Text.isBlank c = true

theorem startsBlank_of_forall (h : ∀ c ∈ text, Text.isBlank c = true) : StartsBlank text :=
  fun c hc => h c (List.mem_of_mem_head? hc)

theorem StartsBlank.endsWord (h : StartsBlank rest) : EndsWord rest :=
  fun c hc => inWord_of_isBlank (h c hc)

theorem StartsBlank.token?_eq (h : StartsBlank text) : token? text = .ok none := by
  cases text with
  | nil => rfl
  | cons c text => exact token?_of_isBlank (h c rfl) text

theorem sign?_of_mem (h : (t, spelling) ∈ signs) (hrest : StartsBlank rest) :
    sign? (spelling ++ rest) = some (t, rest) := by
  simp only [signs, List.mem_cons, Prod.mk.injEq, List.not_mem_nil, or_false] at h
  rcases h with ⟨rfl, rfl⟩ | ⟨rfl, rfl⟩ | ⟨rfl, rfl⟩ | ⟨rfl, rfl⟩ | ⟨rfl, rfl⟩ | ⟨rfl, rfl⟩ |
    ⟨rfl, rfl⟩ | ⟨rfl, rfl⟩ | ⟨rfl, rfl⟩ | ⟨rfl, rfl⟩
  case inr.inr.inr.inr.inr.inl =>
    -- A star goes on to a power if another star follows it.
    cases rest with
    | nil => rfl
    | cons c rest =>
      have hc : c ≠ '*' := by
        rintro rfl
        exact absurd (hrest '*' rfl) (by decide)
      simp [sign?, hc]
  all_goals rfl

theorem Spelling.reads (h : Spelling t spelling) (hrest : StartsBlank rest) :
    Reads (spelling ++ rest) [t] rest := by
  cases h with
  | sign hsign => exact .single (by simp only [token?, sign?_of_mem hsign hrest])
  | ident hname => exact .ident hname hrest.endsWord
  | number hnumeral hvalue =>
    exact .number (number?_of_isNumeral hnumeral hvalue) hnumeral.unsigned hrest.endsWord

theorem Reads.behind_gap (h : Reads text ts rest) (hgap : ∀ c ∈ gap, Text.isSeparator c = true) :
    Reads (gap ++ text) ts rest := by
  induction gap with
  | nil => exact h
  | cons c gap ih =>
    rw [List.forall_mem_cons] at hgap
    exact .separator hgap.1 (ih hgap.2)

/-- Lexemes in a row are read one after the other. Only the last one needs no gap behind it. -/
theorem reads_lexemes (hgaps : ∀ l ∈ lexemes.dropLast, l.gap ≠ []) (hrest : StartsBlank rest) :
    Reads (lexemes.flatMap Lexeme.text ++ rest) (lexemes.map Lexeme.token) rest := by
  induction lexemes with
  | nil => exact .done
  | cons l lexemes ih =>
    have hnext : StartsBlank (l.gap ++ (lexemes.flatMap Lexeme.text ++ rest)) := by
      cases hgap : l.gap with
      | cons c gap =>
        rintro _ ⟨⟩
        exact Text.isBlank_of_isSeparator (l.separates c (by simp [hgap]))
      | nil =>
        -- The gap is missing, so this is the last lexeme.
        cases lexemes with
        | nil => exact hrest
        | cons => exact absurd hgap (hgaps l List.mem_cons_self)
    have hlater : ∀ l' ∈ lexemes.dropLast, l'.gap ≠ [] := by
      cases lexemes with
      | nil => simp
      | cons => exact fun l' hl' => hgaps l' (List.mem_cons_of_mem l hl')
    have htext : (l :: lexemes).flatMap Lexeme.text ++ rest =
        l.spelling ++ (l.gap ++ (lexemes.flatMap Lexeme.text ++ rest)) := by
      simp [Lexeme.text]
    rw [htext]
    exact (l.spells.reads hnext).append ((ih hlater).behind_gap l.separates)

theorem MakeUp.tokens_eq {code : String} (h : MakeUp lexemes code.toList)
    (hgaps : ∀ l ∈ lexemes.dropLast, l.gap ≠ []) :
    tokens code = .ok (lexemes.map Lexeme.token ++ [.endOfInput]) := by
  obtain ⟨lead, rest, hlead, hrest, hcode⟩ := h
  have hreads : Reads code.toList (lexemes.map Lexeme.token) rest := by
    rw [hcode, List.append_assoc]
    exact (reads_lexemes hgaps (startsBlank_of_forall hrest)).behind_gap hlead
  have hleft : ∀ c ∈ skip rest, Text.isBlank c = true := fun c hc =>
    hrest c ((List.dropWhile_sublist Text.isSeparator).subset hc)
  have htokens := hreads.tokens_eq_of_trim (startsBlank_of_forall hleft).token?_eq
    (trim_eq_nil_iff.mpr hleft)
  rwa [String.ofList_toList] at htokens

end Read

/-- A text whose tokens can be read is made of spellings of these tokens, in their order, with
separators in front of them and between them and blanks at the end; the end of input follows them
and stands nowhere else. Conversely, spellings in a row are read as the tokens that they spell if
there are separators between them. And every numeral spells a number. -/
theorem lexemes_make_up_text :
    (∀ code ts, tokens code = .ok ts → ∃ lexemes : List Lexeme,
      MakeUp lexemes code.toList ∧ ts = lexemes.map Lexeme.token ++ [.endOfInput] ∧
        .endOfInput ∉ lexemes.map Lexeme.token) ∧
    (∀ code (lexemes : List Lexeme), MakeUp lexemes code.toList →
      (∀ l ∈ lexemes.dropLast, l.gap ≠ []) →
        tokens code = .ok (lexemes.map Lexeme.token ++ [.endOfInput])) ∧
    (∀ text, IsNumeral text → ∃ value, Spelling (.number value) text) := by
  refine ⟨fun code ts h => ?_, fun code lexemes h hgaps => h.tokens_eq hgaps, fun text h => ?_⟩
  · obtain ⟨lexemes, hmakeUp, rfl⟩ := exists_makeUp_of_tokens h
    obtain ⟨front, hfront, hnotMem⟩ := tokens_eq_ok h
    rw [← List.append_cancel_right hfront] at hnotMem
    exact ⟨lexemes, hmakeUp, rfl, hnotMem⟩
  · obtain ⟨value, hvalue⟩ := h.exists_read?
    exact ⟨value, .number h hvalue⟩

/-- The two stars of `x ** .5e1` are one power, because no separator stands between them, and the
exponent belongs to the number, which is five. -/
theorem lexemes_make_up_text_power :
    tokens "x ** .5e1 " = .ok [.ident "x", .power, .number (.ofInt 5), .endOfInput] ∧
      ∃ lexemes : List Lexeme, MakeUp lexemes "x ** .5e1 ".toList ∧
        lexemes.map Lexeme.token = [.ident "x", .power, .number (.ofInt 5)] := by
  obtain ⟨hspelled, hread, -⟩ := lexemes_make_up_text
  have hexponent : IsExponent ['e', '1'] :=
    @IsExponent.marked 'e' [] ['1'] (.inl rfl) (.inl rfl) (by simp [AllDigits]) (by simp)
  have hfive : Spelling (.number (.ofInt 5)) ['.', '5', 'e', '1'] :=
    .number (@IsNumeral.mk ['.', '5'] _ (.fraction (by simp [AllDigits]) (by simp)) hexponent) rfl
  have hspace : ∀ c ∈ [' '], Text.isSeparator c = true := List.forall_mem_singleton.mpr rfl
  let lexemes : List Lexeme :=
    [⟨.ident "x", ['x'], [' '], @Spelling.ident "x" ⟨'x', [], rfl, rfl, by simp⟩, hspace⟩,
      ⟨.power, ['*', '*'], [' '], .sign (by decide), hspace⟩,
      ⟨.number (.ofInt 5), _, [' '], hfive, hspace⟩]
  have htokens := hread "x ** .5e1 " lexemes ⟨[], [], by simp, by simp, rfl⟩ (by simp [lexemes])
  obtain ⟨found, hmakeUp, hfound, -⟩ := hspelled _ _ htokens
  exact ⟨htokens, found, hmakeUp, (List.append_cancel_right hfound).symm⟩

end SymbolicCalculus.Lexer
