import Mathlib.Order.Basic
import SymbolicCalculus.Proofs.Expr.Display
import SymbolicCalculus.Proofs.Expr.Signs
import SymbolicCalculus.Proofs.Formula.Numeral
import SymbolicCalculus.Proofs.Formula.ShuntingYard

/-! # Texts that spell an expression

A text spells an expression as a phrase if its tokens, which stay the same whatever follows it, are
a phrase that stands for the expression. The text of a node spells it as soon as its operands are
spelled as the phrases that the grammar asks for. The text of a negative literal does not spell the
literal: its sign is read as an operator.
-/
namespace SymbolicCalculus

def Operator.sign : Operator → Char
  | add => '+'
  | sub => '-'
  | mul => '*'
  | div => '/'
  | pow => '^'

/-- A node of this kind can be read back: names have to be identifiers, and the text of a number has
to be a numeral of its value, with or without a sign. -/
def Kind.Legible : Kind → Prop
  | .var name => Lexer.IsIdentifier name.toList
  | .real value => Lexer.number? value.toText.toList = .ok (some (.number value, []))
  | .integer _ | .diff _ => False
  | .negate | .sin | .cos | .exp | .log | .add | .sub | .mul | .div | .pow => True

/-- The special values are printed as words. -/
theorem Kind.Legible.finite {value : Binary64} (h : (Kind.real value).Legible) :
    value.isNaN = false ∧ value.isInfinite = false := by
  rw [Legible] at h
  cases hnan : value.isNaN with
  | true =>
    rw [Binary64.toText_of_isNaN hnan] at h
    cases h
  | false =>
    cases hinfinite : value.isInfinite with
    | false => exact ⟨rfl, rfl⟩
    | true =>
      rw [Binary64.toText_of_isInfinite hnan hinfinite] at h
      cases hnegative : value.isNegative <;>
        (rw [hnegative] at h; cases h)

theorem Kind.Legible.opposite {value : Binary64} (h : (Kind.real value).Legible)
    (hnegative : value.isNegative = true) :
    value.toText.toList = '-' :: (-value).toText.toList ∧ (Kind.real (-value)).Legible := by
  obtain ⟨hnan, hinfinite⟩ := h.finite
  have htext := Binary64.toText_neg hnan hinfinite hnegative
  rw [Legible, htext] at h
  obtain ⟨spelling, _, hvalue, hspelling, hnumeral, hread⟩ := Lexer.number?_spelling h
  cases hvalue
  obtain rfl : (-value).toText.toList = spelling := by
    rw [List.append_nil] at hspelling
    exact (List.cons.inj hspelling).2
  exact ⟨htext, Lexer.number?_of_isNumeral hnumeral (hnumeral.read?_of_minus hread)⟩

section Fill

theorem Kind.fill_negate (text : List Char) : Kind.negate.fill [text] = '-' :: text := rfl

theorem Kind.Legible.fill_opposite {value : Binary64} (h : (Kind.real value).Legible)
    (hnegative : value.isNegative = true) :
    (Kind.real value).fill [] = Kind.negate.fill [(Kind.real (-value)).fill []] := by
  rw [fill_negate, fill_nil, fill_nil]
  exact (h.opposite hnegative).1

theorem Operator.fill_kind (op : Operator) (left right : List Char) :
    op.kind.fill [left, right] = left ++ ' ' :: op.sign :: ' ' :: right := by
  cases op <;> rfl

/-- Every standard function has one operand. It is called by an identifier, and printed with a space
behind it. -/
theorem standard_function {name : String} {kind : Kind}
    (h : (name, kind) ∈ Context.standard.functions) :
    kind.arity = 1 ∧ Lexer.IsIdentifier name.toList ∧
      Context.standard.function? name = some kind ∧
      ∀ text, kind.fill [text] = name.toList ++ ' ' :: text := by
  simp only [Context.standard, List.mem_cons, Prod.mk.injEq, List.not_mem_nil, or_false] at h
  rcases h with ⟨rfl, rfl⟩ | ⟨rfl, rfl⟩ | ⟨rfl, rfl⟩ | ⟨rfl, rfl⟩ <;>
    exact ⟨rfl, ⟨_, _, rfl, rfl, List.all_eq_true.mp rfl⟩, rfl, fun _ => rfl⟩

end Fill

namespace Grammar

abbrev Phrase := List Token → Expr → List Token → Prop

/-- The text, up to the end of a word, is a phrase that stands for the expression. -/
def Spells (phrase : Phrase) (text : List Char) (e : Expr) : Prop :=
  ∃ ts, (∀ rest, Lexer.EndsWord rest → Lexer.Reads (text ++ rest) ts rest) ∧
    ∀ rest, rest.head? ≠ some .openBracket → phrase (ts ++ rest) e rest

variable {context : Context} {text left right : List Char} {u v e : Expr}

theorem Spells.mono {phrase phrase' : Phrase} (h : Spells phrase text e) (hle : phrase ≤ phrase') :
    Spells phrase' text e := by
  obtain ⟨ts, hreads, hphrase⟩ := h
  exact ⟨ts, hreads, fun rest hrest => hle _ _ _ (hphrase rest hrest)⟩

section Inclusions

theorem atom_le_power (context : Context) : Atom context ≤ Power context := fun _ _ _ => .atom

theorem power_le_unary (context : Context) : Power context ≤ Unary context := fun _ _ _ => .power

theorem unary_le_term (context : Context) : Unary context ≤ Term context := fun _ _ _ => .unary

theorem term_le_formula (context : Context) : Term context ≤ Formula context := fun _ _ _ => .term

theorem atom_le_unary (context : Context) : Atom context ≤ Unary context :=
  (atom_le_power context).trans (power_le_unary context)

theorem unary_le_formula (context : Context) : Unary context ≤ Formula context :=
  (unary_le_term context).trans (term_le_formula context)

theorem atom_le_formula (context : Context) : Atom context ≤ Formula context :=
  (atom_le_unary context).trans (unary_le_formula context)

end Inclusions

theorem endsWord_cons {c : Char} (h : Lexer.inWord c = false) (rest : List Char) :
    Lexer.EndsWord (c :: rest) := by
  rintro _ ⟨⟩
  exact h

theorem spells_leaf {kind : Kind} (h : kind.Legible) (hunsigned : kind.Unsigned)
    (harity : kind.arity = 0) : Spells (Atom context) (kind.fill []) (.node kind []) := by
  cases kind with
  | var name =>
    rw [Kind.fill_nil]
    exact ⟨[.ident name], fun rest hrest => .ident h hrest, fun rest hrest => .var hrest⟩
  | real value =>
    rw [Kind.fill_nil]
    obtain ⟨c, tail, htext, hplus, hminus⟩ := Binary64.toText_head hunsigned
    have htext : Lexer.Unsigned value.toText.toList := by
      rw [htext]
      exact Lexer.unsigned_of_head hplus hminus tail
    exact ⟨[.number value], fun rest hrest => .number h htext hrest, fun rest _ => .number⟩
  | integer | diff => exact h.elim
  | negate | sin | cos | exp | log | add | sub | mul | div | pow => cases harity

theorem reads_bracket {ts : List Token}
    (h : ∀ rest, Lexer.EndsWord rest → Lexer.Reads (text ++ rest) ts rest) (rest : List Char) :
    Lexer.Reads (bracket text ++ rest) (.openBracket :: ts ++ [.closeBracket]) rest := by
  have hclose : Lexer.Reads (text ++ ')' :: rest) (ts ++ [.closeBracket]) rest :=
    (h _ (endsWord_cons rfl rest)).append (.single rfl)
  have htext : bracket text ++ rest = '(' :: (text ++ ')' :: rest) := by simp [bracket]
  rw [htext]
  exact .token rfl hclose

theorem Spells.bracket (h : Spells (Formula context) text u) :
    Spells (Atom context) (bracket text) u := by
  obtain ⟨ts, hreads, hformula⟩ := h
  refine ⟨.openBracket :: ts ++ [.closeBracket], fun rest _ => reads_bracket hreads rest,
    fun rest _ => ?_⟩
  rw [List.append_assoc, List.cons_append]
  exact .bracket (hformula _ (by simp))

/-- The space in front of the bracket does not keep the name from being called. -/
theorem Spells.call {name : String} {kind : Kind} (hname : Lexer.IsIdentifier name.toList)
    (hcalls : Calls context name kind) (h : Spells (Formula context) text u) :
    Spells (Atom context) (name.toList ++ ' ' :: SymbolicCalculus.bracket text)
      (.node kind [u]) := by
  obtain ⟨ts, hreads, hformula⟩ := h
  refine ⟨.ident name :: .openBracket :: ts ++ [.closeBracket], fun rest _ => ?_, fun rest _ => ?_⟩
  · rw [List.append_assoc, List.cons_append]
    exact (Lexer.Reads.ident hname (endsWord_cons rfl _)).append (reads_bracket hreads rest).space
  · rw [List.append_assoc, List.cons_append, List.cons_append]
    exact .call hcalls (hformula _ (by simp))

theorem spells_function {name : String} {kind : Kind}
    (hfunction : (name, kind) ∈ Context.standard.functions)
    (h : Spells (Formula .standard) text u) :
    Spells (Atom .standard) (kind.fill [bracket text]) (.node kind [u]) := by
  obtain ⟨-, hname, hlookup, hfill⟩ := standard_function hfunction
  rw [hfill]
  exact h.call hname (.function hlookup)

theorem Spells.negate (h : Spells (Unary context) text u) :
    Spells (Unary context) (Kind.negate.fill [text]) (.neg u) := by
  obtain ⟨ts, hreads, hunary⟩ := h
  rw [Kind.fill_negate]
  exact ⟨.minus :: ts, fun rest hrest => .token rfl (hreads rest hrest),
    fun rest hrest => .negate (hunary rest hrest)⟩

theorem spells_signApart {kind : Kind} (h : kind.Legible) (harity : kind.arity = 0) :
    Spells (Unary context) (kind.fill []) (Expr.signApart kind []) := by
  rcases kind.unsigned_or_negative with hunsigned | ⟨value, rfl, hnegative⟩
  · rw [Expr.signApart_of_unsigned hunsigned]
    exact (spells_leaf h hunsigned harity).mono (atom_le_unary context)
  · have hatom : Spells (Atom context) ((Kind.real (-value)).fill []) (.real (-value)) :=
      spells_leaf (h.opposite hnegative).2 (Kind.unsigned_neg hnegative) rfl
    rw [Expr.signApart_of_negative hnegative, h.fill_opposite hnegative]
    exact (hatom.mono (atom_le_unary context)).negate

theorem token?_operator (op : Operator) (rest : List Char) :
    Lexer.token? (op.sign :: ' ' :: rest) = .ok (some (op.token, ' ' :: rest)) := by
  cases op <;> rfl

/-- Two operands with an operator between them, read by a rule for that operator. -/
theorem Spells.operator (op : Operator) {before after whole : Phrase}
    (hrule : ∀ {ts later rest : List Token}, before ts u (op.token :: later) →
      after later v rest → whole ts (.node op.kind [u, v]) rest)
    (hu : Spells before left u) (hv : Spells after right v) :
    Spells whole (op.kind.fill [left, right]) (.node op.kind [u, v]) := by
  obtain ⟨ts, hreads, hbefore⟩ := hu
  obtain ⟨ts', hreads', hafter⟩ := hv
  rw [op.fill_kind]
  refine ⟨ts ++ op.token :: ts', fun rest hrest => ?_, fun rest hrest => ?_⟩
  · rw [List.append_assoc]
    have hright : Lexer.Reads (op.sign :: ' ' :: (right ++ rest)) (op.token :: ts') rest :=
      .token (token?_operator op _) (hreads' rest hrest).space
    exact (hreads _ (endsWord_cons rfl _)).append hright.space
  · rw [List.append_assoc, List.cons_append]
    refine hrule (hbefore _ ?_) (hafter rest hrest)
    cases op <;> simp [Operator.token]

theorem Spells.parse_eq (h : Spells (Formula .standard) text e) :
    parse (String.ofList text) = .ok e := by
  obtain ⟨ts, hreads, hformula⟩ := h
  have htext : Lexer.Reads text ts [] := by
    have hend := hreads [] (by simp [Lexer.EndsWord])
    rwa [List.append_nil] at hend
  have htokens : Parser.parseTokens .standard (ts ++ [.endOfInput]) = .ok e :=
    Parser.parseTokens_eq_ok_iff.mpr ⟨[], hformula _ (by simp)⟩
  rw [parse, parseIn, htext.tokens_eq]
  exact htokens

end Grammar

end SymbolicCalculus
