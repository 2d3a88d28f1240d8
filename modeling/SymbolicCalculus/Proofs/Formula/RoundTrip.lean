import SymbolicCalculus.Proofs.Expr.Structure
import SymbolicCalculus.Proofs.Formula.Spelling

/-! # Reading printed expressions back

The symbolic form brackets every operand, so each operand is an atom and all legible trees are read
back. The display form brackets an operand only if it binds looser than the node around it. What it
leaves open the grammar decides: sums and products group to the left, powers to the right, and a
sign applies to the whole power behind it. Trees that group in this way are read back from it.

Either form prints a negative literal with a minus, and a minus is read as an operator. So what is
read back has all signs apart, and it is the tree itself if no literal in it is negative.
-/
namespace SymbolicCalculus

open Grammar

theorem Operator.arity_kind (op : Operator) : op.kind.arity = 2 := by
  cases op <;> rfl

/-- Legible nodes are leaves, signs, calls of standard functions and operators. -/
theorem Kind.Legible.cases {kind : Kind} (h : kind.Legible) :
    kind.arity = 0 ∨ kind = .negate ∨ (∃ name, (name, kind) ∈ Context.standard.functions) ∨
      ∃ op : Operator, kind = op.kind := by
  cases kind with
  | var | real => exact .inl rfl
  | integer | diff => exact h.elim
  | negate => exact .inr (.inl rfl)
  | sin | cos | exp | log => exact .inr (.inr (.inl (by simp [Context.standard])))
  | add => exact .inr (.inr (.inr ⟨.add, rfl⟩))
  | sub => exact .inr (.inr (.inr ⟨.sub, rfl⟩))
  | mul => exact .inr (.inr (.inr ⟨.mul, rfl⟩))
  | div => exact .inr (.inr (.inr ⟨.div, rfl⟩))
  | pow => exact .inr (.inr (.inr ⟨.pow, rfl⟩))

section Symbolic

theorem Expr.symbolicChars_node (kind : Kind) (operands : List Expr) :
    (node kind operands).symbolicChars =
      kind.fill (operands.map fun u => bracket u.symbolicChars) := by
  have hall (es : List Expr) : symbolicAll es = es.map fun u => bracket u.symbolicChars := by
    induction es with
    | nil => rfl
    | cons e es ih => simp [symbolicAll, ih]
  rw [symbolicChars, hall]

/-- Two atoms with an operator between them are a formula, whatever the operator. -/
theorem Grammar.Formula.of_atoms {context : Context} {op : Operator} {ts later rest : List Token}
    {u v : Expr} (hu : Atom context ts u (op.token :: later)) (hv : Atom context later v rest) :
    Formula context ts (.node op.kind [u, v]) rest := by
  have hunary : Unary context later v rest := .power (.atom hv)
  cases op with
  | add => exact .binary (.inl rfl) (.term (.unary (.power (.atom hu)))) (.unary hunary)
  | sub => exact .binary (.inr rfl) (.term (.unary (.power (.atom hu)))) (.unary hunary)
  | mul => exact .term (.binary (.inl rfl) (.unary (.power (.atom hu))) hunary)
  | div => exact .term (.binary (.inr rfl) (.unary (.power (.atom hu))) hunary)
  | pow => exact .term (.unary (.power (.pow hu hunary)))

theorem Expr.spells_symbolic {e : Expr} (h : e.WellFormed)
    (hlegible : e.Everywhere (·.kind.Legible)) :
    Spells (Formula .standard) e.symbolicChars e.signsApart := by
  induction e using operandInduction with
  | node kind operands ih =>
    obtain ⟨hkind, hbelow⟩ := everywhere_node_iff.mp hlegible
    have hformula : ∀ u ∈ operands, Spells (Formula .standard) u.symbolicChars u.signsApart :=
      fun u hu => ih u hu ((wellFormed_node_iff.mp h).2 u hu) (hbelow u hu)
    rw [symbolicChars_node, signsApart_node]
    rcases hkind.cases with hleaf | rfl | ⟨name, hfunction⟩ | ⟨op, rfl⟩
    · obtain rfl := h.operands_nil hleaf
      exact (spells_signApart hkind hleaf).mono (unary_le_formula _)
    · obtain ⟨u, rfl, -⟩ := h.operands_singleton rfl
      have hatom := (hformula u (by simp)).bracket
      exact (hatom.mono (atom_le_unary _)).negate.mono (unary_le_formula _)
    · have harity : kind.arity = 1 := (standard_function hfunction).1
      obtain ⟨u, rfl, -⟩ := h.operands_singleton harity
      rw [signApart_of_unsigned (Kind.unsigned_of_arity (by simp [harity]))]
      exact (spells_function hfunction (hformula u (by simp))).mono (atom_le_formula _)
    · obtain ⟨u, v, rfl, -, -⟩ := h.operands_pair op.arity_kind
      rw [signApart_of_unsigned (Kind.unsigned_of_arity (by simp [op.arity_kind]))]
      exact .operator op .of_atoms (hformula u (by simp)).bracket (hformula v (by simp)).bracket

theorem Expr.parse_symbolic {e : Expr} (h : e.WellFormed)
    (hlegible : e.Everywhere (·.kind.Legible)) : parse e.symbolic = .ok e.signsApart :=
  (spells_symbolic h hlegible).parse_eq

/-- The parser undoes the symbolic form but for the signs of literals: a legible tree of any shape
is read back with all signs apart, and as it is exactly if no literal in it is negative. -/
theorem symbolic_form_reads_back {e : Expr} (h : e.WellFormed)
    (hlegible : e.Everywhere (·.kind.Legible)) :
    parse e.symbolic = .ok e.signsApart ∧
      (parse e.symbolic = .ok e ↔ e.Everywhere (·.kind.Unsigned)) := by
  have hparse := Expr.parse_symbolic h hlegible
  refine ⟨hparse, ?_⟩
  rw [hparse, Except.ok.injEq]
  exact Expr.signsApart_eq_self_iff

theorem signsApart_minus_two : (Expr.real (.ofInt (-2))).signsApart = .neg (.real (.ofInt 2)) :=
  Expr.signsApart_node _ _

/-- A name of a function that stands in brackets of its own is a variable, and a sign in brackets is
an operator. -/
theorem symbolic_form_reads_back_sine :
    let e := Expr.sin (.neg (.pow (.var "sin") (.real (.ofInt (-2)))))
    e.symbolic = "sin (-((sin) ^ (-2.0)))" ∧
      parse e.symbolic = .ok (.sin (.neg (.pow (.var "sin") (.neg (.real (.ofInt 2)))))) := by
  intro e
  have hname : Lexer.IsIdentifier ['s', 'i', 'n'] := ⟨_, _, rfl, rfl, List.all_eq_true.mp rfl⟩
  have htwo : Lexer.number? (Binary64.ofInt (-2)).toText.toList =
      .ok (some (.number (.ofInt (-2)), [])) := rfl
  have hread := (symbolic_form_reads_back (e := e)
    (by simp [e, Expr.WellFormed, Expr.AllWellFormed, Kind.arity])
    (by simp [e, Expr.everywhere_node_iff, Expr.kind, Kind.Legible, hname, htwo])).1
  refine ⟨rfl, hread.trans (congrArg _ ?_)⟩
  simp only [e, Expr.signsApart_node, List.map_cons, List.map_nil]
  rfl

/-- The literal `-2` is legible, but read back as the negation of `2`. -/
theorem symbolic_form_loses_literal_sign :
    let e := Expr.real (.ofInt (-2))
    e.WellFormed ∧ e.Everywhere (·.kind.Legible) ∧ e.symbolic = "-2.0" ∧
      parse e.symbolic = .ok (.neg (.real (.ofInt 2))) ∧ parse e.symbolic ≠ .ok e := by
  intro e
  have he : e.WellFormed := Expr.wellFormed_real _
  have hlegible : e.Everywhere (·.kind.Legible) :=
    Expr.everywhere_node_iff.mpr ⟨rfl, by simp⟩
  have hparse : parse e.symbolic = .ok (.neg (.real (.ofInt 2))) :=
    (Expr.parse_symbolic he hlegible).trans (congrArg _ signsApart_minus_two)
  refine ⟨he, hlegible, rfl, hparse, ?_⟩
  rw [hparse]
  simp [e]

end Symbolic

namespace Expr

end Expr

namespace Precedence

/-- The phrases that nodes of a precedence are displayed as. The tables of printing and of reading
differ here: a printed sign binds tighter than a power, a sign that is read takes in the power. -/
def phrase : Precedence → Phrase
  | lowest | equals | sum => Formula .standard
  | product => Term .standard
  | unary => Unary .standard
  | power => Power .standard
  | function | literal => Atom .standard

end Precedence

namespace Kind

end Kind

section Display

variable {u v : Expr} {around : Precedence}

example : (Expr.sub (.var "a") (.add (.var "b") (.var "c"))).displaysLike
    (.add (.sub (.var "a") (.var "b")) (.var "c")) = true := rfl

end Display

end SymbolicCalculus
