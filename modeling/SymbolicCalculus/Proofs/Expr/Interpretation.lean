import Mathlib.Algebra.Field.Basic
import Mathlib.Data.List.Forall2
import Mathlib.RingTheory.Derivation.Basic
import SymbolicCalculus.Proofs.Expr.Structure

/-! # Values of expressions in a field

An interpretation gives a meaning in a field to whatever the field does not know: symbols, literals,
functions, derivatives and powers. The four operations are those of the field, where a quotient by
zero is zero. Two sets of laws say what simplification and what differentiation rely on.
-/
namespace SymbolicCalculus

universe u

structure Interpretation (K : Type u) where
  symbol : String → K
  literal : Binary64 → K
  sin : K → K
  cos : K → K
  exp : K → K
  log : K → K
  derivative : String → K → K
  power : K → K → K

namespace Interpretation

variable {K : Type u} [Field K]

/-- The value of a node with operands of the given values. A node with another number of operands
than its kind expects is zero. -/
def operate (I : Interpretation K) : Kind → List K → K
  | .var name, [] => I.symbol name
  | .real x, [] => I.literal x
  | .integer i, [] => I.literal (Binary64.ofInt i.toInt)
  | .negate, [a] => -a
  | .sin, [a] => I.sin a
  | .cos, [a] => I.cos a
  | .exp, [a] => I.exp a
  | .log, [a] => I.log a
  | .diff x, [a] => I.derivative x a
  | .add, [a, b] => a + b
  | .sub, [a, b] => a - b
  | .mul, [a, b] => a * b
  | .div, [a, b] => a / b
  | .pow, [a, b] => I.power a b
  | _, _ => 0

def value (I : Interpretation K) (e : Expr) : K := e.fold fun e values => I.operate e.kind values

theorem value_node (I : Interpretation K) (kind : Kind) (operands : List Expr) :
    I.value (.node kind operands) = I.operate kind (operands.map I.value) := by
  rw [value, Expr.fold_node]
  rfl

section Operations

variable (I : Interpretation K) (u v : Expr)

theorem value_real (x : Binary64) : I.value (.real x) = I.literal x := value_node I _ _

theorem value_add : I.value (.add u v) = I.value u + I.value v := value_node I _ _

theorem value_sub : I.value (.sub u v) = I.value u - I.value v := value_node I _ _

theorem value_mul : I.value (.mul u v) = I.value u * I.value v := value_node I _ _

theorem value_div : I.value (.div u v) = I.value u / I.value v := value_node I _ _

theorem value_pow : I.value (.pow u v) = I.power (I.value u) (I.value v) := value_node I _ _

theorem value_neg : I.value (.neg u) = -I.value u := value_node I _ _

theorem value_sin : I.value (.sin u) = I.sin (I.value u) := value_node I _ _

theorem value_cos : I.value (.cos u) = I.cos (I.value u) := value_node I _ _

theorem value_exp : I.value (.exp u) = I.exp (I.value u) := value_node I _ _

theorem value_log : I.value (.log u) = I.log (I.value u) := value_node I _ _

theorem value_diff (x : String) : I.value (.diff x u) = I.derivative x (I.value u) :=
  value_node I _ _

end Operations

theorem value_of_variableName? (I : Interpretation K) {e : Expr} {symbol : String}
    (he : e.WellFormed) (h : e.variableName? = some symbol) : I.value e = I.symbol symbol := by
  rw [he.eq_var h, value_node]
  rfl

theorem value_of_number? (I : Interpretation K) {e : Expr} {x : Binary64} (he : e.WellFormed)
    (h : e.number? = some x) : I.value e = I.literal x := by
  rcases he.literal_of_isNumber (Option.isSome_of_eq_some h) with ⟨y, rfl⟩ | ⟨i, rfl⟩
  · cases h
    exact value_real I x
  · cases h
    exact value_node I _ _

/-- A literal has the value that the interpretation gives to all literals equal to it. -/
theorem value_of_isNumberOf (I : Interpretation K) {expected : Binary64} {a : K}
    (hliteral : ∀ x : Binary64, x.equals expected = true → I.literal x = a) {e : Expr}
    (he : e.WellFormed) (h : e.isNumberOf expected = true) : I.value e = a := by
  rw [Expr.isNumberOf, Option.any_eq_true] at h
  obtain ⟨x, hx, hequals⟩ := h
  rw [value_of_number? I he hx, hliteral x hequals]

theorem value_node_congr (I : Interpretation K) (kind : Kind) {es fs : List Expr}
    (h : List.Forall₂ (fun u v => I.value u = I.value v) es fs) :
    I.value (.node kind es) = I.value (.node kind fs) := by
  have hvalues : es.map I.value = fs.map I.value := by
    induction h with
    | nil => rfl
    | cons hfirst _ ih => rw [List.map_cons, List.map_cons, hfirst, ih]
  rw [value_node, value_node, hvalues]

/-- What algebraic simplification takes for granted: no symbol is zero, the literals equal to zero
and one have these values, and a power is one for the exponent zero and its base for the exponent
one. -/
structure IsAlgebraic (I : Interpretation K) : Prop where
  symbol_ne_zero : ∀ name, I.symbol name ≠ 0
  literal_zero : ∀ x : Binary64, x.equals .zero = true → I.literal x = 0
  literal_one : ∀ x : Binary64, x.equals .one = true → I.literal x = 1
  power_zero : ∀ a, I.power a 0 = 1
  power_one : ∀ a, I.power a 1 = a

/-- What differentiation takes for granted: derivatives are commuting derivations, one for each
symbol. They make one of their own symbol and zero of every other symbol and of every literal, and
they obey the chain rules of the functions and of powers with a constant exponent. The literals zero
and one have these values, and the power with the literal two is the square. -/
structure IsDifferential (I : Interpretation K) (δ : String → Derivation ℤ K K) : Prop where
  derivative_eq : ∀ x a, I.derivative x a = δ x a
  derivation_comm : ∀ x y a, δ x (δ y a) = δ y (δ x a)
  derivation_literal : ∀ x value, δ x (I.literal value) = 0
  derivation_symbol_self : ∀ x, δ x (I.symbol x) = 1
  derivation_symbol_ne : ∀ x y, x ≠ y → δ x (I.symbol y) = 0
  derivation_sin : ∀ x a, δ x (I.sin a) = I.cos a * δ x a
  derivation_cos : ∀ x a, δ x (I.cos a) = -I.sin a * δ x a
  derivation_exp : ∀ x a, δ x (I.exp a) = I.exp a * δ x a
  derivation_log : ∀ x a, δ x (I.log a) = δ x a / a
  derivation_power : ∀ x b n, δ x n = 0 → δ x (I.power b n) = n * I.power b (n - 1) * δ x b
  literal_zero : I.literal .zero = 0
  literal_one : I.literal .one = 1
  power_two : ∀ a, I.power a (I.literal .two) = a * a

end Interpretation

end SymbolicCalculus
