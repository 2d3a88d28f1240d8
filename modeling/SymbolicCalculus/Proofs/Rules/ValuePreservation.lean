import Mathlib.Algebra.Field.Rat
import SymbolicCalculus.Proofs.Expr.Interpretation
import SymbolicCalculus.Proofs.Rules.Congruence

/-! # Simplification keeps the value

The rules that compute nothing are laws of fields. In every interpretation in which no symbol is
zero, what they make of an expression has the value of the expression. Functions and derivatives may
be anything, because the rules do not look into them.
-/
namespace SymbolicCalculus

open SymbolicCalculus.Expr Interpretation

universe u

namespace Simplification

variable {K : Type u} [Field K] {I : Interpretation K}

namespace Chain

def join : Chain → K → K → K
  | sum, a, b => a + b
  | product, a, b => a * b

def undo : Chain → K → K → K
  | sum, a, b => a - b
  | product, a, b => a / b

theorem join_comm (c : Chain) (a b : K) : c.join a b = c.join b a := by
  cases c with
  | sum => exact add_comm a b
  | product => exact mul_comm a b

theorem join_assoc (c : Chain) (a b d : K) : c.join (c.join a b) d = c.join a (c.join b d) := by
  cases c with
  | sum => exact add_assoc a b d
  | product => exact mul_assoc a b d

theorem join_undo (c : Chain) (a b d : K) : c.join a (c.undo b d) = c.undo (c.join a b) d := by
  cases c with
  | sum => exact (add_sub_assoc a b d).symm
  | product => exact (mul_div_assoc a b d).symm

theorem undo_join (c : Chain) (a b d : K) : c.join (c.undo a b) d = c.undo (c.join a d) b := by
  rw [join_comm, join_undo, join_comm]

theorem undo_undo (c : Chain) (a b d : K) : c.undo (c.undo a b) d = c.undo a (c.join b d) := by
  cases c with
  | sum => exact sub_sub a b d
  | product => exact div_div a b d

theorem undo_join_self (c : Chain) (a : K) {b : K} (hb : b ≠ 0) : c.undo (c.join a b) b = a := by
  cases c with
  | sum => exact add_sub_cancel_right a b
  | product => exact mul_div_cancel_right₀ a hb

theorem join_neutral (hI : I.IsAlgebraic) (c : Chain) (a : K) :
    c.join a (I.literal c.neutral) = a := by
  cases c with
  | sum =>
    rw [neutral, hI.literal_zero _ Binary64.equals_zero_zero]
    exact add_zero a
  | product =>
    rw [neutral, hI.literal_one _ Binary64.equals_one_one]
    exact mul_one a

theorem value_link (I : Interpretation K) (c : Chain) (u v : Expr) :
    I.value (.node c.link [u, v]) = c.join (I.value u) (I.value v) := by
  cases c with
  | sum => exact value_add I u v
  | product => exact value_mul I u v

theorem value_inverse (I : Interpretation K) (c : Chain) (u v : Expr) :
    I.value (.node c.inverse [u, v]) = c.undo (I.value u) (I.value v) := by
  cases c with
  | sum => exact value_sub I u v
  | product => exact value_div I u v

end Chain

theorem LinkLaw.value_eq {c : Chain} {u v r : Expr} (h : LinkLaw c u v r) :
    I.value (.node c.link [u, v]) = I.value r := by
  cases h with
  | combine heq _ _ => simp only [heq, Chain.value_link, Chain.join_assoc]
  | numberFirst | variableFirst => simp only [Chain.value_link, Chain.join_comm]
  | align hkind heq =>
    subst heq
    rcases hkind with rfl | rfl
    · simp only [Chain.value_link, Chain.join_assoc]
    · simp only [Chain.value_link, Chain.value_inverse, Chain.join_undo]
  | hoist _ heq => simp only [heq, Chain.value_link, Chain.value_inverse, Chain.undo_join]

/-- A variable that is cancelled in a chain is taken off the value of the chain. -/
theorem value_neutralize (hI : I.IsAlgebraic) {c : Chain} {symbol : String} {e r : Expr}
    (he : e.WellFormed) (h : neutralize c.link symbol c.neutral e = .ok r) :
    c.undo (I.value e) (I.symbol symbol) = I.value r := by
  fun_induction neutralize c.link symbol c.neutral e generalizing r with
  | case1 left right hright =>
    cases h
    have hsymbol := value_of_variableName? I (wellFormed_binary_iff.mp he).2.2 hright
    rw [Chain.value_link, Chain.value_link, hsymbol, value_real, Chain.join_neutral hI,
      Chain.undo_join_self _ _ (hI.symbol_ne_zero symbol)]
  | case2 left right _ n hn ih =>
    cases h
    have hleft := ih (wellFormed_binary_iff.mp he).2.1 hn
    rw [Chain.value_link, Chain.value_link, ← hleft, Chain.undo_join]
  | case3 => cases h
  | case4 => cases h
  | case5 => cases h

theorem InverseLaw.value_eq (hI : I.IsAlgebraic) {c : Chain} {u v r : Expr}
    (he : (node c.inverse [u, v]).WellFormed) (h : InverseLaw c u v r) :
    I.value (.node c.inverse [u, v]) = I.value r := by
  obtain ⟨_, hu, hv⟩ := wellFormed_binary_iff.mp he
  cases h with
  | combine heq _ _ => simp only [heq, Chain.value_link, Chain.value_inverse, Chain.undo_undo]
  | cancel hsymbol hneutralize =>
    rw [Chain.value_inverse, value_of_variableName? I hv hsymbol,
      value_neutralize hI hu hneutralize]

theorem value_of_sameVariable (hI : I.IsAlgebraic) {u v : Expr} (hu : u.WellFormed)
    (hv : v.WellFormed) (h : sameVariable u v = true) : I.value u = I.value v ∧ I.value v ≠ 0 := by
  unfold sameVariable at h
  split at h
  · rename_i hnameu hnamev
    obtain rfl := beq_iff_eq.mp h
    rw [value_of_variableName? I hu hnameu, value_of_variableName? I hv hnamev]
    exact ⟨rfl, hI.symbol_ne_zero _⟩
  · cases h

theorem value_of_identityLaw (hI : I.IsAlgebraic) {e r : Expr} (he : e.WellFormed)
    (h : IdentityLaw e r) : I.value e = I.value r := by
  have hzero {w : Expr} : w.WellFormed → w.isNumberOf .zero = true → I.value w = 0 :=
    value_of_isNumberOf I hI.literal_zero
  have hone {w : Expr} : w.WellFormed → w.isNumberOf .one = true → I.value w = 1 :=
    value_of_isNumberOf I hI.literal_one
  have hrealZero : I.value (.real .zero) = 0 := hzero (wellFormed_real _) Binary64.equals_zero_zero
  have hrealOne : I.value (.real .one) = 1 := hone (wellFormed_real _) Binary64.equals_one_one
  cases h with
  | pow_one hv => rw [value_pow, hone (wellFormed_binary_iff.mp he).2.2 hv, hI.power_one]
  | pow_zero hv =>
    rw [value_pow, hzero (wellFormed_binary_iff.mp he).2.2 hv, hI.power_zero, hrealOne]
  | one_mul hu => rw [value_mul, hone (wellFormed_binary_iff.mp he).2.1 hu, one_mul]
  | zero_mul hu =>
    rw [value_mul, hzero (wellFormed_binary_iff.mp he).2.1 hu, zero_mul, hrealZero]
  | zero_add hu => rw [value_add, hzero (wellFormed_binary_iff.mp he).2.1 hu, zero_add]
  | add_zero hv => rw [value_add, hzero (wellFormed_binary_iff.mp he).2.2 hv, add_zero]
  | sub_zero hv => rw [value_sub, hzero (wellFormed_binary_iff.mp he).2.2 hv, sub_zero]
  | sub_self hsame =>
    obtain ⟨_, hu, hv⟩ := wellFormed_binary_iff.mp he
    rw [value_sub, (value_of_sameVariable hI hu hv hsame).1, sub_self, hrealZero]
  | div_self hsame =>
    obtain ⟨_, hu, hv⟩ := wellFormed_binary_iff.mp he
    obtain ⟨heq, hne⟩ := value_of_sameVariable hI hu hv hsame
    rw [value_div, heq, div_self hne, hrealOne]
  | zero_div hu =>
    rw [value_div, hzero (wellFormed_binary_iff.mp he).2.1 hu, zero_div, hrealZero]

theorem AlgebraicLaw.value_eq (hI : I.IsAlgebraic) {e r : Expr} (he : e.WellFormed)
    (h : AlgebraicLaw e r) : I.value e = I.value r := by
  cases h with
  | identity hcase => exact value_of_identityLaw hI he (identityLaw_of_identityCase hcase)
  | link hlink => exact hlink.value_eq
  | inverse hinverse => exact hinverse.value_eq hI he

end Simplification

theorem Interpretation.isPrecongruence_value {K : Type u} [Field K] (I : Interpretation K) :
    IsPrecongruence fun e r => I.value e = I.value r :=
  ⟨Eq.trans, value_node_congr I⟩

namespace Engine

open Simplification

theorem staysWithin_value {K : Type u} [Field K] {I : Interpretation K} (hI : I.IsAlgebraic)
    {rules : List Rule} (hrules : ∀ rule ∈ rules, rule ∈ algebraicRules)
    (configuration : Configuration) :
    (Engine.new rules configuration).StaysWithin fun e r => I.value e = I.value r := by
  intro rule htries
  apply (follows_of_mem_algebraicRules (hrules rule (tries_new_iff.mp htries))).mono
  intro e r he hlaw
  exact ⟨(hlaw.law.simplerThan he).wellFormed, hlaw.value_eq hI he⟩

/-- Simplification keeps the value in every field. A run with any selection of the rules that
compute nothing, in any order and with repetitions, returns an expression of the same value. -/
theorem simplification_preserves_value {K : Type u} [Field K] {I : Interpretation K}
    (hI : I.IsAlgebraic) {rules : List Rule} (hrules : ∀ rule ∈ rules, rule ∈ algebraicRules)
    (configuration : Configuration) {e : Expr} (he : e.WellFormed) {budget : Nat} {trace : Trace}
    {s : Session} (h : (Engine.new rules configuration).runWithin budget e = .done trace s) :
    I.value trace.expression = I.value e :=
  (related_of_runWithin I.isPrecongruence_value (staysWithin_value hI hrules configuration) he
    h).symm

end Engine

def Interpretation.rational : Interpretation ℚ where
  symbol _ := 2
  literal x := if x.equals .zero then 0 else 1
  sin a := a + 1
  cos a := a - 1
  exp a := 2 * a
  log a := a / 2
  derivative _ a := a * a
  power a b := if b = 0 then 1 else a

theorem Interpretation.isAlgebraic_rational : rational.IsAlgebraic where
  symbol_ne_zero _ := show (2 : ℚ) ≠ 0 by decide
  literal_zero x hx := if_pos hx
  literal_one x hx := by
    apply if_neg
    intro hzero
    have hplace := (Binary64.equals_iff.mp hzero).2.2
    rw [(Binary64.equals_iff.mp hx).2.2] at hplace
    exact absurd hplace (by decide)
  power_zero a := by simp [rational]
  power_one a := by simp [rational]

/-- In `sin (y * x / x)` the `x` is cancelled, and the one that is left in its place is dropped. -/
theorem Engine.simplification_preserves_value_cancel :
    (Expr.sin (.div (.mul (.var "y") (.var "x")) (.var "x"))).WellFormed ∧
    ∃ trace s, (Engine.new [Simplification.reorder, Simplification.identity,
        Simplification.cancel] {}).runWithin 20
        (.sin (.div (.mul (.var "y") (.var "x")) (.var "x"))) = .done trace s ∧
      trace.expression = .sin (.var "y") ∧
      Interpretation.rational.value trace.expression =
        Interpretation.rational.value (.sin (.div (.mul (.var "y") (.var "x")) (.var "x"))) := by
  have he : (Expr.sin (.div (.mul (.var "y") (.var "x")) (.var "x"))).WellFormed := by
    simp [WellFormed, AllWellFormed, Kind.arity]
  have hrules : ∀ rule ∈ [Simplification.reorder, Simplification.identity,
      Simplification.cancel], rule ∈ Simplification.algebraicRules := by
    simp [Simplification.algebraicRules]
  obtain ⟨trace, s, hrun, hexpression⟩ : ∃ trace s, (Engine.new [Simplification.reorder,
      Simplification.identity, Simplification.cancel] {}).runWithin 20
        (.sin (.div (.mul (.var "y") (.var "x")) (.var "x"))) = .done trace s ∧
          trace.expression = .sin (.var "y") := ⟨_, _, rfl, rfl⟩
  exact ⟨he, trace, s, hrun, hexpression,
    simplification_preserves_value isAlgebraic_rational hrules {} he hrun⟩

end SymbolicCalculus
