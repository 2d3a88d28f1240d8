import SymbolicCalculus.Proofs.Expr.SmoothGerm
import SymbolicCalculus.Proofs.Rules.Inversion
import SymbolicCalculus.Proofs.Rules.ValuePreservation

/-! # Differentiation keeps the value

Where derivatives are read as commuting derivations of a field, the rules of differentiation are
laws of that field: what they make of an expression has the value of the expression. The one
exception is a power with the symbol in its exponent, because its base and exponent trade places.
Runs that never come to such a power keep the value.
-/
namespace SymbolicCalculus

open SymbolicCalculus.Expr Interpretation

universe u

variable {K : Type u} [Field K] {I : Interpretation K} {δ : String → Derivation ℤ K K}

namespace Interpretation.IsDifferential

/-- A node is constant if its operands are, unless it is the symbol itself. -/
theorem derivation_operate (hI : I.IsDifferential δ) {x : String} {kind : Kind}
    (hkind : kind ≠ .var x) {values : List K} (h : ∀ a ∈ values, δ x a = 0) :
    δ x (I.operate kind values) = 0 := by
  unfold operate
  split
  case h_1 name =>
    have hne : x ≠ name := by
      rintro rfl
      exact hkind rfl
    exact hI.derivation_symbol_ne x name hne
  case h_9 y a =>
    -- The derivation of the symbol passes the one that the node stands for.
    rw [hI.derivative_eq, hI.derivation_comm, h a (List.mem_singleton_self a), map_zero]
  all_goals
    simp_all [hI.derivation_literal, hI.derivation_sin, hI.derivation_cos, hI.derivation_exp,
      hI.derivation_log, hI.derivation_power, Derivation.leibniz_div]

theorem value_diff (hI : I.IsDifferential δ) (x : String) (u : Expr) :
    I.value (.diff x u) = δ x (I.value u) := by
  rw [Interpretation.value_diff, hI.derivative_eq]

theorem derivation_value (hI : I.IsDifferential δ) {x : String} {e : Expr}
    (h : .var x ∉ e.symbols) : δ x (I.value e) = 0 := by
  induction e using operandInduction with
  | node kind operands ih =>
    rw [symbols_node, List.mem_append, not_or] at h
    rw [value_node]
    apply hI.derivation_operate
    · rintro rfl
      exact h.1 (List.mem_singleton_self _)
    · rw [List.forall_mem_map]
      intro u hu
      exact ih u hu fun hx => h.2 (List.mem_flatten_of_mem (List.mem_map_of_mem hu) hx)

/-- The quotient rule, with the square that the rule writes as a power. -/
theorem derivation_div (hI : I.IsDifferential δ) (x : String) (a b : K) :
    δ x (a / b) = (b * δ x a - a * δ x b) / I.power b (I.literal .two) := by
  rw [Derivation.leibniz_div, hI.power_two, smul_eq_mul, smul_eq_mul, smul_eq_mul, inv_pow, pow_two,
    div_eq_inv_mul]

end Interpretation.IsDifferential

namespace Differentiation

theorem power_fit?_eq_generalExponent_iff {e : Expr} :
    power.fit? e = some Power.generalExponent ↔
      ∃ x b n, e = .diff x (.pow b n) ∧ n.mentions (some x) = true := by
  constructor
  · intro h
    rw [power_eq] at h
    obtain ⟨⟨_, outcome⟩, hstep, rfl⟩ := Option.map_eq_some_iff.mp h
    obtain ⟨x, u, rfl, hcase⟩ := exists_of_onDerivative hstep
    unfold powerCase at hcase
    split at hcase
    · cases hcase
    · split at hcase
      · split at hcase
        · rename_i b n _ hmentions
          exact ⟨x, b, n, rfl, hmentions⟩
        · cases hcase
      · cases hcase
  · rintro ⟨x, b, n, rfl, hmentions⟩
    exact if_pos hmentions

/-- No other rule matches where the rule for powers finds the symbol in an exponent. -/
theorem eq_power_of_fit? {rule : Rule} (h : rule ∈ rules) {e : Expr} {fit : Fit}
    (hrule : rule.fit? e = some fit) (hpower : power.fit? e = some Power.generalExponent) :
    rule = power := by
  obtain ⟨x, b, n, rfl, hmentions⟩ := power_fit?_eq_generalExponent_iff.mp hpower
  simp only [rules, List.mem_cons, List.not_mem_nil, or_false] at h
  rcases h with rfl | rfl | rfl | rfl | rfl
  · have hpow : (pow b n).mentions (some x) = true := by simp [mentions_node, hmentions]
    have hnone : constant.fit? (.diff x (.pow b n)) = none := if_pos hpow
    cases hnone.symm.trans hrule
  · cases hrule
  · rfl
  · cases hrule
  · cases hrule

/-- The laws keep the value, but for powers with the symbol in the exponent. -/
theorem Law.value_eq (hI : I.IsDifferential δ) {e r : Expr} (h : Law e r)
    (hfit : Differentiation.power.fit? e ≠ some Power.generalExponent) : I.value e = I.value r := by
  have hzero : I.value (.real .zero) = 0 := (value_real I _).trans hI.literal_zero
  have hone : I.value (.real .one) = 1 := (value_real I _).trans hI.literal_one
  cases h with
  | constant hmentions =>
    rw [hI.value_diff, hI.derivation_value (mentions_eq_false_iff.mp hmentions), hzero]
  | @symbol x =>
    have hsymbol : I.value (.var x) = I.symbol x := value_node I _ _
    rw [hI.value_diff, hsymbol, hI.derivation_symbol_self, hone]
  | negate => rw [hI.value_diff, value_neg, value_neg, hI.value_diff, map_neg]
  | add => rw [hI.value_diff, value_add, value_add, hI.value_diff, hI.value_diff, map_add]
  | sub => rw [hI.value_diff, value_sub, value_sub, hI.value_diff, hI.value_diff, map_sub]
  | product =>
    rw [hI.value_diff, value_mul, productRule, value_add, value_mul, value_mul, hI.value_diff,
      hI.value_diff, Derivation.leibniz, smul_eq_mul, smul_eq_mul]
  | quotient =>
    rw [hI.value_diff, value_div, hI.derivation_div, quotientRule, value_div, value_sub, value_mul,
      value_mul, hI.value_diff, hI.value_diff, value_pow, value_real]
  | power hmentions =>
    have hconstant := hI.derivation_value (mentions_eq_false_iff.mp hmentions)
    rw [hI.value_diff, value_pow, hI.derivation_power _ _ _ hconstant, powerRule, value_mul,
      value_mul, value_pow, value_sub, hone, hI.value_diff]
  | exponential hmentions =>
    exact absurd (power_fit?_eq_generalExponent_iff.mpr ⟨_, _, _, rfl, hmentions⟩) hfit
  | exp => rw [hI.value_diff, value_exp, hI.derivation_exp, value_mul, value_exp, hI.value_diff]
  | log =>
    rw [hI.value_diff, value_log, hI.derivation_log, value_mul, value_div, hone, hI.value_diff,
      one_div, div_eq_inv_mul]
  | sin => rw [hI.value_diff, value_sin, hI.derivation_sin, value_mul, value_cos, hI.value_diff]
  | cos =>
    rw [hI.value_diff, value_cos, hI.derivation_cos, value_mul, value_neg, value_sin,
      hI.value_diff]

end Differentiation

/-- The step of the event differentiated a power with the symbol in its exponent. -/
def Event.DerivesExponential (event : Event) : Prop :=
  event.period? = none ∧ event.step.rule = Differentiation.power.name ∧
    Differentiation.power.fit? event.node = some Differentiation.Power.generalExponent

instance : DecidablePred Event.DerivesExponential := fun event =>
  inferInstanceAs (Decidable (event.period? = none ∧ _ ∧ _))

namespace Engine

open Differentiation

theorem stepsWithin_value (hI : I.IsDifferential δ) (configuration : Configuration) :
    (Engine.new Differentiation.rules configuration).StepsWithin (¬ ·.DerivesExponential)
      fun e r => I.value e = I.value r := by
  intro path e r s t redex he hchoose hreduce hevent
  obtain ⟨hredex, _⟩ := choose_eq_some hchoose
  obtain ⟨hget, hfit, _⟩ := getElem?_of_redex? hredex
  have hrule : redex.ranked.rule ∈ Differentiation.rules :=
    tries_new_iff.mp ⟨redex.ranked, List.mem_of_getElem? hget, rfl⟩
  obtain ⟨r', hr', hlaw⟩ := follows_of_mem hrule he hfit
  obtain rfl := Except.ok.inj (hreduce.symm.trans hr')
  refine ⟨hlaw.wellFormed he, hlaw.value_eq hI fun hpower => hevent ⟨rfl, ?_, hpower⟩⟩
  exact congrArg Rule.name (eq_power_of_fit? hrule hfit hpower)

/-- Differentiation keeps the value in every field with derivations. A run of the rules of
differentiation that returns, and that never differentiated a power with the symbol in its exponent,
returns an expression of the same value. -/
theorem differentiation_preserves_value (hI : I.IsDifferential δ) (configuration : Configuration)
    {e : Expr} (he : e.WellFormed) {budget : Nat} {trace : Trace} {s : Session}
    (h : (Engine.new Differentiation.rules configuration).runWithin budget e = .done trace s)
    (hevents : ∀ event ∈ s.events, ¬ event.DerivesExponential) :
    I.value trace.expression = I.value e :=
  (related_of_events I.isPrecongruence_value (stepsWithin_value hI configuration) he h
    hevents).symm

/-- In `(log x / (y ^ 2)')'` the inner derivative is taken with regard to `y` and the outer one with
regard to `x`. -/
theorem differentiation_preserves_value_quotient :
    (Expr.diff "x" (.div (.log (.var "x")) (.diff "y" (.pow (.var "y") (.real .two))))).WellFormed ∧
    ∃ trace s, (Engine.new Differentiation.rules {}).runWithin 20
        (.diff "x" (.div (.log (.var "x")) (.diff "y" (.pow (.var "y") (.real .two))))) =
          .done trace s ∧
      trace.steps.length = 6 ∧ (∀ event ∈ s.events, ¬ event.DerivesExponential) ∧
      Interpretation.smooth.value trace.expression = Interpretation.smooth.value
        (.diff "x" (.div (.log (.var "x")) (.diff "y" (.pow (.var "y") (.real .two))))) := by
  have he : (Expr.diff "x" (.div (.log (.var "x"))
      (.diff "y" (.pow (.var "y") (.real .two))))).WellFormed := by
    simp [WellFormed, AllWellFormed, Kind.arity]
  obtain ⟨trace, s, hrun, hlength, hevents⟩ : ∃ trace s,
      (Engine.new Differentiation.rules {}).runWithin 20 (.diff "x" (.div (.log (.var "x"))
        (.diff "y" (.pow (.var "y") (.real .two))))) = .done trace s ∧
      trace.steps.length = 6 ∧ ∀ event ∈ s.events, ¬ event.DerivesExponential := by
    refine ⟨?trace, ?s, ?run, ?length, ?events⟩
    case run => with_unfolding_all rfl
    case length => with_unfolding_all rfl
    case events => with_unfolding_all decide
  exact ⟨he, trace, s, hrun, hlength, hevents,
    differentiation_preserves_value Interpretation.isDifferential_smooth {} he hrun hevents⟩

end Engine

end SymbolicCalculus
