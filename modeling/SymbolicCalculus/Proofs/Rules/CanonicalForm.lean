import SymbolicCalculus.Proofs.Reduction.Residual
import SymbolicCalculus.Proofs.Rules.Retirement

/-! # Canonical forms

What simplification leaves is canonical when no step was held back: all derivatives are computed,
all constants are literals, and chains lean to the left with their numbers in front. Each of these
is the work of a rule that would otherwise still match. That no derivative survives takes all rules
of differentiation together, from the innermost derivative outwards.
-/
namespace SymbolicCalculus

namespace Expr

structure CanonicalNode (u : Expr) : Prop where
  not_diff : ∀ x, u.kind ≠ .diff x
  literal : u.IsConstant → (∃ x, u = .real x) ∨ ∃ i, u = .integer i
  right_of_add : ∀ a b, u = .add a b → b.isNumber = false ∧ b.kind ≠ .add ∧ b.kind ≠ .sub
  right_of_mul : ∀ a b, u = .mul a b → b.isNumber = false ∧ b.kind ≠ .mul ∧ b.kind ≠ .div
  left_of_mul : ∀ a b, u = .mul a b → a.kind ≠ .div

structure Canonical (e : Expr) : Prop where
  wellFormed : e.WellFormed
  everywhere : e.Everywhere CanonicalNode

end Expr

namespace Engine

open SymbolicCalculus.Expr Simplification

variable {engine : Engine}

theorem Normal.canonicalNode (hengine : engine.IsStandard) {e : Expr} (he : e.WellFormed)
    (h : engine.Normal e) : e.CanonicalNode := by
  have hchain {c : Chain} {a b : Expr} (heq : e = .node c.link [a, b]) :
      b.isNumber = false ∧ b.kind ≠ c.link ∧ b.kind ≠ c.inverse ∧ ¬ Hoistable c a := by
    subst heq
    have hb := hengine.settled he h
    have hkind := not_or.mp hb.kind_ne
    exact ⟨hb.not_number, hkind.1, hkind.2, hengine.not_hoistable h⟩
  refine ⟨fun x hx => ?_, fun hconstant => ?_, fun a b heq => ?_, fun a b heq => ?_,
    fun a b heq hdiv => ?_⟩
  · have hresolved := h.normalizes.resolved hengine he
    obtain ⟨kind, operands⟩ := e
    exact (resolved_node_iff.mp hresolved).2.1 x hx
  · obtain ⟨_, hnone⟩ := h
    have hfit : Simplification.evaluate.fit? _ = none :=
      hengine.fit?_of_contract? hnone (by simp [standardRules, Simplification.rules])
    have hclosed := isOpen_eq_false_iff.mpr hconstant
    exact he.literal_of_isNumber (isNumber_of_evaluate_fit? hfit hclosed)
  · obtain ⟨hnumber, hadd, hsub, _⟩ := hchain (c := .sum) heq
    exact ⟨hnumber, hadd, hsub⟩
  · obtain ⟨hnumber, hmul, hdiv, _⟩ := hchain (c := .product) heq
    exact ⟨hnumber, hmul, hdiv⟩
  · obtain ⟨_, _, _, hquotient⟩ := hchain (c := .product) heq
    exact hquotient ⟨rfl, hdiv⟩

theorem Normal.canonical (hengine : engine.IsStandard) {e : Expr} (he : e.WellFormed)
    (h : engine.Normal e) : e.Canonical := by
  refine ⟨he, everywhere_of_inherited (Q := fun u => u.WellFormed ∧ engine.Normal u) ?_ ?_ ⟨he, h⟩⟩
  · rintro kind operands ⟨hwell, hnormal⟩ u hu
    exact ⟨(wellFormed_node_iff.mp hwell).2 u hu, (normal_node_iff.mp hnormal).1 u hu⟩
  · rintro u ⟨hwell, hnormal⟩
    exact hnormal.canonicalNode hengine hwell

/-- Every complete result of simplification is in canonical form. -/
theorem complete_result_canonical {e : Expr} (he : e.WellFormed) {budget : Nat} {trace : Trace}
    {s : Session} (h : (standardEngine []).runWithin budget e = .done trace s)
    (hcomplete : trace.isComplete = true) : trace.expression.Canonical := by
  rw [standardEngine_nil] at h
  have hkeeps := runWithin_keeps (isSafe_new (fun _ hrule => hrule) {}) budget he
  rw [h] at hkeeps
  exact (normal_of_isComplete h hcomplete).canonical (isStandard_new {}) hkeeps

/-- The derivative of `x * (x * x)'`, where both derivatives are to be computed. -/
theorem complete_result_canonical_nested :
    (Expr.diff "x" (.mul (.var "x") (.diff "x" (.mul (.var "x") (.var "x"))))).WellFormed ∧
    ∃ trace s, (standardEngine []).runWithin 20
        (.diff "x" (.mul (.var "x") (.diff "x" (.mul (.var "x") (.var "x"))))) = .done trace s ∧
      trace.isComplete = true ∧
      trace.expression =
        .add (.add (.var "x") (.mul (.real .two) (.var "x"))) (.var "x") ∧
      trace.expression.Canonical := by
  have he : (Expr.diff "x" (.mul (.var "x") (.diff "x" (.mul (.var "x") (.var "x"))))).WellFormed :=
    by simp [WellFormed, AllWellFormed, Kind.arity]
  obtain ⟨trace, s, hrun, hcomplete, hexpression⟩ : ∃ trace s, (standardEngine []).runWithin 20
      (.diff "x" (.mul (.var "x") (.diff "x" (.mul (.var "x") (.var "x"))))) = .done trace s ∧
        trace.isComplete = true ∧ trace.expression =
          .add (.add (.var "x") (.mul (.real .two) (.var "x"))) (.var "x") := by
    with_unfolding_all exact ⟨_, _, rfl, rfl, rfl⟩
  exact ⟨he, trace, s, hrun, hcomplete, hexpression, complete_result_canonical he hrun hcomplete⟩

end Engine

end SymbolicCalculus
