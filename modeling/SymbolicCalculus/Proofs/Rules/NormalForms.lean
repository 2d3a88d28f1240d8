import SymbolicCalculus.Proofs.Reduction.Innermost
import SymbolicCalculus.Proofs.Rules.Simpler

/-! # Normal forms of the standard rules

An engine is standard if it tries the standard rules and no others. It reduces every well-formed
node by one of the laws, leaves no derivative alone whose operand has been resolved, and keeps a
number or another link out of the right operand of a link.
-/
namespace SymbolicCalculus

open SymbolicCalculus.Expr

namespace Simplification

theorem isNumber_of_evaluate_fit? {e : Expr} (h : evaluate.fit? e = none)
    (hclosed : e.isOpen = false) : e.isNumber = true := by
  rw [evaluate_eq, Rule.ofStep_fit?_eq_none_iff, evaluateStep] at h
  split at h
  · rename_i hmatch
    simpa [hclosed] using hmatch
  · cases h

theorem isOpen_numbers {c : Chain} {u v : Expr} (he : (node c.link [u, v]).WellFormed)
    (hu : u.isNumber = true) (hv : v.isNumber = true) : (node c.link [u, v]).isOpen = false := by
  obtain ⟨_, hwellu, hwellv⟩ := wellFormed_binary_iff.mp he
  rw [isOpen_node]
  cases c <;>
    simp [hwellu.isOpen_of_isNumber hu, hwellv.isOpen_of_isNumber hv, Chain.link, Kind.isSymbol]

theorem Law.not_diff {x : String} {u r : Expr} : ¬ Law (.diff x u) r := by
  intro h
  generalize heq : Expr.diff x u = e at h
  cases h with
  | evaluate _ hclosed _ =>
    subst heq
    simp [isOpen_node, Kind.isSymbol] at hclosed
  | identity hcase =>
    subst heq
    cases hcase
  | link | inverse => simp at heq

theorem reorderOperands_of_fit? {c : Chain} {u v : Expr}
    (h : reorder.fit? (.node c.link [u, v]) = none) : reorderOperands c.link u v = none := by
  rw [reorder_eq, Rule.ofStep_fit?_eq_none_iff, succeeding, Option.map_eq_none_iff] at h
  cases c <;> exact h

theorem continues_of_leftAlign_fit? {c : Chain} {u v : Expr}
    (h : leftAlign.fit? (.node c.link [u, v]) = none) : continues c.link v = false := by
  rw [leftAlign_eq, Rule.ofStep_fit?_eq_none_iff] at h
  have halign : alignOperands "LeftAlign" c.link u v = none := by
    cases c <;> exact h
  unfold alignOperands at halign
  split at halign
  · cases halign
  · rename_i hcontinues
    simpa using hcontinues

end Simplification

namespace Differentiation

theorem Law.not_resolved {e r : Expr} (h : Law e r) : ¬ e.Resolved := by
  intro he
  cases h <;> exact (resolved_node_iff.mp he).2.1 _ rfl

theorem onDerivative_fit?_eq_none_iff {name : String} {weight : Int}
    {case : String → Expr → Option (Fit × Except Error Expr)} {x : String} {u : Expr} :
    (Rule.ofStep name weight (onDerivative case)).fit? (.diff x u) = none ↔ case x u = none :=
  Rule.ofStep_fit?_eq_none_iff

theorem mentions_leaf {kind : Kind} {operands : List Expr} {x : String}
    (hu : (node kind operands).WellFormed) (hkind : kind.arity = 0)
    (h : (node kind operands).mentions (some x) = true) : kind = .var x := by
  obtain rfl := hu.operands_nil hkind
  rw [mentions_node] at h
  cases kind <;> simp_all [variableName?, Expr.kind, Kind.arity]

theorem powerCase_pow (x : String) (b n : Expr) : powerCase x (.pow b n) ≠ none := by
  simp only [powerCase, variableName?, Expr.kind, reduceCtorEq, if_false]
  split <;> exact Option.some_ne_none _

/-- Some rule applies to every derivative of a resolved expression. -/
theorem exists_fit {u : Expr} (hu : u.Resolved) (x : String) :
    ∃ rule ∈ rules, rule.fit? (.diff x u) ≠ none := by
  obtain ⟨kind, operands⟩ := u
  by_cases hmentions : (node kind operands).mentions (some x) = true
  · cases kind with
    | var | real | integer =>
      cases mentions_leaf hu.wellFormed rfl hmentions
      all_goals
        refine ⟨power, by simp [rules], ?_⟩
        rw [power_eq, ne_eq, onDerivative_fit?_eq_none_iff]
        simp [powerCase, variableName?, Expr.kind]
    | negate | add | sub | mul | div => exact ⟨arithmetic, by simp [rules], Option.some_ne_none _⟩
    | exp | log => exact ⟨expLog, by simp [rules], Option.some_ne_none _⟩
    | sin | cos => exact ⟨trig, by simp [rules], Option.some_ne_none _⟩
    | diff => exact absurd rfl ((resolved_node_iff.mp hu).2.1 _)
    | pow =>
      obtain ⟨b, n, rfl, _⟩ := hu.wellFormed.operands_pair rfl
      refine ⟨power, by simp [rules], ?_⟩
      rw [power_eq, ne_eq, onDerivative_fit?_eq_none_iff]
      exact powerCase_pow x b n
  · refine ⟨constant, by simp [rules], ?_⟩
    rw [constant_eq, ne_eq, onDerivative_fit?_eq_none_iff]
    simp [constantCase, hmentions]

end Differentiation

namespace Engine

variable {engine : Engine}

/-- An engine with all rules of differentiation leaves no derivative of a resolved expression
alone. -/
theorem exists_contract?_diff (hengine : ∀ rule ∈ Differentiation.rules, engine.Tries rule)
    {u : Expr} (hu : u.Resolved) (x : String) :
    ∃ outcome, engine.contract? (.diff x u) = some outcome := by
  cases hcontract : engine.contract? (.diff x u) with
  | none =>
    obtain ⟨rule, hrule, hfit⟩ := Differentiation.exists_fit hu x
    exact absurd (fit?_of_contract?_none hcontract (hengine rule hrule)) hfit
  | some outcome => exact ⟨outcome, rfl⟩

def IsStandard (engine : Engine) : Prop := ∀ rule, engine.Tries rule ↔ rule ∈ standardRules

theorem isStandard_new (configuration : Configuration) :
    (Engine.new standardRules configuration).IsStandard :=
  fun _ => tries_new_iff

namespace IsStandard

theorem law (hengine : engine.IsStandard) {e : Expr} {outcome : Except Error Expr}
    (he : e.WellFormed) (h : engine.contract? e = some outcome) :
    ∃ r, outcome = .ok r ∧ (Simplification.Law e r ∨ Differentiation.Law e r) := by
  obtain ⟨rule, fit, htries, hfit, rfl⟩ := exists_rule_of_contract? h
  rcases List.mem_append.mp ((hengine rule).mp htries) with hmem | hmem
  · obtain ⟨r, hr, hlaw⟩ := Simplification.follows_of_mem hmem he hfit
    exact ⟨r, hr, .inl hlaw⟩
  · obtain ⟨r, hr, hlaw⟩ := Differentiation.follows_of_mem hmem he hfit
    exact ⟨r, hr, .inr hlaw⟩

theorem law_of_resolved (hengine : engine.IsStandard) {e : Expr} {outcome : Except Error Expr}
    (he : e.Resolved) (h : engine.contract? e = some outcome) :
    ∃ r, outcome = .ok r ∧ Simplification.Law e r := by
  obtain ⟨r, hr, hlaw⟩ := hengine.law he.wellFormed h
  exact ⟨r, hr, hlaw.resolve_right fun hdiff => hdiff.not_resolved he⟩

theorem fit?_of_contract? (hengine : engine.IsStandard) {e : Expr} (h : engine.contract? e = none)
    {rule : Rule} (hrule : rule ∈ standardRules) : rule.fit? e = none :=
  fit?_of_contract?_none h ((hengine rule).mpr hrule)

theorem law_of_diff (hengine : engine.IsStandard) {x : String} {u : Expr} (hu : u.Resolved) :
    ∃ r, engine.contract? (.diff x u) = some (.ok r) ∧ Differentiation.Law (.diff x u) r := by
  have he : (Expr.diff x u).WellFormed := wellFormed_unary_iff.mpr ⟨rfl, hu.wellFormed⟩
  obtain ⟨outcome, hcontract⟩ := exists_contract?_diff
    (fun rule hrule => (hengine rule).mpr (List.mem_append_right _ hrule)) hu x
  obtain ⟨r, rfl, hlaw⟩ := hengine.law he hcontract
  exact ⟨r, hcontract, hlaw.resolve_left Simplification.Law.not_diff⟩

open Simplification in
/-- The right operand of a link that is left alone is neither a number nor part of the chain. -/
theorem right_of_link (hengine : engine.IsStandard) {c : Chain} {u v : Expr}
    (he : (node c.link [u, v]).WellFormed) (h : engine.contract? (.node c.link [u, v]) = none) :
    v.isNumber = false ∧ continues c.link v = false := by
  have hfit {rule : Rule} (hrule : rule ∈ Simplification.rules) :
      rule.fit? (.node c.link [u, v]) = none :=
    hengine.fit?_of_contract? h (List.mem_append_left _ hrule)
  constructor
  · rw [← Bool.not_eq_true]
    intro hv
    by_cases hu : u.isNumber = true
    · have hnumber := isNumber_of_evaluate_fit? (hfit (by simp [Simplification.rules]))
        (isOpen_numbers he hu hv)
      simp at hnumber
    · have hreorder := reorderOperands_of_fit? (hfit (by simp [Simplification.rules]))
      simp [reorderOperands, hu, hv] at hreorder
  · exact continues_of_leftAlign_fit? (hfit (by simp [Simplification.rules]))

end IsStandard

end Engine

end SymbolicCalculus
