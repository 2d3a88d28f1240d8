import SymbolicCalculus.Proofs.Reduction.CompleteRun
import SymbolicCalculus.Proofs.Rules.Congruence
import SymbolicCalculus.Proofs.Rules.Derivative
import SymbolicCalculus.Proofs.Rules.Turns

/-! # No symbols are invented

The standard rules copy operands, rebuild chains and mark new derivatives, but every variable and
every derivative in what they make of a node is already in the node. A run keeps to the symbols of
its expression therefore. In particular, simplifying an operand does not bring in the symbol of the
derivative around it, so a derivative of an expression without the symbol comes out as zero.
-/
namespace SymbolicCalculus

open SymbolicCalculus.Expr

namespace Expr

/-- A node has the symbols that its operands have, and itself if it is one. -/
theorem symbols_node_subset (kind : Kind) {es fs : List Expr}
    (h : List.Forall₂ (fun e f => f.symbols ⊆ e.symbols) es fs) :
    (node kind fs).symbols ⊆ (node kind es).symbols := by
  have hall : (fs.map symbols).flatten ⊆ (es.map symbols).flatten := by
    induction h with
    | nil => exact List.Subset.refl _
    | cons hfirst _ ih =>
      exact List.append_subset.mpr ⟨List.subset_append_of_subset_left _ hfirst,
        List.subset_append_of_subset_right _ ih⟩
  rw [symbols_node, symbols_node]
  exact List.append_subset.mpr ⟨List.subset_append_left _ _,
    List.subset_append_of_subset_right _ hall⟩

theorem isPrecongruence_symbols : IsPrecongruence fun e f => f.symbols ⊆ e.symbols where
  trans hef hfg := List.Subset.trans hfg hef
  node kind _ _ h := symbols_node_subset kind h

end Expr

/-- The laws of differentiation bring in no symbols: new derivatives are taken with regard to the
symbol of the old one. -/
theorem Differentiation.Law.symbols_subset {e r : Expr} (h : Law e r) :
    r.symbols ⊆ e.symbols := by
  cases h with
  | constant | symbol => simp [symbols_node, Kind.isSymbol]
  | negate | exp | log | sin | cos | add | sub | product | quotient | power | exponential =>
    simp [symbols_node, Kind.isSymbol, productRule, quotientRule, powerRule, exponentialRule]

namespace Engine

variable {configuration : Configuration}

theorem staysWithin_symbols {rules : List Rule} (hrules : ∀ rule ∈ rules, rule ∈ standardRules)
    (configuration : Configuration) :
    (Engine.new rules configuration).StaysWithin fun e r => r.symbols ⊆ e.symbols := by
  intro rule htries e fit he hfit
  rcases List.mem_append.mp (hrules rule (tries_new_iff.mp htries)) with hmem | hmem
  · obtain ⟨r, hr, hlaw⟩ := Simplification.follows_of_mem hmem he hfit
    have hsimpler := hlaw.simplerThan he
    exact ⟨r, hr, hsimpler.wellFormed, hsimpler.symbols⟩
  · obtain ⟨r, hr, hlaw⟩ := Differentiation.follows_of_mem hmem he hfit
    exact ⟨r, hr, hlaw.wellFormed he, hlaw.symbols_subset⟩

/-- Among the standard rules, evaluation alone is tried before the rule for constants, and it does
not match a derivative. -/
theorem standard_contract?_diff_of_notMem {x : String} {u : Expr} (h : .var x ∉ u.symbols) :
    (standard configuration).contract? (.diff x u) = some (.ok (.real .zero)) := by
  have hevaluate : Simplification.evaluate.fit? (.diff x u) = none := by
    rw [Simplification.evaluate_eq, Rule.ofStep_fit?_eq_none_iff, Simplification.evaluateStep]
    simp [isOpen_node, Kind.isSymbol]
  rw [contract?, redex?, standard_rules, List.findSome?_cons, hevaluate, Option.map_none,
    List.findSome?_cons, Differentiation.constant_fit?_of_notMem h]
  exact congrArg some (Differentiation.constant_reduce_of_notMem h)

theorem Normalizes.eq_zero_of_diff {x : String} {u n : Expr} (hu : u.WellFormed)
    (hx : .var x ∉ u.symbols) (h : (standard configuration).Normalizes (.diff x u) n) :
    n = .real .zero := by
  have hoperand {w : Expr} (hw : (standard configuration).Normalizes u w) :
      .var x ∉ w.symbols := by
    have hstays := staysWithin_symbols (fun _ hrule => hrule) configuration
    exact fun hmem => hx ((hw.related isPrecongruence_symbols hstays hu).2 hmem)
  cases h with
  | rest hall hnone =>
    obtain _ | ⟨hw, _ | _⟩ := hall
    rw [standard_contract?_diff_of_notMem (hoperand hw)] at hnone
    cases hnone
  | reduce hall hsome hnext =>
    obtain _ | ⟨hw, _ | _⟩ := hall
    rw [standard_contract?_diff_of_notMem (hoperand hw)] at hsome
    cases hsome
    exact hnext.eq_of_normal (normal_real (isStandard_new configuration) _)

/-- The standard rules invent no symbols. A run with any selection of them returns an expression
whose variables and derivatives are, by name and by symbol, those of the expression that it began
with. A complete simplification of the derivative of an expression without the symbol returns the
literal zero. -/
theorem standard_rules_invent_no_symbols {e : Expr} (he : e.WellFormed) :
    (∀ rules : List Rule, (∀ rule ∈ rules, rule ∈ standardRules) →
      ∀ configuration budget trace s,
        (Engine.new rules configuration).runWithin budget e = .done trace s → ∀ x,
          (.var x ∈ trace.expression.symbols → .var x ∈ e.symbols) ∧
          (.diff x ∈ trace.expression.symbols → .diff x ∈ e.symbols)) ∧
    (∀ x, .var x ∉ e.symbols → ∀ budget trace s,
      (standardEngine []).runWithin budget (differentiate e x) = .done trace s →
        trace.isComplete = true → trace.expression = .real .zero) := by
  constructor
  · intro rules hrules configuration budget trace s hrun x
    have hsubset := related_of_runWithin isPrecongruence_symbols
      (staysWithin_symbols hrules configuration) he hrun
    exact ⟨fun hvar => hsubset hvar, fun hdiff => hsubset hdiff⟩
  · intro x hx budget trace s hrun hcomplete
    rw [standardEngine_nil] at hrun
    exact (normalizes_of_isComplete hrun hcomplete).eq_zero_of_diff he hx

/-- The rule for products copies variables and marks new derivatives. All the rules together take
the derivative with regard to another symbol to zero. -/
theorem standard_rules_invent_no_symbols_product :
    ∃ e, e = Expr.diff "y" (.mul (.var "y") (.var "z")) ∧ e.WellFormed ∧
      (∃ trace s, (Engine.new [Differentiation.arithmetic] {}).runWithin 9 e = .done trace s ∧
        trace.steps.length = 1 ∧ ∀ x,
          (.var x ∈ trace.expression.symbols → .var x ∈ e.symbols) ∧
          (.diff x ∈ trace.expression.symbols → .diff x ∈ e.symbols)) ∧
      .var "x" ∉ e.symbols ∧
      ∃ trace s, (standardEngine []).runWithin 20 (differentiate e "x") = .done trace s ∧
        trace.isComplete = true ∧ trace.expression = .real .zero := by
  have he : (Expr.diff "y" (.mul (.var "y") (.var "z"))).WellFormed := by
    simp [WellFormed, AllWellFormed, Kind.arity]
  have hx : .var "x" ∉ (Expr.diff "y" (.mul (.var "y") (.var "z"))).symbols := by
    simp [symbols_node, Kind.isSymbol]
  obtain ⟨hnames, hzero⟩ := standard_rules_invent_no_symbols he
  obtain ⟨trace, s, hrun, hsteps⟩ : ∃ trace s,
      (Engine.new [Differentiation.arithmetic] {}).runWithin 9
        (.diff "y" (.mul (.var "y") (.var "z"))) = .done trace s ∧ trace.steps.length = 1 := by
    with_unfolding_all exact ⟨_, _, rfl, rfl⟩
  obtain ⟨trace', s', hrun', hcomplete⟩ : ∃ trace s, (standardEngine []).runWithin 20
      (differentiate (.diff "y" (.mul (.var "y") (.var "z"))) "x") = .done trace s ∧
        trace.isComplete = true := by
    with_unfolding_all exact ⟨_, _, rfl, rfl⟩
  refine ⟨_, rfl, he, ⟨trace, s, hrun, hsteps, ?_⟩, hx, trace', s', hrun', hcomplete, ?_⟩
  · exact hnames _ (by simp [standardRules, Differentiation.rules]) _ _ _ _ hrun
  · exact hzero _ hx _ _ _ hrun' hcomplete

end Engine

end SymbolicCalculus
