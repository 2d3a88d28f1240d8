import SymbolicCalculus.Proofs.Reduction.Ranking
import SymbolicCalculus.Proofs.Reduction.Settling
import SymbolicCalculus.Proofs.Rules.Simpler

/-! # Standard rules never fail

A standard rule splits the node it has matched once more before it reduces it, and the operands of
the node after it. On a well-formed node every split works out, evaluation meets nothing without a
value, and what the rule makes of the node is well formed again. So no selection of standard rules
makes a run fail, whatever their order and the settings of the engine are.
-/
namespace SymbolicCalculus

open SymbolicCalculus.Expr

namespace Differentiation

theorem Law.wellFormed {e r : Expr} (h : Law e r) (he : e.WellFormed) : r.WellFormed := by
  cases h with
  | constant | symbol => exact wellFormed_real _
  | negate | exp | log | sin | cos | add | sub | product | quotient | power | exponential =>
    simp_all [wellFormed_unary_iff, wellFormed_binary_iff, wellFormed_real, Kind.arity,
      productRule, quotientRule, powerRule, exponentialRule]

end Differentiation

def Rule.IsSafe (rule : Rule) : Prop := rule.Follows fun _ r => r.WellFormed

theorem isSafe_of_mem_standardRules {rule : Rule} (h : rule ∈ standardRules) : rule.IsSafe := by
  intro e fit he hfit
  rcases List.mem_append.mp h with hmem | hmem
  · obtain ⟨r, hr, hlaw⟩ := Simplification.follows_of_mem hmem he hfit
    exact ⟨r, hr, (hlaw.simplerThan he).wellFormed⟩
  · obtain ⟨r, hr, hlaw⟩ := Differentiation.follows_of_mem hmem he hfit
    exact ⟨r, hr, hlaw.wellFormed he⟩

def Outcome.Keeps {α : Type} (P : α → Prop) : Outcome α → Prop
  | .done value _ => P value
  | .failed _ _ => False
  | .exhausted => True

namespace Engine

variable {engine : Engine}

def IsSafe (engine : Engine) : Prop := ∀ ⦃rule : Rule⦄, engine.Tries rule → rule.IsSafe

theorem isSafe_new {rules : List Rule} (hrules : ∀ rule ∈ rules, rule ∈ standardRules)
    (configuration : Configuration) : (Engine.new rules configuration).IsSafe :=
  fun rule htries => isSafe_of_mem_standardRules (hrules rule (tries_new_iff.mp htries))

/-- A law that all rules follow gives the outcome of a chosen redex. -/
theorem reduce_of_choose {law : Expr → Expr → Prop}
    (hrules : ∀ ⦃rule : Rule⦄, engine.Tries rule → rule.Follows law) {path : List Nat} {e : Expr}
    {s t : Session} {redex : Redex} (he : e.WellFormed)
    (h : engine.choose path e s = (some redex, t)) :
    ∃ r, redex.ranked.rule.reduce e redex.fit = .ok r ∧ law e r := by
  obtain ⟨hredex, _⟩ := choose_eq_some h
  obtain ⟨front, back, hranked, hfit, _⟩ := redex?_eq_some_iff.mp hredex
  have htries : engine.Tries redex.ranked.rule := ⟨redex.ranked, by simp [hranked], rfl⟩
  exact hrules htries he hfit

theorem settleOperands_keeps {settleAt : List Nat → Expr → Session → Outcome (Bool × Expr)}
    (hsettle : ∀ path e s, e.WellFormed → (settleAt path e s).Keeps (·.2.WellFormed))
    (path : List Nat) (i : Nat) {es : List Expr} (hes : ∀ u ∈ es, u.WellFormed) (s : Session) :
    (settleOperands settleAt path i es s).Keeps fun value =>
      value.2.length = es.length ∧ ∀ u ∈ value.2, u.WellFormed := by
  induction es generalizing i s with
  | nil => simp [settleOperands, Outcome.Keeps]
  | cons e es ih =>
    rw [List.forall_mem_cons] at hes
    have hfirst := hsettle (path ++ [i]) e s hes.1
    rw [settleOperands]
    cases hresult : settleAt (path ++ [i]) e s with
    | failed | exhausted =>
      rw [hresult] at hfirst
      exact hfirst
    | done value t =>
      rw [hresult] at hfirst
      have hlater := ih (i + 1) hes.2 t
      dsimp only
      cases hrest : settleOperands settleAt path (i + 1) es t with
      | failed | exhausted =>
        rw [hrest] at hlater
        exact hlater
      | done values u =>
        rw [hrest] at hlater
        obtain ⟨hlength, hwell⟩ := hlater
        exact ⟨congrArg (· + 1) hlength, List.forall_mem_cons.mpr ⟨hfirst, hwell⟩⟩

theorem settle_keeps (hsafe : engine.IsSafe) (budget : Nat) (path : List Nat) (changed : Bool)
    {e : Expr} (he : e.WellFormed) (s : Session) :
    (engine.settle budget path changed e s).Keeps (·.2.WellFormed) := by
  induction budget generalizing path changed e s with
  | zero => exact trivial
  | succ budget ih =>
    obtain ⟨kind, es⟩ := e
    obtain ⟨hlength, hes⟩ := wellFormed_node_iff.mp he
    have hbelow := settleOperands_keeps (fun path e s he => ih path false he s) path 0 hes s
    rw [settle]
    cases hresult : settleOperands (engine.settle budget · false) path 0 es s with
    | failed | exhausted =>
      rw [hresult] at hbelow
      exact hbelow
    | done value t =>
      rw [hresult] at hbelow
      have hnode : (node kind value.2).WellFormed :=
        wellFormed_node_iff.mpr ⟨hbelow.1.trans hlength, hbelow.2⟩
      dsimp only
      split
      · rename_i redex t' hchoose
        obtain ⟨r, hr, hwell⟩ := reduce_of_choose hsafe hnode hchoose
        rw [hr]
        exact ih path true hwell t'
      · split
        · exact ih path true hnode _
        · exact hnode

theorem runWithin_keeps (hsafe : engine.IsSafe) (budget : Nat) {e : Expr} (he : e.WellFormed) :
    (engine.runWithin budget e).Keeps (·.expression.WellFormed) := by
  have hsettle := settle_keeps hsafe budget [] false he (.start engine.configuration)
  rw [runWithin]
  split <;> simp_all [Outcome.Keeps]

/-- A run with any selection of the standard rules, in any order and with repetitions, does not fail
on a well-formed expression. If it returns, it returns a trace with a well-formed expression. -/
theorem standard_selection_never_fails {rules : List Rule}
    (hrules : ∀ rule ∈ rules, rule ∈ standardRules) (configuration : Configuration) {e : Expr}
    (he : e.WellFormed) (budget : Nat) :
    (∀ error s, (Engine.new rules configuration).runWithin budget e ≠ .failed error s) ∧
    (∀ trace s, (Engine.new rules configuration).runWithin budget e = .done trace s →
      trace.expression.WellFormed) := by
  have hkeeps := runWithin_keeps (isSafe_new hrules configuration) budget he
  constructor
  · intro error s hfailed
    rw [hfailed] at hkeeps
    exact hkeeps
  · intro trace s hdone
    rw [hdone] at hkeeps
    exact hkeeps

/-- Three rules, one of them twice, turn `a + (x + d/dy sin y) - x` into `a + 0 + cos y * d/dy y`:
each of them splits an operand of the node it has matched. -/
theorem standard_selection_never_fails_cancel :
    ∃ trace s, (Engine.new [Simplification.cancel, Differentiation.trig, Simplification.leftAlign,
        Simplification.cancel] {}).runWithin 8
          (.sub (.add (.var "a") (.add (.var "x") (.diff "y" (.sin (.var "y"))))) (.var "x")) =
        .done trace s ∧
      trace.steps.map Step.rule = ["DiffTrig", "LeftAlign", "Cancel"] ∧
      trace.expression = .add (.add (.var "a") (.real .zero))
        (.mul (.cos (.var "y")) (.diff "y" (.var "y"))) ∧
      trace.expression.WellFormed := by
  have he : (Expr.sub (.add (.var "a") (.add (.var "x") (.diff "y" (.sin (.var "y")))))
      (.var "x")).WellFormed := by
    simp [WellFormed, AllWellFormed, Kind.arity]
  have hrules : ∀ rule ∈ [Simplification.cancel, Differentiation.trig, Simplification.leftAlign,
      Simplification.cancel], rule ∈ standardRules := by
    simp [standardRules, Simplification.rules, Differentiation.rules]
  refine ⟨_, _, rfl, rfl, ?_, ?_⟩
  · rfl
  · exact (standard_selection_never_fails hrules {} he 8).2 _ _ rfl

end Engine

end SymbolicCalculus
