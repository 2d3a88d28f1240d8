import SymbolicCalculus.Proofs.Expr.Structure
import SymbolicCalculus.Proofs.Reduction.Residual

/-! # Running again

A pass takes one unit of the budget for every level of the tree, so an outcome is never deeper than
the budget it was found with. On a normal form the passes go down to the leaves and find nothing to
reduce. A run that held nothing back ends in a normal form; a second run on it returns at once, and
within the budget of the first.
-/
namespace SymbolicCalculus

namespace Engine

variable {engine : Engine}

theorem depth_of_settleOperands {settleAt : List Nat → Expr → Session → Outcome (Bool × Expr)}
    {bound : Nat} (hsettle : ∀ path e s changed e' t, settleAt path e s = .done (changed, e') t →
      e'.depth ≤ bound)
    {path : List Nat} {i : Nat} {es es' : List Expr} {s t : Session} {changed : Bool}
    (h : settleOperands settleAt path i es s = .done (changed, es') t) :
    ∀ u ∈ es', u.depth ≤ bound := by
  induction es generalizing i s changed es' with
  | nil =>
    cases h
    simp
  | cons e es ih =>
    obtain ⟨first, e₁, s₁, later, es₁, hfirst, hlater, hvalue⟩ := settleOperands_cons_eq_done h
    cases hvalue
    exact List.forall_mem_cons.mpr ⟨hsettle _ _ _ _ _ _ hfirst, ih hlater⟩

/-- What a budget is enough for is not deeper than the budget. -/
theorem depth_of_settle {budget : Nat} {path : List Nat} {changed changed' : Bool} {e e' : Expr}
    {s t : Session} (h : engine.settle budget path changed e s = .done (changed', e') t) :
    e'.depth ≤ budget := by
  induction budget generalizing path changed changed' e e' s t with
  | zero => cases h
  | succ budget ih =>
    obtain ⟨kind, es⟩ := e
    obtain ⟨below, fs, s₁, s₂, hoperands, hnext⟩ := settle_succ_eq_done h
    have hbelow := depth_of_settleOperands (fun _ _ _ _ _ _ hd => ih hd) hoperands
    rcases hnext with ⟨redex, r, _, _, hgo⟩ | ⟨_, ⟨_, hgo⟩ | ⟨_, hvalue, _⟩⟩
    · exact Nat.le_succ_of_le (ih hgo)
    · exact Nat.le_succ_of_le (ih hgo)
    · cases hvalue
      exact Expr.depth_node_le_iff.mpr hbelow

theorem settleOperands_self {settleAt : List Nat → Expr → Session → Outcome (Bool × Expr)}
    {es : List Expr} (h : ∀ u ∈ es, ∀ path s, settleAt path u s = .done (false, u) s)
    (path : List Nat) (i : Nat) (s : Session) :
    settleOperands settleAt path i es s = .done (false, es) s := by
  induction es generalizing i with
  | nil => rfl
  | cons e es ih =>
    rw [List.forall_mem_cons] at h
    simp [settleOperands, h.1, ih h.2]

/-- Any budget that reaches the leaves of a normal form is enough for it. -/
theorem Normal.settle_eq {e : Expr} (h : engine.Normal e) {budget : Nat} (hdepth : e.depth ≤ budget)
    (path : List Nat) (changed : Bool) (s : Session) :
    engine.settle budget path changed e s = .done (changed, e) s := by
  induction budget generalizing e path changed s with
  | zero =>
    obtain ⟨kind, operands⟩ := e
    rw [Expr.depth_node] at hdepth
    omega
  | succ budget ih =>
    obtain ⟨kind, operands⟩ := e
    obtain ⟨hoperands, hnone⟩ := normal_node_iff.mp h
    have hbelow := Expr.depth_node_le_iff.mp hdepth
    have hself : settleOperands (engine.settle budget · false) path 0 operands s =
        .done (false, operands) s :=
      settleOperands_self (fun u hu path s => ih (hoperands u hu) (hbelow u hu) path false s) path 0
        s
    simp [settle, hself, choose_of_contract?_none hnone path s]

theorem depth_of_runWithin {budget : Nat} {e : Expr} {trace : Trace} {s : Session}
    (h : engine.runWithin budget e = .done trace s) : trace.expression.depth ≤ budget := by
  unfold runWithin at h
  split at h
  · rename_i hsettle
    cases h
    exact depth_of_settle hsettle
  · cases h
  · cases h

/-- Reduction is idempotent. A run that held nothing back is repeated on its outcome by the same
engine, within the same budget or any larger one: it returns the outcome unchanged, without a step
and without holding anything back. -/
theorem complete_run_idempotent (rules : List Rule) (configuration : Configuration) {e : Expr}
    {budget : Nat} {trace : Trace} {s : Session}
    (h : (Engine.new rules configuration).runWithin budget e = .done trace s)
    (hcomplete : trace.isComplete = true) {budget' : Nat} (hbudget : budget ≤ budget') :
    (Engine.new rules configuration).runWithin budget' trace.expression =
      .done ⟨false, trace.expression, [], []⟩ (.start configuration) := by
  have hdepth : trace.expression.depth ≤ budget' := Nat.le_trans (depth_of_runWithin h) hbudget
  have hsettle : (Engine.new rules configuration).settle budget' [] false trace.expression
      (.start configuration) = .done (false, trace.expression) (.start configuration) :=
    (normal_of_isComplete h hcomplete).settle_eq hdepth _ _ _
  have hconfiguration : (Engine.new rules configuration).configuration = configuration := rfl
  rw [runWithin, hconfiguration, hsettle]
  rfl

/-- A sum of equal variables is doubled below a sine once its variables have been renamed. A second
run leaves the sine alone. -/
theorem complete_run_idempotent_double :
    ∃ trace s, (Engine.new [Tailored.rename "Rename" .one "x" "y", Tailored.double "Double" .two]
        {}).runWithin 9 (.sin (.add (.var "x") (.var "y"))) = .done trace s ∧
      trace.changed = true ∧ trace.expression = .sin (.mul (.real .two) (.var "y")) ∧
      (Engine.new [Tailored.rename "Rename" .one "x" "y", Tailored.double "Double" .two]
        {}).runWithin 9 trace.expression =
          .done ⟨false, trace.expression, [], []⟩ (.start {}) := by
  obtain ⟨trace, s, hrun, hcomplete, hchanged, hexpression⟩ : ∃ trace s,
      (Engine.new [Tailored.rename "Rename" .one "x" "y", Tailored.double "Double" .two]
        {}).runWithin 9 (.sin (.add (.var "x") (.var "y"))) = .done trace s ∧
      trace.isComplete = true ∧ trace.changed = true ∧
      trace.expression = .sin (.mul (.real .two) (.var "y")) := ⟨_, _, rfl, rfl, rfl, rfl⟩
  exact ⟨trace, s, hrun, hchanged, hexpression,
    complete_run_idempotent _ {} hrun hcomplete (Nat.le_refl 9)⟩

end Engine

end SymbolicCalculus
