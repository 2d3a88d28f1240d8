import SymbolicCalculus.Proofs.Reduction.Replay
import SymbolicCalculus.Proofs.Rules.NoSuppression

/-! # Simplifying a constant is evaluating it

An expression without variables and derivatives is folded from its leaves upwards. Every node that
is no literal is evaluated once, when its operands have become literals, and evaluation is tried
before any other rule. So the outcome is the value that evaluation in one go gives, and the steps
list the nodes in the order of a fold.
-/
namespace SymbolicCalculus

def Step.evaluation (path : List Nat) : Step := ⟨path, 0, "Evaluate"⟩

theorem Step.map_evaluation_below (i : Nat) (paths : List (List Nat)) :
    (paths.map (i :: ·)).map evaluation = (paths.map evaluation).map (below [i]) := by
  simp [evaluation, below]

namespace Expr

mutual

/-- The paths to the nodes that are no literals, operands before the node and from left to right. -/
def compoundPaths : Expr → List (List Nat)
  | node kind operands =>
    compoundPathsFrom 0 operands ++ if (node kind operands).isNumber then [] else [[]]

def compoundPathsFrom : Nat → List Expr → List (List Nat)
  | _, [] => []
  | i, e :: es => e.compoundPaths.map (i :: ·) ++ compoundPathsFrom (i + 1) es

end

theorem compoundPaths_ne_nil {e : Expr} (h : e.isNumber = false) : e.compoundPaths ≠ [] := by
  obtain ⟨kind, operands⟩ := e
  simp [compoundPaths, h]

def folded (e : Expr) : Expr :=
  match e.isNumber, e.evaluate with
  | false, .ok x => .real x
  | _, _ => e

theorem folded_of_isNumber {e : Expr} (h : e.isNumber = true) : e.folded = e := by
  simp [folded, h]

theorem folded_of_evaluate {e : Expr} {x : Binary64} (h : e.isNumber = false)
    (hx : e.evaluate = .ok x) : e.folded = .real x := by
  simp [folded, h, hx]

theorem evaluate_real (x : Binary64) : (real x).evaluate = .ok x := by
  rw [evaluate_node]
  rfl

theorem evaluate_folded (e : Expr) : e.folded.evaluate = e.evaluate := by
  unfold folded
  split
  · rename_i hx
    rw [evaluate_real, hx]
  · rfl

theorem WellFormed.isOpen_folded {e : Expr} (he : e.WellFormed) (hclosed : e.isOpen = false) :
    e.folded.isOpen = false := by
  cases hnumber : e.isNumber with
  | true => rwa [folded_of_isNumber hnumber]
  | false =>
    obtain ⟨x, hx⟩ := he.evaluate_eq_ok hclosed
    rw [folded_of_evaluate hnumber hx]
    simp [isOpen_node, Kind.isSymbol]

theorem evaluate_node_folded (kind : Kind) (operands : List Expr) :
    (node kind (operands.map folded)).evaluate = (node kind operands).evaluate := by
  have hoperands : (operands.map folded).map evaluate = operands.map evaluate := by
    rw [List.map_map]
    exact List.map_congr_left fun u _ => evaluate_folded u
  rw [evaluate_node, evaluate_node, hoperands]

end Expr

namespace Engine

open SymbolicCalculus.Expr Simplification

variable {configuration : Configuration}

/-- Evaluation is tried first. -/
theorem redex?_of_constant {e : Expr} (hnumber : e.isNumber = false) (hclosed : e.isOpen = false) :
    (standard configuration).redex? e = some ⟨⟨0, evaluate⟩, Evaluate.constant⟩ := by
  have hfit : evaluate.fit? e = some Evaluate.constant := if_neg (by simp [hnumber, hclosed])
  rw [redex?, standard_rules, List.findSome?_cons, hfit]
  rfl

theorem reduce_of_constant {e : Expr} {x : Binary64} (hnumber : e.isNumber = false)
    (hclosed : e.isOpen = false) (hx : e.evaluate = .ok x) :
    evaluate.reduce e Evaluate.constant = .ok (.real x) := by
  rw [evaluate_eq]
  apply Rule.ofStep_reduce
  simp [evaluateStep, hnumber, hclosed, hx]

theorem normal_of_isNumber {engine : Engine} (hengine : engine.IsStandard) {e : Expr}
    (he : e.WellFormed) (h : e.isNumber = true) : engine.Normal e := by
  obtain ⟨kind, operands⟩ := e
  obtain rfl := he.operands_nil (isNumber_arity h)
  exact normal_leaf hengine (isNumber_arity h)

mutual

/-- A constant is derived to its value by one evaluation for each node that is no literal. -/
theorem derives_folded {e : Expr} (he : e.WellFormed) (hclosed : e.isOpen = false) :
    (standard configuration).Derives e (e.compoundPaths.map .evaluation) e.folded := by
  match e with
  | node kind operands =>
    rw [compoundPaths, List.map_append]
    have hoperands := (wellFormed_node_iff.mp he).2
    have hbelow := isOpen_node_eq_false_iff.mp hclosed
    have hall := derivesAll_folded 0 hoperands hbelow.1
    have hfolded : (node kind (operands.map folded)).isOpen = false := by
      refine isOpen_node_eq_false_iff.mpr ⟨?_, hbelow.2⟩
      rw [List.forall_mem_map]
      exact fun u hu => (hoperands u hu).isOpen_folded (hbelow.1 u hu)
    cases hnumber : (node kind operands).isNumber with
    | true =>
      rw [folded_of_isNumber hnumber]
      obtain rfl := he.operands_nil (isNumber_arity hnumber)
      exact (normal_of_isNumber (isStandard_new configuration) he hnumber).derives
    | false =>
      obtain ⟨x, hx⟩ := he.evaluate_eq_ok hclosed
      rw [folded_of_evaluate hnumber hx]
      have hnode : (node kind (operands.map folded)).isNumber = false := hnumber
      have hvalue := (evaluate_node_folded kind operands).trans hx
      exact .reduce hall (redex?_of_constant hnode hfolded)
        (reduce_of_constant hnode hfolded hvalue)
        (normal_real (isStandard_new configuration) x).derives

theorem derivesAll_folded (i : Nat) {es : List Expr} (hes : ∀ u ∈ es, u.WellFormed)
    (hclosed : ∀ u ∈ es, u.isOpen = false) :
    (standard configuration).DerivesAll i es ((compoundPathsFrom i es).map .evaluation)
      (es.map folded) := by
  match es with
  | [] => exact .nil
  | e :: es =>
    rw [List.forall_mem_cons] at hes hclosed
    rw [compoundPathsFrom, List.map_append, Step.map_evaluation_below]
    exact .cons (derives_folded hes.1 hclosed.1) (derivesAll_folded (i + 1) hes.2 hclosed.2)

end

theorem Derives.runWithin_standard {e n : Expr} {steps : List Step}
    (h : (standard configuration).Derives e steps n) (he : e.WellFormed) :
    ∃ least s, ∀ budget ≥ least, (standard configuration).runWithin budget e =
      .done ⟨!steps.isEmpty, n, steps, []⟩ s := by
  obtain ⟨changed, s, hsettles, rfl, hsuppressed⟩ := h.settles_standard he
  obtain ⟨added, hadded, hflag, _⟩ := hsettles.replay_eq
  have hchanged : changed = !s.steps.isEmpty := by
    have hsteps : s.steps = added := hadded
    rw [Bool.eq_iff_iff, hflag, hsteps]
    simp
  obtain ⟨least, hleast⟩ := hsettles.runWithin_eq
  refine ⟨least, s, fun budget hbudget => ?_⟩
  rw [hleast budget hbudget, hchanged, hsuppressed]

/-- Simplifying a constant is evaluating it. A literal is returned as it is, without steps. From any
other constant, simplification returns its value, holds nothing back and takes one step for each
node that is no literal, in the order of a fold. -/
theorem constant_simplifies_to_value {e : Expr} (he : e.WellFormed) (hconstant : e.IsConstant) :
    (e.isNumber = true → ∃ least s, ∀ budget ≥ least,
      (standardEngine []).runWithin budget e = .done ⟨false, e, [], []⟩ s) ∧
    (e.isNumber = false → ∃ x, e.evaluate = .ok x ∧ ∃ least s, ∀ budget ≥ least,
      (standardEngine []).runWithin budget e =
        .done ⟨true, .real x, e.compoundPaths.map .evaluation, []⟩ s) := by
  have hclosed := isOpen_eq_false_iff.mpr hconstant
  rw [standardEngine_nil]
  constructor
  · intro hnumber
    exact (normal_of_isNumber (isStandard_new {}) he hnumber).derives.runWithin_standard he
  · intro hnumber
    obtain ⟨x, hx⟩ := he.evaluate_eq_ok hclosed
    have hderives : (standard {}).Derives e (e.compoundPaths.map .evaluation) e.folded :=
      derives_folded he hclosed
    have hrun := hderives.runWithin_standard he
    have hsteps : (!(e.compoundPaths.map Step.evaluation).isEmpty) = true := by
      simp [compoundPaths_ne_nil hnumber]
    rw [folded_of_evaluate hnumber hx, hsteps] at hrun
    exact ⟨x, hx, hrun⟩

/-- Of the nodes of `2 * 1 + -3`, the product and the negation are evaluated before the sum. The
value is minus one. -/
theorem constant_simplifies_to_value_sum :
    let e := Expr.add (.mul (.integer 2) (.real .one)) (.neg (.integer 3))
    e.WellFormed ∧ e.IsConstant ∧ e.evaluate = .ok (.ofInt (-1)) ∧
      ∃ least s, ∀ budget ≥ least, (standardEngine []).runWithin budget e =
        .done ⟨true, .real (.ofInt (-1)),
          [⟨[0], 0, "Evaluate"⟩, ⟨[1], 0, "Evaluate"⟩, ⟨[], 0, "Evaluate"⟩], []⟩ s := by
  intro e
  have he : e.WellFormed := by simp [e, WellFormed, AllWellFormed, Kind.arity]
  have hconstant : e.IsConstant := by
    simp [e, IsConstant, everywhere_node_iff, Expr.kind, Kind.isSymbol]
  have hsum : Binary64.ofInt 2 * .one + -Binary64.ofInt 3 = .ofInt (-1) := by decide +kernel
  have hvalue : e.evaluate = .ok (.ofInt (-1)) := by
    rw [← hsum]
    simp only [e, evaluate_node, List.map_cons, List.map_nil, collect, operate]
    rfl
  obtain ⟨x, hx, hrun⟩ := (constant_simplifies_to_value he hconstant).2 rfl
  obtain rfl := Except.ok.inj (hx.symm.trans hvalue)
  exact ⟨he, hconstant, hvalue, hrun⟩

end Engine

end SymbolicCalculus
