import SymbolicCalculus.Proofs.Rules.NormalForms

/-! # Derivatives are computed

The rules of differentiation resolve one level of a derivative at a time and mark the parts that are
left. The textbook says in one recursion what the derivative of an expression without marks is. Both
agree: without loop detection a run ends, and it returns the expression with every mark replaced by
the derivative, the innermost marks first.
-/
namespace SymbolicCalculus

namespace Expr

/-- The derivative with regard to `x`, by recursion over the expression. A power with `x` in its
exponent is derived as the exponential that stands for it, which weighs less. -/
def derivative (x : String) (u : Expr) : Expr :=
  if .var x ∈ u.symbols then
    match u with
    | .var _ => .real .one
    | .neg u => .neg (derivative x u)
    | .add u v => .add (derivative x u) (derivative x v)
    | .sub u v => .sub (derivative x u) (derivative x v)
    | .mul u v => .add (.mul u (derivative x v)) (.mul v (derivative x u))
    | .div u v =>
      .div (.sub (.mul v (derivative x u)) (.mul u (derivative x v))) (.pow v (.real .two))
    | .pow b n =>
      if .var x ∈ n.symbols then derivative x (.exp (.mul b (.log n)))
      else .mul (.mul n (.pow b (.sub n (.real .one)))) (derivative x b)
    | .exp u => .mul (.exp u) (derivative x u)
    | .log u => .mul (.div (.real .one) u) (derivative x u)
    | .sin u => .mul (.cos u) (derivative x u)
    | .cos u => .mul (.neg (.sin u)) (derivative x u)
    -- No other expression without marks has the symbol in it.
    | u => .diff x u
  else .real .zero
termination_by u.weight
decreasing_by
  all_goals
    simp only [weight_node, List.map_cons, List.map_nil, List.sum_cons, List.sum_nil,
      reduceCtorEq, if_false, if_true]
    omega

/-- Replaces every mark by the derivative of its operand, innermost marks first. -/
def resolve (e : Expr) : Expr :=
  e.fold fun e below =>
    match e.kind, below with
    | .diff x, [u] => derivative x u
    | kind, below => .node kind below

theorem resolve_diff (x : String) (u : Expr) : (diff x u).resolve = derivative x u.resolve := by
  rw [resolve, fold_node]
  rfl

theorem resolve_node {kind : Kind} (operands : List Expr) (h : ∀ x, kind ≠ .diff x) :
    (node kind operands).resolve = node kind (operands.map resolve) := by
  rw [resolve, fold_node]
  cases kind with
  | diff x => exact absurd rfl (h x)
  | var | real | integer | negate | sin | cos | exp | log | add | sub | mul | div | pow => rfl

theorem derivative_of_notMem {x : String} {u : Expr} (h : .var x ∉ u.symbols) :
    derivative x u = .real .zero := by
  unfold derivative
  exact if_neg h

end Expr

namespace Differentiation

open SymbolicCalculus.Expr

theorem constant_fit?_of_notMem {x : String} {u : Expr} (h : .var x ∉ u.symbols) :
    constant.fit? (.diff x u) = some Constant.constant :=
  if_neg (by simp [mentions_eq_false_iff.mpr h])

theorem constant_reduce_of_notMem {x : String} {u : Expr} (h : .var x ∉ u.symbols) :
    constant.reduce (.diff x u) Constant.constant = .ok (.real .zero) :=
  if_pos (constant_fit?_of_notMem h)

end Differentiation

namespace Engine

open SymbolicCalculus.Expr Differentiation

variable {configuration : Configuration}

abbrev differentiation (configuration : Configuration) : Engine :=
  .new Differentiation.rules configuration

theorem differentiation_law {e : Expr} {outcome : Except Error Expr} (he : e.WellFormed)
    (h : (differentiation configuration).contract? e = some outcome) :
    ∃ r, outcome = .ok r ∧ Law e r := by
  obtain ⟨rule, fit, htries, hfit, rfl⟩ := exists_rule_of_contract? h
  exact follows_of_mem (tries_new_iff.mp htries) he hfit

theorem normal_of_resolved {e : Expr} (he : e.Resolved) :
    (differentiation configuration).Normal e := by
  induction e using operandInduction with
  | node kind operands ih =>
    refine .node (fun u hu => ih u hu ((resolved_node_iff.mp he).2.2 u hu)) ?_
    cases hcontract : (differentiation configuration).contract? (.node kind operands) with
    | none => rfl
    | some outcome =>
      obtain ⟨r, _, hlaw⟩ := differentiation_law he.wellFormed hcontract
      exact absurd he hlaw.not_resolved

/-- The rule for constants is tried first. -/
theorem contract?_diff_of_notMem {x : String} {u : Expr} (h : .var x ∉ u.symbols) :
    (differentiation configuration).contract? (.diff x u) = some (.ok (.real .zero)) := by
  have hrules : (differentiation configuration).rules =
      [⟨0, constant⟩, ⟨1, arithmetic⟩, ⟨2, power⟩, ⟨3, expLog⟩, ⟨4, trig⟩] := rfl
  rw [contract?, redex?, hrules, List.findSome?_cons, constant_fit?_of_notMem h]
  exact congrArg some (constant_reduce_of_notMem h)

theorem contract?_diff_of_resolved {x : String} {u : Expr} (hu : u.Resolved) :
    ∃ r, (differentiation configuration).contract? (.diff x u) = some (.ok r) ∧
      Law (.diff x u) r := by
  have he : (Expr.diff x u).WellFormed := wellFormed_unary_iff.mpr ⟨rfl, hu.wellFormed⟩
  have htries (rule : Rule) (hrule : rule ∈ Differentiation.rules) :
      (differentiation configuration).Tries rule := tries_new_iff.mpr hrule
  obtain ⟨outcome, hcontract⟩ := exists_contract?_diff htries hu x
  obtain ⟨r, rfl, hlaw⟩ := differentiation_law he hcontract
  exact ⟨r, hcontract, hlaw⟩

structure Computes (configuration : Configuration) (e n : Expr) : Prop where
  normalizes : (differentiation configuration).Normalizes e n
  resolved : n.Resolved

namespace Computes

theorem self {e : Expr} (h : e.Resolved) : Computes configuration e e :=
  ⟨(normal_of_resolved h).normalizes, h⟩

theorem real (x : Binary64) : Computes configuration (.real x) (.real x) :=
  self (by simp [resolved_node_iff, Kind.arity])

/-- Any node but a derivative is computed by computing its operands. -/
theorem node {kind : Kind} {es ns : List Expr} (hlength : es.length = kind.arity)
    (hkind : ∀ x, kind ≠ .diff x) (h : List.Forall₂ (Computes configuration) es ns) :
    Computes configuration (.node kind es) (.node kind ns) := by
  have hall : (differentiation configuration).NormalizesAll es ns ∧ ∀ n ∈ ns, n.Resolved := by
    clear hlength
    induction h with
    | nil => exact ⟨.nil, by simp⟩
    | cons hfirst _ ih =>
      exact ⟨.cons hfirst.normalizes ih.1, List.forall_mem_cons.mpr ⟨hfirst.resolved, ih.2⟩⟩
  have hnode : (Expr.node kind ns).Resolved :=
    resolved_node_iff.mpr ⟨h.length_eq.symm.trans hlength, hkind, hall.2⟩
  exact ⟨hall.1.node (normal_of_resolved hnode).normalizes, hnode⟩

theorem unary {kind : Kind} {u u' : Expr} (harity : kind.arity = 1) (hkind : ∀ x, kind ≠ .diff x)
    (hu : Computes configuration u u') :
    Computes configuration (.node kind [u]) (.node kind [u']) :=
  node harity.symm hkind (.cons hu .nil)

theorem binary {kind : Kind} {u u' v v' : Expr} (harity : kind.arity = 2)
    (hu : Computes configuration u u') (hv : Computes configuration v v') :
    Computes configuration (.node kind [u, v]) (.node kind [u', v']) := by
  refine node harity.symm ?_ (.cons hu (.cons hv .nil))
  rintro x rfl
  cases harity

/-- What a law makes of a derivative is computed to the derivative that the textbook has. Every law
but one differentiates the operands of the operand; the exponential law differentiates an expression
that is lighter than the power. -/
theorem of_law {x : String} {u r : Expr} (h : Law (.diff x u) r) (hmem : .var x ∈ u.symbols)
    (hu : u.Resolved) (ih : ∀ w : Expr, w.Resolved → w.weight < u.weight →
      Computes configuration (.diff x w) (derivative x w)) :
    Computes configuration r (derivative x u) := by
  have hoperand {w : Expr} (hw : w ∈ u.operands) :
      Computes configuration w w ∧ Computes configuration (.diff x w) (derivative x w) := by
    obtain ⟨kind, operands⟩ := u
    have hwresolved := (resolved_node_iff.mp hu).2.2 w hw
    exact ⟨self hwresolved, ih w hwresolved (weight_lt_node kind hw)⟩
  cases h with
  | constant hmentions => exact absurd hmem (mentions_eq_false_iff.mp hmentions)
  | symbol =>
    rw [derivative, if_pos hmem]
    exact real _
  | @negate _ u =>
    obtain ⟨_, hdu⟩ := hoperand (w := u) (by simp [Expr.operands])
    rw [derivative, if_pos hmem]
    exact unary rfl nofun hdu
  | @add _ u v | @sub _ u v =>
    obtain ⟨_, hdu⟩ := hoperand (w := u) (by simp [Expr.operands])
    obtain ⟨_, hdv⟩ := hoperand (w := v) (by simp [Expr.operands])
    rw [derivative, if_pos hmem]
    exact binary rfl hdu hdv
  | @product _ u v =>
    obtain ⟨hu, hdu⟩ := hoperand (w := u) (by simp [Expr.operands])
    obtain ⟨hv, hdv⟩ := hoperand (w := v) (by simp [Expr.operands])
    rw [derivative, if_pos hmem]
    exact binary rfl (binary rfl hu hdv) (binary rfl hv hdu)
  | @quotient _ u v =>
    obtain ⟨hu, hdu⟩ := hoperand (w := u) (by simp [Expr.operands])
    obtain ⟨hv, hdv⟩ := hoperand (w := v) (by simp [Expr.operands])
    rw [derivative, if_pos hmem]
    exact binary rfl (binary rfl (binary rfl hv hdu) (binary rfl hu hdv))
      (binary rfl hv (real _))
  | @power _ b n hmentions =>
    obtain ⟨hb, hdb⟩ := hoperand (w := b) (by simp [Expr.operands])
    obtain ⟨hn, _⟩ := hoperand (w := n) (by simp [Expr.operands])
    rw [derivative, if_pos hmem, if_neg (mentions_eq_false_iff.mp hmentions)]
    exact binary rfl (binary rfl hn (binary rfl hb (binary rfl hn (real _)))) hdb
  | @exponential _ b n hmentions =>
    rw [derivative, if_pos hmem, if_pos (mentions_iff.mp hmentions)]
    exact ih _ hu.exponential (weight_exponential_lt b n)
  | @exp _ u =>
    obtain ⟨hu, hdu⟩ := hoperand (w := u) (by simp [Expr.operands])
    rw [derivative, if_pos hmem]
    exact binary rfl (unary rfl nofun hu) hdu
  | @log _ u =>
    obtain ⟨hu, hdu⟩ := hoperand (w := u) (by simp [Expr.operands])
    rw [derivative, if_pos hmem]
    exact binary rfl (binary rfl (real _) hu) hdu
  | @sin _ u =>
    obtain ⟨hu, hdu⟩ := hoperand (w := u) (by simp [Expr.operands])
    rw [derivative, if_pos hmem]
    exact binary rfl (unary rfl nofun hu) hdu
  | @cos _ u =>
    obtain ⟨hu, hdu⟩ := hoperand (w := u) (by simp [Expr.operands])
    rw [derivative, if_pos hmem]
    exact binary rfl (unary rfl nofun (unary rfl nofun hu)) hdu

/-- The first step at a derivative leads to the rest of its computation. -/
theorem of_contract? {x : String} {u r n : Expr} (hu : u.Resolved)
    (hcontract : (differentiation configuration).contract? (.diff x u) = some (.ok r))
    (hr : Computes configuration r n) : Computes configuration (.diff x u) n := by
  have hnormal : (differentiation configuration).Normal u := normal_of_resolved hu
  exact ⟨normalizes_of_contract? (by simpa using hnormal) hcontract hr.normalizes, hr.resolved⟩

theorem diff (x : String) {u : Expr} (hu : u.Resolved) :
    Computes configuration (.diff x u) (derivative x u) := by
  induction hweight : u.weight using Nat.strongRecOn generalizing u with
  | ind bound ih =>
    subst hweight
    by_cases hmem : .var x ∈ u.symbols
    · obtain ⟨r, hcontract, hlaw⟩ := contract?_diff_of_resolved hu
      refine of_contract? hu hcontract (of_law hlaw hmem hu fun w hw hlt => ?_)
      exact ih w.weight hlt hw rfl
    · rw [derivative_of_notMem hmem]
      exact of_contract? hu (contract?_diff_of_notMem hmem) (real _)

theorem resolve {e : Expr} (he : e.WellFormed) : Computes configuration e e.resolve := by
  induction e using operandInduction with
  | node kind operands ih =>
    obtain ⟨hlength, hoperands⟩ := wellFormed_node_iff.mp he
    by_cases hkind : ∃ x, kind = .diff x
    · obtain ⟨x, rfl⟩ := hkind
      obtain ⟨u, rfl, hu⟩ := he.operands_singleton rfl
      have hcomputed : Computes configuration u u.resolve := ih u (by simp) hu
      have hdiff : Computes configuration (.diff x u.resolve) (derivative x u.resolve) :=
        diff x hcomputed.resolved
      rw [resolve_diff]
      exact ⟨hcomputed.normalizes.unary hdiff.normalizes, hdiff.resolved⟩
    · have hall : List.Forall₂ (Computes configuration) operands (operands.map Expr.resolve) := by
        rw [List.forall₂_map_right_iff, List.forall₂_same]
        exact fun u hu => ih u hu (hoperands u hu)
      rw [resolve_node operands fun x hx => hkind ⟨x, hx⟩]
      exact node hlength (fun x hx => hkind ⟨x, hx⟩) hall

end Computes

/-- Differentiation computes the derivatives of the textbook. On every well-formed expression a run
without loop detection returns once its budget is large enough. What it returns is the expression
with every mark replaced by a derivative, and no mark is left in it. -/
theorem differentiation_resolves {configuration : Configuration}
    (hoff : configuration.loopDetection = false) {e : Expr} (he : e.WellFormed) :
    ∃ least trace s,
      (∀ budget ≥ least, (Engine.new Differentiation.rules configuration).runWithin budget e =
        .done trace s) ∧
      trace.expression = e.resolve ∧ trace.expression.Resolved := by
  have hcomputes : Computes configuration e e.resolve := .resolve he
  obtain ⟨changed, s, hsettles⟩ := hcomputes.normalizes.settles hoff [] false (.start configuration)
  obtain ⟨least, hleast⟩ := hsettles.runWithin_eq
  exact ⟨least, _, s, hleast, rfl, hcomputes.resolved⟩

/-- In `(y * (sin x)')'`, where the outer derivative is taken with regard to `y`, the inner one is
computed first and is a constant of the outer one. -/
theorem differentiation_resolves_nested :
    (Expr.diff "y" (.mul (.var "y") (.diff "x" (.sin (.var "x"))))).WellFormed ∧
    ∃ least trace s,
      (∀ budget ≥ least, (Engine.new Differentiation.rules { loopDetection := false }).runWithin
        budget (.diff "y" (.mul (.var "y") (.diff "x" (.sin (.var "x"))))) = .done trace s) ∧
      trace.expression = .add (.mul (.var "y") (.real .zero))
        (.mul (.mul (.cos (.var "x")) (.real .one)) (.real .one)) ∧ trace.expression.Resolved := by
  have he : (Expr.diff "y" (.mul (.var "y") (.diff "x" (.sin (.var "x"))))).WellFormed := by
    simp [WellFormed, AllWellFormed, Kind.arity]
  have hresolve : (Expr.diff "y" (.mul (.var "y") (.diff "x" (.sin (.var "x"))))).resolve =
      .add (.mul (.var "y") (.real .zero))
        (.mul (.mul (.cos (.var "x")) (.real .one)) (.real .one)) := by
    with_unfolding_all rfl
  exact ⟨he, hresolve ▸ differentiation_resolves rfl he⟩

end Engine

end SymbolicCalculus
