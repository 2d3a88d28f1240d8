import Mathlib.Order.Bounds.Defs
import SymbolicCalculus.Proofs.Expr.Position
import SymbolicCalculus.Proofs.Rules.Laws

/-! # The spine of a chain

The left spine of a chain leads from the root through left operands, as long as the nodes are links
with two operands. One walk looks for a variable among the right operands along the spine, another
one replaces it. Both stop at the same operand, the topmost one that is the variable, or at the same
node that is no link.
-/
namespace SymbolicCalculus.Simplification

open SymbolicCalculus.Expr

variable {link : Kind} {symbol : String} {neutral : Binary64} {left right chain e : Expr}

def rightOperand (depth : Nat) : List Nat := List.replicate depth 0 ++ [1]

/-- At this depth of the left spine the right operand is the variable `symbol`. The nodes on the
spine, down to there, are links with two operands. -/
structure HasPartner (link : Kind) (symbol : String) (chain : Expr) (depth : Nat) : Prop where
  links : ∀ d ≤ depth, ∃ left right,
    chain.at? (List.replicate d 0) = some (.node link [left, right])
  named : ∃ right, chain.at? (rightOperand depth) = some right ∧ right.variableName? = some symbol

theorem hasPartner_zero_iff :
    HasPartner link symbol (.node link [left, right]) 0 ↔ right.variableName? = some symbol := by
  constructor
  · rintro ⟨-, u, hu, hname⟩
    cases hu
    exact hname
  · intro hname
    refine ⟨fun d hd => ?_, right, rfl, hname⟩
    obtain rfl : d = 0 := Nat.le_zero.mp hd
    exact ⟨left, right, rfl⟩

theorem hasPartner_succ_iff {depth : Nat} :
    HasPartner link symbol (.node link [left, right]) (depth + 1) ↔
      HasPartner link symbol left depth := by
  constructor
  · rintro ⟨hlinks, hnamed⟩
    exact ⟨fun d hd => hlinks (d + 1) (Nat.succ_le_succ hd), hnamed⟩
  · rintro ⟨hlinks, hnamed⟩
    refine ⟨fun d hd => ?_, hnamed⟩
    cases d with
    | zero => exact ⟨left, right, rfl⟩
    | succ d => exact hlinks d (Nat.le_of_succ_le_succ hd)

theorem HasPartner.exists_eq {depth : Nat} (h : HasPartner link symbol chain depth) :
    ∃ left right, chain = .node link [left, right] := by
  obtain ⟨left, right, hroot⟩ := h.links 0 (Nat.zero_le depth)
  exact ⟨left, right, Option.some.inj hroot⟩

/-- The walk finds a variable wherever on the spine it stands. -/
theorem isOnSpine_iff :
    isOnSpine link symbol chain = true ↔ ∃ depth, HasPartner link symbol chain depth := by
  fun_induction isOnSpine link symbol chain with
  | case1 kind left right ih =>
    by_cases hkind : kind = link
    · subst hkind
      simp only [decide_true, Bool.true_and, Bool.or_eq_true, beq_iff_eq, ih]
      constructor
      · rintro (hname | ⟨depth, hleft⟩)
        · exact ⟨0, hasPartner_zero_iff.mpr hname⟩
        · exact ⟨depth + 1, hasPartner_succ_iff.mpr hleft⟩
      · rintro ⟨depth, h⟩
        cases depth with
        | zero => exact .inl (hasPartner_zero_iff.mp h)
        | succ depth => exact .inr ⟨depth, hasPartner_succ_iff.mp h⟩
    · simp only [hkind, decide_false, Bool.false_and, Bool.false_eq_true, false_iff]
      rintro ⟨depth, h⟩
      obtain ⟨u, v, heq⟩ := h.exists_eq
      cases heq
      exact hkind rfl
  | case2 chain hne =>
    simp only [Bool.false_eq_true, false_iff]
    rintro ⟨depth, h⟩
    obtain ⟨u, v, rfl⟩ := h.exists_eq
    exact hne _ u v rfl

/-- If the root's right operand is no partner, the topmost one is that of the left operand. -/
theorem isLeast_hasPartner_succ {depth : Nat} (hright : right.variableName? ≠ some symbol)
    (h : IsLeast {d | HasPartner link symbol left d} depth) :
    IsLeast {d | HasPartner link symbol (.node link [left, right]) d} (depth + 1) := by
  refine ⟨hasPartner_succ_iff.mpr h.1, fun d hd => ?_⟩
  cases d with
  | zero => exact absurd (hasPartner_zero_iff.mp hd) hright
  | succ d => exact Nat.succ_le_succ (h.2 (hasPartner_succ_iff.mp hd))

/-- It is the topmost partner that is replaced. -/
theorem neutralize_eq_ok (h : neutralize link symbol neutral chain = .ok e) :
    ∃ depth, IsLeast {d | HasPartner link symbol chain d} depth ∧
      e = put (.real neutral) chain (rightOperand depth) := by
  fun_induction neutralize link symbol neutral chain generalizing e with
  | case1 left right hright =>
    cases h
    exact ⟨0, ⟨hasPartner_zero_iff.mpr hright, fun _ _ => Nat.zero_le _⟩, rfl⟩
  | case2 left right hright r hr ih =>
    cases h
    obtain ⟨depth, hdepth, rfl⟩ := ih hr
    exact ⟨depth + 1, isLeast_hasPartner_succ hright hdepth, rfl⟩
  | case3 => cases h
  | case4 => cases h
  | case5 => cases h

/-- The nodes that the walk has taken apart are put together again. -/
theorem neutralize_eq_error (h : neutralize link symbol neutral chain = .error e) :
    e = chain := by
  fun_induction neutralize link symbol neutral chain generalizing e with
  | case1 => cases h
  | case2 => cases h
  | case3 left right hright r hr ih =>
    cases h
    rw [ih hr]
  | case4 =>
    cases h
    rfl
  | case5 =>
    cases h
    rfl

/-- A variable can be replaced on the spine exactly if it is found there. The outcome is the chain
with the topmost right operand that is the variable replaced by the number; the operand is replaced
as a whole, and all nodes outside of it are kept. A chain without the variable is handed back as it
was. -/
theorem spine_walks_agree (link : Kind) (symbol : String) (neutral : Binary64) (chain : Expr) :
    ((∃ e, neutralize link symbol neutral chain = .ok e) ↔ isOnSpine link symbol chain = true) ∧
    (∀ e, neutralize link symbol neutral chain = .ok e →
      ∃ depth, IsLeast {d | HasPartner link symbol chain d} depth ∧
        e = put (.real neutral) chain (rightOperand depth) ∧
        ∀ path, ¬ rightOperand depth <+: path →
          (e.at? path).map label = (chain.at? path).map label) ∧
    (∀ e, neutralize link symbol neutral chain = .error e → e = chain) := by
  refine ⟨⟨?_, neutralize_of_isOnSpine neutral⟩, ?_, fun e => neutralize_eq_error⟩
  · rintro ⟨e, he⟩
    obtain ⟨depth, hdepth, -⟩ := neutralize_eq_ok he
    exact isOnSpine_iff.mpr ⟨depth, hdepth.1⟩
  · intro e he
    obtain ⟨depth, hdepth, rfl⟩ := neutralize_eq_ok he
    exact ⟨depth, hdepth, rfl, fun path => label_at?_put⟩

/-- Of the two `x` in `a + x + x + b` the one further up is replaced. No link with a single operand
belongs to a spine. -/
theorem spine_walks_agree_sum :
    (∃ depth, IsLeast {d | HasPartner .add "x"
        (.add (.add (.add (.var "a") (.var "x")) (.var "x")) (.var "b")) d} depth ∧
      .add (.add (.add (.var "a") (.var "x")) (.real .zero)) (.var "b") = put (.real .zero)
        (.add (.add (.add (.var "a") (.var "x")) (.var "x")) (.var "b")) (rightOperand depth)) ∧
    ¬ ∃ e, neutralize .add "x" .zero (.node .add [.var "x"]) = .ok e := by
  constructor
  · obtain ⟨depth, hdepth, heq, -⟩ := (spine_walks_agree .add "x" .zero
      (.add (.add (.add (.var "a") (.var "x")) (.var "x")) (.var "b"))).2.1 _ rfl
    exact ⟨depth, hdepth, heq⟩
  · rw [(spine_walks_agree .add "x" .zero (.node .add [.var "x"])).1]
    exact Bool.false_ne_true

end SymbolicCalculus.Simplification
