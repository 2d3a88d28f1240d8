import SymbolicCalculus.Proofs.Rules.NormalForms

/-! # Rules one by one

The laws do not tell which rule has been at work. Here each rule is taken by itself: what a node
looks like that it matches, what it makes of the node, and which nodes it leaves alone.
-/
namespace SymbolicCalculus

open SymbolicCalculus.Expr

namespace Simplification

structure Settled (c : Chain) (v : Expr) : Prop where
  not_number : v.isNumber = false
  not_continues : continues c.link v = false

def Hoistable (c : Chain) (u : Expr) : Prop := c = .product ∧ u.kind = c.inverse

section Fits

variable {c : Chain} {u v : Expr}

theorem Settled.kind_ne (h : Settled c v) : ¬ (v.kind = c.link ∨ v.kind = c.inverse) := by
  intro hkind
  have hcontinues := Chain.continues_iff.mpr hkind
  rw [h.not_continues] at hcontinues
  cases hcontinues

theorem Settled.not_hoistable (h : Settled c v) : ¬ Hoistable c v :=
  fun hoistable => h.kind_ne (.inr hoistable.2)

theorem not_hoistable_link : ¬ Hoistable c (.node c.link [u, v]) := by
  rintro ⟨_, hkind⟩
  exact Chain.link_ne_inverse c c hkind

theorem not_hoistable_number (h : u.isNumber = true) : ¬ Hoistable c u := by
  rintro ⟨rfl, hkind⟩
  simp [isNumber, number?, hkind, Chain.inverse] at h

theorem hoistDivision_fit?_link :
    hoistDivision.fit? (.node c.link [u, v]) = none ↔ ¬ Hoistable c u := by
  rw [hoistDivision_eq, Rule.ofStep_fit?_eq_none_iff]
  cases c <;> simp [Hoistable, hoistDivisionStep, Chain.link, Chain.inverse]

theorem hoistDivision_fit?_inverse : hoistDivision.fit? (.node c.inverse [u, v]) = none := by
  cases c <;> rfl

theorem leftAlign_fit?_link (h : continues c.link v = false) :
    leftAlign.fit? (.node c.link [u, v]) = none := by
  rw [leftAlign_eq, Rule.ofStep_fit?_eq_none_iff]
  cases c <;> simp_all [leftAlignStep, alignOperands, Chain.link]

theorem leftAlign_fit?_inverse : leftAlign.fit? (.node c.inverse [u, v]) = none := by
  cases c <;> rfl

theorem cancel_fit?_link : cancel.fit? (.node c.link [u, v]) = none := by
  cases c <;> rfl

theorem reorder_fit?_link :
    reorder.fit? (.node c.link [u, v]) = none ↔ reorderOperands c.link u v = none := by
  rw [reorder_eq, Rule.ofStep_fit?_eq_none_iff]
  cases c <;> simp [succeeding, reorderCase, Chain.link]

theorem combine_fit?_link (h : Settled c v) : combine.fit? (.node c.link [u, v]) = none := by
  have hkind : v.kind ≠ c.link := fun hkind => h.kind_ne (.inl hkind)
  have hnone : combineAssociative c.link u v = none := by
    simp [combineAssociative, trailing?, leading?, h.not_number, hkind]
  rw [combine_eq, Rule.ofStep_fit?_eq_none_iff]
  cases c <;> simpa [succeeding, combineCase, Chain.link] using hnone

theorem combine_fit?_inverse :
    combine.fit? (.node c.inverse [u, v]) = none ↔ trailing? c.inverse u v = none := by
  rw [combine_eq, Rule.ofStep_fit?_eq_none_iff]
  cases c <;> simp [succeeding, combineCase, Chain.inverse]

end Fits

section Outcomes

variable {e r : Expr} {fit : Fit}

theorem real_of_evaluateStep (h : evaluateStep e = some (fit, .ok r)) : ∃ x, r = .real x := by
  unfold evaluateStep at h
  split at h
  · cases h
  · simp only [Option.some.injEq, Prod.mk.injEq] at h
    obtain ⟨_, houtcome⟩ := h
    split at houtcome
    · cases houtcome
      exact ⟨_, rfl⟩
    · cases houtcome

theorem succeeding_eq_some {case : Expr → Option (Fit × Expr)}
    (h : succeeding case e = some (fit, .ok r)) : case e = some (fit, r) := by
  obtain ⟨⟨found, r'⟩, hcase, hpair⟩ := Option.map_eq_some_iff.mp h
  cases hpair
  exact hcase

theorem variableName?_of_isNumber {v : Expr} (h : v.isNumber = true) : v.variableName? = none := by
  obtain ⟨kind, operands⟩ := v
  cases kind <;> simp_all [isNumber, number?, variableName?, Expr.kind]

theorem leading?_numbers {kind : Kind} {u v q p : Expr} (h : leading? kind u v = some (q, p)) :
    u.isNumber = true ∧ q.isNumber = true := by
  unfold leading? at h
  split at h
  · rename_i hu
    simp only [Bool.and_eq_true] at hu
    exact ⟨hu.1, (Option.filter_eq_some_iff.mp h).2⟩
  · cases h

theorem combineAssociative_eq_some {kind : Kind} {u v : Expr}
    (h : combineAssociative kind u v = some (fit, r)) :
    (∃ p q, u = .node kind [p, q] ∧ q.isNumber = true) ∨
      ∃ q p, v = .node kind [q, p] ∧ u.isNumber = true ∧ q.isNumber = true ∧
        r = .node kind [.node kind [u, q], p] := by
  unfold combineAssociative at h
  split at h
  · rename_i p q htrailing
    obtain ⟨hu, hq, _⟩ := trailing?_eq_some htrailing
    exact .inl ⟨p, q, hu, hq⟩
  · split at h
    · rename_i q p hleading
      cases h
      obtain ⟨hu, hq⟩ := leading?_numbers hleading
      exact .inr ⟨q, p, leading?_eq_some hleading, hu, hq, rfl⟩
    · cases h

theorem combineInverse_eq_some {c : Chain} {u v : Expr} {tag : Fit}
    (h : ((trailing? c.inverse u v).map fun (p, r) =>
      (tag, Expr.node c.inverse [p, .node c.link [r, v]])) = some (fit, r)) :
    ∃ p q, u = .node c.inverse [p, q] ∧ q.isNumber = true ∧ v.isNumber = true ∧
      r = .node c.inverse [p, .node c.link [q, v]] := by
  obtain ⟨⟨p, q⟩, htrailing, hpair⟩ := Option.map_eq_some_iff.mp h
  cases hpair
  obtain ⟨hu, hq, hv⟩ := trailing?_eq_some htrailing
  exact ⟨p, q, hu, hq, hv, rfl⟩

theorem combineCase_eq_some (h : combineCase e = some (fit, r)) : ∃ (c : Chain) (u v : Expr),
    e = .node c.link [u, v] ∧ combineAssociative c.link u v = some (fit, r) ∨
      e = .node c.inverse [u, v] ∧ ∃ p q, u = .node c.inverse [p, q] ∧ q.isNumber = true ∧
        v.isNumber = true ∧ r = .node c.inverse [p, .node c.link [q, v]] := by
  unfold combineCase at h
  split at h
  · exact ⟨.sum, _, _, .inl ⟨rfl, h⟩⟩
  · exact ⟨.product, _, _, .inl ⟨rfl, h⟩⟩
  · exact ⟨.sum, _, _, .inr ⟨rfl, combineInverse_eq_some h⟩⟩
  · exact ⟨.product, _, _, .inr ⟨rfl, combineInverse_eq_some h⟩⟩
  · cases h

/-- Operands that have been swapped are not swapped back. -/
theorem reorderOperands_eq_some {kind : Kind} {u v : Expr}
    (h : reorderOperands kind u v = some (fit, r)) :
    r = .node kind [v, u] ∧ reorderOperands kind v u = none := by
  unfold reorderOperands at h
  split at h
  · cases h
    simp_all [reorderOperands]
  · split at h
    · cases h
      simp_all [reorderOperands]
    · cases h

theorem reorderCase_eq_some (h : reorderCase e = some (fit, r)) : ∃ (c : Chain) (u v : Expr),
    e = .node c.link [u, v] ∧ reorderOperands c.link u v = some (fit, r) := by
  unfold reorderCase at h
  split at h
  · exact ⟨.sum, _, _, rfl, h⟩
  · exact ⟨.product, _, _, rfl, h⟩
  · cases h

theorem alignOperands_eq_some {name : String} {c : Chain} {u v : Expr}
    (h : alignOperands name c.link u v = some (fit, .ok r)) :
    ∃ kind b d, (kind = c.link ∨ kind = c.inverse) ∧ v = .node kind [b, d] ∧
      r = .node kind [.node c.link [u, b], d] := by
  unfold alignOperands at h
  split at h
  · rename_i hcontinues
    split at h
    · rename_i b d hpair
      cases h
      exact ⟨_, b, d, Chain.continues_iff.mp hcontinues, pair?_eq_some_iff.mp hpair, rfl⟩
    · cases h
  · cases h

theorem leftAlignStep_eq_some {name : String} (h : leftAlignStep name e = some (fit, .ok r)) :
    ∃ (c : Chain) (u : Expr) (kind : Kind) (b d : Expr),
      e = .node c.link [u, .node kind [b, d]] ∧ (kind = c.link ∨ kind = c.inverse) ∧
        r = .node kind [.node c.link [u, b], d] := by
  unfold leftAlignStep at h
  split at h
  · obtain ⟨kind, b, d, hkind, rfl, hr⟩ := alignOperands_eq_some (c := .sum) h
    exact ⟨.sum, _, kind, b, d, rfl, hkind, hr⟩
  · obtain ⟨kind, b, d, hkind, rfl, hr⟩ := alignOperands_eq_some (c := .product) h
    exact ⟨.product, _, kind, b, d, rfl, hkind, hr⟩
  · cases h

theorem hoistDivisionStep_eq_some {name : String}
    (h : hoistDivisionStep name e = some (fit, .ok r)) : ∃ u v, r = .div u v := by
  unfold hoistDivisionStep at h
  split at h
  · split at h
    · split at h
      · cases h
        exact ⟨_, _, rfl⟩
      · cases h
    · cases h
  · cases h

theorem cancelStep_eq_some {name : String} (h : cancelStep name e = some (fit, .ok r)) :
    ∃ (c : Chain) (u v : Expr) (symbol : String), e = .node c.inverse [u, v] ∧
      neutralize c.link symbol c.neutral u = .ok r := by
  unfold cancelStep at h
  split at h
  · split at h
    · rename_i hundone _
      obtain ⟨c, rfl, rfl, rfl⟩ := Chain.undone?_eq_some hundone
      split at h
      · split at h
        · rename_i hneutralize
          cases h
          exact ⟨c, _, _, _, rfl, hneutralize⟩
        · cases h
      · cases h
    · cases h
  · cases h

end Outcomes

end Simplification

namespace Differentiation

theorem real_of_constant {e r : Expr} {fit : Fit}
    (h : onDerivative constantCase e = some (fit, .ok r)) : ∃ x, r = .real x := by
  obtain ⟨x, u, rfl, hcase⟩ := exists_of_onDerivative h
  unfold constantCase at hcase
  split at hcase
  · cases hcase
  · cases hcase
    exact ⟨_, rfl⟩

end Differentiation

end SymbolicCalculus
