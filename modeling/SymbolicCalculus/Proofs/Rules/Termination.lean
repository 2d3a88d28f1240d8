import SymbolicCalculus.Proofs.Rules.NormalForms

/-! # Termination of the standard rules

No single measure decreases with every rule. Expressions without derivatives are handled by
induction on their weight: a law either makes a node lighter, or it rearranges a chain whose
operands are normal forms, and that comes to an end for chains of the same weight. A derivative is
handled by induction on the weight of its resolved operand, where a power outweighs the exponential
that it turns into.
-/
namespace SymbolicCalculus.Engine

open SymbolicCalculus.Expr Simplification

variable {engine : Engine}

def Normalizing (engine : Engine) (e : Expr) : Prop := ∃ n, engine.Normalizes e n

mutual

/-- Reduction does not make an expression without derivatives any heavier. -/
theorem Normalizes.simplerThan (hengine : engine.IsStandard) {e n : Expr}
    (h : engine.Normalizes e n) (he : e.Resolved) : n.SimplerThan e := by
  match h with
  | .rest hall _ =>
    have hes := (resolved_node_iff.mp he).2.2
    exact .node he.wellFormed (hall.simplerThan hengine hes)
  | .reduce hall hsome hnext =>
    have hes := (resolved_node_iff.mp he).2.2
    have hoperands := SimplerThan.node he.wellFormed (hall.simplerThan hengine hes)
    have hresolved := hoperands.resolved he
    obtain ⟨r, hr, hlaw⟩ := hengine.law_of_resolved hresolved hsome
    cases hr
    have hreduced := hlaw.simplerThan hresolved.wellFormed
    have hrest := hnext.simplerThan hengine (hreduced.resolved hresolved)
    exact hrest.trans (hreduced.trans hoperands)

theorem NormalizesAll.simplerThan (hengine : engine.IsStandard) {es ns : List Expr}
    (h : engine.NormalizesAll es ns) (hes : ∀ u ∈ es, u.Resolved) :
    List.Forall₂ SimplerThan ns es := by
  match h with
  | .nil => exact .nil
  | .cons hfirst hlater =>
    rw [List.forall_mem_cons] at hes
    exact .cons (hfirst.simplerThan hengine hes.1) (hlater.simplerThan hengine hes.2)

end

theorem exists_normalizesAll {P : Expr → Prop} {es : List Expr}
    (h : ∀ u ∈ es, ∃ n, engine.Normalizes u n ∧ P n) :
    ∃ ns, engine.NormalizesAll es ns ∧ ∀ n ∈ ns, P n := by
  induction es with
  | nil => exact ⟨[], .nil, by simp⟩
  | cons e es ih =>
    rw [List.forall_mem_cons] at h
    obtain ⟨⟨n, hn, hP⟩, hes⟩ := h
    obtain ⟨ns, hns, hall⟩ := ih hes
    exact ⟨n :: ns, .cons hn hns, List.forall_mem_cons.mpr ⟨hP, hall⟩⟩

/-- A node over normal forms is normalizing if everything that a law makes of it is. -/
theorem normalizing_of_laws (hengine : engine.IsStandard) {kind : Kind} {es : List Expr}
    (hes : ∀ u ∈ es, engine.Normal u) (he : (node kind es).Resolved)
    (h : ∀ r, Law (node kind es) r → engine.Normalizing r) : engine.Normalizing (node kind es) := by
  cases hcontract : engine.contract? (node kind es) with
  | none => exact ⟨_, (Normal.node hes hcontract).normalizes⟩
  | some outcome =>
    obtain ⟨r, rfl, hlaw⟩ := hengine.law_of_resolved he hcontract
    obtain ⟨n, hn⟩ := h r hlaw
    exact ⟨n, normalizes_of_contract? hes hcontract hn⟩

section Rearrangement

-- Everything lighter than the bound is known to be normalizing.
variable (hengine : engine.IsStandard) {bound : Nat}
  (ih : ∀ e : Expr, e.Resolved → e.weight < bound → engine.Normalizing e)

include hengine ih

theorem normalizing_of_left {kind : Kind} {u v : Expr} (he : (node kind [u, v]).Resolved)
    (hbound : (node kind [u, v]).weight ≤ bound) (hv : engine.Normal v)
    (h : ∀ w, engine.Normal w → (node kind [w, v]).Resolved → (node kind [w, v]).weight ≤ bound →
      engine.Normalizing (node kind [w, v])) : engine.Normalizing (node kind [u, v]) := by
  have hu : u.Resolved := (resolved_node_iff.mp he).2.2 u (by simp)
  have hlt : u.weight < bound := Nat.lt_of_lt_of_le (weight_lt_node kind (by simp)) hbound
  obtain ⟨w, hw⟩ := ih u hu hlt
  have hwell : v.WellFormed := (wellFormed_binary_iff.mp he.wellFormed).2.2
  have hsimpler : (node kind [w, v]).SimplerThan (node kind [u, v]) :=
    .node he.wellFormed (.cons (hw.simplerThan hengine hu) (.cons (.refl hwell) .nil))
  obtain ⟨n, hn⟩ := h w hw.normal (hsimpler.resolved he) (Nat.le_trans hsimpler.weight_le hbound)
  exact ⟨n, hw.binary hv.normalizes hn⟩

theorem normalizes_numbers {c : Chain} {u v : Expr} (he : (node c.link [u, v]).Resolved)
    (hbound : (node c.link [u, v]).weight ≤ bound) (hu : engine.Normal u) (hv : engine.Normal v)
    (hunumber : u.isNumber = true) (hvnumber : v.isNumber = true) :
    ∃ n, engine.Normalizes (node c.link [u, v]) n ∧ n.weight < (node c.link [u, v]).weight := by
  cases hcontract : engine.contract? (node c.link [u, v]) with
  | none => simp [(hengine.right_of_link he.wellFormed hcontract).1] at hvnumber
  | some outcome =>
    obtain ⟨r, rfl, hlaw⟩ := hengine.law_of_resolved he hcontract
    rcases hlaw.of_link he.wellFormed with hlt | hlink
    · have hr := (hlaw.simplerThan he.wellFormed).resolved he
      obtain ⟨n, hn⟩ := ih r hr (Nat.lt_of_lt_of_le hlt hbound)
      refine ⟨n, normalizes_of_contract? (by simp [hu, hv]) hcontract hn, ?_⟩
      exact Nat.lt_of_le_of_lt (hn.simplerThan hengine hr).weight_le hlt
    · simp [hlink.not_numbers hunumber] at hvnumber

theorem normalizing_inverse {c : Chain} {u v : Expr} (he : (node c.inverse [u, v]).Resolved)
    (hbound : (node c.inverse [u, v]).weight ≤ bound) (hu : engine.Normal u)
    (hv : engine.Normal v) : engine.Normalizing (node c.inverse [u, v]) := by
  apply normalizing_of_laws hengine (by simp [hu, hv]) he
  intro r hlaw
  have hr := (hlaw.simplerThan he.wellFormed).resolved he
  rcases hlaw.of_inverse he.wellFormed with hlt | ⟨p, q, rfl, hq, hvnumber, rfl⟩
  · exact ih r hr (Nat.lt_of_lt_of_le hlt hbound)
  · obtain ⟨hp, hqnormal⟩ : engine.Normal p ∧ engine.Normal q := by
      simpa using (normal_node_iff.mp hu).1
    have hnumbers : (node c.link [q, v]).Resolved := (resolved_node_iff.mp hr).2.2 _ (by simp)
    simp only [weight_chain, c.isChainKind_inverse] at hbound
    obtain ⟨m, hm, hlt⟩ := normalizes_numbers hengine ih hnumbers
      (by simp only [weight_chain, c.isChainKind_link]; omega) hqnormal hv hq hvnumber
    have hpm : (node c.inverse [p, m]).SimplerThan (node c.inverse [p, node c.link [q, v]]) :=
      .node hr.wellFormed (.cons (.refl (wellFormed_binary_iff.mp hr.wellFormed).2.1)
        (.cons (hm.simplerThan hengine hnumbers) .nil))
    obtain ⟨n, hn⟩ := ih (node c.inverse [p, m]) (hpm.resolved hr) (by
      simp only [weight_chain, c.isChainKind_inverse, c.isChainKind_link] at hlt ⊢
      omega)
    exact ⟨n, hp.normalizes.binary hm hn⟩

theorem normalizing_inverse_left {c : Chain} {u v : Expr} (he : (node c.inverse [u, v]).Resolved)
    (hbound : (node c.inverse [u, v]).weight ≤ bound) (hv : engine.Normal v) :
    engine.Normalizing (node c.inverse [u, v]) :=
  normalizing_of_left hengine ih he hbound hv fun _ hw he hbound =>
    normalizing_inverse hengine ih he hbound hw hv

theorem normalizing_link_of_laws {c : Chain} {u v : Expr} (he : (node c.link [u, v]).Resolved)
    (hbound : (node c.link [u, v]).weight ≤ bound) (hu : engine.Normal u) (hv : engine.Normal v)
    (h : ∀ r, LinkLaw c u v r → r.Resolved → r.weight ≤ bound → engine.Normalizing r) :
    engine.Normalizing (node c.link [u, v]) := by
  apply normalizing_of_laws hengine (by simp [hu, hv]) he
  intro r hlaw
  have hsimpler := hlaw.simplerThan he.wellFormed
  rcases hlaw.of_link he.wellFormed with hlt | hlink
  · exact ih r (hsimpler.resolved he) (Nat.lt_of_lt_of_le hlt hbound)
  · exact h r hlink (hsimpler.resolved he) (Nat.le_trans hsimpler.weight_le hbound)

/-- A variable that has been moved to the left stays there. -/
theorem normalizing_variableFirst {c : Chain} {u v : Expr} (he : (node c.link [v, u]).Resolved)
    (hbound : (node c.link [v, u]).weight ≤ bound) (hu : engine.Normal u) (hv : engine.Normal v)
    (hvvariable : v.isVariable = true) (hunumber : u.isNumber = false)
    (huvariable : u.isVariable = false) (hucontinues : continues c.link u = false) :
    engine.Normalizing (node c.link [v, u]) := by
  apply normalizing_link_of_laws hengine ih he hbound hv hu
  intro r hlink _ _
  cases hlink with
  | combine heq | hoist _ heq => simp [heq] at hvvariable
  | numberFirst hnumber => simp [hunumber] at hnumber
  | variableFirst hvariable => simp [huvariable] at hvariable
  | align hkind heq =>
    rw [← Bool.not_eq_true, Chain.continues_iff, heq] at hucontinues
    exact absurd hkind hucontinues

/-- A link whose right operand is neither a number nor part of the chain. -/
theorem normalizing_link_of_right {c : Chain} {u v : Expr} (he : (node c.link [u, v]).Resolved)
    (hbound : (node c.link [u, v]).weight ≤ bound) (hu : engine.Normal u) (hv : engine.Normal v)
    (hvnumber : v.isNumber = false) (hvcontinues : continues c.link v = false) :
    engine.Normalizing (node c.link [u, v]) := by
  apply normalizing_link_of_laws hengine ih he hbound hu hv
  intro r hlink hr hle
  cases hlink with
  | combine _ _ hnumber | numberFirst hnumber => simp [hvnumber] at hnumber
  | variableFirst hvariable hnumber huvariable hcontinues =>
    exact normalizing_variableFirst hengine ih hr hle hu hv hvariable hnumber huvariable
      hcontinues
  | align hkind heq =>
    rw [← Bool.not_eq_true, Chain.continues_iff, heq] at hvcontinues
    exact absurd hkind hvcontinues
  | hoist _ heq =>
    subst heq
    exact normalizing_inverse_left hengine ih hr hle ((normal_node_iff.mp hu).1 _ (by simp))

/-- A link whose left operand is a number. -/
theorem normalizing_link_of_number {c : Chain} {u v : Expr} (he : (node c.link [u, v]).Resolved)
    (hbound : (node c.link [u, v]).weight ≤ bound) (hu : engine.Normal u) (hv : engine.Normal v)
    (hunumber : u.isNumber = true) : engine.Normalizing (node c.link [u, v]) := by
  apply normalizing_link_of_laws hengine ih he hbound hu hv
  intro r hlink hr hle
  cases hlink with
  | combine heq | hoist _ heq => simp [heq] at hunumber
  | numberFirst _ hnumber | variableFirst _ hnumber => simp [hunumber] at hnumber
  | @align kind b d hkind heq =>
    subst heq
    obtain ⟨hoperands, hnone⟩ := normal_node_iff.mp hv
    have hd : engine.Normal d := hoperands d (by simp)
    rcases hkind with rfl | rfl
    · have hwell := (wellFormed_binary_iff.mp he.wellFormed).2.2
      obtain ⟨hnumber, hcontinues⟩ := hengine.right_of_link hwell hnone
      exact normalizing_of_left hengine ih hr hle hd fun w hw he hbound =>
        normalizing_link_of_right hengine ih he hbound hw hd hnumber hcontinues
    · exact normalizing_inverse_left hengine ih hr hle hd

/-- Aligning a chain makes the right operand lighter. -/
theorem normalizing_link {c : Chain} {u v : Expr} (he : (node c.link [u, v]).Resolved)
    (hbound : (node c.link [u, v]).weight ≤ bound) (hu : engine.Normal u)
    (hv : engine.Normal v) : engine.Normalizing (node c.link [u, v]) := by
  induction hweight : v.weight using Nat.strongRecOn generalizing u v with
  | ind _ ihright =>
    apply normalizing_link_of_laws hengine ih he hbound hu hv
    intro r hlink hr hle
    cases hlink with
    | combine heq hnumber _ =>
      subst heq
      have hwell := (wellFormed_binary_iff.mp he.wellFormed).2.1
      simp [(hengine.right_of_link hwell (normal_node_iff.mp hu).2).1] at hnumber
    | numberFirst hnumber => exact normalizing_link_of_number hengine ih hr hle hv hu hnumber
    | variableFirst hvariable hnumber huvariable hcontinues =>
      exact normalizing_variableFirst hengine ih hr hle hu hv hvariable hnumber huvariable
        hcontinues
    | @align kind b d hkind heq =>
      subst heq hweight
      have hd : engine.Normal d := (normal_node_iff.mp hv).1 d (by simp)
      rcases hkind with rfl | rfl
      · exact normalizing_of_left hengine ih hr hle hd fun w hw he hbound =>
          ihright d.weight (weight_lt_node _ (by simp)) he hbound hw hd rfl
      · exact normalizing_inverse_left hengine ih hr hle hd
    | hoist _ heq =>
      subst heq
      exact normalizing_inverse_left hengine ih hr hle ((normal_node_iff.mp hu).1 _ (by simp))

end Rearrangement

theorem normalizing_of_resolved (hengine : engine.IsStandard) {e : Expr} (he : e.Resolved) :
    engine.Normalizing e := by
  induction hweight : e.weight using Nat.strongRecOn generalizing e with
  | ind bound ih =>
    replace ih (e : Expr) (he : e.Resolved) (hlt : e.weight < bound) : engine.Normalizing e :=
      ih e.weight hlt he rfl
    obtain ⟨kind, es⟩ := e
    subst hweight
    obtain ⟨hlength, hkind, hes⟩ := resolved_node_iff.mp he
    obtain ⟨ns, hns, hnormal⟩ := exists_normalizesAll fun u hu =>
      (ih u (hes u hu) (weight_lt_node kind hu)).imp fun _ hn => ⟨hn, hn.normal⟩
    have hsimpler := SimplerThan.node he.wellFormed (hns.simplerThan hengine hes)
    have hresolved := hsimpler.resolved he
    suffices h : engine.Normalizing (node kind ns) by
      obtain ⟨n, hn⟩ := h
      exact ⟨n, hns.node hn⟩
    cases hchain : isChainKind kind with
    | false =>
      apply normalizing_of_laws hengine hnormal hresolved
      intro r hlaw
      have hlt := hlaw.of_other hresolved.wellFormed hchain
      exact ih r ((hlaw.simplerThan hresolved.wellFormed).resolved hresolved)
        (Nat.lt_of_lt_of_le hlt hsimpler.weight_le)
    | true =>
      rcases exists_chain hchain with ⟨c, rfl | rfl⟩
      · obtain ⟨u, v, rfl, _⟩ := hresolved.wellFormed.operands_pair c.arity_link
        exact normalizing_link hengine ih hresolved hsimpler.weight_le
          (hnormal u (by simp)) (hnormal v (by simp))
      · obtain ⟨u, v, rfl, _⟩ := hresolved.wellFormed.operands_pair c.arity_inverse
        exact normalizing_inverse hengine ih hresolved hsimpler.weight_le
          (hnormal u (by simp)) (hnormal v (by simp))

def Resolves (engine : Engine) (e : Expr) : Prop := ∃ n, engine.Normalizes e n ∧ n.Resolved

namespace IsStandard

theorem resolves (hengine : engine.IsStandard) {e : Expr} (he : e.Resolved) :
    engine.Resolves e := by
  obtain ⟨n, hn⟩ := normalizing_of_resolved hengine he
  exact ⟨n, hn, (hn.simplerThan hengine he).resolved he⟩

theorem resolves_real (hengine : engine.IsStandard) (x : Binary64) : engine.Resolves (real x) :=
  hengine.resolves (by simp [resolved_node_iff, Kind.arity])

theorem resolves_node (hengine : engine.IsStandard) {kind : Kind} {es : List Expr}
    (hlength : es.length = kind.arity) (hkind : ∀ x, kind ≠ .diff x)
    (hes : ∀ u ∈ es, engine.Resolves u) : engine.Resolves (node kind es) := by
  obtain ⟨ns, hns, hall⟩ := exists_normalizesAll hes
  have hsame : ns.length = kind.arity := hns.length_eq.trans hlength
  obtain ⟨n, hn, hresolved⟩ := hengine.resolves (resolved_node_iff.mpr ⟨hsame, hkind, hall⟩)
  exact ⟨n, hns.node hn, hresolved⟩

theorem resolves_unary (hengine : engine.IsStandard) {kind : Kind} {u : Expr}
    (harity : kind.arity = 1) (hkind : ∀ x, kind ≠ .diff x) (hu : engine.Resolves u) :
    engine.Resolves (node kind [u]) :=
  hengine.resolves_node harity.symm hkind (by simpa using hu)

theorem resolves_binary (hengine : engine.IsStandard) {kind : Kind} {u v : Expr}
    (harity : kind.arity = 2) (hu : engine.Resolves u) (hv : engine.Resolves v) :
    engine.Resolves (node kind [u, v]) := by
  refine hengine.resolves_node harity.symm ?_ (by simp [hu, hv])
  rintro x rfl
  cases harity

/-- The exponential that a power turns into has a normal form lighter than the power. -/
theorem exponential_lighter (hengine : engine.IsStandard) {b n : Expr}
    (h : (Expr.pow b n).Resolved) :
    ∃ w, engine.Normalizes (.exp (.mul b (.log n))) w ∧ w.Resolved ∧
      w.weight < (Expr.pow b n).weight := by
  obtain ⟨w, hw⟩ := normalizing_of_resolved hengine h.exponential
  have hsimpler := hw.simplerThan hengine h.exponential
  exact ⟨w, hw, hsimpler.resolved h.exponential,
    Nat.lt_of_le_of_lt hsimpler.weight_le (weight_exponential_lt b n)⟩

/-- What a law makes of a derivative resolves. Every law but one differentiates the operands of the
operand; the exponential law differentiates an expression that is lighter than the power. -/
theorem resolves_of_law (hengine : engine.IsStandard) {x : String} {u r : Expr}
    (h : Differentiation.Law (.diff x u) r) (hu : u.Resolved) (hnormal : engine.Normal u)
    (ih : ∀ w : Expr, w.Resolved → engine.Normal w → w.weight < u.weight →
      engine.Resolves (.diff x w)) : engine.Resolves r := by
  have hoperand {w : Expr} (hw : w ∈ u.operands) :
      engine.Resolves w ∧ engine.Resolves (.diff x w) := by
    obtain ⟨kind, operands⟩ := u
    have hwresolved := (resolved_node_iff.mp hu).2.2 w hw
    have hwnormal := (normal_node_iff.mp hnormal).1 w hw
    exact ⟨hengine.resolves hwresolved, ih w hwresolved hwnormal (weight_lt_node kind hw)⟩
  cases h with
  | constant | symbol => exact hengine.resolves_real _
  | @negate _ u =>
    obtain ⟨_, hdu⟩ := hoperand (w := u) (by simp [Expr.operands])
    exact hengine.resolves_unary rfl nofun hdu
  | @add _ u v | @sub _ u v =>
    obtain ⟨_, hdu⟩ := hoperand (w := u) (by simp [Expr.operands])
    obtain ⟨_, hdv⟩ := hoperand (w := v) (by simp [Expr.operands])
    exact hengine.resolves_binary rfl hdu hdv
  | @product _ u v =>
    obtain ⟨hu, hdu⟩ := hoperand (w := u) (by simp [Expr.operands])
    obtain ⟨hv, hdv⟩ := hoperand (w := v) (by simp [Expr.operands])
    exact hengine.resolves_binary rfl (hengine.resolves_binary rfl hu hdv)
      (hengine.resolves_binary rfl hv hdu)
  | @quotient _ u v =>
    obtain ⟨hu, hdu⟩ := hoperand (w := u) (by simp [Expr.operands])
    obtain ⟨hv, hdv⟩ := hoperand (w := v) (by simp [Expr.operands])
    exact hengine.resolves_binary rfl
      (hengine.resolves_binary rfl (hengine.resolves_binary rfl hv hdu)
        (hengine.resolves_binary rfl hu hdv))
      (hengine.resolves_binary rfl hv (hengine.resolves_real _))
  | @power _ b n _ =>
    obtain ⟨hb, hdb⟩ := hoperand (w := b) (by simp [Expr.operands])
    obtain ⟨hn, _⟩ := hoperand (w := n) (by simp [Expr.operands])
    exact hengine.resolves_binary rfl
      (hengine.resolves_binary rfl hn
        (hengine.resolves_binary rfl hb
          (hengine.resolves_binary rfl hn (hengine.resolves_real _)))) hdb
  | exponential =>
    obtain ⟨w, hw, hresolved, hlt⟩ := hengine.exponential_lighter hu
    obtain ⟨m, hm, hmresolved⟩ := ih w hresolved hw.normal hlt
    exact ⟨m, hw.unary hm, hmresolved⟩
  | @exp _ u =>
    obtain ⟨hu, hdu⟩ := hoperand (w := u) (by simp [Expr.operands])
    exact hengine.resolves_binary rfl (hengine.resolves_unary rfl nofun hu) hdu
  | @log _ u =>
    obtain ⟨hu, hdu⟩ := hoperand (w := u) (by simp [Expr.operands])
    exact hengine.resolves_binary rfl
      (hengine.resolves_binary rfl (hengine.resolves_real _) hu) hdu
  | @sin _ u =>
    obtain ⟨hu, hdu⟩ := hoperand (w := u) (by simp [Expr.operands])
    exact hengine.resolves_binary rfl (hengine.resolves_unary rfl nofun hu) hdu
  | @cos _ u =>
    obtain ⟨hu, hdu⟩ := hoperand (w := u) (by simp [Expr.operands])
    exact hengine.resolves_binary rfl
      (hengine.resolves_unary rfl nofun (hengine.resolves_unary rfl nofun hu)) hdu

theorem resolves_diff (hengine : engine.IsStandard) (x : String) {u : Expr} (hu : u.Resolved)
    (hnormal : engine.Normal u) : engine.Resolves (.diff x u) := by
  induction hweight : u.weight using Nat.strongRecOn generalizing u with
  | ind bound ih =>
    subst hweight
    obtain ⟨r, hcontract, hlaw⟩ := hengine.law_of_diff (x := x) hu
    obtain ⟨n, hn, hresolved⟩ := hengine.resolves_of_law hlaw hu hnormal fun w hw hwnormal hlt =>
      ih w.weight hlt hw hwnormal rfl
    exact ⟨n, normalizes_of_contract? (by simpa using hnormal) hcontract hn, hresolved⟩

theorem resolves_of_wellFormed (hengine : engine.IsStandard) {e : Expr} (he : e.WellFormed) :
    engine.Resolves e := by
  induction e using operandInduction with
  | node kind operands ih =>
    obtain ⟨hlength, hoperands⟩ := wellFormed_node_iff.mp he
    by_cases hkind : ∃ x, kind = .diff x
    · obtain ⟨x, rfl⟩ := hkind
      obtain ⟨u, rfl, hu⟩ := he.operands_singleton rfl
      obtain ⟨w, hw, hresolved⟩ := ih u (by simp) hu
      obtain ⟨n, hn, hnresolved⟩ := hengine.resolves_diff x hresolved hw.normal
      exact ⟨n, hw.unary hn, hnresolved⟩
    · apply hengine.resolves_node hlength (fun x hx => hkind ⟨x, hx⟩)
      intro u hu
      exact ih u hu (hoperands u hu)

end IsStandard

/-- The standard rules terminate without loop detection: on every well-formed expression the run
returns once its budget is large enough, with an expression that no rule matches anywhere. -/
theorem standard_rules_terminate {configuration : Configuration}
    (hoff : configuration.loopDetection = false) {e : Expr} (he : e.WellFormed) :
    ∃ least trace s,
      (∀ budget ≥ least, (Engine.new standardRules configuration).runWithin budget e =
        .done trace s) ∧
      ∀ path u, trace.expression.at? path = some u →
        ∀ rule ∈ standardRules, rule.fit? u = none := by
  have hengine := isStandard_new configuration
  obtain ⟨n, hn, _⟩ := hengine.resolves_of_wellFormed he
  obtain ⟨changed, s, hsettles⟩ := hn.settles hoff [] false (.start configuration)
  obtain ⟨least, hleast⟩ := hsettles.runWithin_eq
  refine ⟨least, _, s, hleast, fun path u hu rule hrule => ?_⟩
  have hnone := contract?_eq_none_iff.mpr (hn.normal.redex?_at hu)
  exact hengine.fit?_of_contract? hnone hrule

/-- The derivative of `x ^ x` takes the exponential law. -/
theorem standard_rules_terminate_power :
    (Expr.diff "x" (.pow (.var "x") (.var "x"))).WellFormed ∧
    ∃ least trace s,
      (∀ budget ≥ least, (Engine.new standardRules { loopDetection := false }).runWithin budget
        (.diff "x" (.pow (.var "x") (.var "x"))) = .done trace s) ∧
      ∀ path u, trace.expression.at? path = some u →
        ∀ rule ∈ standardRules, rule.fit? u = none := by
  have he : (Expr.diff "x" (.pow (.var "x") (.var "x"))).WellFormed := by
    simp [WellFormed, AllWellFormed, Kind.arity]
  exact ⟨he, standard_rules_terminate rfl he⟩

end SymbolicCalculus.Engine
