import Mathlib.Data.List.Forall2
import SymbolicCalculus.Proofs.Rules.Laws

/-! # Simpler expressions

The laws of simplification keep an expression well formed, bring no new symbols into it and do not
make it heavier. Evaluating, applying an identity and cancelling make it lighter; the other laws
only rearrange the operands of a chain.
-/
namespace SymbolicCalculus.Expr

structure SimplerThan (r e : Expr) : Prop where
  wellFormed : r.WellFormed
  symbols : ∀ k ∈ r.symbols, k ∈ e.symbols
  weight_le : r.weight ≤ e.weight

namespace SimplerThan

theorem refl {e : Expr} (he : e.WellFormed) : e.SimplerThan e :=
  ⟨he, fun _ hk => hk, Nat.le_refl _⟩

theorem trans {n r e : Expr} (hn : n.SimplerThan r) (hr : r.SimplerThan e) : n.SimplerThan e :=
  ⟨hn.wellFormed, fun k hk => hr.symbols k (hn.symbols k hk),
    Nat.le_trans hn.weight_le hr.weight_le⟩

theorem real (x : Binary64) (e : Expr) : (Expr.real x).SimplerThan e := by
  refine ⟨wellFormed_real x, by simp [symbols_node, Kind.isSymbol], ?_⟩
  rw [weight_real]
  exact weight_pos e

theorem operand {kind : Kind} {operands : List Expr} {u : Expr}
    (he : (node kind operands).WellFormed) (hu : u ∈ operands) :
    u.SimplerThan (node kind operands) := by
  refine ⟨(wellFormed_node_iff.mp he).2 u hu, fun k hk => ?_, ?_⟩
  · rw [symbols_node]
    exact List.mem_append_right _ (List.mem_flatten.mpr ⟨_, List.mem_map_of_mem hu, hk⟩)
  · exact Nat.le_of_lt (weight_lt_node kind hu)

theorem node {kind : Kind} {ns es : List Expr} (he : (Expr.node kind es).WellFormed)
    (h : List.Forall₂ SimplerThan ns es) : (Expr.node kind ns).SimplerThan (Expr.node kind es) := by
  have hall : (∀ n ∈ ns, n.WellFormed) ∧
      (∀ k ∈ (ns.map Expr.symbols).flatten, k ∈ (es.map Expr.symbols).flatten) ∧
        (ns.map weight).sum ≤ (es.map weight).sum := by
    clear he
    induction h with
    | nil => simp
    | cons hfirst _ ih =>
      obtain ⟨hwell, hsymbols, hweight⟩ := ih
      refine ⟨List.forall_mem_cons.mpr ⟨hfirst.wellFormed, hwell⟩, fun k hk => ?_, ?_⟩
      · rw [List.map_cons, List.flatten_cons, List.mem_append] at hk ⊢
        exact hk.imp (hfirst.symbols k) (hsymbols k)
      · rw [List.map_cons, List.map_cons, List.sum_cons, List.sum_cons]
        exact Nat.add_le_add hfirst.weight_le hweight
  obtain ⟨hwell, hsymbols, hweight⟩ := hall
  refine ⟨wellFormed_node_iff.mpr ⟨?_, hwell⟩, fun k hk => ?_, ?_⟩
  · rw [h.length_eq]
    exact (wellFormed_node_iff.mp he).1
  · rw [symbols_node, List.mem_append] at hk ⊢
    exact hk.imp_right (hsymbols k)
  · rw [weight_node, weight_node]
    exact Nat.add_le_add_right hweight _

end SimplerThan

structure Resolved (e : Expr) : Prop where
  wellFormed : e.WellFormed
  noDiff : ∀ x, Kind.diff x ∉ e.symbols

theorem SimplerThan.resolved {r e : Expr} (h : r.SimplerThan e) (he : e.Resolved) : r.Resolved :=
  ⟨h.wellFormed, fun x hx => he.noDiff x (h.symbols _ hx)⟩

theorem resolved_node_iff {kind : Kind} {operands : List Expr} :
    (node kind operands).Resolved ↔
      operands.length = kind.arity ∧ (∀ x, kind ≠ .diff x) ∧ ∀ u ∈ operands, u.Resolved := by
  constructor
  · intro h
    refine ⟨(wellFormed_node_iff.mp h.wellFormed).1, ?_, fun u hu => ?_⟩
    · rintro x rfl
      exact h.noDiff x (by simp [symbols_node, Kind.isSymbol])
    · exact (SimplerThan.operand h.wellFormed hu).resolved h
  · rintro ⟨hlength, hkind, hoperands⟩
    refine ⟨wellFormed_node_iff.mpr ⟨hlength, fun u hu => (hoperands u hu).wellFormed⟩, ?_⟩
    intro x hx
    rw [symbols_node, List.mem_append] at hx
    rcases hx with hx | hx
    · split at hx
      · exact hkind x (List.mem_singleton.mp hx).symm
      · cases hx
    · obtain ⟨l, hl, hx⟩ := List.mem_flatten.mp hx
      obtain ⟨u, hu, rfl⟩ := List.mem_map.mp hl
      exact (hoperands u hu).noDiff x hx

theorem Resolved.exponential {b n : Expr} (h : (pow b n).Resolved) :
    (exp (mul b (log n))).Resolved := by
  simp_all [resolved_node_iff, Kind.arity]

end SymbolicCalculus.Expr

namespace SymbolicCalculus.Simplification

open SymbolicCalculus.Expr

def isChainKind : Kind → Bool
  | .add | .sub | .mul | .div => true
  | _ => false

@[simp] theorem Chain.isChainKind_link (c : Chain) : isChainKind c.link = true := by
  cases c <;> rfl

@[simp] theorem Chain.isChainKind_inverse (c : Chain) : isChainKind c.inverse = true := by
  cases c <;> rfl

theorem exists_chain {kind : Kind} (h : isChainKind kind = true) :
    ∃ c : Chain, kind = c.link ∨ kind = c.inverse := by
  cases kind with
  | add => exact ⟨.sum, .inl rfl⟩
  | sub => exact ⟨.sum, .inr rfl⟩
  | mul => exact ⟨.product, .inl rfl⟩
  | div => exact ⟨.product, .inr rfl⟩
  | var | real | integer | negate | sin | cos | exp | log | diff | pow => cases h

section

variable {kind : Kind} {u v : Expr}

@[simp] theorem wellFormed_chain_iff (h : isChainKind kind = true) :
    (node kind [u, v]).WellFormed ↔ u.WellFormed ∧ v.WellFormed := by
  cases kind <;> simp_all [wellFormed_binary_iff, Kind.arity, isChainKind]

@[simp] theorem symbols_chain (h : isChainKind kind = true) :
    (node kind [u, v]).symbols = u.symbols ++ v.symbols := by
  cases kind <;> simp_all [symbols_node, Kind.isSymbol, isChainKind]

@[simp] theorem weight_chain (h : isChainKind kind = true) :
    (node kind [u, v]).weight = u.weight + v.weight + 1 := by
  cases kind <;> simp_all [weight_node, isChainKind]

@[simp] theorem isNumber_chain {operands : List Expr} (h : isChainKind kind = true) :
    (node kind operands).isNumber = false := by
  cases kind <;> simp_all [isNumber, number?, Expr.kind, isChainKind]

@[simp] theorem isVariable_chain {operands : List Expr} (h : isChainKind kind = true) :
    (node kind operands).isVariable = false := by
  cases kind <;> simp_all [isVariable, variableName?, Expr.kind, isChainKind]

end

/-- Rearranging a chain loses nothing and adds nothing. -/
theorem LinkLaw.simplerThan {c : Chain} {u v r : Expr} (h : LinkLaw c u v r)
    (he : (node c.link [u, v]).WellFormed) : r.SimplerThan (node c.link [u, v]) := by
  cases h with
  | combine heq _ _ =>
    subst heq
    exact ⟨by simp_all, by simp, by simp only [weight_chain, c.isChainKind_link]; omega⟩
  | numberFirst | variableFirst =>
    exact ⟨by simp_all, by simp [or_comm], by simp only [weight_chain, c.isChainKind_link]; omega⟩
  | align hkind heq =>
    subst heq
    rcases hkind with rfl | rfl
    · exact ⟨by simp_all, by simp, by simp only [weight_chain, c.isChainKind_link]; omega⟩
    · refine ⟨by simp_all, by simp, ?_⟩
      simp only [weight_chain, c.isChainKind_link, c.isChainKind_inverse]
      omega
  | hoist _ heq =>
    subst heq
    refine ⟨by simp_all, by simp [or_comm], ?_⟩
    simp only [weight_chain, c.isChainKind_link, c.isChainKind_inverse]
    omega

theorem identityCase_eq_some {e r : Expr} {fit : Fit} (h : identityCase e = some (fit, r)) :
    ∃ kind u v, e = node kind [u, v] ∧ (r = u ∨ r = v ∨ ∃ x, r = .real x) := by
  cases identityLaw_of_identityCase h with
  | pow_one | add_zero | sub_zero => exact ⟨_, _, _, rfl, .inl rfl⟩
  | one_mul | zero_add => exact ⟨_, _, _, rfl, .inr (.inl rfl)⟩
  | pow_zero | zero_mul | sub_self | div_self | zero_div =>
    exact ⟨_, _, _, rfl, .inr (.inr ⟨_, rfl⟩)⟩

theorem real_lighter {kind : Kind} {u : Expr} {operands : List Expr} (x : Binary64)
    (hu : u ∈ operands) : (real x).weight < (node kind operands).weight := by
  rw [weight_real]
  exact Nat.lt_of_le_of_lt (weight_pos u) (weight_lt_node kind hu)

theorem identityCase_simpler {e r : Expr} {fit : Fit} (he : e.WellFormed)
    (h : identityCase e = some (fit, r)) : r.SimplerThan e ∧ r.weight < e.weight := by
  rcases identityCase_eq_some h with ⟨kind, u, v, rfl, rfl | rfl | ⟨x, rfl⟩⟩
  · exact ⟨.operand he (by simp), weight_lt_node kind (by simp)⟩
  · exact ⟨.operand he (by simp), weight_lt_node kind (by simp)⟩
  · exact ⟨.real x _, real_lighter (u := u) x (by simp)⟩

theorem evaluated_lighter {e : Expr} (he : e.WellFormed) (hnumber : e.isNumber = false)
    (hclosed : e.isOpen = false) (x : Binary64) : (real x).weight < e.weight := by
  obtain ⟨kind, operands⟩ := e
  match operands with
  | u :: operands => exact real_lighter x (List.mem_cons_self)
  | [] =>
    have harity : kind.arity = 0 := (wellFormed_node_iff.mp he).1.symm
    rw [isOpen_node] at hclosed
    cases kind <;> simp_all [Kind.arity, Kind.isSymbol, isNumber, number?, Expr.kind]

theorem neutralize_simpler {c : Chain} {symbol : String} {neutral : Binary64} {e r : Expr}
    (he : e.WellFormed) (h : neutralize c.link symbol neutral e = .ok r) : r.SimplerThan e := by
  fun_induction neutralize c.link symbol neutral e generalizing r with
  | case1 left right hright =>
    cases h
    refine .node he (.cons (.refl ?_) (.cons (.real neutral right) .nil))
    exact (wellFormed_binary_iff.mp he).2.1
  | case2 left right hright n hn ih =>
    cases h
    obtain ⟨_, hleft, hwell⟩ := wellFormed_binary_iff.mp he
    exact .node he (.cons (ih hleft hn) (.cons (.refl hwell) .nil))
  | case3 => cases h
  | case4 => cases h
  | case5 => cases h

theorem Law.simplerThan {e r : Expr} (h : Law e r) (he : e.WellFormed) : r.SimplerThan e := by
  cases h with
  | evaluate => exact .real _ e
  | identity hcase => exact (identityCase_simpler he hcase).1
  | link hlink => exact hlink.simplerThan he
  | @inverse c u v _ hinverse =>
    cases hinverse with
    | combine heq _ _ =>
      subst heq
      refine ⟨by simp_all, by simp, ?_⟩
      simp only [weight_chain, c.isChainKind_link, c.isChainKind_inverse]
      omega
    | cancel _ hr =>
      have hu : u.WellFormed := (wellFormed_binary_iff.mp he).2.1
      exact (neutralize_simpler hu hr).trans (.operand he (by simp))

/-- A link becomes lighter or is rearranged. -/
theorem Law.of_link {c : Chain} {u v r : Expr} (h : Law (node c.link [u, v]) r)
    (he : (node c.link [u, v]).WellFormed) :
    r.weight < (node c.link [u, v]).weight ∨ LinkLaw c u v r := by
  generalize heq : node c.link [u, v] = e at h he
  cases h with
  | evaluate hnumber hclosed _ => exact .inl (evaluated_lighter he hnumber hclosed _)
  | identity hcase => exact .inl (identityCase_simpler he hcase).2
  | link hlink =>
    simp only [node.injEq, List.cons.injEq, and_true] at heq
    obtain ⟨hkind, rfl, rfl⟩ := heq
    obtain rfl := Chain.link_inj hkind
    exact .inr hlink
  | inverse =>
    simp only [node.injEq] at heq
    exact absurd heq.1 (Chain.link_ne_inverse _ _)

/-- An inverse becomes lighter, or the numbers on its right are brought together. -/
theorem Law.of_inverse {c : Chain} {u v r : Expr} (h : Law (node c.inverse [u, v]) r)
    (he : (node c.inverse [u, v]).WellFormed) :
    r.weight < (node c.inverse [u, v]).weight ∨
      ∃ p q, u = node c.inverse [p, q] ∧ q.isNumber = true ∧ v.isNumber = true ∧
        r = node c.inverse [p, node c.link [q, v]] := by
  generalize heq : node c.inverse [u, v] = e at h he
  cases h with
  | evaluate hnumber hclosed _ => exact .inl (evaluated_lighter he hnumber hclosed _)
  | identity hcase => exact .inl (identityCase_simpler he hcase).2
  | link =>
    simp only [node.injEq] at heq
    exact absurd heq.1.symm (Chain.link_ne_inverse _ _)
  | inverse hinverse =>
    simp only [node.injEq, List.cons.injEq, and_true] at heq
    obtain ⟨hkind, rfl, rfl⟩ := heq
    obtain rfl := Chain.inverse_inj hkind
    cases hinverse with
    | combine hu hq hv => exact .inr ⟨_, _, hu, hq, hv, rfl⟩
    | cancel _ hr =>
      have hle := (neutralize_simpler (wellFormed_binary_iff.mp he).2.1 hr).weight_le
      exact .inl (Nat.lt_of_le_of_lt hle (weight_lt_node _ (by simp)))

/-- Everything else becomes lighter. -/
theorem Law.of_other {kind : Kind} {operands : List Expr} {r : Expr}
    (h : Law (node kind operands) r) (he : (node kind operands).WellFormed)
    (hkind : isChainKind kind = false) : r.weight < (node kind operands).weight := by
  generalize heq : node kind operands = e at h he
  cases h with
  | evaluate hnumber hclosed _ => exact evaluated_lighter he hnumber hclosed _
  | identity hcase => exact (identityCase_simpler he hcase).2
  | link | inverse =>
    simp only [node.injEq] at heq
    simp [heq.1] at hkind

/-- Two numbers are not rearranged. -/
theorem LinkLaw.not_numbers {c : Chain} {u v r : Expr} (h : LinkLaw c u v r)
    (hu : u.isNumber = true) : v.isNumber = false := by
  cases h with
  | combine heq | hoist _ heq => simp [heq] at hu
  | numberFirst _ hnumber | variableFirst _ hnumber => simp [hu] at hnumber
  | align hkind heq =>
    rcases hkind with rfl | rfl
    · simp [heq]
    · simp [heq]

end SymbolicCalculus.Simplification
