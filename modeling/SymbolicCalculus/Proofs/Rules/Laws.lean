import SymbolicCalculus.Proofs.Rules.OneStep

/-! # The laws behind the rules

On a well-formed node no standard rule fails, and what it makes of the node is given by one of the
laws below. Sums and products obey the same laws: both are chains of links with an inverse and a
neutral element.
-/
namespace SymbolicCalculus

/-- On well-formed nodes the rule never fails, and its outcome is given by the law. -/
def Rule.Follows (rule : Rule) (law : Expr → Expr → Prop) : Prop :=
  ∀ ⦃e : Expr⦄ ⦃fit : Fit⦄, e.WellFormed → rule.fit? e = some fit →
    ∃ r, rule.reduce e fit = .ok r ∧ law e r

theorem Rule.follows_ofStep {name : String} {weight : Int}
    {step : Expr → Option (Fit × Except Error Expr)} {law : Expr → Expr → Prop}
    (h : ∀ e fit outcome, e.WellFormed → step e = some (fit, outcome) →
      ∃ r, outcome = .ok r ∧ law e r) : (Rule.ofStep name weight step).Follows law := by
  intro e fit he hfit
  obtain ⟨⟨found, outcome⟩, hstep, rfl⟩ := Option.map_eq_some_iff.mp hfit
  rw [Rule.ofStep_reduce hstep]
  exact h e found outcome he hstep

theorem Rule.Follows.mono {rule : Rule} {law law' : Expr → Expr → Prop} (h : rule.Follows law)
    (himp : ∀ ⦃e r : Expr⦄, e.WellFormed → law e r → law' e r) : rule.Follows law' := by
  intro e fit he hfit
  obtain ⟨r, hr, hlaw⟩ := h he hfit
  exact ⟨r, hr, himp he hlaw⟩

namespace Simplification

open SymbolicCalculus.Expr

inductive Chain
  | sum
  | product

namespace Chain

def link : Chain → Kind
  | sum => .add
  | product => .mul

def inverse : Chain → Kind
  | sum => .sub
  | product => .div

def neutral : Chain → Binary64
  | sum => .zero
  | product => .one

theorem arity_link (c : Chain) : c.link.arity = 2 := by
  cases c <;> rfl

theorem arity_inverse (c : Chain) : c.inverse.arity = 2 := by
  cases c <;> rfl

theorem link_ne_inverse (c d : Chain) : c.link ≠ d.inverse := by
  cases c <;> cases d <;> decide

theorem link_inj {c d : Chain} (h : c.link = d.link) : c = d := by
  cases c <;> cases d <;> simp_all [link]

theorem inverse_inj {c d : Chain} (h : c.inverse = d.inverse) : c = d := by
  cases c <;> cases d <;> simp_all [inverse]

theorem continues_iff {c : Chain} {e : Expr} :
    continues c.link e = true ↔ e.kind = c.link ∨ e.kind = c.inverse := by
  obtain ⟨kind, operands⟩ := e
  cases c <;> cases kind <;> simp [continues, link, inverse, Expr.kind]

theorem undone?_eq_some {kind link : Kind} {neutral : Binary64}
    (h : undone? kind = some (link, neutral)) :
    ∃ c : Chain, kind = c.inverse ∧ link = c.link ∧ neutral = c.neutral := by
  unfold undone? at h
  split at h
  · cases h
    exact ⟨sum, rfl, rfl, rfl⟩
  · cases h
    exact ⟨product, rfl, rfl, rfl⟩
  · cases h

end Chain

inductive LinkLaw (c : Chain) (u v : Expr) : Expr → Prop
  | combine {p r : Expr} : u = .node c.link [p, r] → r.isNumber = true → v.isNumber = true →
    LinkLaw c u v (.node c.link [p, .node c.link [r, v]])
  | numberFirst : v.isNumber = true → u.isNumber = false → LinkLaw c u v (.node c.link [v, u])
  | variableFirst : v.isVariable = true → u.isNumber = false → u.isVariable = false →
    continues c.link u = false → LinkLaw c u v (.node c.link [v, u])
  | align {kind : Kind} {b d : Expr} : kind = c.link ∨ kind = c.inverse → v = .node kind [b, d] →
    LinkLaw c u v (.node kind [.node c.link [u, b], d])
  | hoist {a b : Expr} : c = .product → u = .node c.inverse [a, b] →
    LinkLaw c u v (.node c.inverse [.node c.link [a, v], b])

inductive InverseLaw (c : Chain) (u v : Expr) : Expr → Prop
  | combine {p r : Expr} : u = .node c.inverse [p, r] → r.isNumber = true → v.isNumber = true →
    InverseLaw c u v (.node c.inverse [p, .node c.link [r, v]])
  | cancel {symbol : String} {r : Expr} : v.variableName? = some symbol →
    neutralize c.link symbol c.neutral u = .ok r → InverseLaw c u v r

inductive IdentityLaw : Expr → Expr → Prop
  | pow_one {u v : Expr} : v.isNumberOf .one = true → IdentityLaw (.pow u v) u
  | pow_zero {u v : Expr} : v.isNumberOf .zero = true → IdentityLaw (.pow u v) (.real .one)
  | one_mul {u v : Expr} : u.isNumberOf .one = true → IdentityLaw (.mul u v) v
  | zero_mul {u v : Expr} : u.isNumberOf .zero = true → IdentityLaw (.mul u v) (.real .zero)
  | zero_add {u v : Expr} : u.isNumberOf .zero = true → IdentityLaw (.add u v) v
  | add_zero {u v : Expr} : v.isNumberOf .zero = true → IdentityLaw (.add u v) u
  | sub_zero {u v : Expr} : v.isNumberOf .zero = true → IdentityLaw (.sub u v) u
  | sub_self {u v : Expr} : sameVariable u v = true → IdentityLaw (.sub u v) (.real .zero)
  | div_self {u v : Expr} : sameVariable u v = true → IdentityLaw (.div u v) (.real .one)
  | zero_div {u v : Expr} : u.isNumberOf .zero = true → IdentityLaw (.div u v) (.real .zero)

theorem identityLaw_of_identityCase {e r : Expr} {fit : Fit}
    (h : identityCase e = some (fit, r)) : IdentityLaw e r := by
  unfold identityCase at h
  split at h
  · split at h
    · rename_i hv
      cases h
      exact .pow_one hv
    · split at h <;> cases h
      exact .pow_zero ‹_›
  · split at h
    · rename_i hu
      cases h
      exact .one_mul hu
    · split at h <;> cases h
      exact .zero_mul ‹_›
  · split at h
    · rename_i hu
      cases h
      exact .zero_add hu
    · split at h <;> cases h
      exact .add_zero ‹_›
  · split at h
    · rename_i hv
      cases h
      exact .sub_zero hv
    · split at h <;> cases h
      exact .sub_self ‹_›
  · split at h
    · rename_i hsame
      cases h
      exact .div_self hsame
    · split at h <;> cases h
      exact .zero_div ‹_›
  · cases h

inductive Law : Expr → Expr → Prop
  | evaluate {e : Expr} {x : Binary64} : e.isNumber = false → e.isOpen = false →
    e.evaluate = .ok x → Law e (.real x)
  | identity {e r : Expr} {fit : Fit} : identityCase e = some (fit, r) → Law e r
  | link {c : Chain} {u v r : Expr} : LinkLaw c u v r → Law (.node c.link [u, v]) r
  | inverse {c : Chain} {u v r : Expr} : InverseLaw c u v r → Law (.node c.inverse [u, v]) r

/-- The laws of simplification that compute nothing. -/
inductive AlgebraicLaw : Expr → Expr → Prop
  | identity {e r : Expr} {fit : Fit} : identityCase e = some (fit, r) → AlgebraicLaw e r
  | link {c : Chain} {u v r : Expr} : LinkLaw c u v r → AlgebraicLaw (.node c.link [u, v]) r
  | inverse {c : Chain} {u v r : Expr} : InverseLaw c u v r →
    AlgebraicLaw (.node c.inverse [u, v]) r

theorem AlgebraicLaw.law {e r : Expr} (h : AlgebraicLaw e r) : Law e r := by
  cases h with
  | identity hcase => exact .identity hcase
  | link hlink => exact .link hlink
  | inverse hinverse => exact .inverse hinverse

theorem follows_evaluate : evaluate.Follows Law := by
  rw [evaluate_eq]
  apply Rule.follows_ofStep
  intro e fit outcome he h
  unfold evaluateStep at h
  split at h
  · cases h
  · rename_i hclosed
    simp only [Bool.or_eq_true, not_or, Bool.not_eq_true] at hclosed
    obtain ⟨x, hx⟩ := he.evaluate_eq_ok hclosed.2
    simp only [hx, Option.some.injEq, Prod.mk.injEq] at h
    exact ⟨_, h.2.symm, .evaluate hclosed.1 hclosed.2 hx⟩

theorem follows_succeeding {name : String} {weight : Int} {case : Expr → Option (Fit × Expr)}
    (h : ∀ e fit r, case e = some (fit, r) → AlgebraicLaw e r) :
    (Rule.ofStep name weight (succeeding case)).Follows AlgebraicLaw := by
  apply Rule.follows_ofStep
  intro e fit outcome _ hstep
  obtain ⟨⟨found, r⟩, hcase, hpair⟩ := Option.map_eq_some_iff.mp hstep
  cases hpair
  exact ⟨r, rfl, h e _ r hcase⟩

theorem follows_identity : identity.Follows AlgebraicLaw := by
  rw [identity_eq]
  exact follows_succeeding fun _ _ _ h => .identity h

/-- Numbers that lead on both sides are brought together by aligning. -/
theorem combineAssociative_law {c : Chain} {u v r : Expr} {fit : Fit}
    (h : combineAssociative c.link u v = some (fit, r)) : LinkLaw c u v r := by
  unfold combineAssociative at h
  split at h
  · rename_i p q htrailing
    cases h
    obtain ⟨hu, hq, hv⟩ := trailing?_eq_some htrailing
    exact .combine hu hq hv
  · split at h
    · rename_i q p hleading
      cases h
      exact .align (.inl rfl) (leading?_eq_some hleading)
    · cases h

theorem combineInverse_law {c : Chain} {u v r : Expr} {fit tag : Fit}
    (h : ((trailing? c.inverse u v).map fun (p, r) =>
      (tag, Expr.node c.inverse [p, .node c.link [r, v]])) = some (fit, r)) :
    InverseLaw c u v r := by
  obtain ⟨⟨p, q⟩, htrailing, hpair⟩ := Option.map_eq_some_iff.mp h
  cases hpair
  obtain ⟨hu, hq, hv⟩ := trailing?_eq_some htrailing
  exact .combine hu hq hv

theorem follows_combine : combine.Follows AlgebraicLaw := by
  rw [combine_eq]
  apply follows_succeeding
  intro e fit r h
  unfold combineCase at h
  split at h
  · exact @AlgebraicLaw.link .sum _ _ _ (combineAssociative_law h)
  · exact @AlgebraicLaw.link .product _ _ _ (combineAssociative_law h)
  · exact @AlgebraicLaw.inverse .sum _ _ _ (combineInverse_law h)
  · exact @AlgebraicLaw.inverse .product _ _ _ (combineInverse_law h)
  · cases h

theorem reorderOperands_law {c : Chain} {u v r : Expr} {fit : Fit}
    (h : reorderOperands c.link u v = some (fit, r)) : LinkLaw c u v r := by
  unfold reorderOperands at h
  split at h
  · rename_i hv
    simp only [Bool.and_eq_true, Bool.not_eq_true'] at hv
    cases h
    exact .numberFirst hv.1 hv.2
  · split at h
    · rename_i hv
      simp only [Bool.and_eq_true, Bool.not_eq_true'] at hv
      obtain ⟨⟨⟨hv, hnumber⟩, hvariable⟩, hcontinues⟩ := hv
      cases h
      exact .variableFirst hv hnumber hvariable hcontinues
    · cases h

theorem follows_reorder : reorder.Follows AlgebraicLaw := by
  rw [reorder_eq]
  apply follows_succeeding
  intro e fit r h
  unfold reorderCase at h
  split at h
  · exact @AlgebraicLaw.link .sum _ _ _ (reorderOperands_law h)
  · exact @AlgebraicLaw.link .product _ _ _ (reorderOperands_law h)
  · cases h

theorem alignOperands_law {name : String} {c : Chain} {u v : Expr} {fit : Fit}
    {outcome : Except Error Expr} (hv : v.WellFormed)
    (h : alignOperands name c.link u v = some (fit, outcome)) :
    ∃ r, outcome = .ok r ∧ LinkLaw c u v r := by
  unfold alignOperands at h
  split at h
  · rename_i hcontinues
    obtain ⟨kind, operands⟩ := v
    rw [Chain.continues_iff, Expr.kind] at hcontinues
    have hkind : kind.arity = 2 := by
      rcases hcontinues with rfl | rfl
      · exact c.arity_link
      · exact c.arity_inverse
    obtain ⟨b, d, rfl, _⟩ := hv.operands_pair hkind
    cases h
    exact ⟨_, rfl, .align hcontinues rfl⟩
  · cases h

theorem follows_leftAlign : leftAlign.Follows AlgebraicLaw := by
  rw [leftAlign_eq]
  apply Rule.follows_ofStep
  intro e fit outcome he h
  unfold leftAlignStep at h
  split at h
  · obtain ⟨r, hr, hlaw⟩ := alignOperands_law (c := .sum) (wellFormed_binary_iff.mp he).2.2 h
    exact ⟨r, hr, @AlgebraicLaw.link .sum _ _ _ hlaw⟩
  · obtain ⟨r, hr, hlaw⟩ := alignOperands_law (c := .product) (wellFormed_binary_iff.mp he).2.2 h
    exact ⟨r, hr, @AlgebraicLaw.link .product _ _ _ hlaw⟩
  · cases h

theorem follows_hoistDivision : hoistDivision.Follows AlgebraicLaw := by
  rw [hoistDivision_eq]
  apply Rule.follows_ofStep
  intro e fit outcome he h
  unfold hoistDivisionStep at h
  split at h
  · rename_i u d
    split at h
    · rename_i hkind
      obtain ⟨kind, operands⟩ := u
      obtain rfl : kind = .div := hkind
      obtain ⟨a, b, rfl, _⟩ := (wellFormed_binary_iff.mp he).2.1.operands_pair rfl
      cases h
      exact ⟨_, rfl, @AlgebraicLaw.link .product _ _ _ (.hoist rfl rfl)⟩
    · cases h
  · cases h

/-- A variable on the spine can be replaced. -/
theorem neutralize_of_isOnSpine {link : Kind} {symbol : String} (neutral : Binary64) {e : Expr}
    (h : isOnSpine link symbol e = true) : ∃ r, neutralize link symbol neutral e = .ok r := by
  fun_induction isOnSpine link symbol e with
  | case1 kind left right ih =>
    simp only [Bool.and_eq_true, decide_eq_true_eq, Bool.or_eq_true, beq_iff_eq] at h
    obtain ⟨rfl, h⟩ := h
    rw [neutralize, if_pos rfl]
    by_cases hright : right.variableName? = some symbol
    · exact ⟨_, if_pos hright⟩
    · obtain ⟨r, hr⟩ := ih (h.resolve_left hright)
      rw [if_neg hright, hr]
      exact ⟨_, rfl⟩
  | case2 => cases h

theorem follows_cancel : cancel.Follows AlgebraicLaw := by
  rw [cancel_eq]
  apply Rule.follows_ofStep
  intro e fit outcome _ h
  unfold cancelStep at h
  split at h
  · split at h
    · rename_i hundone hright
      split at h
      · rename_i hspine
        obtain ⟨c, rfl, rfl, rfl⟩ := Chain.undone?_eq_some hundone
        obtain ⟨r, hr⟩ := neutralize_of_isOnSpine c.neutral hspine
        rw [hr] at h
        cases h
        exact ⟨r, rfl, .inverse (.cancel hright hr)⟩
      · cases h
    · cases h
  · cases h

def algebraicRules : List Rule := [identity, combine, reorder, leftAlign, hoistDivision, cancel]

theorem follows_of_mem_algebraicRules {rule : Rule} (h : rule ∈ algebraicRules) :
    rule.Follows AlgebraicLaw := by
  simp only [algebraicRules, List.mem_cons, List.not_mem_nil, or_false] at h
  rcases h with rfl | rfl | rfl | rfl | rfl | rfl
  · exact follows_identity
  · exact follows_combine
  · exact follows_reorder
  · exact follows_leftAlign
  · exact follows_hoistDivision
  · exact follows_cancel

theorem follows_of_mem {rule : Rule} (h : rule ∈ rules) : rule.Follows Law := by
  rcases List.mem_cons.mp h with rfl | hmem
  · exact follows_evaluate
  · exact (follows_of_mem_algebraicRules hmem).mono fun _ _ _ hlaw => hlaw.law

end Simplification

namespace Differentiation

open SymbolicCalculus.Expr

inductive Law : Expr → Expr → Prop
  | constant {x : String} {u : Expr} : u.mentions (some x) = false →
    Law (.diff x u) (.real .zero)
  | symbol {x : String} : Law (.diff x (.var x)) (.real .one)
  | negate {x : String} {u : Expr} : Law (.diff x (.neg u)) (.neg (.diff x u))
  | add {x : String} {u v : Expr} : Law (.diff x (.add u v)) (.add (.diff x u) (.diff x v))
  | sub {x : String} {u v : Expr} : Law (.diff x (.sub u v)) (.sub (.diff x u) (.diff x v))
  | product {x : String} {u v : Expr} : Law (.diff x (.mul u v)) (productRule x u v)
  | quotient {x : String} {u v : Expr} : Law (.diff x (.div u v)) (quotientRule x u v)
  | power {x : String} {b n : Expr} : n.mentions (some x) = false →
    Law (.diff x (.pow b n)) (powerRule x b n)
  | exponential {x : String} {b n : Expr} : n.mentions (some x) = true →
    Law (.diff x (.pow b n)) (exponentialRule x b n)
  | exp {x : String} {u : Expr} : Law (.diff x (.exp u)) (.mul (.exp u) (.diff x u))
  | log {x : String} {u : Expr} :
    Law (.diff x (.log u)) (.mul (.div (.real .one) u) (.diff x u))
  | sin {x : String} {u : Expr} : Law (.diff x (.sin u)) (.mul (.cos u) (.diff x u))
  | cos {x : String} {u : Expr} : Law (.diff x (.cos u)) (.mul (.neg (.sin u)) (.diff x u))

theorem follows_onDerivative {name : String} {weight : Int}
    {case : String → Expr → Option (Fit × Except Error Expr)}
    (h : ∀ x u fit outcome, u.WellFormed → case x u = some (fit, outcome) →
      ∃ r, outcome = .ok r ∧ Law (.diff x u) r) :
    (Rule.ofStep name weight (onDerivative case)).Follows Law := by
  apply Rule.follows_ofStep
  intro e fit outcome he hstep
  obtain ⟨x, u, rfl, hcase⟩ := exists_of_onDerivative hstep
  exact h x u fit outcome (wellFormed_unary_iff.mp he).2 hcase

theorem unary_law {name x : String} {kind : Kind} {operands : List Expr} {f : Expr → Expr}
    (hu : (node kind operands).WellFormed) (hkind : kind.arity = 1)
    (hlaw : ∀ u, Law (.diff x (.node kind [u])) (f u)) :
    ∃ r, unary name (.node kind operands) f = .ok r ∧ Law (.diff x (.node kind operands)) r := by
  obtain ⟨u, rfl, _⟩ := hu.operands_singleton hkind
  exact ⟨f u, rfl, hlaw u⟩

theorem binary_law {name x : String} {kind : Kind} {operands : List Expr}
    {f : Expr → Expr → Expr} (hu : (node kind operands).WellFormed) (hkind : kind.arity = 2)
    (hlaw : ∀ u v, Law (.diff x (.node kind [u, v])) (f u v)) :
    ∃ r, binary name (.node kind operands) f = .ok r ∧ Law (.diff x (.node kind operands)) r := by
  obtain ⟨u, v, rfl, _⟩ := hu.operands_pair hkind
  exact ⟨f u v, rfl, hlaw u v⟩

theorem follows_constant : constant.Follows Law := by
  rw [constant_eq]
  apply follows_onDerivative
  intro x u fit outcome _ h
  unfold constantCase at h
  split at h
  · cases h
  · rename_i hmentions
    cases h
    exact ⟨_, rfl, .constant (by simpa using hmentions)⟩

theorem follows_arithmetic : arithmetic.Follows Law := by
  rw [arithmetic_eq]
  apply follows_onDerivative
  rintro x ⟨kind, operands⟩ fit outcome hu h
  cases kind with
  | negate =>
    cases h
    exact unary_law hu rfl fun _ => .negate
  | add =>
    cases h
    exact binary_law hu rfl fun _ _ => .add
  | sub =>
    cases h
    exact binary_law hu rfl fun _ _ => .sub
  | mul =>
    cases h
    exact binary_law hu rfl fun _ _ => .product
  | div =>
    cases h
    exact binary_law hu rfl fun _ _ => .quotient
  | var | real | integer | sin | cos | exp | log | diff | pow => cases h

theorem follows_power : power.Follows Law := by
  rw [power_eq]
  apply follows_onDerivative
  rintro x ⟨kind, operands⟩ fit outcome hu h
  unfold powerCase at h
  split at h
  · rename_i hname
    cases h
    cases kind <;> cases hname
    obtain rfl := hu.operands_nil rfl
    exact ⟨_, rfl, .symbol⟩
  · split at h
    · rename_i b n heq
      cases heq
      split at h
      · rename_i hmentions
        cases h
        exact ⟨_, rfl, .exponential hmentions⟩
      · rename_i hmentions
        cases h
        exact ⟨_, rfl, .power (by simpa using hmentions)⟩
    · cases h

theorem follows_expLog : expLog.Follows Law := by
  rw [expLog_eq]
  apply follows_onDerivative
  rintro x ⟨kind, operands⟩ fit outcome hu h
  cases kind with
  | exp =>
    cases h
    exact unary_law hu rfl fun _ => .exp
  | log =>
    cases h
    exact unary_law hu rfl fun _ => .log
  | var | real | integer | negate | sin | cos | diff | add | sub | mul | div | pow => cases h

theorem follows_trig : trig.Follows Law := by
  rw [trig_eq]
  apply follows_onDerivative
  rintro x ⟨kind, operands⟩ fit outcome hu h
  cases kind with
  | sin =>
    cases h
    exact unary_law hu rfl fun _ => .sin
  | cos =>
    cases h
    exact unary_law hu rfl fun _ => .cos
  | var | real | integer | negate | exp | log | diff | add | sub | mul | div | pow => cases h

theorem follows_of_mem {rule : Rule} (h : rule ∈ rules) : rule.Follows Law := by
  simp only [rules, List.mem_cons, List.not_mem_nil, or_false] at h
  rcases h with rfl | rfl | rfl | rfl | rfl
  · exact follows_constant
  · exact follows_arithmetic
  · exact follows_power
  · exact follows_expLog
  · exact follows_trig

end Differentiation

end SymbolicCalculus
