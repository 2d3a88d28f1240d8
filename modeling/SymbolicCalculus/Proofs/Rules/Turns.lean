import SymbolicCalculus.Proofs.Reduction.RuleSequence
import SymbolicCalculus.Proofs.Rules.Inversion
import SymbolicCalculus.Proofs.Rules.Termination

/-! # What becomes of a node over normal forms

A node is ready for its next rule once its operands are normal forms. A standard engine takes a
ready node to another one in few ways: the node gives way to a number or to one of its operands, the
operands of a chain are rearranged, or a derivative is resolved by one level. In a rearrangement no
identity matches the node, because identities are tried before.
-/
namespace SymbolicCalculus

open SymbolicCalculus.Expr Simplification

namespace Engine

variable {engine : Engine}

section Next

variable {e f : Expr} {ranked : RankedRule}

theorem NormalizesBelow.kind_eq (h : engine.NormalizesBelow e f) : f.kind = e.kind := by
  cases h
  rfl

theorem NormalizesBelow.eq_self (h : engine.NormalizesBelow e f)
    (he : ∀ u ∈ e.operands, engine.Normal u) : f = e := by
  cases h with
  | node hall => rw [hall.eq_of_normal he]

theorem NormalizesBelow.eq_of_normal (h : engine.NormalizesBelow e f) (he : engine.Normal e) :
    f = e := by
  obtain ⟨hoperands, _⟩ := he
  exact h.eq_self hoperands

theorem NormalizesBelow.unary {kind : Kind} {u : Expr}
    (h : engine.NormalizesBelow (.node kind [u]) f) :
    ∃ w, f = .node kind [w] ∧ engine.Normalizes u w := by
  cases h with
  | node hall =>
    cases hall with
    | cons hu hrest =>
      cases hrest
      exact ⟨_, rfl, hu⟩

theorem NormalizesBelow.binary {kind : Kind} {u v : Expr}
    (h : engine.NormalizesBelow (.node kind [u, v]) f) :
    ∃ w z, f = .node kind [w, z] ∧ engine.Normalizes u w ∧ engine.Normalizes v z := by
  cases h with
  | node hall =>
    cases hall with
    | cons hu hrest =>
      cases hrest with
      | cons hv hrest =>
        cases hrest
        exact ⟨_, _, rfl, hu, hv⟩

theorem Next.mem (h : engine.Next e ranked f) : ranked ∈ engine.rules := by
  cases h with
  | reduce hredex =>
    obtain ⟨front, back, hrules, _⟩ := redex?_eq_some_iff.mp hredex
    simp [hrules]

theorem Next.exists_contract (h : engine.Next e ranked f) :
    ∃ r, engine.contract? e = some (.ok r) ∧ engine.NormalizesBelow r f := by
  cases h with
  | reduce hredex hreduce hbelow => exact ⟨_, contract?_of_redex? hredex hreduce, hbelow⟩

/-- The outcome of the step that the rule consists of. -/
theorem Next.exists_step {id : Nat} {rule : Rule} {name : String} {weight : Int}
    {step : Expr → Option (Fit × Except Error Expr)} (h : engine.Next e ⟨id, rule⟩ f)
    (hrule : rule = .ofStep name weight step) :
    ∃ fit r, step e = some (fit, .ok r) ∧ engine.NormalizesBelow r f := by
  generalize hranked : RankedRule.mk id rule = ranked at h
  cases h with
  | reduce hredex hreduce hbelow =>
    obtain ⟨_, _, _, hfit, _⟩ := redex?_eq_some_iff.mp hredex
    rw [← hranked] at hfit hreduce
    subst hrule
    obtain ⟨⟨fit, outcome⟩, hstep, hfound⟩ := Option.map_eq_some_iff.mp hfit
    rw [← hfound, Rule.ofStep_reduce hstep] at hreduce
    exact ⟨fit, _, hreduce ▸ hstep, hbelow⟩

theorem Normal.not_next (he : engine.Normal e) : ¬ engine.Next e ranked f := by
  intro h
  obtain ⟨hoperands, hnone⟩ := he
  obtain ⟨r, hr, _⟩ := h.exists_contract
  rw [hnone] at hr
  cases hr

/-- The normal form has what holds once the operands are normal forms and all rules keep. -/
theorem Normalizes.invariant {I : Expr → Prop}
    (hI : ∀ {e ranked f}, I e → engine.Next e ranked f → I f) {e n : Expr}
    (h : engine.Normalizes e n) (he : ∀ f, engine.NormalizesBelow e f → I f) : I n := by
  match h with
  | .rest hall _ => exact he _ (.node hall)
  | .reduce hall hsome hnext =>
    obtain ⟨redex, hredex, hreduce⟩ := Option.map_eq_some_iff.mp hsome
    exact hnext.invariant hI fun f hf => hI (he _ (.node hall)) (.reduce hredex hreduce hf)

end Next

structure Ready (engine : Engine) (e : Expr) : Prop where
  wellFormed : e.WellFormed
  normal : ∀ u ∈ e.operands, engine.Normal u
  resolved : ∀ u ∈ e.operands, u.Resolved

section Ready

variable {e f : Expr}

theorem Normalizes.resolved (hengine : engine.IsStandard) {n : Expr} (h : engine.Normalizes e n)
    (he : e.WellFormed) : n.Resolved := by
  obtain ⟨m, hm, hresolved⟩ := hengine.resolves_of_wellFormed he
  rwa [← h.unique hm]

theorem NormalizesBelow.ready (hengine : engine.IsStandard) (h : engine.NormalizesBelow e f)
    (he : e.WellFormed) : engine.Ready f := by
  cases h with
  | node hall =>
    have hresolved := hall.forall_mem (Normalizes.resolved hengine) (wellFormed_node_iff.mp he).2
    exact ⟨hall.node_wellFormed he fun n hn => (hresolved n hn).wellFormed, hall.normal, hresolved⟩

theorem Ready.resolved_of_kind (he : engine.Ready e) (hkind : ∀ x, e.kind ≠ .diff x) :
    e.Resolved := by
  obtain ⟨kind, operands⟩ := e
  exact resolved_node_iff.mpr ⟨(wellFormed_node_iff.mp he.wellFormed).1, hkind, he.resolved⟩

theorem Ready.next (hengine : engine.IsStandard) (he : engine.Ready e) {ranked : RankedRule}
    (h : engine.Next e ranked f) : engine.Ready f := by
  obtain ⟨r, hr, hbelow⟩ := h.exists_contract
  obtain ⟨_, hok, hlaw⟩ := hengine.law he.wellFormed hr
  cases hok
  refine hbelow.ready hengine ?_
  rcases hlaw with hlaw | hlaw
  · exact (hlaw.simplerThan he.wellFormed).wellFormed
  · exact hlaw.wellFormed he.wellFormed

end Ready

def Leaves (e f : Expr) : Prop := f ∈ e.operands ∨ ∃ x, f = .real x

/-- No rule matches a leaf, because nothing is lighter. -/
theorem normal_leaf (hengine : engine.IsStandard) {kind : Kind} (harity : kind.arity = 0) :
    engine.Normal (.node kind []) := by
  have hresolved : (node kind []).Resolved := by
    refine resolved_node_iff.mpr ⟨harity.symm, ?_, by simp⟩
    rintro x rfl
    cases harity
  have hchain : isChainKind kind = false := by
    cases kind <;> simp_all [isChainKind, Kind.arity]
  have hweight : (node kind []).weight = 1 := by
    rw [weight_node, if_neg]
    · rfl
    · rintro rfl
      cases harity
  refine .node (by simp) ?_
  cases hcontract : engine.contract? (.node kind []) with
  | none => rfl
  | some outcome =>
    obtain ⟨r, _, hlaw⟩ := hengine.law_of_resolved hresolved hcontract
    have hlt := hlaw.of_other hresolved.wellFormed hchain
    have hpos := weight_pos r
    omega

theorem normal_real (hengine : engine.IsStandard) (x : Binary64) : engine.Normal (.real x) :=
  normal_leaf hengine rfl

theorem Ready.normal_of_leaves (hengine : engine.IsStandard) {e f : Expr} (he : engine.Ready e)
    (h : Leaves e f) : engine.Normal f := by
  rcases h with hmem | ⟨x, rfl⟩
  · exact he.normal f hmem
  · exact normal_real hengine x

theorem leaves_of_identityCase {e r : Expr} {fit : Fit} (h : identityCase e = some (fit, r)) :
    Leaves e r := by
  obtain ⟨kind, u, v, rfl, hr⟩ := identityCase_eq_some h
  rcases hr with rfl | rfl | hreal
  · exact .inl (by simp [Expr.operands])
  · exact .inl (by simp [Expr.operands])
  · exact .inr hreal

/-- A law rearranges a link unless the link gives way. -/
theorem leaves_or_linkLaw {c : Chain} {u v r : Expr} (h : Law (.node c.link [u, v]) r) :
    Leaves (.node c.link [u, v]) r ∨ LinkLaw c u v r := by
  generalize heq : node c.link [u, v] = e at h
  cases h with
  | evaluate => exact .inl (.inr ⟨_, rfl⟩)
  | identity hcase => exact .inl (leaves_of_identityCase hcase)
  | link hlink =>
    simp only [node.injEq, List.cons.injEq, and_true] at heq
    obtain ⟨hkind, rfl, rfl⟩ := heq
    obtain rfl := Chain.link_inj hkind
    exact .inr hlink
  | inverse =>
    simp only [node.injEq] at heq
    exact absurd heq.1 (Chain.link_ne_inverse _ _)

theorem leaves_or_inverseLaw {c : Chain} {u v r : Expr} (h : Law (.node c.inverse [u, v]) r) :
    Leaves (.node c.inverse [u, v]) r ∨ InverseLaw c u v r := by
  generalize heq : node c.inverse [u, v] = e at h
  cases h with
  | evaluate => exact .inl (.inr ⟨_, rfl⟩)
  | identity hcase => exact .inl (leaves_of_identityCase hcase)
  | link =>
    simp only [node.injEq] at heq
    exact absurd heq.1.symm (Chain.link_ne_inverse _ _)
  | inverse hinverse =>
    simp only [node.injEq, List.cons.injEq, and_true] at heq
    obtain ⟨hkind, rfl, rfl⟩ := heq
    obtain rfl := Chain.inverse_inj hkind
    exact .inr hinverse

/-- What the rules make of a ready link that does not give way. -/
inductive LinkTurn (engine : Engine) (c : Chain) (u v : Expr) : Expr → Prop
  | numberFirst : v.isNumber = true → u.isNumber = false →
    LinkTurn engine c u v (.node c.link [v, u])
  | variableFirst : v.isVariable = true → u.isNumber = false → u.isVariable = false →
    continues c.link u = false → LinkTurn engine c u v (.node c.link [v, u])
  | align {kind : Kind} {b d w : Expr} : kind = c.link ∨ kind = c.inverse → v = .node kind [b, d] →
    engine.Normalizes (.node c.link [u, b]) w → LinkTurn engine c u v (.node kind [w, d])
  | hoist {a b w : Expr} : c = .product → u = .node c.inverse [a, b] →
    engine.Normalizes (.node c.link [a, v]) w → LinkTurn engine c u v (.node c.inverse [w, b])

inductive InverseTurn (engine : Engine) (c : Chain) (u v : Expr) : Expr → Prop
  | combine {p r w : Expr} : u = .node c.inverse [p, r] → r.isNumber = true → v.isNumber = true →
    w.isNumber = true → InverseTurn engine c u v (.node c.inverse [p, w])
  | cancel {symbol : String} {r f : Expr} : v.variableName? = some symbol →
    neutralize c.link symbol c.neutral u = .ok r → engine.NormalizesBelow r f →
    InverseTurn engine c u v f

section Chains

variable {c : Chain} {u v f : Expr}

theorem Ready.link_resolved (he : engine.Ready (.node c.link [u, v])) :
    (node c.link [u, v]).Resolved := by
  apply he.resolved_of_kind
  intro x hx
  cases c <;> cases hx

theorem Ready.inverse_resolved (he : engine.Ready (.node c.inverse [u, v])) :
    (node c.inverse [u, v]).Resolved := by
  apply he.resolved_of_kind
  intro x hx
  cases c <;> cases hx

theorem ready_link (hu : engine.Normal u) (hv : engine.Normal v) (hu' : u.Resolved)
    (hv' : v.Resolved) : engine.Ready (.node c.link [u, v]) := by
  refine ⟨?_, ?_, ?_⟩
  · simp [hu'.wellFormed, hv'.wellFormed]
  · simp [Expr.operands, hu, hv]
  · simp [Expr.operands, hu', hv']

theorem isNumber_of_normalizes (hengine : engine.IsStandard)
    (he : engine.Ready (.node c.link [u, v])) (hu : u.isNumber = true) (hv : v.isNumber = true)
    {w : Expr} (h : engine.Normalizes (.node c.link [u, v]) w) : w.isNumber = true := by
  cases h with
  | rest hall hnone =>
    rw [hall.eq_of_normal he.normal] at hnone
    simp [(hengine.right_of_link he.wellFormed hnone).1] at hv
  | reduce hall hsome hnext =>
    rw [hall.eq_of_normal he.normal] at hsome
    obtain ⟨r, hr, hlaw⟩ := hengine.law_of_resolved he.link_resolved hsome
    cases hr
    rcases leaves_or_linkLaw hlaw with hleaves | hlink
    · rw [hnext.eq_of_normal (he.normal_of_leaves hengine hleaves)]
      rcases hleaves with hmem | ⟨x, rfl⟩
      · simp only [Expr.operands, List.mem_cons, List.not_mem_nil, or_false] at hmem
        rcases hmem with rfl | rfl <;> assumption
      · rfl
    · simp [hlink.not_numbers hu] at hv

theorem linkTurn_of_law (hengine : engine.IsStandard) {r : Expr} (h : LinkLaw c u v r)
    (he : engine.Ready (.node c.link [u, v])) (hbelow : engine.NormalizesBelow r f) :
    engine.LinkTurn c u v f := by
  have hu : engine.Normal u := he.normal u (by simp [Expr.operands])
  have hv : engine.Normal v := he.normal v (by simp [Expr.operands])
  cases h with
  | combine heq hnumber =>
    subst heq
    have hwell := (wellFormed_binary_iff.mp he.wellFormed).2.1
    simp [(hengine.right_of_link hwell (normal_node_iff.mp hu).2).1] at hnumber
  | numberFirst hnumber hother =>
    rw [hbelow.eq_self (by simp [Expr.operands, hu, hv])]
    exact .numberFirst hnumber hother
  | variableFirst hvariable hnumber hother hcontinues =>
    rw [hbelow.eq_self (by simp [Expr.operands, hu, hv])]
    exact .variableFirst hvariable hnumber hother hcontinues
  | align hkind heq =>
    obtain ⟨w, z, rfl, hw, hz⟩ := hbelow.binary
    subst heq
    rw [hz.eq_of_normal ((normal_node_iff.mp hv).1 _ (by simp))]
    exact .align hkind rfl hw
  | hoist hproduct heq =>
    obtain ⟨w, z, rfl, hw, hz⟩ := hbelow.binary
    subst heq
    rw [hz.eq_of_normal ((normal_node_iff.mp hu).1 _ (by simp))]
    exact .hoist hproduct rfl hw

theorem inverseTurn_of_law (hengine : engine.IsStandard) {r : Expr} (h : InverseLaw c u v r)
    (he : engine.Ready (.node c.inverse [u, v])) (hbelow : engine.NormalizesBelow r f) :
    engine.InverseTurn c u v f := by
  cases h with
  | @combine p q heq hq hv =>
    subst heq
    have hu := (normal_node_iff.mp (he.normal _ List.mem_cons_self)).1
    have hpq := (resolved_node_iff.mp (he.resolved _ List.mem_cons_self)).2.2
    obtain ⟨w, z, rfl, hw, hz⟩ := hbelow.binary
    have hnumbers : engine.Ready (.node c.link [q, v]) :=
      ready_link (hu q (by simp)) (he.normal v (by simp [Expr.operands])) (hpq q (by simp))
        (he.resolved v (by simp [Expr.operands]))
    rw [hw.eq_of_normal (hu p (by simp))]
    exact .combine rfl hq hv (isNumber_of_normalizes hengine hnumbers hq hv hz)
  | cancel hsymbol hr => exact .cancel hsymbol hr hbelow

end Chains

/-- The normal form of an exponential is an exponential or a number. -/
theorem Normalizes.of_exp (hengine : engine.IsStandard) {u w : Expr}
    (h : engine.Normalizes (.exp u) w) (hu : u.WellFormed) :
    w.kind = .exp ∨ w.isNumber = true := by
  cases h with
  | rest => exact .inl rfl
  | reduce hall hsome hnext =>
    have hwell : (Expr.exp u).WellFormed := wellFormed_unary_iff.mpr ⟨rfl, hu⟩
    have hready := (NormalizesBelow.node hall).ready hengine hwell
    obtain ⟨r, hr, hlaw⟩ := hengine.law_of_resolved (hready.resolved_of_kind nofun) hsome
    cases hr
    generalize heq : node Kind.exp _ = e at hlaw
    cases hlaw with
    | evaluate => exact .inr (hnext.eq_of_normal (normal_real hengine _) ▸ rfl)
    | identity hcase =>
      subst heq
      cases hcase
    | @link c | @inverse c => cases c <;> cases heq

/-- A derivative is resolved by one level, or a power in it has become an exponential. -/
theorem Ready.turn_of_diff (hengine : engine.IsStandard) {x : String} {u f : Expr}
    {ranked : RankedRule} (he : engine.Ready (.diff x u))
    (h : engine.Next (.diff x u) ranked f) :
    f.Resolved ∨ u.kind = .pow ∧ ∃ w, f = .diff x w ∧ (w.kind = .exp ∨ w.isNumber = true) := by
  obtain ⟨r, hr, hbelow⟩ := h.exists_contract
  obtain ⟨_, hok, hlaw⟩ := hengine.law he.wellFormed hr
  cases hok
  have hlaw := hlaw.resolve_left Law.not_diff
  have hready := hbelow.ready hengine (hlaw.wellFormed he.wellFormed)
  have hkind := hbelow.kind_eq
  cases hlaw with
  | constant | symbol | negate | add | sub | product | quotient | power | exp | log | sin | cos =>
    refine .inl (hready.resolved_of_kind fun y hy => ?_)
    rw [hkind] at hy
    cases hy
  | @exponential _ b n =>
    have hwell := (wellFormed_unary_iff.mp he.wellFormed).2
    obtain ⟨w, rfl, hw⟩ := hbelow.unary
    refine .inr ⟨rfl, w, rfl, hw.of_exp hengine ?_⟩
    simp_all [wellFormed_binary_iff, wellFormed_unary_iff, Kind.arity]

abbrev standard (configuration : Configuration) : Engine := .new standardRules configuration

/-- Simplification without additional rules is the work of this engine. -/
theorem standardEngine_nil : standardEngine [] = standard {} := by
  rw [standardEngine, List.append_nil]

section Standard

variable {configuration : Configuration} {e f : Expr} {ranked : RankedRule}

theorem standard_rules (configuration : Configuration) : (standard configuration).rules =
    [⟨0, evaluate⟩, ⟨1, Differentiation.constant⟩, ⟨2, identity⟩, ⟨3, Differentiation.arithmetic⟩,
      ⟨4, Differentiation.power⟩, ⟨5, Differentiation.expLog⟩, ⟨6, Differentiation.trig⟩,
      ⟨7, combine⟩, ⟨8, reorder⟩, ⟨9, leftAlign⟩, ⟨10, hoistDivision⟩, ⟨11, cancel⟩] := rfl

/-- No identity matches a node that a later rule reduces. -/
theorem Next.identityCase_eq_none (h : (standard configuration).Next e ranked f)
    (hid : 2 < ranked.id) : identityCase e = none := by
  cases h with
  | reduce hredex =>
    obtain ⟨_, _, hfront⟩ := getElem?_of_redex? hredex
    have hnone := hfront ⟨2, identity⟩ (List.mem_of_getElem? (i := 2)
      (by rw [List.getElem?_take_of_lt hid, standard_rules]; rfl))
    rw [identity_eq, Rule.ofStep_fit?_eq_none_iff] at hnone
    exact Option.map_eq_none_iff.mp hnone

/-- The first three rules leave an operand or a number. -/
theorem Ready.leaves (he : (standard configuration).Ready e)
    (h : (standard configuration).Next e ranked f) (hid : ranked.id ≤ 2) : Leaves e f := by
  suffices hr : ∃ r, Leaves e r ∧ (standard configuration).NormalizesBelow r f by
    obtain ⟨r, hleaves, hbelow⟩ := hr
    rwa [hbelow.eq_of_normal (he.normal_of_leaves (isStandard_new configuration) hleaves)]
  have hmem := h.mem
  simp only [standard_rules, List.mem_cons, List.not_mem_nil, or_false] at hmem
  rcases hmem with rfl | rfl | rfl | hlater
  · obtain ⟨fit, r, hstep, hbelow⟩ := h.exists_step evaluate_eq
    exact ⟨r, .inr (real_of_evaluateStep hstep), hbelow⟩
  · obtain ⟨fit, r, hstep, hbelow⟩ := h.exists_step Differentiation.constant_eq
    exact ⟨r, .inr (Differentiation.real_of_constant hstep), hbelow⟩
  · obtain ⟨fit, r, hstep, hbelow⟩ := h.exists_step identity_eq
    exact ⟨r, leaves_of_identityCase (succeeding_eq_some hstep), hbelow⟩
  · rcases hlater with rfl | rfl | rfl | rfl | rfl | rfl | rfl | rfl | rfl <;> simp at hid

theorem Ready.turn_of_link {c : Chain} {u v : Expr}
    (he : (standard configuration).Ready (.node c.link [u, v]))
    (h : (standard configuration).Next (.node c.link [u, v]) ranked f) :
    Leaves (.node c.link [u, v]) f ∨
      identityCase (.node c.link [u, v]) = none ∧ (standard configuration).LinkTurn c u v f := by
  have hengine := isStandard_new configuration
  by_cases hid : ranked.id ≤ 2
  · exact .inl (he.leaves h hid)
  · obtain ⟨r, hr, hbelow⟩ := h.exists_contract
    obtain ⟨_, hok, hlaw⟩ := hengine.law_of_resolved he.link_resolved hr
    cases hok
    rcases leaves_or_linkLaw hlaw with hleaves | hlink
    · rw [hbelow.eq_of_normal (he.normal_of_leaves hengine hleaves)]
      exact .inl hleaves
    · exact .inr ⟨h.identityCase_eq_none (Nat.lt_of_not_le hid),
        linkTurn_of_law hengine hlink he hbelow⟩

/-- A ready inverse gives way, or its numbers are brought together, or a variable is cancelled. -/
theorem Ready.turn_of_inverse {c : Chain} {u v : Expr}
    (he : (standard configuration).Ready (.node c.inverse [u, v]))
    (h : (standard configuration).Next (.node c.inverse [u, v]) ranked f) :
    Leaves (.node c.inverse [u, v]) f ∨ (standard configuration).InverseTurn c u v f := by
  have hengine := isStandard_new configuration
  obtain ⟨r, hr, hbelow⟩ := h.exists_contract
  obtain ⟨_, hok, hlaw⟩ := hengine.law_of_resolved he.inverse_resolved hr
  cases hok
  rcases leaves_or_inverseLaw hlaw with hleaves | hinverse
  · rw [hbelow.eq_of_normal (he.normal_of_leaves hengine hleaves)]
    exact .inl hleaves
  · exact .inr (inverseTurn_of_law hengine hinverse he hbelow)

end Standard

end Engine

end SymbolicCalculus
