import SymbolicCalculus.Proofs.Rules.Turns

/-! # Rules that fire only once

Of all standard rules, only reordering may fire at a node more than once, and never twice in a row.
For every other rule there is an invariant that holds of the node once the rule has fired, that all
rules keep, and under which the rule is idle: it does not match, or an identity matches, which is
tried first.
-/
namespace SymbolicCalculus.Engine

open SymbolicCalculus.Expr Simplification

variable {engine : Engine} {configuration : Configuration} {e f : Expr} {ranked : RankedRule}

/-- The rule does not fire at the node any more, whatever the other rules do. -/
def Retired (engine : Engine) (id : Nat) (e : Expr) : Prop :=
  ∀ ⦃ids : List Nat⦄, engine.RuleSequence e ids → id ∉ ids

/-- An invariant under which the rule does not fire retires it. -/
theorem retired_of_invariant {id : Nat} {I : Expr → Prop}
    (hidle : ∀ {e ranked f}, I e → engine.Next e ranked f → ranked.id ≠ id)
    (hkeep : ∀ {e ranked f}, I e → engine.Next e ranked f → I f) (he : I e) :
    engine.Retired id e := by
  intro ids h
  induction h with
  | nil => exact List.not_mem_nil
  | cons hnext _ ih =>
    rw [List.mem_cons, not_or]
    exact ⟨(hidle he hnext).symm, ih (hkeep he hnext)⟩

def Idle (ranked : RankedRule) (e : Expr) : Prop :=
  ranked.rule.fit? e = none ∨ 2 < ranked.id ∧ identityCase e ≠ none

theorem Idle.id_ne {other : RankedRule} (hidle : Idle other e)
    (hother : (standard configuration).rules[other.id]? = some other)
    (h : (standard configuration).Next e ranked f) : ranked.id ≠ other.id := by
  intro hid
  rcases hidle with hnone | ⟨hlate, hidentity⟩
  · cases h with
    | reduce hredex =>
      obtain ⟨hget, hfit, _⟩ := getElem?_of_redex? hredex
      rw [hid, hother, Option.some.injEq] at hget
      rw [← hget, hnone] at hfit
      cases hfit
  · exact hidentity (h.identityCase_eq_none (hid ▸ hlate))

theorem Ready.retired {P : Expr → Prop} {other : RankedRule}
    (hother : (standard configuration).rules[other.id]? = some other)
    (hidle : ∀ {e}, (standard configuration).Ready e → P e → Idle other e)
    (hkeep : ∀ {e ranked f}, (standard configuration).Ready e → P e →
      (standard configuration).Next e ranked f → P f)
    (he : (standard configuration).Ready e) (hP : P e) :
    (standard configuration).Retired other.id e := by
  apply retired_of_invariant (I := fun e => (standard configuration).Ready e ∧ P e) ?_ ?_ ⟨he, hP⟩
  · rintro e ranked f ⟨he, hP⟩ h
    exact (hidle he hP).id_ne hother h
  · rintro e ranked f ⟨he, hP⟩ h
    exact ⟨he.next (isStandard_new configuration) h, hkeep he hP h⟩

theorem Normal.idle (he : (standard configuration).Normal e)
    (h : (standard configuration).rules[ranked.id]? = some ranked) : Idle ranked e := by
  obtain ⟨_, hnone⟩ := he
  exact .inl (redex?_eq_none_iff.mp (contract?_eq_none_iff.mp hnone) _ (List.mem_of_getElem? h))

theorem Normal.retired (he : engine.Normal e) (id : Nat) : engine.Retired id e := by
  intro ids h
  cases h with
  | nil => exact List.not_mem_nil
  | cons hnext => exact absurd hnext he.not_next

theorem IsStandard.settled (hengine : engine.IsStandard) {c : Chain} {u v : Expr}
    (he : (node c.link [u, v]).WellFormed) (h : engine.Normal (.node c.link [u, v])) :
    Settled c v := by
  obtain ⟨hnumber, hcontinues⟩ := hengine.right_of_link he (normal_node_iff.mp h).2
  exact ⟨hnumber, hcontinues⟩

theorem IsStandard.not_hoistable (hengine : engine.IsStandard) {c : Chain} {u v : Expr}
    (h : engine.Normal (.node c.link [u, v])) : ¬ Hoistable c u := by
  have hnone : hoistDivision.fit? (.node c.link [u, v]) = none :=
    hengine.fit?_of_contract? (normal_node_iff.mp h).2
      (by simp [standardRules, Simplification.rules])
  exact hoistDivision_fit?_link.mp hnone

/-- A link with a settled right operand is reordered or loses a quotient. -/
theorem LinkTurn.of_settled {c : Chain} {u v : Expr} (hv : Settled c v)
    (h : engine.LinkTurn c u v f) :
    f = .node c.link [v, u] ∧ Settled c u ∨
      Hoistable c u ∧ ∃ w b, f = .node c.inverse [w, b] := by
  cases h with
  | numberFirst hnumber =>
    rw [hv.not_number] at hnumber
    cases hnumber
  | variableFirst _ hnumber _ hcontinues => exact .inl ⟨rfl, hnumber, hcontinues⟩
  | align hkind heq =>
    rw [heq] at hv
    exact absurd hkind hv.kind_ne
  | @hoist a b w hproduct heq => exact .inr ⟨⟨hproduct, by rw [heq, Expr.kind]⟩, w, b, rfl⟩

section Cancel

/-- What a chain is like after one of its variables has been cancelled: it is a normal form, or a
settled link, or a link with the neutral element at its right or left end. A quotient is not among
the operands of a product. -/
inductive Cancelled (engine : Engine) (c : Chain) : Expr → Prop
  | normal {e : Expr} : engine.Normal e → ¬ Hoistable c e → Cancelled engine c e
  | settled {u v : Expr} : ¬ Hoistable c u → Settled c v → Cancelled engine c (.node c.link [u, v])
  | neutral {u : Expr} : ¬ Hoistable c u →
    Cancelled engine c (.node c.link [u, .real c.neutral])
  | neutralFirst {u : Expr} : ¬ Hoistable c u →
    Cancelled engine c (.node c.link [.real c.neutral, u])

variable {c : Chain}

theorem Cancelled.not_hoistable (h : engine.Cancelled c e) : ¬ Hoistable c e := by
  cases h with
  | normal _ he => exact he
  | settled | neutral | neutralFirst => exact not_hoistable_link

theorem Cancelled.of_leaves {u v : Expr}
    (he : (standard configuration).Ready (.node c.link [u, v])) (hu : ¬ Hoistable c u)
    (hv : ¬ Hoistable c v) (h : Leaves (.node c.link [u, v]) f) :
    (standard configuration).Cancelled c f := by
  refine .normal (he.normal_of_leaves (isStandard_new configuration) h) ?_
  rcases h with hmem | ⟨x, rfl⟩
  · simp only [Expr.operands, List.mem_cons, List.not_mem_nil, or_false] at hmem
    rcases hmem with rfl | rfl
    · exact hu
    · exact hv
  · exact not_hoistable_number rfl

theorem identityCase_neutralFirst (c : Chain) (u : Expr) :
    identityCase (.node c.link [.real c.neutral, u]) ≠ none := by
  cases c with
  | sum =>
    have hzero : (Expr.real .zero).isNumberOf .zero = true := Binary64.equals_zero_zero
    simp [identityCase, Chain.link, Chain.neutral, hzero]
  | product =>
    have hone : (Expr.real .one).isNumberOf .one = true := Binary64.equals_one_one
    simp [identityCase, Chain.link, Chain.neutral, hone]

theorem Cancelled.next (he : (standard configuration).Ready e)
    (h : (standard configuration).Cancelled c e)
    (hnext : (standard configuration).Next e ranked f) :
    (standard configuration).Cancelled c f := by
  cases h with
  | normal hnormal => exact absurd hnext hnormal.not_next
  | @settled u v hu hv =>
    rcases he.turn_of_link hnext with hleaves | ⟨_, hturn⟩
    · exact .of_leaves he hu hv.not_hoistable hleaves
    · rcases hturn.of_settled hv with ⟨rfl, hsettled⟩ | ⟨hoistable, _⟩
      · exact .settled hv.not_hoistable hsettled
      · exact absurd hoistable hu
  | @neutral u hu =>
    rcases he.turn_of_link hnext with hleaves | ⟨_, hturn⟩
    · exact .of_leaves he hu (not_hoistable_number rfl) hleaves
    · cases hturn with
      | numberFirst => exact .neutralFirst hu
      | variableFirst hvariable => cases hvariable
      | align _ heq => cases heq
      | hoist hproduct heq => exact absurd ⟨hproduct, by rw [heq, Expr.kind]⟩ hu
  | neutralFirst hu =>
    -- The neutral element is removed before another rule gets to rearrange the link.
    rcases he.turn_of_link hnext with hleaves | ⟨hnone, _⟩
    · exact .of_leaves he (not_hoistable_number rfl) hu hleaves
    · exact absurd hnone (identityCase_neutralFirst c _)

/-- Cancelling a variable in a normal form. The rest of the chain below the place is settled, and
the part from the place on has a normal form that has been cancelled too. -/
theorem cancelled_of_neutralize {symbol : String} {u r : Expr}
    (hu : (standard configuration).Normal u) (hresolved : u.Resolved)
    (h : neutralize c.link symbol c.neutral u = .ok r)
    (hbelow : (standard configuration).NormalizesBelow r f) :
    (standard configuration).Cancelled c f := by
  have hengine := isStandard_new configuration
  fun_induction neutralize c.link symbol c.neutral u generalizing r f with
  | case1 left right hright =>
    cases h
    have hleft : (standard configuration).Normal left := (normal_node_iff.mp hu).1 _ (by simp)
    have hreal := normal_real hengine c.neutral
    rw [hbelow.eq_self (by simp [Expr.operands, hleft, hreal])]
    exact .neutral (hengine.not_hoistable hu)
  | case2 left right hright n hn ih =>
    cases h
    obtain ⟨w, z, rfl, hw, hz⟩ := hbelow.binary
    obtain ⟨hnormal, _⟩ := normal_node_iff.mp hu
    have hleft : left.Resolved := (resolved_node_iff.mp hresolved).2.2 _ (by simp)
    rw [hz.eq_of_normal (hnormal right (by simp))]
    have hcancelled :
        (standard configuration).Ready w ∧ (standard configuration).Cancelled c w := by
      refine hw.invariant (I := fun e => (standard configuration).Ready e ∧
        (standard configuration).Cancelled c e) ?_ ?_
      · rintro e ranked f ⟨he, h⟩ hnext
        exact ⟨he.next hengine hnext, h.next he hnext⟩
      · intro f hf
        have hwell := (neutralize_simpler hleft.wellFormed hn).wellFormed
        exact ⟨hf.ready hengine hwell, ih (hnormal left (by simp)) hleft hn hf⟩
    exact .settled hcancelled.2.not_hoistable (hengine.settled hresolved.wellFormed hu)
  | case3 | case4 | case5 => cases h

theorem Cancelled.idle_cancel (h : (standard configuration).Cancelled c e) :
    Idle ⟨11, cancel⟩ e := by
  cases h with
  | normal hnormal => exact hnormal.idle rfl
  | settled | neutral | neutralFirst => exact .inl cancel_fit?_link

theorem Cancelled.idle_hoistDivision (h : (standard configuration).Cancelled c e) :
    Idle ⟨10, hoistDivision⟩ e := by
  cases h with
  | normal hnormal => exact hnormal.idle rfl
  | settled hu | neutral hu => exact .inl (hoistDivision_fit?_link.mpr hu)
  | neutralFirst => exact .inl (hoistDivision_fit?_link.mpr (not_hoistable_number rfl))

theorem Cancelled.idle_leftAlign (h : (standard configuration).Cancelled c e) :
    Idle ⟨9, leftAlign⟩ e := by
  cases h with
  | normal hnormal => exact hnormal.idle rfl
  | settled _ hv => exact .inl (leftAlign_fit?_link hv.not_continues)
  | neutral =>
    apply Or.inl (leftAlign_fit?_link _)
    cases c <;> rfl
  | neutralFirst => exact .inr ⟨by decide, identityCase_neutralFirst c _⟩

end Cancel

section Hoist

inductive Hoisted (engine : Engine) : Expr → Prop
  | normal {e : Expr} : engine.Normal e → Hoisted engine e
  | cancelled {c : Chain} {e : Expr} : engine.Cancelled c e → Hoisted engine e
  | inverse {c : Chain} {u v : Expr} : Hoisted engine (.node c.inverse [u, v])

theorem Hoisted.next (he : (standard configuration).Ready e)
    (h : (standard configuration).Hoisted e)
    (hnext : (standard configuration).Next e ranked f) : (standard configuration).Hoisted f := by
  cases h with
  | normal hnormal => exact absurd hnext hnormal.not_next
  | cancelled hcancelled => exact .cancelled (hcancelled.next he hnext)
  | inverse =>
    rcases he.turn_of_inverse hnext with hleaves | hturn
    · exact .normal (he.normal_of_leaves (isStandard_new configuration) hleaves)
    · cases hturn with
      | combine => exact .inverse
      | cancel _ hr hbelow =>
        have hu := he.normal _ List.mem_cons_self
        exact .cancelled (cancelled_of_neutralize hu (he.resolved _ List.mem_cons_self) hr hbelow)

theorem Hoisted.idle_hoistDivision (h : (standard configuration).Hoisted e) :
    Idle ⟨10, hoistDivision⟩ e := by
  cases h with
  | normal hnormal => exact hnormal.idle rfl
  | cancelled hcancelled => exact hcancelled.idle_hoistDivision
  | inverse => exact .inl hoistDivision_fit?_inverse

end Hoist

section Align

inductive Aligned (engine : Engine) : Expr → Prop
  | hoisted {e : Expr} : engine.Hoisted e → Aligned engine e
  | link {c : Chain} {u v : Expr} : Settled c v → Aligned engine (.node c.link [u, v])

theorem Aligned.next (he : (standard configuration).Ready e)
    (h : (standard configuration).Aligned e)
    (hnext : (standard configuration).Next e ranked f) : (standard configuration).Aligned f := by
  cases h with
  | hoisted h => exact .hoisted (h.next he hnext)
  | link hv =>
    rcases he.turn_of_link hnext with hleaves | ⟨_, hturn⟩
    · exact .hoisted (.normal (he.normal_of_leaves (isStandard_new configuration) hleaves))
    · rcases hturn.of_settled hv with ⟨rfl, hu⟩ | ⟨_, w, b, rfl⟩
      · exact .link hu
      · exact .hoisted .inverse

theorem Aligned.idle_leftAlign (h : (standard configuration).Aligned e) :
    Idle ⟨9, leftAlign⟩ e := by
  cases h with
  | hoisted h =>
    cases h with
    | normal hnormal => exact hnormal.idle rfl
    | cancelled hcancelled => exact hcancelled.idle_leftAlign
    | inverse => exact .inl leftAlign_fit?_inverse
  | link hv => exact .inl (leftAlign_fit?_link hv.not_continues)

end Align

section Combine

inductive Combined (engine : Engine) : Expr → Prop
  | normal {e : Expr} : engine.Normal e → Combined engine e
  | link {c : Chain} {u v : Expr} : u.isNumber = true → Settled c v →
    Combined engine (.node c.link [u, v])
  | inverse {c : Chain} {u v : Expr} : v.isNumber = true → trailing? c.inverse u v = none →
    Combined engine (.node c.inverse [u, v])

theorem Combined.next (he : (standard configuration).Ready e)
    (h : (standard configuration).Combined e)
    (hnext : (standard configuration).Next e ranked f) : (standard configuration).Combined f := by
  have hengine := isStandard_new configuration
  cases h with
  | normal hnormal => exact absurd hnext hnormal.not_next
  | link hu hv =>
    rcases he.turn_of_link hnext with hleaves | ⟨_, hturn⟩
    · exact .normal (he.normal_of_leaves hengine hleaves)
    · rcases hturn.of_settled hv with ⟨_, hsettled⟩ | ⟨hoistable, _⟩
      · rw [hsettled.not_number] at hu
        cases hu
      · exact absurd hoistable (not_hoistable_number hu)
  | inverse hv hnone =>
    rcases he.turn_of_inverse hnext with hleaves | hturn
    · exact .normal (he.normal_of_leaves hengine hleaves)
    · cases hturn with
      | combine heq hr =>
        subst heq
        simp [trailing?, hv, hr, Expr.kind, pair?] at hnone
      | cancel hsymbol =>
        rw [variableName?_of_isNumber hv] at hsymbol
        cases hsymbol

theorem Combined.idle_combine (h : (standard configuration).Combined e) :
    Idle ⟨7, combine⟩ e := by
  cases h with
  | normal hnormal => exact hnormal.idle rfl
  | link _ hv => exact .inl (combine_fit?_link hv)
  | inverse _ hnone => exact .inl (combine_fit?_inverse.mpr hnone)

end Combine

section Fired

theorem combined_of_link {c : Chain} {u q p : Expr}
    (he : (standard configuration).Ready (.node c.link [u, .node c.link [q, p]]))
    (hu : u.isNumber = true) (hq : q.isNumber = true)
    (hbelow : (standard configuration).NormalizesBelow
      (.node c.link [.node c.link [u, q], p]) f) : (standard configuration).Combined f := by
  have hengine := isStandard_new configuration
  have hv := he.normal (.node c.link [q, p]) (by simp [Expr.operands])
  have hv' := he.resolved (.node c.link [q, p]) (by simp [Expr.operands])
  obtain ⟨hqp, _⟩ := normal_node_iff.mp hv
  obtain ⟨_, _, hqp'⟩ := resolved_node_iff.mp hv'
  obtain ⟨w, z, rfl, hw, hz⟩ := hbelow.binary
  have hready : (standard configuration).Ready (.node c.link [u, q]) :=
    ready_link (he.normal u List.mem_cons_self) (hqp q (by simp))
      (he.resolved u List.mem_cons_self) (hqp' q (by simp))
  rw [hz.eq_of_normal (hqp p (by simp))]
  exact .link (isNumber_of_normalizes hengine hready hu hq hw) (hengine.settled hv'.wellFormed hv)

theorem combined_of_inverse {c : Chain} {p q v : Expr}
    (he : (standard configuration).Ready (.node c.inverse [.node c.inverse [p, q], v]))
    (hq : q.isNumber = true) (hv : v.isNumber = true)
    (hbelow : (standard configuration).NormalizesBelow
      (.node c.inverse [p, .node c.link [q, v]]) f) : (standard configuration).Combined f := by
  have hengine := isStandard_new configuration
  have hu := he.normal (.node c.inverse [p, q]) (by simp [Expr.operands])
  have hnone : combine.fit? (.node c.inverse [p, q]) = none :=
    hengine.fit?_of_contract? (normal_node_iff.mp hu).2
      (by simp [standardRules, Simplification.rules])
  rw [combine_fit?_inverse] at hnone
  cases inverseTurn_of_law hengine (.combine rfl hq hv) he hbelow with
  | combine heq _ _ hw =>
    cases heq
    refine .inverse hw ?_
    simpa [trailing?, hq, hw] using hnone
  | cancel hsymbol =>
    rw [variableName?_of_isNumber hv] at hsymbol
    cases hsymbol

theorem combined_of_combine {id : Nat} (he : (standard configuration).Ready e)
    (h : (standard configuration).Next e ⟨id, combine⟩ f) :
    (standard configuration).Combined f := by
  obtain ⟨fit, r, hstep, hbelow⟩ := h.exists_step combine_eq
  obtain ⟨c, u, v, ⟨rfl, hcase⟩ | ⟨rfl, p, q, rfl, hq, hv, rfl⟩⟩ :=
    combineCase_eq_some (succeeding_eq_some hstep)
  · rcases combineAssociative_eq_some hcase with ⟨p, q, rfl, hq⟩ | ⟨q, p, rfl, hu, hq, rfl⟩
    · have hnormal := he.normal (.node c.link [p, q]) List.mem_cons_self
      have hresolved := he.resolved (.node c.link [p, q]) List.mem_cons_self
      have hsettled := (isStandard_new configuration).settled hresolved.wellFormed hnormal
      rw [hsettled.not_number] at hq
      cases hq
    · exact combined_of_link he hu hq hbelow
  · exact combined_of_inverse he hq hv hbelow

theorem idle_reorder_of_reorder {id : Nat} (he : (standard configuration).Ready e)
    (h : (standard configuration).Next e ⟨id, reorder⟩ f) : Idle ⟨8, reorder⟩ f := by
  obtain ⟨fit, r, hstep, hbelow⟩ := h.exists_step reorder_eq
  obtain ⟨c, u, v, rfl, hcase⟩ := reorderCase_eq_some (succeeding_eq_some hstep)
  obtain ⟨rfl, hback⟩ := reorderOperands_eq_some hcase
  have hswapped : ∀ w ∈ (node c.link [v, u]).operands, (standard configuration).Normal w := by
    simpa [Expr.operands, and_comm] using he.normal
  rw [hbelow.eq_self hswapped]
  exact .inl (reorder_fit?_link.mpr hback)

theorem aligned_of_leftAlign {id : Nat} (he : (standard configuration).Ready e)
    (h : (standard configuration).Next e ⟨id, leftAlign⟩ f) :
    (standard configuration).Aligned f := by
  obtain ⟨fit, r, hstep, hbelow⟩ := h.exists_step leftAlign_eq
  obtain ⟨c, u, kind, b, d, rfl, hkind, rfl⟩ := leftAlignStep_eq_some hstep
  obtain ⟨w, z, rfl, _, hz⟩ := hbelow.binary
  have hv := he.normal (.node kind [b, d]) (by simp [Expr.operands])
  have hv' := he.resolved (.node kind [b, d]) (by simp [Expr.operands])
  rw [hz.eq_of_normal ((normal_node_iff.mp hv).1 d (by simp))]
  rcases hkind with rfl | rfl
  · exact .link ((isStandard_new configuration).settled hv'.wellFormed hv)
  · exact .hoisted .inverse

theorem hoisted_of_hoistDivision {id : Nat}
    (h : (standard configuration).Next e ⟨id, hoistDivision⟩ f) :
    (standard configuration).Hoisted f := by
  obtain ⟨fit, r, hstep, hbelow⟩ := h.exists_step hoistDivision_eq
  obtain ⟨u, v, rfl⟩ := hoistDivisionStep_eq_some hstep
  obtain ⟨w, z, rfl, _⟩ := hbelow.binary
  exact @Hoisted.inverse _ .product w z

theorem cancelled_of_cancel {id : Nat} (he : (standard configuration).Ready e)
    (h : (standard configuration).Next e ⟨id, cancel⟩ f) :
    ∃ c, (standard configuration).Cancelled c f := by
  obtain ⟨fit, r, hstep, hbelow⟩ := h.exists_step cancel_eq
  obtain ⟨c, u, v, symbol, rfl, hr⟩ := cancelStep_eq_some hstep
  have hu := he.normal u (by simp [Expr.operands])
  exact ⟨c, cancelled_of_neutralize hu (he.resolved u (by simp [Expr.operands])) hr hbelow⟩

end Fired

section Derivatives

open Differentiation

theorem Ready.resolved_next (he : (standard configuration).Ready e) (hresolved : e.Resolved)
    (h : (standard configuration).Next e ranked f) : f.Resolved := by
  have hengine := isStandard_new configuration
  obtain ⟨r, hr, hbelow⟩ := h.exists_contract
  obtain ⟨_, hok, hlaw⟩ := hengine.law_of_resolved hresolved hr
  cases hok
  have hr := (hlaw.simplerThan he.wellFormed).resolved hresolved
  refine (hbelow.ready hengine hr.wellFormed).resolved_of_kind fun x hx => ?_
  obtain ⟨kind, operands⟩ := r
  exact (resolved_node_iff.mp hr).2.1 x (hbelow.kind_eq.symm.trans hx)

theorem idle_of_resolved {id : Nat} {rule : Rule} {name : String} {weight : Int}
    {case : String → Expr → Option (Fit × Except Error Expr)}
    (hrule : rule = .ofStep name weight (onDerivative case)) (he : e.Resolved) :
    Idle ⟨id, rule⟩ e := by
  subst hrule
  refine .inl (Rule.ofStep_fit?_eq_none_iff.mpr ?_)
  rw [Option.eq_none_iff_forall_ne_some]
  rintro ⟨fit, outcome⟩ h
  obtain ⟨x, u, rfl, _⟩ := exists_of_onDerivative h
  exact (resolved_node_iff.mp he).2.1 x rfl

/-- What a node is like after the rule for powers: there are no derivatives left in it, or it is the
derivative of an exponential. -/
def Unpowered (e : Expr) : Prop :=
  e.Resolved ∨ ∃ x w, e = .diff x w ∧ (w.kind = .exp ∨ w.isNumber = true)

theorem Unpowered.next (he : (standard configuration).Ready e) (h : Unpowered e)
    (hnext : (standard configuration).Next e ranked f) : Unpowered f := by
  rcases h with hresolved | ⟨x, w, rfl, hw⟩
  · exact .inl (he.resolved_next hresolved hnext)
  · rcases he.turn_of_diff (isStandard_new configuration) hnext with hresolved | ⟨_, z, rfl, hz⟩
    · exact .inl hresolved
    · exact .inr ⟨x, z, rfl, hz⟩

theorem Unpowered.idle_power (h : Unpowered e) : Idle ⟨4, power⟩ e := by
  rcases h with hresolved | ⟨x, w, rfl, hw⟩
  · exact idle_of_resolved power_eq hresolved
  · left
    rw [power_eq, onDerivative_fit?_eq_none_iff]
    obtain ⟨kind, operands⟩ := w
    cases kind <;> simp_all [powerCase, variableName?, Expr.kind, isNumber, number?]

theorem unpowered_of_power {id : Nat} (he : (standard configuration).Ready e)
    (h : (standard configuration).Next e ⟨id, power⟩ f) : Unpowered f := by
  obtain ⟨fit, r, hstep, _⟩ := h.exists_step power_eq
  obtain ⟨x, u, rfl, _⟩ := exists_of_onDerivative hstep
  rcases he.turn_of_diff (isStandard_new configuration) h with hresolved | ⟨_, w, rfl, hw⟩
  · exact .inl hresolved
  · exact .inr ⟨x, w, rfl, hw⟩

/-- A rule for derivatives that does not match powers leaves no derivative. -/
theorem resolved_of_onDerivative {id : Nat} {rule : Rule} {name : String} {weight : Int}
    {case : String → Expr → Option (Fit × Except Error Expr)}
    (hrule : rule = .ofStep name weight (onDerivative case))
    (hcase : ∀ x u, u.kind = .pow → case x u = none) (he : (standard configuration).Ready e)
    (h : (standard configuration).Next e ⟨id, rule⟩ f) : f.Resolved := by
  obtain ⟨fit, r, hstep, _⟩ := h.exists_step hrule
  obtain ⟨x, u, rfl, hmatch⟩ := exists_of_onDerivative hstep
  rcases he.turn_of_diff (isStandard_new configuration) h with hresolved | ⟨hpow, _⟩
  · exact hresolved
  · rw [hcase x u hpow] at hmatch
    cases hmatch

end Derivatives

open Differentiation in
/-- Every rule but one is retired once it has fired. -/
theorem retired_or_reorder (he : (standard configuration).Ready e)
    (h : (standard configuration).Next e ranked f) :
    (standard configuration).Retired ranked.id f ∨ ranked = ⟨8, reorder⟩ := by
  have hengine := isStandard_new configuration
  have hf := he.next hengine h
  have hget : (standard configuration).rules[ranked.id]? = some ranked := by
    cases h with
    | reduce hredex => exact (getElem?_of_redex? hredex).1
  by_cases hid : ranked.id ≤ 2
  -- Nothing fires at what the first three rules leave. All others have an invariant of their own.
  · exact .inl ((he.normal_of_leaves hengine (he.leaves h hid)).retired _)
  · have hmem := h.mem
    simp only [standard_rules, List.mem_cons, List.not_mem_nil, or_false] at hmem
    rcases hmem with rfl | rfl | rfl | rfl | rfl | rfl | rfl | rfl | rfl | rfl | rfl | rfl
    · simp at hid
    · simp at hid
    · simp at hid
    · refine .inl (hf.retired hget (fun _ => idle_of_resolved arithmetic_eq) Ready.resolved_next ?_)
      exact resolved_of_onDerivative arithmetic_eq (by simp +contextual [arithmeticCase]) he h
    · exact .inl (hf.retired hget (fun _ => Unpowered.idle_power) Unpowered.next
        (unpowered_of_power he h))
    · refine .inl (hf.retired hget (fun _ => idle_of_resolved expLog_eq) Ready.resolved_next ?_)
      exact resolved_of_onDerivative expLog_eq (by simp +contextual [expLogCase]) he h
    · refine .inl (hf.retired hget (fun _ => idle_of_resolved trig_eq) Ready.resolved_next ?_)
      exact resolved_of_onDerivative trig_eq (by simp +contextual [trigCase]) he h
    · exact .inl (hf.retired hget (fun _ => Combined.idle_combine) Combined.next
        (combined_of_combine he h))
    · exact .inr rfl
    · exact .inl (hf.retired hget (fun _ => Aligned.idle_leftAlign) Aligned.next
        (aligned_of_leftAlign he h))
    · exact .inl (hf.retired hget (fun _ => Hoisted.idle_hoistDivision) Hoisted.next
        (hoisted_of_hoistDivision h))
    · obtain ⟨c, hcancelled⟩ := cancelled_of_cancel he h
      exact .inl (hf.retired hget (fun _ => Cancelled.idle_cancel) Cancelled.next hcancelled)

/-- After reordering, another rule is next. -/
theorem Ready.ne_reorder (he : (standard configuration).Ready e) {id : Nat}
    (h : (standard configuration).Next e ⟨id, reorder⟩ f) {g : Expr}
    (hnext : (standard configuration).Next f ranked g) : ranked.id ≠ 8 :=
  (idle_reorder_of_reorder he h).id_ne rfl hnext

/-- No block of rules is repeated at a node. The first rule of the block has retired before the
block can begin again, unless it is the one that reorders; then the second rule has. -/
theorem isUnrepeating_standard (configuration : Configuration) :
    (standard configuration).IsUnrepeating := by
  have hengine := isStandard_new configuration
  rintro e f ids he hbelow hids p hp ⟨block, hlength, front, back, rfl⟩
  obtain ⟨g, hg, hblocks⟩ := RuleSequence.exists_of_append (I := (standard configuration).Ready)
    (fun he h => he.next hengine h) (List.append_assoc _ _ _ ▸ hids) (hbelow.ready hengine he)
  cases block with
  | nil => exact absurd hlength (Nat.ne_of_lt hp)
  | cons first rest =>
    obtain ⟨ranked, g', rfl, hnext, hlater⟩ := RuleSequence.exists_of_cons hblocks
    rcases retired_or_reorder hg hnext with hretired | rfl
    · exact hretired hlater (by simp)
    · cases rest with
      | nil =>
        obtain ⟨second, _, hid, hagain, _⟩ := RuleSequence.exists_of_cons hlater
        exact hg.ne_reorder hnext hagain hid
      | cons second rest =>
        obtain ⟨ranked, g'', rfl, hsecond, hlater⟩ := RuleSequence.exists_of_cons hlater
        rcases retired_or_reorder (hg.next hengine hnext) hsecond with hretired | rfl
        · exact hretired hlater (by simp)
        · exact hg.ne_reorder hnext hsecond rfl

end SymbolicCalculus.Engine
