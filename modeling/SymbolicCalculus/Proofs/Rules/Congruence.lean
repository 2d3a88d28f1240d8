import Mathlib.Data.List.Forall2
import SymbolicCalculus.Proofs.Reduction.Innermost
import SymbolicCalculus.Proofs.Rules.Safety

/-! # What a run keeps of an expression

A relation between expressions that is transitive and carries over from operands to the node above
them holds between an expression and the outcome of a run, as soon as every rule of the engine stays
within the relation. Where a rule does so in some of its cases only, it holds for the runs that have
no event of the other cases.
-/
namespace SymbolicCalculus

open SymbolicCalculus.Expr

structure Expr.IsPrecongruence (R : Expr → Expr → Prop) : Prop where
  trans : ∀ {e f g : Expr}, R e f → R f g → R e g
  node : ∀ (kind : Kind) {es fs : List Expr}, List.Forall₂ R es fs →
    R (.node kind es) (.node kind fs)

theorem Expr.IsPrecongruence.wellFormed_node {R : Expr → Expr → Prop} (hR : IsPrecongruence R)
    {kind : Kind} {es fs : List Expr} (he : (Expr.node kind es).WellFormed)
    (h : (∀ u ∈ fs, u.WellFormed) ∧ List.Forall₂ R es fs) :
    (Expr.node kind fs).WellFormed ∧ R (.node kind es) (.node kind fs) := by
  obtain ⟨hlength, _⟩ := wellFormed_node_iff.mp he
  have hfs : fs.length = kind.arity := h.2.length_eq.symm.trans hlength
  exact ⟨wellFormed_node_iff.mpr ⟨hfs, h.1⟩, hR.node kind h.2⟩

namespace Engine

variable {engine : Engine} {R : Expr → Expr → Prop}

def StaysWithin (engine : Engine) (R : Expr → Expr → Prop) : Prop :=
  ∀ ⦃rule : Rule⦄, engine.Tries rule → rule.Follows fun e r => r.WellFormed ∧ R e r

theorem mem_events_of_choose {event : Event} {path : List Nat} {e : Expr} {s t : Session}
    {choice : Option Redex} (h : engine.choose path e s = (choice, t)) (hs : event ∈ s.events) :
    event ∈ t.events := by
  cases choice with
  | some redex =>
    obtain ⟨_, log, _, rfl⟩ := choose_eq_some h
    exact List.mem_cons_of_mem _ hs
  | none =>
    rcases choose_eq_none h with ⟨_, rfl⟩ | ⟨redex, period, log, _, _, rfl⟩
    · exact hs
    · exact List.mem_cons_of_mem _ hs

theorem stepAt_mem_events_of_choose {path : List Nat} {e : Expr} {s t : Session} {redex : Redex}
    (h : engine.choose path e s = (some redex, t)) : ⟨redex.stepAt path, e, none⟩ ∈ t.events := by
  obtain ⟨_, log, _, rfl⟩ := choose_eq_some h
  exact List.mem_cons_self

def StepsWithin (engine : Engine) (P : Event → Prop) (R : Expr → Expr → Prop) : Prop :=
  ∀ ⦃path : List Nat⦄ ⦃e r : Expr⦄ ⦃s t : Session⦄ ⦃redex : Redex⦄, e.WellFormed →
    engine.choose path e s = (some redex, t) → redex.ranked.rule.reduce e redex.fit = .ok r →
    P ⟨redex.stepAt path, e, none⟩ → r.WellFormed ∧ R e r

variable {P : Event → Prop}

mutual

/-- What a node settles to is well formed and related to the node, if all events of the session have
the property. -/
theorem Settles.related (hR : IsPrecongruence R) (hengine : engine.StepsWithin P R)
    {path : List Nat} {changed changed' : Bool} {e e' : Expr} {s t : Session}
    (h : engine.Settles path changed e s changed' e' t) (hevents : ∀ event ∈ t.events, P event)
    (he : e.WellFormed) : e'.WellFormed ∧ R e e' := by
  match h with
  | .rest hall hchoose =>
    have hes := (wellFormed_node_iff.mp he).2
    have hbelow (event : Event) (hmem : event ∈ _) : P event :=
      hevents event (mem_events_of_choose hchoose hmem)
    exact hR.wellFormed_node he (hall.related hR hengine hbelow hes)
  | .pass hall hchoose hnext =>
    have hes := (wellFormed_node_iff.mp he).2
    have hbelow (event : Event) (hmem : event ∈ _) : P event :=
      hevents event (hnext.keeps mem_events_of_choose (mem_events_of_choose hchoose hmem))
    obtain ⟨hnode, hrelated⟩ := hR.wellFormed_node he (hall.related hR hengine hbelow hes)
    obtain ⟨hend, hlater⟩ := hnext.related hR hengine hevents hnode
    exact ⟨hend, hR.trans hrelated hlater⟩
  | .reduce hall hchoose hreduce hnext =>
    have hes := (wellFormed_node_iff.mp he).2
    have hbelow (event : Event) (hmem : event ∈ _) : P event :=
      hevents event (hnext.keeps mem_events_of_choose (mem_events_of_choose hchoose hmem))
    obtain ⟨hnode, hrelated⟩ := hR.wellFormed_node he (hall.related hR hengine hbelow hes)
    obtain ⟨hwell, hstep⟩ := hengine hnode hchoose hreduce
      (hevents _ (hnext.keeps mem_events_of_choose (stepAt_mem_events_of_choose hchoose)))
    obtain ⟨hend, hlater⟩ := hnext.related hR hengine hevents hwell
    exact ⟨hend, hR.trans hrelated (hR.trans hstep hlater)⟩

theorem SettlesAll.related (hR : IsPrecongruence R) (hengine : engine.StepsWithin P R)
    {path : List Nat} {i : Nat} {es es' : List Expr} {changed : Bool} {s t : Session}
    (h : engine.SettlesAll path i es s changed es' t) (hevents : ∀ event ∈ t.events, P event)
    (hes : ∀ u ∈ es, u.WellFormed) : (∀ u ∈ es', u.WellFormed) ∧ List.Forall₂ R es es' := by
  match h with
  | .nil => exact ⟨hes, .nil⟩
  | .cons hfirst hlater =>
    rw [List.forall_mem_cons] at hes
    have hbefore (event : Event) (hmem : event ∈ _) : P event :=
      hevents event (hlater.keeps mem_events_of_choose hmem)
    obtain ⟨hwell, hrel⟩ := hfirst.related hR hengine hbefore hes.1
    obtain ⟨hwells, hrels⟩ := hlater.related hR hengine hevents hes.2
    exact ⟨List.forall_mem_cons.mpr ⟨hwell, hwells⟩, .cons hrel hrels⟩

end

mutual

theorem Normalizes.related (hR : IsPrecongruence R) (hengine : engine.StaysWithin R) {e n : Expr}
    (h : engine.Normalizes e n) (he : e.WellFormed) : n.WellFormed ∧ R e n := by
  match h with
  | .rest hall _ =>
    exact hR.wellFormed_node he (hall.related hR hengine (wellFormed_node_iff.mp he).2)
  | .reduce hall hsome hnext =>
    obtain ⟨hnode, hrelated⟩ :=
      hR.wellFormed_node he (hall.related hR hengine (wellFormed_node_iff.mp he).2)
    obtain ⟨rule, fit, htries, hfit, hreduce⟩ := exists_rule_of_contract? hsome
    obtain ⟨r, hr, hwell, hstep⟩ := hengine htries hnode hfit
    cases hreduce.symm.trans hr
    obtain ⟨hend, hlater⟩ := hnext.related hR hengine hwell
    exact ⟨hend, hR.trans hrelated (hR.trans hstep hlater)⟩

theorem NormalizesAll.related (hR : IsPrecongruence R) (hengine : engine.StaysWithin R)
    {es ns : List Expr} (h : engine.NormalizesAll es ns) (hes : ∀ u ∈ es, u.WellFormed) :
    (∀ n ∈ ns, n.WellFormed) ∧ List.Forall₂ R es ns := by
  match h with
  | .nil => exact ⟨hes, .nil⟩
  | .cons hfirst hlater =>
    rw [List.forall_mem_cons] at hes
    obtain ⟨hwell, hrel⟩ := hfirst.related hR hengine hes.1
    obtain ⟨hwells, hrels⟩ := hlater.related hR hengine hes.2
    exact ⟨List.forall_mem_cons.mpr ⟨hwell, hwells⟩, .cons hrel hrels⟩

end

/-- The outcome of a run whose events have the property is related to the expression that the run
began with. -/
theorem related_of_events (hR : IsPrecongruence R) (hengine : engine.StepsWithin P R) {e : Expr}
    (he : e.WellFormed) {budget : Nat} {trace : Trace} {s : Session}
    (h : engine.runWithin budget e = .done trace s) (hevents : ∀ event ∈ s.events, P event) :
    R e trace.expression := by
  obtain ⟨hsettles, _, _⟩ := settles_of_runWithin h
  exact (hsettles.related hR hengine hevents he).2

theorem related_of_runWithin (hR : IsPrecongruence R) (hengine : engine.StaysWithin R) {e : Expr}
    (he : e.WellFormed) {budget : Nat} {trace : Trace} {s : Session}
    (h : engine.runWithin budget e = .done trace s) : R e trace.expression := by
  refine related_of_events (P := fun _ => True) hR ?_ he h fun _ _ => trivial
  intro path e r s t redex he hchoose hreduce _
  obtain ⟨r', hr', hstep⟩ := reduce_of_choose hengine he hchoose
  rwa [Except.ok.inj (hreduce.symm.trans hr')]

end Engine

end SymbolicCalculus
