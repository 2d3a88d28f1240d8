import SymbolicCalculus.Proofs.Reduction.Derivation
import SymbolicCalculus.Proofs.Reduction.Residual

/-! # Runs that hold nothing back

A run that held nothing back is innermost reduction, whatever the settings of loop detection are.
Two engines with the same rules and different settings keep different logs from the first step on,
but as long as nothing is held back, both logs follow the same history of applied steps. Settings
that watch fewer lengths of blocks then apply whatever the stricter ones apply, so the run is
repeated under them, choice by choice and within the same budget.
-/
namespace SymbolicCalculus

namespace Engine

variable {engine other : Engine} {s t s' : Session}

section Backwards

/-- A session in which nothing was held back follows upon such sessions only. -/
theorem suppressed_eq_nil_of_choose {path : List Nat} {e : Expr} {choice : Option Redex}
    (h : engine.choose path e s = (choice, t)) (ht : t.suppressed = []) : s.suppressed = [] := by
  rw [← List.subset_nil, ← ht]
  exact fun _ hstep => mem_suppressed_of_choose h hstep

theorem Settles.suppressed_eq_nil {path : List Nat} {changed changed' : Bool} {e e' : Expr}
    (h : engine.Settles path changed e s changed' e' t) (ht : t.suppressed = []) :
    s.suppressed = [] := by
  rw [← List.subset_nil, ← ht]
  exact fun _ hstep => h.keeps mem_suppressed_of_choose hstep

theorem SettlesAll.suppressed_eq_nil {path : List Nat} {i : Nat} {es es' : List Expr}
    {changed : Bool} (h : engine.SettlesAll path i es s changed es' t) (ht : t.suppressed = []) :
    s.suppressed = [] := by
  rw [← List.subset_nil, ← ht]
  exact fun _ hstep => h.keeps mem_suppressed_of_choose hstep

theorem redex?_eq_none_of_choose {path : List Nat} {e : Expr}
    (h : engine.choose path e s = (none, t)) (ht : t.suppressed = []) : engine.redex? e = none := by
  rw [Option.eq_none_iff_forall_ne_some]
  intro redex hredex
  have hmem := stepAt_mem_suppressed_of_choose h hredex
  rw [ht] at hmem
  cases hmem

end Backwards

mutual

/-- What a node settles to without anything being held back is its normal form. -/
theorem Settles.normalizes {path : List Nat} {changed changed' : Bool} {e e' : Expr}
    {s t : Session} (h : engine.Settles path changed e s changed' e' t) (ht : t.suppressed = []) :
    engine.Normalizes e e' := by
  match h with
  | .rest hall hchoose =>
    have hnone := redex?_eq_none_of_choose hchoose ht
    exact .rest (hall.normalizes (suppressed_eq_nil_of_choose hchoose ht))
      (contract?_eq_none_iff.mpr hnone)
  | .pass hall hchoose hnext =>
    have hbefore := suppressed_eq_nil_of_choose hchoose (hnext.suppressed_eq_nil ht)
    exact (hall.normalizes hbefore).node (hnext.normalizes ht)
  | .reduce hall hchoose hreduce hnext =>
    have hbefore := suppressed_eq_nil_of_choose hchoose (hnext.suppressed_eq_nil ht)
    obtain ⟨hredex, _⟩ := choose_eq_some hchoose
    exact .reduce (hall.normalizes hbefore) (contract?_of_redex? hredex hreduce)
      (hnext.normalizes ht)

theorem SettlesAll.normalizes {path : List Nat} {i : Nat} {es es' : List Expr} {changed : Bool}
    {s t : Session} (h : engine.SettlesAll path i es s changed es' t) (ht : t.suppressed = []) :
    engine.NormalizesAll es es' := by
  match h with
  | .nil => exact .nil
  | .cons hfirst hlater =>
    exact .cons (hfirst.normalizes (hlater.suppressed_eq_nil ht)) (hlater.normalizes ht)

end

theorem normalizes_of_isComplete {e : Expr} {budget : Nat} {trace : Trace}
    (h : engine.runWithin budget e = .done trace s) (hcomplete : trace.isComplete = true) :
    engine.Normalizes e trace.expression := by
  obtain ⟨hsettles, _, hsuppressed⟩ := settles_of_runWithin h
  exact hsettles.normalizes (hsuppressed ▸ List.isEmpty_iff.mp hcomplete)

section Simulation

/-- The other engine can go along with every choice that holds nothing back. -/
def Simulates (other engine : Engine) (R : Session → Session → Prop) : Prop :=
  ∀ ⦃path : List Nat⦄ ⦃e : Expr⦄ ⦃s s' t : Session⦄ ⦃choice : Option Redex⦄, R s t →
    engine.choose path e s = (choice, s') → s'.suppressed = [] →
      ∃ t', other.choose path e t = (choice, t') ∧ R s' t'

variable {R : Session → Session → Prop} {budget : Nat}

/-- If the other engine goes along with every operand, it goes along with all of them in a row. -/
theorem settleOperands_simulates
    (hsettle : ∀ {path : List Nat} {e : Expr} {s s' t : Session} {value : Bool × Expr}, R s t →
      engine.settle budget path false e s = .done value s' → s'.suppressed = [] →
        ∃ t', other.settle budget path false e t = .done value t' ∧ R s' t')
    {path : List Nat} {i : Nat} {es : List Expr} {value : Bool × List Expr} (hR : R s t)
    (h : settleOperands (engine.settle budget · false) path i es s = .done value s')
    (hnone : s'.suppressed = []) :
    ∃ t', settleOperands (other.settle budget · false) path i es t = .done value t' ∧ R s' t' := by
  induction es generalizing i s t value with
  | nil =>
    cases h
    exact ⟨t, rfl, hR⟩
  | cons e es ih =>
    obtain ⟨first, e₁, s₁, later, es₁, hfirst, hlater, rfl⟩ := settleOperands_cons_eq_done h
    have hall := settlesAll_of_settleOperands (fun _ _ _ _ _ _ hd => settles_of_settle hd) hlater
    obtain ⟨t₁, ht₁, hR₁⟩ := hsettle hR hfirst (hall.suppressed_eq_nil hnone)
    obtain ⟨t₂, ht₂, hR₂⟩ := ih hR₁ hlater
    exact ⟨t₂, by simp [settleOperands, ht₁, ht₂], hR₂⟩

/-- An engine that goes along with every choice ends like the engine that it goes along with. -/
theorem Simulates.settle_eq (hsim : other.Simulates engine R) {path : List Nat} {changed : Bool}
    {e : Expr} {value : Bool × Expr} (hR : R s t)
    (h : engine.settle budget path changed e s = .done value s') (hnone : s'.suppressed = []) :
    ∃ t', other.settle budget path changed e t = .done value t' ∧ R s' t' := by
  induction budget generalizing path changed e value s t s' with
  | zero => cases h
  | succ budget ih =>
    obtain ⟨kind, es⟩ := e
    obtain ⟨below, fs, s₁, s₂, hoperands, hnext⟩ := settle_succ_eq_done h
    -- Up to the choice at the node both engines agree, if nothing has been held back there.
    have hboth {choice : Option Redex}
        (hchoose : engine.choose path (.node kind fs) s₁ = (choice, s₂))
        (hs₂ : s₂.suppressed = []) : ∃ t₁ t₂,
          settleOperands (other.settle budget · false) path 0 es t = .done (below, fs) t₁ ∧
          other.choose path (.node kind fs) t₁ = (choice, t₂) ∧ R s₂ t₂ := by
      obtain ⟨t₁, ht₁, hR₁⟩ := settleOperands_simulates ih hR hoperands
        (suppressed_eq_nil_of_choose hchoose hs₂)
      obtain ⟨t₂, ht₂, hR₂⟩ := hsim hR₁ hchoose hs₂
      exact ⟨t₁, t₂, ht₁, ht₂, hR₂⟩
    rcases hnext with ⟨redex, r, hchoose, hreduce, hgo⟩ | ⟨hchoose, ⟨rfl, hgo⟩ | ⟨rfl, rfl, rfl⟩⟩
    · have hs₂ := (settles_of_settle hgo).suppressed_eq_nil hnone
      obtain ⟨t₁, t₂, ht₁, ht₂, hR₂⟩ := hboth hchoose hs₂
      obtain ⟨t', ht', hR'⟩ := ih hR₂ hgo hnone
      exact ⟨t', by simp [settle, ht₁, ht₂, hreduce, ht'], hR'⟩
    · have hs₂ := (settles_of_settle hgo).suppressed_eq_nil hnone
      obtain ⟨t₁, t₂, ht₁, ht₂, hR₂⟩ := hboth hchoose hs₂
      obtain ⟨t', ht', hR'⟩ := ih hR₂ hgo hnone
      exact ⟨t', by simp [settle, ht₁, ht₂, ht'], hR'⟩
    · obtain ⟨t₁, t₂, ht₁, ht₂, hR₂⟩ := hboth hchoose hnone
      exact ⟨t₂, by simp [settle, ht₁, ht₂], hR₂⟩

end Simulation

end Engine

/-- Whatever counts as a loop under these settings counts as one under the other settings too. -/
def Configuration.LooserThan (configuration other : Configuration) : Prop :=
  configuration.loopDetection = true → ∀ p, configuration.Watches p → other.Watches p

theorem Configuration.looserThan_of_off {configuration other : Configuration}
    (h : configuration.loopDetection = false) : configuration.LooserThan other := by
  intro hdetect
  rw [h] at hdetect
  cases hdetect

/-- A longer least period and a smaller log watch fewer lengths. -/
theorem Configuration.looserThan_of_le {configuration other : Configuration}
    (hperiod : max 1 other.minPeriod ≤ max 1 configuration.minPeriod)
    (hcapacity : configuration.logCapacity ≤ other.logCapacity) :
    configuration.LooserThan other := by
  intro _ p hwatched
  exact ⟨Nat.le_trans hperiod hwatched.1, Nat.le_trans hwatched.2 hcapacity⟩

namespace Engine

variable {engine other : Engine} {s t : Session}

section Reachable

variable {path : List Nat} {e : Expr} {redex : Redex}

theorem Reachable.of_choose {choice : Option Redex} (hs : engine.Reachable s)
    (h : engine.choose path e s = (choice, t)) : engine.Reachable t := by
  have ht := hs.choose path e
  rwa [h] at ht

theorem Reachable.choose_eq_none_iff (hs : engine.Reachable s)
    (hdetect : engine.configuration.loopDetection = true)
    (hredex : engine.redex? e = some redex) :
    (engine.choose path e s).1 = none ↔ ∃ p, engine.configuration.Watches p ∧
      RepeatsAtEnd p (s.steps.map Step.site ++ [⟨path, redex.ranked.id⟩]) := by
  rw [Engine.choose_eq_none_iff hdetect hredex, (hs.follows hdetect).isSome_period?_push_iff]

theorem Reachable.exists_choose_eq_some (hs : engine.Reachable s)
    (hredex : engine.redex? e = some redex)
    (hfree : engine.configuration.loopDetection = true → ∀ p, engine.configuration.Watches p →
      ¬ RepeatsAtEnd p (s.steps.map Step.site ++ [⟨path, redex.ranked.id⟩])) :
    ∃ log, engine.choose path e s =
      (some redex, ⟨log, ⟨redex.stepAt path, e, none⟩ :: s.events⟩) := by
  rcases hchoose : engine.choose path e s with ⟨choice, t⟩
  cases choice with
  | some found =>
    obtain ⟨hfound, log, _, rfl⟩ := choose_eq_some hchoose
    obtain rfl : redex = found := by simpa [hredex] using hfound
    exact ⟨log, rfl⟩
  | none =>
    exfalso
    cases hdetect : engine.configuration.loopDetection with
    | true =>
      have hheld : (engine.choose path e s).1 = none := by rw [hchoose]
      obtain ⟨p, hwatched, hend⟩ := (hs.choose_eq_none_iff hdetect hredex).mp hheld
      exact hfree hdetect p hwatched hend
    | false => simp [Engine.choose, hredex, loopCheck, hdetect] at hchoose

end Reachable

structure Alike (engine other : Engine) (s t : Session) : Prop where
  left : engine.Reachable s
  right : other.Reachable t
  events : t.events = s.events

theorem Alike.steps (h : Alike engine other s t) : t.steps = s.steps := by
  rw [Session.steps, Session.steps, h.events]

theorem Alike.suppressed (h : Alike engine other s t) : t.suppressed = s.suppressed := by
  rw [Session.suppressed, Session.suppressed, h.events]

/-- Looser settings go along with stricter ones as long as these hold nothing back. -/
theorem simulates_of_looserThan (rules : List Rule) {configuration other : Configuration}
    (hdetect : configuration.loopDetection = true) (hlooser : other.LooserThan configuration) :
    (Engine.new rules other).Simulates (.new rules configuration)
      (Alike (.new rules configuration) (.new rules other)) := by
  intro path e s s' t choice halike hchoose hnone
  cases hredex : (Engine.new rules configuration).redex? e with
  | none =>
    have hself := choose_of_contract?_none (contract?_eq_none_iff.mpr hredex) path s
    obtain ⟨rfl, rfl⟩ := Prod.mk.inj (hself.symm.trans hchoose)
    have hother : (Engine.new rules other).redex? e = none := hredex
    exact ⟨t, choose_of_contract?_none (contract?_eq_none_iff.mpr hother) path t, halike⟩
  | some redex =>
    -- The stricter settings would have reported the step if it ended a loop.
    have hfree (p : Nat) (hwatched : configuration.Watches p) :
        ¬ RepeatsAtEnd p (s.steps.map Step.site ++ [⟨path, redex.ranked.id⟩]) := by
      intro hend
      have hheld := (halike.left.choose_eq_none_iff hdetect hredex).mpr ⟨p, hwatched, hend⟩
      rw [hchoose] at hheld
      obtain rfl : choice = none := hheld
      simp [redex?_eq_none_of_choose hchoose hnone] at hredex
    have hfree' (hon : other.loopDetection = true) (p : Nat) (hwatched : other.Watches p) :
        ¬ RepeatsAtEnd p (t.steps.map Step.site ++ [⟨path, redex.ranked.id⟩]) := by
      rw [halike.steps]
      exact hfree p (hlooser hon p hwatched)
    have hother : (Engine.new rules other).redex? e = some redex := hredex
    obtain ⟨log, hlog⟩ := halike.left.exists_choose_eq_some hredex fun _ => hfree
    obtain ⟨log', hlog'⟩ := halike.right.exists_choose_eq_some hother hfree'
    obtain ⟨rfl, rfl⟩ := Prod.mk.inj (hlog.symm.trans hchoose)
    exact ⟨_, hlog', halike.left.of_choose hlog, halike.right.of_choose hlog',
      congrArg (_ :: ·) halike.events⟩

/-- Settings of loop detection do not influence complete runs. A run with loop detection that held
nothing back is repeated, within the same budget and with the same trace, by the engine of the same
rules without loop detection, and by every one with a least period at least as long and a log at
most as large. -/
theorem complete_run_independent_of_settings (rules : List Rule)
    (configuration other : Configuration) (hdetect : configuration.loopDetection = true)
    (hother : other.loopDetection = false ∨
      max 1 configuration.minPeriod ≤ max 1 other.minPeriod ∧
        other.logCapacity ≤ configuration.logCapacity)
    {e : Expr} {budget : Nat} {trace : Trace} {s : Session}
    (h : (Engine.new rules configuration).runWithin budget e = .done trace s)
    (hnone : trace.suppressed = []) :
    ∃ t, (Engine.new rules other).runWithin budget e = .done trace t ∧ t.events = s.events := by
  have hlooser : other.LooserThan configuration := by
    rcases hother with hoff | ⟨hperiod, hcapacity⟩
    · exact Configuration.looserThan_of_off hoff
    · exact Configuration.looserThan_of_le hperiod hcapacity
  have hstart : Alike (.new rules configuration) (.new rules other) (.start configuration)
      (.start other) := ⟨.start, .start, rfl⟩
  unfold runWithin at h
  split at h
  · rename_i changed e' s' hsettle
    cases h
    obtain ⟨t, ht, halike⟩ :=
      (simulates_of_looserThan rules hdetect hlooser).settle_eq hstart hsettle hnone
    refine ⟨t, ?_, halike.events⟩
    have hconfiguration : (Engine.new rules other).configuration = other := rfl
    rw [runWithin, hconfiguration, ht]
    dsimp only
    rw [halike.steps, halike.suppressed]
  · cases h
  · cases h

/-- Five variables are renamed, one after the other. The log of the second engine has room for four
of the steps. -/
theorem complete_run_independent_of_settings_rename :
    ∃ trace s t, (Engine.new [Tailored.rename "Rename" .one "x" "y"] {}).runWithin 6
        (.add (.add (.mul (.var "x") (.var "x")) (.mul (.var "x") (.var "x"))) (.var "x")) =
          .done trace s ∧
      trace.steps.length = 5 ∧ trace.suppressed = [] ∧
      (Engine.new [Tailored.rename "Rename" .one "x" "y"] { logCapacity := 4 }).runWithin 6
        (.add (.add (.mul (.var "x") (.var "x")) (.mul (.var "x") (.var "x"))) (.var "x")) =
          .done trace t ∧
      t.events = s.events := by
  obtain ⟨trace, s, hrun, hsteps, hnone⟩ : ∃ trace s,
      (Engine.new [Tailored.rename "Rename" .one "x" "y"] {}).runWithin 6
        (.add (.add (.mul (.var "x") (.var "x")) (.mul (.var "x") (.var "x"))) (.var "x")) =
          .done trace s ∧
      trace.steps.length = 5 ∧ trace.suppressed = [] := ⟨_, _, rfl, rfl, rfl⟩
  obtain ⟨t, ht, hevents⟩ := complete_run_independent_of_settings _ {} { logCapacity := 4 } rfl
    (.inr (by decide)) hrun hnone
  exact ⟨trace, s, t, hrun, hsteps, hnone, ht, hevents⟩

end Engine

end SymbolicCalculus
