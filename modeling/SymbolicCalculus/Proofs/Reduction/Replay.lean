import SymbolicCalculus.Proofs.Expr.Position
import SymbolicCalculus.Proofs.Reduction.Ranking
import SymbolicCalculus.Proofs.Reduction.Settling
import SymbolicCalculus.Rules.Tailored

/-! # Replaying a trace

The steps of a trace are recorded with paths from the root, while the engine works on one node at a
time. Replaying them on the whole tree, one after the other, gives the outcome of the run. A run
without steps hands its expression back.
-/
namespace SymbolicCalculus.Engine

/-- Redoes a step on the whole tree. The first rule that matches at the step's path has to be the
one that the step names. -/
def replayStep (engine : Engine) (e : Expr) (step : Step) : Option Expr := do
  let u ← e.at? step.path
  let ranked ← engine.rules.find? fun ranked => (ranked.rule.fit? u).isSome
  if ranked.id = step.ruleId ∧ ranked.rule.name = step.rule then
    let fit ← ranked.rule.fit? u
    let v ← (ranked.rule.reduce u fit).toOption
    return .put v e step.path
  else none

def replay (engine : Engine) (e : Expr) (steps : List Step) : Option Expr :=
  steps.foldlM engine.replayStep e

variable {engine : Engine}

theorem replay_append {e e' : Expr} {steps later : List Step}
    (h : engine.replay e steps = some e') :
    engine.replay e (steps ++ later) = engine.replay e' later := by
  simp only [replay] at h
  simp [replay, List.foldlM_append, h]

theorem find?_of_redex? {e : Expr} {redex : Redex} (h : engine.redex? e = some redex) :
    engine.rules.find? (fun ranked => (ranked.rule.fit? e).isSome) = some redex.ranked ∧
      redex.ranked.rule.fit? e = some redex.fit := by
  obtain ⟨front, back, hrules, hfit, hfront⟩ := redex?_eq_some_iff.mp h
  refine ⟨List.find?_eq_some_iff_append.mpr ⟨by simp [hfit], front, back, hrules, ?_⟩, hfit⟩
  intro ranked hranked
  simp [hfront ranked hranked]

/-- A chosen redex can be replayed wherever its node stands in a tree. -/
theorem replay_of_choose {path : List Nat} {e r root : Expr} {s t : Session} {redex : Redex}
    (hroot : root.at? path = some e) (hchoose : engine.choose path e s = (some redex, t))
    (hreduce : redex.ranked.rule.reduce e redex.fit = .ok r) :
    engine.replay root [redex.stepAt path] = some (.put r root path) := by
  obtain ⟨hredex, _⟩ := choose_eq_some hchoose
  obtain ⟨hfind, hfit⟩ := find?_of_redex? hredex
  simp [replay, replayStep, Redex.stepAt, hroot, hfind, hfit, hreduce, Except.toOption]

theorem steps_of_choose_some {path : List Nat} {e : Expr} {s t : Session} {redex : Redex}
    (h : engine.choose path e s = (some redex, t)) : t.steps = s.steps ++ [redex.stepAt path] := by
  obtain ⟨_, log, _, rfl⟩ := choose_eq_some h
  exact Session.steps_applied s log _ e

theorem steps_of_choose_none {path : List Nat} {e : Expr} {s t : Session}
    (h : engine.choose path e s = (none, t)) : t.steps = s.steps := by
  rcases choose_eq_none h with ⟨_, rfl⟩ | ⟨redex, period, log, _, _, rfl⟩
  · rfl
  · exact Session.steps_heldBack s log _ e period

mutual

/-- The steps added while a node settles lead, in every tree that has the node at the path, to the
tree with the outcome there. The flag is raised by the first of them. -/
theorem Settles.replay_eq {path : List Nat} {changed changed' : Bool} {e e' : Expr}
    {s t : Session} (h : engine.Settles path changed e s changed' e' t) :
    ∃ added, t.steps = s.steps ++ added ∧ (changed' ↔ changed ∨ added ≠ []) ∧
      ∀ root, root.at? path = some e → engine.replay root added = some (.put e' root path) := by
  match h with
  | .rest hall hchoose =>
    obtain ⟨added, hsteps, hflag, hreplay⟩ := hall.replay_eq
    have hadded : added = [] := by simpa using hflag
    refine ⟨added, ?_, by simp [hadded], fun root hroot => hreplay root _ [] rfl hroot⟩
    rw [steps_of_choose_none hchoose, hsteps]
  | .pass hall hchoose hnext =>
    obtain ⟨added, hsteps, hflag, hreplay⟩ := hall.replay_eq
    obtain ⟨added', hsteps', hflag', hreplay'⟩ := hnext.replay_eq
    refine ⟨added ++ added', ?_, ?_, fun root hroot => ?_⟩
    · rw [hsteps', steps_of_choose_none hchoose, hsteps, List.append_assoc]
    · have hadded : added ≠ [] := hflag.mp rfl
      simp [hflag', hadded]
    · rw [replay_append (hreplay root _ [] rfl hroot), List.nil_append,
        hreplay' _ (Expr.at?_put hroot), Expr.put_put]
  | @Settles.reduce _ _ _ _ _ _ _ _ redex _ _ _ _ _ _ hall hchoose hreduce hnext =>
    obtain ⟨added, hsteps, _, hreplay⟩ := hall.replay_eq
    obtain ⟨added', hsteps', hflag', hreplay'⟩ := hnext.replay_eq
    refine ⟨added ++ ([redex.stepAt path] ++ added'), ?_, by simp [hflag'], fun root hroot => ?_⟩
    · rw [hsteps', steps_of_choose_some hchoose, hsteps, List.append_assoc, List.append_assoc]
    · rw [replay_append (hreplay root _ [] rfl hroot), List.nil_append,
        replay_append (replay_of_choose (Expr.at?_put hroot) hchoose hreduce), Expr.put_put,
        hreplay' _ (Expr.at?_put hroot), Expr.put_put]

theorem SettlesAll.replay_eq {path : List Nat} {i : Nat} {es es' : List Expr} {changed : Bool}
    {s t : Session} (h : engine.SettlesAll path i es s changed es' t) :
    ∃ added, t.steps = s.steps ++ added ∧ (changed ↔ added ≠ []) ∧
      ∀ root kind front, front.length = i → root.at? path = some (.node kind (front ++ es)) →
        engine.replay root added = some (.put (.node kind (front ++ es')) root path) := by
  match h with
  | .nil =>
    refine ⟨[], by simp, by simp, fun root kind front _ hroot => ?_⟩
    rw [Expr.put_self hroot]
    rfl
  | @SettlesAll.cons _ _ _ _ e' es _ _ _ _ _ _ hfirst hlater =>
    obtain ⟨added, hsteps, hflag, hreplay⟩ := hfirst.replay_eq
    obtain ⟨added', hsteps', hflag', hreplay'⟩ := hlater.replay_eq
    refine ⟨added ++ added', ?_, ?_, fun root kind front hfront hroot => ?_⟩
    · rw [hsteps', hsteps, List.append_assoc]
    · rw [Bool.or_eq_true, hflag, hflag']
      simp [Classical.or_iff_not_imp_left]
    · subst hfront
      -- The operands in front of the next one are settled, those behind it are as they were.
      have hoperand := hreplay root (by rw [Expr.at?_concat, hroot]; simp [Expr.operands])
      rw [Expr.put_concat hroot] at hoperand
      have hrest := hreplay' (.put (.node kind (front ++ e' :: es)) root path) kind (front ++ [e'])
        (by simp) (by rw [Expr.at?_put hroot, List.append_cons])
      rw [replay_append hoperand, hrest, Expr.put_put, ← List.append_cons]

end

/-- A trace is a derivation of its outcome: its steps can be replayed from the expression that the
run began with, each by the first rule that matches at its path, and end in the outcome. The run has
changed something if and only if there are steps. -/
theorem trace_replays (rules : List Rule) (configuration : Configuration) (e : Expr)
    (budget : Nat) (trace : Trace) (s : Session)
    (h : (Engine.new rules configuration).runWithin budget e = .done trace s) :
    (Engine.new rules configuration).replay e trace.steps = some trace.expression ∧
      (trace.changed = true ↔ trace.steps ≠ []) ∧
      (trace.changed = false → trace.expression = e) := by
  obtain ⟨hsettles, hsteps, _⟩ := settles_of_runWithin h
  obtain ⟨added, hadded, hflag, hreplay⟩ := hsettles.replay_eq
  have hall : trace.steps = added := hsteps.trans hadded
  have hend := hreplay e rfl
  rw [← hall] at hend hflag
  refine ⟨hend, by simp [hflag], fun hunchanged => ?_⟩
  have hnil : trace.steps = [] := by simpa [hunchanged] using hflag
  rw [hnil] at hend
  exact (Option.some.inj hend).symm

/-- Two renamings in different operands are replayed on the whole tree. -/
theorem trace_replays_rename :
    ∃ trace s, (Engine.new [Tailored.rename "Rename" .one "x" "y"] {}).runWithin 5
        (.add (.var "x") (.sin (.var "x"))) = .done trace s ∧
      trace.steps.map Step.path = [[0], [1, 0]] ∧
      (Engine.new [Tailored.rename "Rename" .one "x" "y"] {}).replay
        (.add (.var "x") (.sin (.var "x"))) trace.steps = some trace.expression ∧
      trace.changed = true := by
  have h := trace_replays [Tailored.rename "Rename" .one "x" "y"] {}
    (.add (.var "x") (.sin (.var "x"))) 5 _ _ rfl
  exact ⟨_, _, rfl, rfl, h.1, h.2.1.mpr (List.cons_ne_nil _ _)⟩

end SymbolicCalculus.Engine
