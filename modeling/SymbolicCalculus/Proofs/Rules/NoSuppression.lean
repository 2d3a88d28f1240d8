import SymbolicCalculus.Proofs.Rules.Retirement

/-! # Loop detection and the standard rules

The log records paths and rules of the whole expression, so progress at the same places could pass
for a loop. With the standard rules it never does: the derivation of the normal form repeats no
block of steps, whatever its length, so the log admits all its steps. The engine then follows the
derivation to its end and holds nothing back.
-/
namespace SymbolicCalculus

theorem Session.suppressed_eq_nil_iff {s : Session} :
    s.suppressed = [] ↔ ∀ event ∈ s.events, event.period? = none := by
  rw [Session.suppressed, List.reverse_eq_nil_iff, List.filterMap_eq_nil_iff]
  refine forall₂_congr fun event _ => ?_
  unfold Event.suppressedStep?
  split <;> simp_all

namespace Engine

/-- Steps that bring no repetition of a watched length into the history are admitted. -/
theorem admits_of_follows {configuration : Configuration}
    (hdetect : configuration.loopDetection = true) {log : ReductionLog} {history sites : List Site}
    (hfollows : log.Follows configuration history)
    (hnone : ∀ p, configuration.Watches p → ¬ RepeatsWithin p (history ++ sites)) :
    Admits configuration log sites := by
  induction sites generalizing log history with
  | nil => exact trivial
  | cons site sites ih =>
    have hsites : history ++ site :: sites = history ++ [site] ++ sites := by simp
    rw [hsites] at hnone
    have hperiod : (log.push site).period? configuration.minPeriod = none := by
      rw [← Option.not_isSome_iff_eq_none, hfollows.isSome_period?_push_iff]
      rintro ⟨p, hwatched, hend⟩
      exact hnone p hwatched (hend.repeatsWithin.of_infix (List.prefix_append _ _).isInfix)
    have hcheck : loopCheck configuration log site = (none, log.push site) := by
      simp [loopCheck, hdetect, hperiod]
    rw [Admits, hcheck]
    exact ⟨rfl, ih (hfollows.push site hperiod) hnone⟩

theorem admits_start (configuration : Configuration) {sites : List Site}
    (hnone : ∀ p, 0 < p → ¬ RepeatsWithin p sites) :
    Admits configuration (Session.start configuration).log sites := by
  by_cases hdetect : configuration.loopDetection = true
  · have hstart := (@Reachable.start (.new [] configuration)).follows hdetect
    refine admits_of_follows hdetect hstart fun p hwatched => hnone p ?_
    exact Nat.lt_of_lt_of_le Nat.zero_lt_one (Nat.le_trans (Nat.le_max_left _ _) hwatched.1)
  · exact admits_of_off (by simpa using hdetect) _ _

/-- The run follows a derivation to its end, and nothing is held back. -/
theorem Derives.settles_standard {configuration : Configuration} {e n : Expr} {steps : List Step}
    (h : (standard configuration).Derives e steps n) (he : e.WellFormed) :
    ∃ changed s, (standard configuration).Settles [] false e (.start configuration) changed n s ∧
      s.steps = steps ∧ s.suppressed = [] := by
  have hsafe : (standard configuration).IsSafe := isSafe_new (fun _ hrule => hrule) configuration
  have hadmits : Admits configuration (Session.start configuration).log
      ((steps.map (Step.below [])).map Step.site ++ []) := by
    rw [Step.map_below_nil, List.append_nil]
    exact admits_start configuration fun p hp =>
      h.not_repeatsWithin hsafe (isUnrepeating_standard configuration) he hp
  obtain ⟨changed, s, hsettles, hgoes, _⟩ := h.settles [] false hadmits
  refine ⟨changed, s, hsettles, ?_, hgoes.suppressed⟩
  rw [hgoes.steps, Step.map_below_nil]
  rfl

theorem exists_settles_standard (configuration : Configuration) {e : Expr} (he : e.WellFormed) :
    ∃ changed n s, (standard configuration).Settles [] false e (.start configuration) changed n s ∧
      s.suppressed = [] := by
  obtain ⟨n, hn, _⟩ := (isStandard_new configuration).resolves_of_wellFormed he
  obtain ⟨steps, hsteps⟩ := hn.derives
  obtain ⟨changed, s, hsettles, _, hsuppressed⟩ := hsteps.settles_standard he
  exact ⟨changed, n, s, hsettles, hsuppressed⟩

/-- Every budget that lets the run end gives the same outcome. -/
theorem runWithin_standard_endsIn (configuration : Configuration) {e : Expr} (he : e.WellFormed)
    (budget : Nat) :
    ((standard configuration).runWithin budget e).EndsIn fun s => s.suppressed = [] := by
  cases hrun : (standard configuration).runWithin budget e with
  | exhausted => exact trivial
  | failed error s =>
    have hkeeps := runWithin_keeps (isSafe_new (fun _ hrule => hrule) configuration) budget he
    rw [hrun] at hkeeps
    exact hkeeps.elim
  | done trace s =>
    obtain ⟨changed, n, t, hsettles, ht⟩ := exists_settles_standard configuration he
    obtain ⟨least, hleast⟩ := hsettles.runWithin_eq
    obtain ⟨hsettles', _⟩ := settles_of_runWithin hrun
    obtain ⟨least', hleast'⟩ := hsettles'.runWithin_eq
    have hsame := (hleast (max least least') (Nat.le_max_left _ _)).symm.trans
      (hleast' (max least least') (Nat.le_max_right _ _))
    exact (Outcome.done.inj hsame).2 ▸ ht

/-- Loop detection has no false positives on the standard rules. For all settings, a run on a
well-formed expression returns once its budget is large enough, and wherever a run ends, all its
events are steps that were applied. So no trace reports a step held back. -/
theorem standard_rules_never_suppressed (configuration : Configuration) {e : Expr}
    (he : e.WellFormed) :
    (∃ least trace s, ∀ budget ≥ least,
      (Engine.new standardRules configuration).runWithin budget e = .done trace s) ∧
    (∀ budget, ((Engine.new standardRules configuration).runWithin budget e).EndsIn fun s =>
      ∀ event ∈ s.events, event.period? = none) ∧
    (∀ budget trace s, (Engine.new standardRules configuration).runWithin budget e = .done trace s →
      trace.suppressed = []) ∧
    ∀ trace s, simplifyWith [] e = .done trace s → trace.suppressed = [] := by
  have hnone (configuration : Configuration) (budget : Nat) (trace : Trace) (s : Session)
      (hrun : (standard configuration).runWithin budget e = .done trace s) :
      trace.suppressed = [] := by
    have hends := runWithin_standard_endsIn configuration he budget
    rw [hrun] at hends
    exact (settles_of_runWithin hrun).2.2.trans hends
  refine ⟨?_, fun budget => ?_, hnone configuration, fun trace s hrun => ?_⟩
  · obtain ⟨changed, n, s, hsettles, _⟩ := exists_settles_standard configuration he
    obtain ⟨least, hleast⟩ := hsettles.runWithin_eq
    exact ⟨least, _, s, hleast⟩
  · have hends := runWithin_standard_endsIn configuration he budget
    cases hrun : (standard configuration).runWithin budget e with
    | exhausted => exact trivial
    | done | failed =>
      rw [hrun] at hends
      exact Session.suppressed_eq_nil_iff.mp hends
  · rw [simplifyWith, standardEngine, List.append_nil] at hrun
    exact hnone {} ampleBudget trace s hrun

/-- The derivative of `x ^ x`, where even a single step that is repeated would count as a loop. -/
theorem standard_rules_never_suppressed_power :
    (Expr.diff "x" (.pow (.var "x") (.var "x"))).WellFormed ∧
    ∃ least trace s,
      (∀ budget ≥ least, (Engine.new standardRules { minPeriod := 0 }).runWithin budget
        (.diff "x" (.pow (.var "x") (.var "x"))) = .done trace s) ∧
      trace.suppressed = [] := by
  have he : (Expr.diff "x" (.pow (.var "x") (.var "x"))).WellFormed := by
    simp [Expr.WellFormed, Expr.AllWellFormed, Kind.arity]
  obtain ⟨⟨least, trace, s, hrun⟩, _, hnone, _⟩ :=
    standard_rules_never_suppressed { minPeriod := 0 } he
  exact ⟨he, least, trace, s, hrun, hnone least trace s (hrun least (Nat.le_refl _))⟩

end Engine

end SymbolicCalculus
