import SymbolicCalculus.Proofs.Reduction.Repetition
import SymbolicCalculus.Proofs.Reduction.Settling
import SymbolicCalculus.Rules.Tailored

/-! # Loop detection is exact

The log forgets its oldest entry before a step is checked, and a step that is held back is taken off
again, so the log is not always what it was. It still ends like the history of applied steps, and it
is shorter only if it holds all but one of the entries that it has room for. Since the history has
no repeated block of a watched length, searching the whole log for one amounts to comparing the two
blocks at the end of the history with the new step.
-/
namespace SymbolicCalculus

def Step.site (step : Step) : Site := ⟨step.path, step.ruleId⟩

/-- The lengths of the blocks whose repetition counts as a loop. -/
def Configuration.Watches (configuration : Configuration) (p : Nat) : Prop :=
  max 1 configuration.minPeriod ≤ p ∧ 2 * p ≤ configuration.logCapacity

/-- What the log has to do with the history of applied steps. -/
structure ReductionLog.Follows (log : ReductionLog) (configuration : Configuration)
    (history : List Site) : Prop where
  capacity : log.capacity = configuration.logCapacity
  suffix : log.entries <:+ history
  whole_or_long : log.entries = history ∨ configuration.logCapacity ≤ log.entries.length + 1
  no_loop : ∀ p, configuration.Watches p → ¬ RepeatsWithin p history

namespace ReductionLog

variable {log : ReductionLog} {configuration : Configuration} {history : List Site} {site : Site}

theorem capacity_push (log : ReductionLog) (site : Site) :
    (log.push site).capacity = log.capacity := by
  unfold push
  split
  · rfl
  · split <;> rfl

theorem Follows.entries_push (h : log.Follows configuration history) (site : Site) :
    (log.push site).entries <:+ history ++ [site] ∧
      ((log.push site).entries = history ++ [site] ∨
        configuration.logCapacity ≤ (log.push site).entries.length) := by
  have hcapacity := h.capacity
  unfold push
  split
  · rename_i hzero
    have hnil : log.entries = [] := by
      have hle := log.within
      rw [hzero] at hle
      exact List.eq_nil_of_length_eq_zero (Nat.le_zero.mp hle)
    simp only [hnil, List.nil_suffix, true_and]
    omega
  · split
    · rename_i hpos hfull
      refine ⟨List.suffix_concat_iff.mpr (.inr ⟨_, rfl, ?_⟩), .inr ?_⟩
      · exact (List.drop_suffix 1 log.entries).trans h.suffix
      · simp only [List.length_append, List.length_drop, List.length_singleton]
        omega
    · refine ⟨List.suffix_concat_iff.mpr (.inr ⟨_, rfl, h.suffix⟩), ?_⟩
      rcases h.whole_or_long with hwhole | hlong
      · exact .inl (congrArg (· ++ [site]) hwhole)
      · exact .inr (by simpa using hlong)

/-- A search of the log with a new entry finds a loop exactly if the history ends with one. -/
theorem Follows.isSome_period?_push_iff (h : log.Follows configuration history) (site : Site) :
    ((log.push site).period? configuration.minPeriod).isSome = true ↔
      ∃ p, configuration.Watches p ∧ RepeatsAtEnd p (history ++ [site]) := by
  obtain ⟨hsuffix, hwhole⟩ := h.entries_push site
  rw [isSome_period?_iff]
  constructor
  · rintro ⟨p, hleast, hp⟩
    have hwatched : configuration.Watches p := by
      have hroom := (log.push site).within
      have hlength := hp.le_length
      rw [capacity_push, h.capacity] at hroom
      exact ⟨hleast, by omega⟩
    refine ⟨p, hwatched, ?_⟩
    -- The repetition is not an old one, because the history has none.
    rcases repeatsWithin_concat_iff.mp (hp.of_infix hsuffix.isInfix) with hend | hold
    · exact hend
    · exact absurd hold (h.no_loop p hwatched)
  · rintro ⟨p, ⟨hleast, hroom⟩, hend⟩
    refine ⟨p, hleast, RepeatsAtEnd.repeatsWithin ?_⟩
    rcases hwhole with hwhole | hlong
    · rwa [hwhole]
    · exact hend.of_suffix hsuffix (by omega)

/-- A step that is held back leaves the log with the same history, less one entry at most. -/
theorem Follows.pop_push (h : log.Follows configuration history) (site : Site) :
    (log.push site).pop.Follows configuration history := by
  obtain ⟨hsuffix, hwhole⟩ := h.entries_push site
  refine ⟨(capacity_push log site).trans h.capacity, ?_, ?_, h.no_loop⟩
  · rcases List.suffix_concat_iff.mp hsuffix with hnil | ⟨rest, hrest, hhistory⟩
    · simp [pop, hnil]
    · simpa [pop, hrest] using hhistory
  · rcases hwhole with hwhole | hlong
    · exact .inl (by simp [pop, hwhole])
    · refine .inr ?_
      simp only [pop, List.length_dropLast]
      omega

theorem Follows.push (h : log.Follows configuration history) (site : Site)
    (hnone : (log.push site).period? configuration.minPeriod = none) :
    (log.push site).Follows configuration (history ++ [site]) := by
  obtain ⟨hsuffix, hwhole⟩ := h.entries_push site
  refine ⟨(capacity_push log site).trans h.capacity, hsuffix, ?_, ?_⟩
  · exact hwhole.imp id fun hlong => by omega
  · intro p hwatched hp
    rcases repeatsWithin_concat_iff.mp hp with hend | hold
    · have hsome := (h.isSome_period?_push_iff site).mpr ⟨p, hwatched, hend⟩
      simp [hnone] at hsome
    · exact h.no_loop p hwatched hold

end ReductionLog

/-- A run that comes to an end, with an outcome or a failure, does so in a session with `P`. -/
def Outcome.EndsIn {α : Type} (P : Session → Prop) : Outcome α → Prop
  | .done _ s | .failed _ s => P s
  | .exhausted => True

namespace Engine

/-- The sessions that a run can go through. It starts with an empty one, and choices alone touch
it. -/
inductive Reachable (engine : Engine) : Session → Prop
  | start : Reachable engine (.start engine.configuration)
  | choose {s : Session} (path : List Nat) (e : Expr) :
    Reachable engine s → Reachable engine (engine.choose path e s).2

variable {engine : Engine}

theorem settleOperands_endsIn {P : Session → Prop}
    {settleAt : List Nat → Expr → Session → Outcome (Bool × Expr)}
    (hP : ∀ path e s, P s → (settleAt path e s).EndsIn P) (path : List Nat) (i : Nat)
    (es : List Expr) (s : Session) (hs : P s) : (settleOperands settleAt path i es s).EndsIn P := by
  induction es generalizing i s with
  | nil => exact hs
  | cons e es ih =>
    have hfirst := hP (path ++ [i]) e s hs
    rw [settleOperands]
    cases hresult : settleAt (path ++ [i]) e s with
    | done value t =>
      rw [hresult] at hfirst
      have hlater := ih (i + 1) t hfirst
      dsimp only
      cases hrest : settleOperands settleAt path (i + 1) es t with
      | done | failed | exhausted =>
        rw [hrest] at hlater
        exact hlater
    | failed | exhausted =>
      rw [hresult] at hfirst
      exact hfirst

/-- What every choice keeps holds at the end of a run, also of one that fails. -/
theorem settle_endsIn {P : Session → Prop}
    (hP : ∀ path e s, P s → P (engine.choose path e s).2) (budget : Nat) (path : List Nat)
    (changed : Bool) (e : Expr) (s : Session) (hs : P s) :
    (engine.settle budget path changed e s).EndsIn P := by
  induction budget generalizing path changed e s with
  | zero => exact trivial
  | succ budget ih =>
    obtain ⟨kind, operands⟩ := e
    have hbelow := settleOperands_endsIn (fun path e s => ih path false e s) path 0 operands s hs
    rw [settle]
    cases hresult : settleOperands (engine.settle budget · false) path 0 operands s with
    | failed | exhausted =>
      rw [hresult] at hbelow
      exact hbelow
    | done value t =>
      rw [hresult] at hbelow
      have hchosen := hP path (.node kind value.2) t hbelow
      dsimp only
      split
      · rename_i hchoose
        rw [hchoose] at hchosen
        split
        · exact ih path true _ _ hchosen
        · exact hchosen
      · rename_i hchoose
        rw [hchoose] at hchosen
        split
        · exact ih path true _ _ hchosen
        · exact hchosen

theorem runWithin_endsIn_reachable (engine : Engine) (budget : Nat) (e : Expr) :
    (engine.runWithin budget e).EndsIn engine.Reachable := by
  have hsettle := settle_endsIn (P := engine.Reachable) (fun path e _ hs => hs.choose path e)
    budget [] false e _ .start
  rw [runWithin]
  split <;> simp_all [Outcome.EndsIn]

theorem loopCheck_eq_some {configuration : Configuration} {log log' : ReductionLog} {site : Site}
    {period : Nat} (h : loopCheck configuration log site = (some period, log')) :
    (log.push site).period? configuration.minPeriod = some period ∧
      log' = (log.push site).pop := by
  unfold loopCheck at h
  split at h
  · dsimp only at h
    split at h
    · rename_i hperiod
      simp only [Prod.mk.injEq, Option.some.injEq] at h
      obtain ⟨rfl, rfl⟩ := h
      exact ⟨hperiod, rfl⟩
    · cases h
  · cases h

theorem loopCheck_eq_none {configuration : Configuration} {log log' : ReductionLog} {site : Site}
    (hdetect : configuration.loopDetection = true)
    (h : loopCheck configuration log site = (none, log')) :
    (log.push site).period? configuration.minPeriod = none ∧ log' = log.push site := by
  unfold loopCheck at h
  rw [if_pos hdetect] at h
  dsimp only at h
  split at h
  · cases h
  · rename_i hperiod
    simp only [Prod.mk.injEq, true_and] at h
    exact ⟨hperiod, h.symm⟩

theorem follows_of_choose (hdetect : engine.configuration.loopDetection = true)
    {path : List Nat} {e : Expr} {s t : Session} {choice : Option Redex}
    (hs : s.log.Follows engine.configuration (s.steps.map Step.site))
    (h : engine.choose path e s = (choice, t)) :
    t.log.Follows engine.configuration (t.steps.map Step.site) := by
  cases choice with
  | some redex =>
    obtain ⟨_, log, hcheck, rfl⟩ := choose_eq_some h
    obtain ⟨hnone, rfl⟩ := loopCheck_eq_none hdetect hcheck
    rw [Session.steps_applied, List.map_append]
    exact hs.push _ hnone
  | none =>
    rcases choose_eq_none h with ⟨_, rfl⟩ | ⟨redex, period, log, _, hcheck, rfl⟩
    · exact hs
    · obtain ⟨_, rfl⟩ := loopCheck_eq_some hcheck
      rw [Session.steps_heldBack]
      exact hs.pop_push _

theorem Reachable.follows (hdetect : engine.configuration.loopDetection = true) {s : Session}
    (h : engine.Reachable s) :
    s.log.Follows engine.configuration (s.steps.map Step.site) := by
  induction h with
  | start =>
    refine ⟨rfl, List.nil_suffix, .inl rfl, fun p hwatched hp => ?_⟩
    have hle : 2 * p ≤ 0 := hp.le_length
    have hpos := hwatched.1
    omega
  | choose path e _ ih => exact follows_of_choose hdetect ih rfl

/-- A redex is held back exactly if the search of the log finds a period. -/
theorem choose_eq_none_iff (hdetect : engine.configuration.loopDetection = true)
    {path : List Nat} {e : Expr} {s : Session} {redex : Redex}
    (hredex : engine.redex? e = some redex) :
    (engine.choose path e s).1 = none ↔
      ((s.log.push ⟨path, redex.ranked.id⟩).period? engine.configuration.minPeriod).isSome := by
  rcases hchoose : engine.choose path e s with ⟨choice, t⟩
  cases choice with
  | some found =>
    obtain ⟨hfound, log, hcheck, _⟩ := choose_eq_some hchoose
    obtain rfl : redex = found := by simpa [hredex] using hfound
    simp [(loopCheck_eq_none hdetect hcheck).1]
  | none =>
    rcases choose_eq_none hchoose with ⟨hnone, _⟩ | ⟨found, period, log, hfound, hcheck, _⟩
    · simp [hredex] at hnone
    · obtain rfl : redex = found := by simpa [hredex] using hfound
      simp [(loopCheck_eq_some hcheck).1]

/-- With loop detection, a redex is held back exactly if the applied steps, followed by its own
one, end with a repeated block of a watched length. So the steps of a trace never contain one. This
holds in all reachable sessions, and every run ends in one of them. -/
theorem loop_detection_exact (rules : List Rule) (configuration : Configuration)
    (hdetect : configuration.loopDetection = true) :
    (∀ s, (Engine.new rules configuration).Reachable s → ∀ path e redex,
      (Engine.new rules configuration).redex? e = some redex →
      (((Engine.new rules configuration).choose path e s).1 = none ↔
        ∃ p, max 1 configuration.minPeriod ≤ p ∧ 2 * p ≤ configuration.logCapacity ∧
          RepeatsAtEnd p (s.steps.map Step.site ++ [⟨path, redex.ranked.id⟩]))) ∧
    (∀ budget e, ((Engine.new rules configuration).runWithin budget e).EndsIn
      (Engine.new rules configuration).Reachable) ∧
    (∀ budget e trace s, (Engine.new rules configuration).runWithin budget e = .done trace s →
      ∀ p, max 1 configuration.minPeriod ≤ p → 2 * p ≤ configuration.logCapacity →
        ¬ RepeatsWithin p (trace.steps.map Step.site)) := by
  refine ⟨?_, runWithin_endsIn_reachable _, ?_⟩
  · intro s hs path e redex hredex
    rw [choose_eq_none_iff hdetect hredex, (hs.follows hdetect).isSome_period?_push_iff]
    simp only [Configuration.Watches, and_assoc]
    rfl
  · intro budget e trace s hrun p hleast hroom
    obtain ⟨_, hsteps, _⟩ := settles_of_runWithin hrun
    have hs := runWithin_endsIn_reachable (Engine.new rules configuration) budget e
    rw [hrun] at hs
    rw [hsteps]
    exact (hs.follows hdetect).no_loop p ⟨hleast, hroom⟩

/-- After three swaps a fourth one would repeat a block of two, which the steps so far do not. -/
theorem loop_detection_exact_swap :
    ∃ trace s, (Engine.new [Tailored.swap "Swap" .one .add] {}).runWithin 6
        (.add (.var "a") (.var "b")) = .done trace s ∧
      (∃ p, 2 ≤ p ∧ 2 * p ≤ 20 ∧ RepeatsAtEnd p (s.steps.map Step.site ++ [⟨[], 0⟩])) ∧
      ¬ RepeatsWithin 2 (trace.steps.map Step.site) := by
  obtain ⟨hexact, hreachable, hnone⟩ :=
    loop_detection_exact [Tailored.swap "Swap" .one .add] {} rfl
  have hs := hreachable 6 (.add (.var "a") (.var "b"))
  exact ⟨_, _, rfl, (hexact _ hs [] (.add (.var "b") (.var "a")) _ rfl).mp rfl,
    hnone 6 (.add (.var "a") (.var "b")) _ _ rfl 2 (by decide) (by decide)⟩

end Engine

end SymbolicCalculus
