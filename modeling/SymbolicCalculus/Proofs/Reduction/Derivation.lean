import SymbolicCalculus.Proofs.Reduction.Innermost
import SymbolicCalculus.Proofs.Reduction.LoopDetection

/-! # Derivations

A derivation lists the steps of innermost reduction, with paths from the expression that it starts
from. It ends in a normal form, or in the failure of its last step, and knows nothing of sessions.
The engine follows a derivation as long as the log admits its steps, and without loop detection the
engine follows nothing else.
-/
namespace SymbolicCalculus

/-- The step on a node below the path's end, as a step from where the path begins. -/
def Step.below (path : List Nat) (step : Step) : Step := { step with path := path ++ step.path }

theorem Step.below_below (path path' : List Nat) (step : Step) :
    (step.below path').below path = step.below (path ++ path') := by
  simp [below]

theorem Step.map_below_nil (steps : List Step) : steps.map (below []) = steps := by
  induction steps with
  | nil => rfl
  | cons step steps ih => rw [List.map_cons, ih]; rfl

theorem Step.map_below_below (path path' : List Nat) (steps : List Step) :
    (steps.map (below path')).map (below path) = steps.map (below (path ++ path')) := by
  simp [below_below]

theorem Redex.below_stepAt_nil (redex : Redex) (path : List Nat) :
    (redex.stepAt []).below path = redex.stepAt path := by
  simp [Step.below, stepAt]

namespace Engine

mutual

/-- Innermost reduction of `e` takes these steps and ends in a normal form. -/
inductive Derives (engine : Engine) : Expr → List Step → Expr → Prop
  | rest {kind : Kind} {es fs : List Expr} {steps : List Step} :
    DerivesAll engine 0 es steps fs → engine.redex? (.node kind fs) = none →
    Derives engine (.node kind es) steps (.node kind fs)
  | reduce {kind : Kind} {es fs : List Expr} {steps later : List Step} {redex : Redex}
      {r n : Expr} :
    DerivesAll engine 0 es steps fs → engine.redex? (.node kind fs) = some redex →
    redex.ranked.rule.reduce (.node kind fs) redex.fit = .ok r → Derives engine r later n →
    Derives engine (.node kind es) (steps ++ redex.stepAt [] :: later) n

inductive DerivesAll (engine : Engine) : Nat → List Expr → List Step → List Expr → Prop
  | nil {i : Nat} : DerivesAll engine i [] [] []
  | cons {i : Nat} {e n : Expr} {es ns : List Expr} {steps later : List Step} :
    Derives engine e steps n → DerivesAll engine (i + 1) es later ns →
    DerivesAll engine i (e :: es) (steps.map (Step.below [i]) ++ later) (n :: ns)

end

mutual

/-- Innermost reduction of `e` takes these steps, and the last of them fails. -/
inductive Fails (engine : Engine) : Expr → List Step → Error → Prop
  | here {kind : Kind} {es fs : List Expr} {steps : List Step} {redex : Redex} {error : Error} :
    DerivesAll engine 0 es steps fs → engine.redex? (.node kind fs) = some redex →
    redex.ranked.rule.reduce (.node kind fs) redex.fit = .error error →
    Fails engine (.node kind es) (steps ++ [redex.stepAt []]) error
  | among {kind : Kind} {es : List Expr} {steps : List Step} {error : Error} :
    FailsAmong engine 0 es steps error → Fails engine (.node kind es) steps error
  | reduce {kind : Kind} {es fs : List Expr} {steps later : List Step} {redex : Redex} {r : Expr}
      {error : Error} :
    DerivesAll engine 0 es steps fs → engine.redex? (.node kind fs) = some redex →
    redex.ranked.rule.reduce (.node kind fs) redex.fit = .ok r → Fails engine r later error →
    Fails engine (.node kind es) (steps ++ redex.stepAt [] :: later) error

inductive FailsAmong (engine : Engine) : Nat → List Expr → List Step → Error → Prop
  | first {i : Nat} {e : Expr} {es : List Expr} {steps : List Step} {error : Error} :
    Fails engine e steps error → FailsAmong engine i (e :: es) (steps.map (Step.below [i])) error
  | later {i : Nat} {e n : Expr} {es : List Expr} {steps later : List Step} {error : Error} :
    Derives engine e steps n → FailsAmong engine (i + 1) es later error →
    FailsAmong engine i (e :: es) (steps.map (Step.below [i]) ++ later) error

end

variable {engine : Engine}

theorem contract?_of_redex? {e : Expr} {redex : Redex} {outcome : Except Error Expr}
    (hredex : engine.redex? e = some redex)
    (hreduce : redex.ranked.rule.reduce e redex.fit = outcome) :
    engine.contract? e = some outcome := by
  rw [contract?, hredex, Option.map_some, hreduce]

mutual

theorem Derives.normalizes {e n : Expr} {steps : List Step} (h : engine.Derives e steps n) :
    engine.Normalizes e n := by
  match h with
  | .rest hall hnone => exact .rest hall.normalizes (contract?_eq_none_iff.mpr hnone)
  | .reduce hall hredex hreduce hnext =>
    exact .reduce hall.normalizes (contract?_of_redex? hredex hreduce) hnext.normalizes

theorem DerivesAll.normalizes {i : Nat} {es ns : List Expr} {steps : List Step}
    (h : engine.DerivesAll i es steps ns) : engine.NormalizesAll es ns := by
  match h with
  | .nil => exact .nil
  | .cons hfirst hlater => exact .cons hfirst.normalizes hlater.normalizes

end

mutual

theorem Normalizes.derives {e n : Expr} (h : engine.Normalizes e n) :
    ∃ steps, engine.Derives e steps n := by
  match h with
  | .rest hall hnone =>
    obtain ⟨steps, hsteps⟩ := hall.derives 0
    exact ⟨steps, .rest hsteps (contract?_eq_none_iff.mp hnone)⟩
  | .reduce hall hsome hnext =>
    obtain ⟨steps, hsteps⟩ := hall.derives 0
    obtain ⟨later, hlater⟩ := hnext.derives
    obtain ⟨redex, hredex, hreduce⟩ := Option.map_eq_some_iff.mp hsome
    exact ⟨_, .reduce hsteps hredex hreduce hlater⟩

theorem NormalizesAll.derives {es ns : List Expr} (h : engine.NormalizesAll es ns) (i : Nat) :
    ∃ steps, engine.DerivesAll i es steps ns := by
  match h with
  | .nil => exact ⟨[], .nil⟩
  | .cons hfirst hlater =>
    obtain ⟨steps, hsteps⟩ := hfirst.derives
    obtain ⟨later, hlater⟩ := hlater.derives (i + 1)
    exact ⟨_, .cons hsteps hlater⟩

end

/-- Induction on the steps at the node itself. -/
theorem Derives.rootInduction {P : Expr → List Step → Prop}
    (hrest : ∀ {kind es fs steps}, engine.DerivesAll 0 es steps fs → P (.node kind es) steps)
    (hreduce : ∀ {kind es fs steps later redex r}, engine.DerivesAll 0 es steps fs →
      engine.redex? (.node kind fs) = some redex →
      redex.ranked.rule.reduce (.node kind fs) redex.fit = .ok r → P r later →
      P (.node kind es) (steps ++ redex.stepAt [] :: later))
    {e n : Expr} {steps : List Step} (h : engine.Derives e steps n) : P e steps := by
  match h with
  | .rest hall _ => exact hrest hall
  | .reduce hall hredex hok hnext =>
    exact hreduce hall hredex hok (hnext.rootInduction hrest hreduce)

/-- Steps in the operands from position `i` on lead into one of them. -/
theorem DerivesAll.exists_path {i : Nat} {es ns : List Expr} {steps : List Step}
    (h : engine.DerivesAll i es steps ns) :
    ∀ site ∈ steps.map Step.site, ∃ j path, i ≤ j ∧ site.path = j :: path := by
  match h with
  | .nil => simp
  | .cons _ hlater =>
    intro site hsite
    rw [List.map_append, List.mem_append] at hsite
    rcases hsite with hfirst | hrest
    · simp only [List.map_map, List.mem_map] at hfirst
      obtain ⟨step, _, rfl⟩ := hfirst
      exact ⟨i, step.path, Nat.le_refl i, rfl⟩
    · obtain ⟨j, path, hj, hpath⟩ := hlater.exists_path site hrest
      exact ⟨j, path, Nat.le_of_succ_le hj, hpath⟩

theorem derivesAll_self {es : List Expr} (h : ∀ u ∈ es, engine.Derives u [] u) (i : Nat) :
    engine.DerivesAll i es [] es := by
  induction es generalizing i with
  | nil => exact .nil
  | cons e es ih =>
    rw [List.forall_mem_cons] at h
    exact .cons h.1 (ih h.2 (i + 1))

theorem Normal.derives {e : Expr} (h : engine.Normal e) : engine.Derives e [] e := by
  induction h with
  | node _ hnone ih => exact .rest (derivesAll_self ih 0) (contract?_eq_none_iff.mp hnone)

mutual

theorem Derives.steps_eq_nil {e n : Expr} {steps : List Step} (h : engine.Derives e steps n)
    (he : engine.Normal e) : steps = [] := by
  obtain ⟨hes, hnone⟩ := he
  match h with
  | .rest hall _ => exact hall.steps_eq_nil hes
  | .reduce hall hredex _ _ =>
    rw [hall.normalizes.eq_of_normal hes, contract?_eq_none_iff.mp hnone] at hredex
    cases hredex

theorem DerivesAll.steps_eq_nil {i : Nat} {es ns : List Expr} {steps : List Step}
    (h : engine.DerivesAll i es steps ns) (hes : ∀ u ∈ es, engine.Normal u) : steps = [] := by
  match h with
  | .nil => rfl
  | .cons hfirst hlater =>
    rw [List.forall_mem_cons] at hes
    simp [hfirst.steps_eq_nil hes.1, hlater.steps_eq_nil hes.2]

end

mutual

theorem Fails.not_normal {e : Expr} {steps : List Step} {error : Error}
    (h : engine.Fails e steps error) : ¬ engine.Normal e := by
  rintro ⟨hes, hnone⟩
  match h with
  | .here hall hredex _ | .reduce hall hredex _ _ =>
    rw [hall.normalizes.eq_of_normal hes, contract?_eq_none_iff.mp hnone] at hredex
    cases hredex
  | .among hamong => exact hamong.not_normal hes

theorem FailsAmong.not_normal {i : Nat} {es : List Expr} {steps : List Step} {error : Error}
    (h : engine.FailsAmong i es steps error) : ¬ ∀ u ∈ es, engine.Normal u := by
  intro hes
  match h with
  | .first hfirst => exact hfirst.not_normal (List.forall_mem_cons.mp hes).1
  | .later _ hlater => exact hlater.not_normal (List.forall_mem_cons.mp hes).2

end

def Admits (configuration : Configuration) : ReductionLog → List Site → Prop
  | _, [] => True
  | log, site :: sites =>
    (loopCheck configuration log site).1 = none ∧
      Admits configuration (loopCheck configuration log site).2 sites

theorem admits_of_off {configuration : Configuration} (hoff : configuration.loopDetection = false)
    (log : ReductionLog) (sites : List Site) : Admits configuration log sites := by
  induction sites generalizing log with
  | nil => exact trivial
  | cons site sites ih => exact ⟨by simp [loopCheck, hoff], ih _⟩

end Engine

/-- The session has gone on by these steps, and none was held back. -/
structure Session.GoesOn (s : Session) (steps : List Step) (t : Session) : Prop where
  steps : t.steps = s.steps ++ steps
  suppressed : t.suppressed = s.suppressed

namespace Session.GoesOn

variable {s t u : Session} {steps later : List Step}

theorem refl (s : Session) : s.GoesOn [] s := ⟨by simp, rfl⟩

theorem trans (h : s.GoesOn steps t) (h' : t.GoesOn later u) : s.GoesOn (steps ++ later) u :=
  ⟨by rw [h'.steps, h.steps, List.append_assoc], h'.suppressed.trans h.suppressed⟩

end Session.GoesOn

namespace Engine

variable {engine : Engine}

theorem choose_of_admits {path : List Nat} {e : Expr} {s : Session} {redex : Redex}
    {sites : List Site} (hredex : engine.redex? e = some redex)
    (h : Admits engine.configuration s.log ((redex.stepAt path).site :: sites)) :
    ∃ t, engine.choose path e s = (some redex, t) ∧ s.GoesOn [redex.stepAt path] t ∧
      Admits engine.configuration t.log sites := by
  obtain ⟨hnone, hlater⟩ := h
  rcases hcheck : loopCheck engine.configuration s.log ⟨path, redex.ranked.id⟩ with ⟨period?, log⟩
  have hsite : (redex.stepAt path).site = ⟨path, redex.ranked.id⟩ := rfl
  rw [hsite, hcheck] at hnone hlater
  obtain rfl : period? = none := hnone
  refine ⟨⟨log, ⟨redex.stepAt path, e, none⟩ :: s.events⟩, ?_, ?_, hlater⟩
  · simp only [choose, hredex, hcheck]
    rfl
  · exact ⟨Session.steps_applied s log _ e, Session.suppressed_applied s log _ e⟩

mutual

/-- The engine follows a derivation whose steps are admitted, from any node and in any session. -/
theorem Derives.settles {e n : Expr} {steps : List Step} (h : engine.Derives e steps n)
    (path : List Nat) (changed : Bool) {s : Session} {sites : List Site}
    (hadmits : Admits engine.configuration s.log
      ((steps.map (Step.below path)).map Step.site ++ sites)) :
    ∃ changed' t, engine.Settles path changed e s changed' n t ∧
      s.GoesOn (steps.map (Step.below path)) t ∧ Admits engine.configuration t.log sites := by
  match h with
  | .rest hall hnone =>
    obtain ⟨below, t, ht, hgoes, hsites⟩ := hall.settles path hadmits
    have hcontract := contract?_eq_none_iff.mpr hnone
    have hchoose := choose_of_contract?_none hcontract path t
    cases below with
    | false => exact ⟨changed, t, .rest ht hchoose, hgoes, hsites⟩
    | true =>
      have hagain := (Normal.node hall.normalizes.normal hcontract).settles path true t
      exact ⟨true, t, .pass ht hchoose hagain, hgoes, hsites⟩
  | .reduce hall hredex hreduce hnext =>
    rw [List.map_append, List.map_cons, Redex.below_stepAt_nil, List.map_append,
      List.append_assoc] at hadmits
    obtain ⟨_, t, ht, hgoes, hsites⟩ := hall.settles path hadmits
    obtain ⟨t', hchoose, hgoes', hsites'⟩ := choose_of_admits hredex hsites
    obtain ⟨changed', u, hu, hgoes'', hsites''⟩ := hnext.settles path true hsites'
    refine ⟨changed', u, .reduce ht hchoose hreduce hu, ?_, hsites''⟩
    rw [List.map_append, List.map_cons, Redex.below_stepAt_nil]
    exact hgoes.trans (hgoes'.trans hgoes'')

theorem DerivesAll.settles {i : Nat} {es ns : List Expr} {steps : List Step}
    (h : engine.DerivesAll i es steps ns) (path : List Nat) {s : Session} {sites : List Site}
    (hadmits : Admits engine.configuration s.log
      ((steps.map (Step.below path)).map Step.site ++ sites)) :
    ∃ changed t, engine.SettlesAll path i es s changed ns t ∧
      s.GoesOn (steps.map (Step.below path)) t ∧ Admits engine.configuration t.log sites := by
  match h with
  | .nil => exact ⟨false, s, .nil, .refl s, hadmits⟩
  | .cons hfirst hlater =>
    rw [List.map_append, Step.map_below_below, List.map_append, List.append_assoc] at hadmits
    obtain ⟨first, t, ht, hgoes, hsites⟩ := hfirst.settles (path ++ [i]) false hadmits
    obtain ⟨later, u, hu, hgoes', hsites'⟩ := hlater.settles path hsites
    refine ⟨first || later, u, .cons ht hu, ?_, hsites'⟩
    rw [List.map_append, Step.map_below_below]
    exact hgoes.trans hgoes'

end

mutual

theorem Fails.settle_eq {e : Expr} {steps : List Step} {error : Error}
    (h : engine.Fails e steps error) (path : List Nat) (changed : Bool) {s : Session}
    (hadmits : Admits engine.configuration s.log ((steps.map (Step.below path)).map Step.site)) :
    ∃ t, s.GoesOn (steps.map (Step.below path)) t ∧ ∃ least, ∀ budget, least ≤ budget →
      engine.settle budget path changed e s = .failed error t := by
  match h with
  | .here hall hredex hreduce =>
    rw [List.map_append, List.map_cons, Redex.below_stepAt_nil, List.map_append] at hadmits
    obtain ⟨_, t, ht, hgoes, hsites⟩ := hall.settles path hadmits
    obtain ⟨t', hchoose, hgoes', _⟩ := choose_of_admits hredex hsites
    obtain ⟨least, hleast⟩ := ht.settleOperands_eq
    refine ⟨t', ?_, least + 1, fun budget hb => ?_⟩
    · rw [List.map_append, List.map_cons, Redex.below_stepAt_nil]
      exact hgoes.trans hgoes'
    · obtain ⟨budget, rfl⟩ := Nat.exists_eq_add_of_lt (Nat.lt_of_succ_le hb)
      simp [settle, hleast (least + budget) (Nat.le_add_right _ _), hchoose, hreduce]
  | .among hamong =>
    obtain ⟨t, hgoes, least, hleast⟩ := hamong.settleOperands_eq path hadmits
    refine ⟨t, hgoes, least + 1, fun budget hb => ?_⟩
    obtain ⟨budget, rfl⟩ := Nat.exists_eq_add_of_lt (Nat.lt_of_succ_le hb)
    simp [settle, hleast (least + budget) (Nat.le_add_right _ _)]
  | .reduce hall hredex hreduce hnext =>
    rw [List.map_append, List.map_cons, Redex.below_stepAt_nil, List.map_append] at hadmits
    obtain ⟨_, t, ht, hgoes, hsites⟩ := hall.settles path hadmits
    obtain ⟨t', hchoose, hgoes', hsites'⟩ := choose_of_admits hredex hsites
    obtain ⟨least₁, h₁⟩ := ht.settleOperands_eq
    obtain ⟨u, hgoes'', least₂, h₂⟩ := hnext.settle_eq path true hsites'
    refine ⟨u, ?_, least₁ + least₂ + 1, fun budget hb => ?_⟩
    · rw [List.map_append, List.map_cons, Redex.below_stepAt_nil]
      exact hgoes.trans (hgoes'.trans hgoes'')
    · obtain ⟨budget, rfl⟩ := Nat.exists_eq_add_of_lt (Nat.lt_of_succ_le hb)
      simp [settle, h₁ (least₁ + least₂ + budget) (by omega), hchoose, hreduce,
        h₂ (least₁ + least₂ + budget) (by omega)]

theorem FailsAmong.settleOperands_eq {i : Nat} {es : List Expr} {steps : List Step} {error : Error}
    (h : engine.FailsAmong i es steps error) (path : List Nat) {s : Session}
    (hadmits : Admits engine.configuration s.log ((steps.map (Step.below path)).map Step.site)) :
    ∃ t, s.GoesOn (steps.map (Step.below path)) t ∧ ∃ least, ∀ budget, least ≤ budget →
      settleOperands (engine.settle budget · false) path i es s = .failed error t := by
  match h with
  | .first hfirst =>
    rw [Step.map_below_below] at hadmits ⊢
    obtain ⟨t, hgoes, least, hleast⟩ := hfirst.settle_eq (path ++ [i]) false hadmits
    refine ⟨t, hgoes, least, fun budget hb => ?_⟩
    simp [settleOperands, hleast budget hb]
  | .later hfirst hlater =>
    rw [List.map_append, Step.map_below_below, List.map_append] at hadmits
    obtain ⟨_, t, ht, hgoes, hsites⟩ := hfirst.settles (path ++ [i]) false hadmits
    obtain ⟨least₁, h₁⟩ := ht.settle_eq
    obtain ⟨u, hgoes', least₂, h₂⟩ := hlater.settleOperands_eq path hsites
    refine ⟨u, ?_, least₁ + least₂, fun budget hb => ?_⟩
    · rw [List.map_append, Step.map_below_below]
      exact hgoes.trans hgoes'
    · simp [settleOperands, h₁ budget (by omega), h₂ budget (by omega)]

end

/-- What the engine reports about a node at a path has a derivation with the same steps. -/
def Reports (engine : Engine) (path : List Nat) (e : Expr) (s : Session) :
    Outcome (Bool × Expr) → Prop
  | .done (_, n) t => ∃ steps, engine.Derives e steps n ∧
      t.steps = s.steps ++ steps.map (Step.below path)
  | .failed error t => ∃ steps, engine.Fails e steps error ∧
      t.steps = s.steps ++ steps.map (Step.below path)
  | .exhausted => True

def ReportsAll (engine : Engine) (path : List Nat) (i : Nat) (es : List Expr) (s : Session) :
    Outcome (Bool × List Expr) → Prop
  | .done (_, ns) t => ∃ steps, engine.DerivesAll i es steps ns ∧
      t.steps = s.steps ++ steps.map (Step.below path)
  | .failed error t => ∃ steps, engine.FailsAmong i es steps error ∧
      t.steps = s.steps ++ steps.map (Step.below path)
  | .exhausted => True

theorem settleOperands_reports {settleAt : List Nat → Expr → Session → Outcome (Bool × Expr)}
    (hsettle : ∀ path e s, engine.Reports path e s (settleAt path e s)) (path : List Nat) (i : Nat)
    (es : List Expr) (s : Session) :
    engine.ReportsAll path i es s (settleOperands settleAt path i es s) := by
  induction es generalizing i s with
  | nil => exact ⟨[], .nil, by simp⟩
  | cons e es ih =>
    have hfirst := hsettle (path ++ [i]) e s
    rw [settleOperands]
    cases hresult : settleAt (path ++ [i]) e s with
    | exhausted => exact trivial
    | failed error t =>
      rw [hresult] at hfirst
      obtain ⟨steps, hsteps, ht⟩ := hfirst
      exact ⟨_, .first hsteps, by rw [Step.map_below_below, ht]⟩
    | done value t =>
      rw [hresult] at hfirst
      obtain ⟨steps, hsteps, ht⟩ := hfirst
      have hlater := ih (i + 1) t
      dsimp only
      cases hrest : settleOperands settleAt path (i + 1) es t with
      | exhausted => exact trivial
      | failed error u =>
        rw [hrest] at hlater
        obtain ⟨later, hlater, hu⟩ := hlater
        refine ⟨_, .later hsteps hlater, ?_⟩
        rw [hu, ht, List.map_append, Step.map_below_below, List.append_assoc]
      | done values u =>
        rw [hrest] at hlater
        obtain ⟨later, hlater, hu⟩ := hlater
        refine ⟨_, .cons hsteps hlater, ?_⟩
        rw [hu, ht, List.map_append, Step.map_below_below, List.append_assoc]

/-- A further pass over a node where nothing is reduced reports nothing new. -/
theorem Reports.of_pass {path : List Nat} {kind : Kind} {es fs : List Expr} {steps : List Step}
    {s t : Session} {outcome : Outcome (Bool × Expr)} (hall : engine.DerivesAll 0 es steps fs)
    (hnone : engine.redex? (.node kind fs) = none)
    (ht : t.steps = s.steps ++ steps.map (Step.below path))
    (h : engine.Reports path (.node kind fs) t outcome) :
    engine.Reports path (.node kind es) s outcome := by
  have hnormal : engine.Normal (.node kind fs) :=
    .node hall.normalizes.normal (contract?_eq_none_iff.mpr hnone)
  cases outcome with
  | exhausted => exact trivial
  | failed error u =>
    obtain ⟨_, hfails, _⟩ := h
    exact absurd hnormal hfails.not_normal
  | done value u =>
    obtain ⟨later, hlater, hu⟩ := h
    obtain rfl := hlater.steps_eq_nil hnormal
    have hvalue : value.2 = .node kind fs := hlater.normalizes.eq_of_normal hnormal
    refine ⟨steps, ?_, ?_⟩
    · rw [hvalue]
      exact .rest hall hnone
    · rw [hu, List.map_nil, List.append_nil, ht]

/-- The steps after a redex has been reduced go on from those before. -/
theorem Reports.of_reduce {path : List Nat} {kind : Kind} {es fs : List Expr} {steps : List Step}
    {redex : Redex} {r : Expr} {s t : Session} {outcome : Outcome (Bool × Expr)}
    (hall : engine.DerivesAll 0 es steps fs) (hredex : engine.redex? (.node kind fs) = some redex)
    (hreduce : redex.ranked.rule.reduce (.node kind fs) redex.fit = .ok r)
    (ht : t.steps = s.steps ++ steps.map (Step.below path) ++ [redex.stepAt path])
    (h : engine.Reports path r t outcome) : engine.Reports path (.node kind es) s outcome := by
  cases outcome with
  | exhausted => exact trivial
  | failed error u =>
    obtain ⟨later, hlater, hu⟩ := h
    refine ⟨_, .reduce hall hredex hreduce hlater, ?_⟩
    simp [hu, ht, Redex.below_stepAt_nil]
  | done value u =>
    obtain ⟨later, hlater, hu⟩ := h
    refine ⟨_, .reduce hall hredex hreduce hlater, ?_⟩
    simp [hu, ht, Redex.below_stepAt_nil]

/-- Without loop detection the engine does nothing but derivations. -/
theorem settle_reports (hoff : engine.configuration.loopDetection = false) (budget : Nat)
    (path : List Nat) (changed : Bool) (e : Expr) (s : Session) :
    engine.Reports path e s (engine.settle budget path changed e s) := by
  induction budget generalizing path changed e s with
  | zero => exact trivial
  | succ budget ih =>
    obtain ⟨kind, es⟩ := e
    have hbelow := settleOperands_reports (fun path e s => ih path false e s) path 0 es s
    rw [settle]
    cases hresult : settleOperands (engine.settle budget · false) path 0 es s with
    | exhausted => exact trivial
    | failed error t =>
      rw [hresult] at hbelow
      obtain ⟨steps, hsteps, ht⟩ := hbelow
      exact ⟨steps, .among hsteps, ht⟩
    | done value t =>
      obtain ⟨below, fs⟩ := value
      rw [hresult] at hbelow
      obtain ⟨steps, hsteps, ht⟩ := hbelow
      dsimp only
      cases hredex : engine.redex? (.node kind fs) with
      | none =>
        rw [choose_of_contract?_none (contract?_eq_none_iff.mpr hredex)]
        cases below with
        | false => exact ⟨steps, .rest hsteps hredex, ht⟩
        | true => exact (ih path true (.node kind fs) t).of_pass hsteps hredex ht
      | some redex =>
        have hadmits : Admits engine.configuration t.log [(redex.stepAt path).site] :=
          admits_of_off hoff _ _
        obtain ⟨t', hchoose, hgoes, _⟩ := choose_of_admits hredex hadmits
        have ht' := hgoes.steps
        rw [ht] at ht'
        rw [hchoose]
        dsimp only
        cases hreduce : redex.ranked.rule.reduce (.node kind fs) redex.fit with
        | ok r => exact (ih path true r t').of_reduce hsteps hredex hreduce ht'
        | error error =>
          refine ⟨_, .here hsteps hredex hreduce, ?_⟩
          simp [ht', Redex.below_stepAt_nil]

/-- A run without loop detection returns what a derivation ends in, with the steps of the
derivation. -/
theorem exists_runWithin_done_iff (hoff : engine.configuration.loopDetection = false) {e n : Expr}
    {steps : List Step} :
    (∃ budget trace s, engine.runWithin budget e = .done trace s ∧ trace.expression = n ∧
      trace.steps = steps) ↔ engine.Derives e steps n := by
  constructor
  · rintro ⟨budget, trace, s, hrun, rfl, rfl⟩
    have hreports := settle_reports hoff budget [] false e (.start engine.configuration)
    unfold runWithin at hrun
    split at hrun
    · rename_i changed n t hsettle
      cases hrun
      rw [hsettle] at hreports
      obtain ⟨steps, hsteps, ht⟩ := hreports
      rw [Step.map_below_nil] at ht
      obtain rfl : s.steps = steps := ht
      exact hsteps
    · cases hrun
    · cases hrun
  · intro h
    have hadmits : Admits engine.configuration (Session.start engine.configuration).log
        ((steps.map (Step.below [])).map Step.site ++ []) := admits_of_off hoff _ _
    obtain ⟨changed, t, ht, hgoes, _⟩ := h.settles [] false hadmits
    obtain ⟨least, hleast⟩ := ht.runWithin_eq
    refine ⟨least, _, t, hleast least (Nat.le_refl _), rfl, ?_⟩
    rw [hgoes.steps, Step.map_below_nil]
    rfl

theorem exists_runWithin_failed_iff (hoff : engine.configuration.loopDetection = false) {e : Expr}
    {steps : List Step} {error : Error} :
    (∃ budget s, engine.runWithin budget e = .failed error s ∧ s.steps = steps) ↔
      engine.Fails e steps error := by
  constructor
  · rintro ⟨budget, s, hrun, rfl⟩
    have hreports := settle_reports hoff budget [] false e (.start engine.configuration)
    unfold runWithin at hrun
    split at hrun
    · cases hrun
    · rename_i error' t hsettle
      cases hrun
      rw [hsettle] at hreports
      obtain ⟨steps, hsteps, ht⟩ := hreports
      rw [Step.map_below_nil] at ht
      obtain rfl : s.steps = steps := ht
      exact hsteps
    · cases hrun
  · intro h
    obtain ⟨t, hgoes, least, hleast⟩ := h.settle_eq [] false (s := .start engine.configuration)
      (admits_of_off hoff _ _)
    refine ⟨least, t, by simp [runWithin, hleast least (Nat.le_refl _)], ?_⟩
    rw [hgoes.steps, Step.map_below_nil]
    rfl

end Engine

end SymbolicCalculus
