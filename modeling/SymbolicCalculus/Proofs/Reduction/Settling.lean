import SymbolicCalculus.Reduction.Engine

/-! # Settling as a relation

The passes of the engine are bounded by a budget. `Settles` and `SettlesAll` describe the same
passes without one. A run ends within some budget exactly as the relation says, so what every run
keeps is proved by induction over its passes, and a run is shown to end by building them.
-/
namespace SymbolicCalculus

def Redex.stepAt (redex : Redex) (path : List Nat) : Step :=
  ⟨path, redex.ranked.id, redex.ranked.rule.name⟩

namespace Session

theorem steps_applied (s : Session) (log : ReductionLog) (step : Step) (e : Expr) :
    steps ⟨log, ⟨step, e, none⟩ :: s.events⟩ = s.steps ++ [step] := by
  simp [steps, Event.appliedStep?]

theorem steps_heldBack (s : Session) (log : ReductionLog) (step : Step) (e : Expr) (period : Nat) :
    steps ⟨log, ⟨step, e, some period⟩ :: s.events⟩ = s.steps := by
  simp [steps, List.filterMap_cons, Event.appliedStep?]

theorem suppressed_applied (s : Session) (log : ReductionLog) (step : Step) (e : Expr) :
    suppressed ⟨log, ⟨step, e, none⟩ :: s.events⟩ = s.suppressed := by
  simp [suppressed, List.filterMap_cons, Event.suppressedStep?]

theorem suppressed_heldBack (s : Session) (log : ReductionLog) (step : Step) (e : Expr)
    (period : Nat) :
    suppressed ⟨log, ⟨step, e, some period⟩ :: s.events⟩ = s.suppressed ++ [step] := by
  simp [suppressed, Event.suppressedStep?]

end Session

namespace Engine

variable {engine : Engine} {path : List Nat} {e : Expr} {s t : Session} {redex : Redex}

theorem choose_eq_some (h : engine.choose path e s = (some redex, t)) :
    engine.redex? e = some redex ∧ ∃ log,
      loopCheck engine.configuration s.log ⟨path, redex.ranked.id⟩ = (none, log) ∧
        t = ⟨log, ⟨redex.stepAt path, e, none⟩ :: s.events⟩ := by
  unfold choose at h
  cases hr : engine.redex? e with
  | none => simp [hr] at h
  | some found =>
    rcases hc : loopCheck engine.configuration s.log ⟨path, found.ranked.id⟩ with ⟨period, log⟩
    cases period with
    | some period => simp [hr, hc] at h
    | none =>
      simp only [hr, hc, Option.isSome_none, Bool.false_eq_true, if_false, Prod.mk.injEq,
        Option.some.injEq] at h
      obtain ⟨rfl, rfl⟩ := h
      exact ⟨rfl, log, hc, rfl⟩

theorem choose_eq_none (h : engine.choose path e s = (none, t)) :
    engine.redex? e = none ∧ t = s ∨ ∃ redex period log, engine.redex? e = some redex ∧
      loopCheck engine.configuration s.log ⟨path, redex.ranked.id⟩ = (some period, log) ∧
        t = ⟨log, ⟨redex.stepAt path, e, some period⟩ :: s.events⟩ := by
  unfold choose at h
  cases hr : engine.redex? e with
  | none =>
    simp only [hr, Prod.mk.injEq, true_and] at h
    exact .inl ⟨rfl, h.symm⟩
  | some found =>
    rcases hc : loopCheck engine.configuration s.log ⟨path, found.ranked.id⟩ with ⟨period, log⟩
    cases period with
    | none => simp [hr, hc] at h
    | some period =>
      simp only [hr, hc, Option.isSome_some, if_true, Prod.mk.injEq, true_and] at h
      exact .inr ⟨found, period, log, rfl, hc, h.symm⟩

mutual

/-- Taking up an expression at a path in a session ends with an expression and a session. The flags
tell whether anything had changed before, and whether anything has changed in the end. -/
inductive Settles (engine : Engine) :
    List Nat → Bool → Expr → Session → Bool → Expr → Session → Prop
  /-- The operands are as they were, and nothing is reduced at the node. -/
  | rest {path : List Nat} {changed : Bool} {kind : Kind} {es fs : List Expr} {s s' t : Session} :
    SettlesAll engine path 0 es s false fs s' →
    engine.choose path (.node kind fs) s' = (none, t) →
    Settles engine path changed (.node kind es) s changed (.node kind fs) t
  /-- Nothing is reduced at the node, but an operand has changed, so another pass follows. -/
  | pass {path : List Nat} {changed changed' : Bool} {kind : Kind} {es fs : List Expr} {e : Expr}
      {s s' t u : Session} :
    SettlesAll engine path 0 es s true fs s' →
    engine.choose path (.node kind fs) s' = (none, t) →
    Settles engine path true (.node kind fs) t changed' e u →
    Settles engine path changed (.node kind es) s changed' e u
  /-- A redex is reduced, and its outcome is taken up. -/
  | reduce {path : List Nat} {changed changed' below : Bool} {kind : Kind} {es fs : List Expr}
      {redex : Redex} {r e : Expr} {s s' t u : Session} :
    SettlesAll engine path 0 es s below fs s' →
    engine.choose path (.node kind fs) s' = (some redex, t) →
    redex.ranked.rule.reduce (.node kind fs) redex.fit = .ok r →
    Settles engine path true r t changed' e u →
    Settles engine path changed (.node kind es) s changed' e u

inductive SettlesAll (engine : Engine) :
    List Nat → Nat → List Expr → Session → Bool → List Expr → Session → Prop
  | nil {path : List Nat} {i : Nat} {s : Session} : SettlesAll engine path i [] s false [] s
  | cons {path : List Nat} {i : Nat} {e e' : Expr} {es es' : List Expr} {first later : Bool}
      {s t u : Session} :
    Settles engine (path ++ [i]) false e s first e' t →
    SettlesAll engine path (i + 1) es t later es' u →
    SettlesAll engine path i (e :: es) s (first || later) (e' :: es') u

end

theorem settleOperands_cons_eq_done
    {settleAt : List Nat → Expr → Session → Outcome (Bool × Expr)} {path : List Nat} {i : Nat}
    {es : List Expr} {value : Bool × List Expr}
    (h : settleOperands settleAt path i (e :: es) s = .done value t) :
    ∃ first e' s' later es', settleAt (path ++ [i]) e s = .done (first, e') s' ∧
      settleOperands settleAt path (i + 1) es s' = .done (later, es') t ∧
        value = (first || later, e' :: es') := by
  unfold settleOperands at h
  split at h
  · rename_i first e' s' hfirst
    split at h
    · rename_i later es' t' hlater
      cases h
      exact ⟨first, e', s', later, es', hfirst, hlater, rfl⟩
    · cases h
    · cases h
  · cases h
  · cases h

/-- A node that has settled was reduced, or else taken up once more after an operand had changed, or
else left as it was. -/
theorem settle_succ_eq_done {budget : Nat} {path : List Nat} {changed : Bool} {kind : Kind}
    {es : List Expr} {value : Bool × Expr}
    (h : engine.settle (budget + 1) path changed (.node kind es) s = .done value t) :
    ∃ below fs s₁ s₂, settleOperands (engine.settle budget · false) path 0 es s =
        .done (below, fs) s₁ ∧
      ((∃ redex r, engine.choose path (.node kind fs) s₁ = (some redex, s₂) ∧
          redex.ranked.rule.reduce (.node kind fs) redex.fit = .ok r ∧
          engine.settle budget path true r s₂ = .done value t) ∨
        engine.choose path (.node kind fs) s₁ = (none, s₂) ∧
          (below = true ∧ engine.settle budget path true (.node kind fs) s₂ = .done value t ∨
            below = false ∧ value = (changed, .node kind fs) ∧ t = s₂)) := by
  unfold settle at h
  split at h
  · rename_i below fs s₁ hoperands
    split at h
    · rename_i redex s₂ hchoose
      split at h
      · rename_i r hreduce
        exact ⟨below, fs, s₁, s₂, hoperands, .inl ⟨redex, r, hchoose, hreduce, h⟩⟩
      · cases h
    · rename_i s₂ hchoose
      cases below with
      | true => exact ⟨true, fs, s₁, s₂, hoperands, .inr ⟨hchoose, .inl ⟨rfl, h⟩⟩⟩
      | false =>
        cases h
        exact ⟨false, fs, s₁, t, hoperands, .inr ⟨hchoose, .inr ⟨rfl, rfl, rfl⟩⟩⟩
  · cases h
  · cases h

/-- Whatever `settleAt` settles as the relation says, so does it settle a list of operands. -/
theorem settlesAll_of_settleOperands
    {settleAt : List Nat → Expr → Session → Outcome (Bool × Expr)}
    (hsettle : ∀ path e s changed e' t, settleAt path e s = .done (changed, e') t →
      engine.Settles path false e s changed e' t)
    {path : List Nat} {i : Nat} {es es' : List Expr} {s t : Session} {changed : Bool}
    (h : settleOperands settleAt path i es s = .done (changed, es') t) :
    engine.SettlesAll path i es s changed es' t := by
  induction es generalizing i s changed es' with
  | nil =>
    cases h
    exact .nil
  | cons e es ih =>
    obtain ⟨first, e₁, s₁, later, es₁, hfirst, hlater, hvalue⟩ := settleOperands_cons_eq_done h
    cases hvalue
    exact .cons (hsettle _ _ _ _ _ _ hfirst) (ih hlater)

theorem settles_of_settle {budget : Nat} {path : List Nat} {changed changed' : Bool}
    {e e' : Expr} {s t : Session}
    (h : engine.settle budget path changed e s = .done (changed', e') t) :
    engine.Settles path changed e s changed' e' t := by
  induction budget generalizing path changed changed' e e' s t with
  | zero => cases h
  | succ budget ih =>
    obtain ⟨kind, es⟩ := e
    obtain ⟨below, fs, s₁, s₂, hoperands, hnext⟩ := settle_succ_eq_done h
    have hall := settlesAll_of_settleOperands (fun _ _ _ _ _ _ hd => ih hd) hoperands
    rcases hnext with ⟨redex, r, hchoose, hreduce, hgo⟩ | ⟨hchoose, ⟨rfl, hgo⟩ | ⟨rfl, hvalue, rfl⟩⟩
    · exact .reduce hall hchoose hreduce (ih hgo)
    · exact .pass hall hchoose (ih hgo)
    · cases hvalue
      exact .rest hall hchoose

mutual

/-- A budget that is large enough for a pass is large enough for its operands and what follows. -/
theorem Settles.settle_eq {path : List Nat} {changed changed' : Bool} {e e' : Expr}
    {s t : Session} (h : engine.Settles path changed e s changed' e' t) :
    ∃ least, ∀ budget, least ≤ budget →
      engine.settle budget path changed e s = .done (changed', e') t := by
  match h with
  | .rest hall hchoose =>
    obtain ⟨least, hleast⟩ := hall.settleOperands_eq
    refine ⟨least + 1, fun budget hb => ?_⟩
    obtain ⟨budget, rfl⟩ := Nat.exists_eq_add_of_lt (Nat.lt_of_succ_le hb)
    simp [settle, hleast (least + budget) (Nat.le_add_right _ _), hchoose]
  | .pass hall hchoose hnext =>
    obtain ⟨least₁, h₁⟩ := hall.settleOperands_eq
    obtain ⟨least₂, h₂⟩ := hnext.settle_eq
    refine ⟨least₁ + least₂ + 1, fun budget hb => ?_⟩
    obtain ⟨budget, rfl⟩ := Nat.exists_eq_add_of_lt (Nat.lt_of_succ_le hb)
    simp [settle, h₁ (least₁ + least₂ + budget) (by omega), hchoose,
      h₂ (least₁ + least₂ + budget) (by omega)]
  | .reduce hall hchoose hreduce hnext =>
    obtain ⟨least₁, h₁⟩ := hall.settleOperands_eq
    obtain ⟨least₂, h₂⟩ := hnext.settle_eq
    refine ⟨least₁ + least₂ + 1, fun budget hb => ?_⟩
    obtain ⟨budget, rfl⟩ := Nat.exists_eq_add_of_lt (Nat.lt_of_succ_le hb)
    simp [settle, h₁ (least₁ + least₂ + budget) (by omega), hchoose, hreduce,
      h₂ (least₁ + least₂ + budget) (by omega)]

theorem SettlesAll.settleOperands_eq {path : List Nat} {i : Nat} {es es' : List Expr}
    {changed : Bool} {s t : Session} (h : engine.SettlesAll path i es s changed es' t) :
    ∃ least, ∀ budget, least ≤ budget →
      settleOperands (engine.settle budget · false) path i es s = .done (changed, es') t := by
  match h with
  | .nil => exact ⟨0, fun budget _ => rfl⟩
  | .cons hfirst hlater =>
    obtain ⟨least₁, h₁⟩ := hfirst.settle_eq
    obtain ⟨least₂, h₂⟩ := hlater.settleOperands_eq
    refine ⟨least₁ + least₂, fun budget hb => ?_⟩
    simp [settleOperands, h₁ budget (by omega), h₂ budget (by omega)]

end

theorem settles_of_runWithin {budget : Nat} {trace : Trace}
    (h : engine.runWithin budget e = .done trace s) :
    engine.Settles [] false e (.start engine.configuration) trace.changed trace.expression s ∧
      trace.steps = s.steps ∧ trace.suppressed = s.suppressed := by
  unfold runWithin at h
  split at h
  · rename_i changed e' t hsettle
    simp only [Outcome.done.injEq] at h
    obtain ⟨rfl, rfl⟩ := h
    exact ⟨settles_of_settle hsettle, rfl, rfl⟩
  · cases h
  · cases h

theorem Settles.runWithin_eq {changed : Bool} {e' : Expr}
    (h : engine.Settles [] false e (.start engine.configuration) changed e' s) :
    ∃ least, ∀ budget, least ≤ budget →
      engine.runWithin budget e = .done ⟨changed, e', s.steps, s.suppressed⟩ s := by
  obtain ⟨least, hleast⟩ := h.settle_eq
  refine ⟨least, fun budget hb => ?_⟩
  simp [runWithin, hleast budget hb]

mutual

/-- Whatever every choice keeps is kept by a run, because choices alone touch the session. -/
theorem Settles.keeps {P : Session → Prop}
    (hP : ∀ {path e s choice t}, engine.choose path e s = (choice, t) → P s → P t)
    {path : List Nat} {changed changed' : Bool} {e e' : Expr} {s t : Session}
    (h : engine.Settles path changed e s changed' e' t) (hs : P s) : P t := by
  match h with
  | .rest hall hchoose => exact hP hchoose (hall.keeps hP hs)
  | .pass hall hchoose hnext => exact hnext.keeps hP (hP hchoose (hall.keeps hP hs))
  | .reduce hall hchoose _ hnext => exact hnext.keeps hP (hP hchoose (hall.keeps hP hs))

theorem SettlesAll.keeps {P : Session → Prop}
    (hP : ∀ {path e s choice t}, engine.choose path e s = (choice, t) → P s → P t)
    {path : List Nat} {i : Nat} {es es' : List Expr} {changed : Bool} {s t : Session}
    (h : engine.SettlesAll path i es s changed es' t) (hs : P s) : P t := by
  match h with
  | .nil => exact hs
  | .cons hfirst hlater => exact hlater.keeps hP (hfirst.keeps hP hs)

end

end Engine

end SymbolicCalculus
