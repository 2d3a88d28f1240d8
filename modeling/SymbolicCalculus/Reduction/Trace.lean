import SymbolicCalculus.Expr.Render

/-! # The record of a run

Every rule that was about to be applied leaves an event: it was applied, or it was held back because
it would have continued a repeating pattern. A trace is the outcome of a run with both kinds of
steps.
-/
namespace SymbolicCalculus

/-- A rule, by its number and name, at the node that a path leads to. -/
structure Step where
  path : List Nat
  ruleId : Nat
  rule : String
deriving DecidableEq

structure Event where
  step : Step
  /-- The node before the step. -/
  node : Expr
  /-- The period that the step would have continued; there is none if it was applied. -/
  period? : Option Nat

structure Trace where
  changed : Bool
  expression : Expr
  steps : List Step
  /-- Steps held back because they looked like part of a loop. -/
  suppressed : List Step

def Trace.isComplete (trace : Trace) : Bool := trace.suppressed.isEmpty

namespace Event

def appliedStep? (event : Event) : Option Step :=
  match event.period? with
  | none => some event.step
  | some _ => none

def suppressedStep? (event : Event) : Option Step :=
  match event.period? with
  | none => none
  | some _ => some event.step

def pathText (path : List Nat) : String :=
  "[" ++ String.intercalate ", " (path.map toString) ++ "]"

/-- The line for a protocol of the run. -/
def message (event : Event) : String :=
  let place := event.step.rule ++ " at " ++ pathText event.step.path ++ " on " ++ event.node.display
  match event.period? with
  | none => "DEBUG rewrite: Applying " ++ place
  | some period =>
    "WARN rewrite: Suppressing " ++ place ++ ": repeats with period " ++ toString period

end Event

end SymbolicCalculus
