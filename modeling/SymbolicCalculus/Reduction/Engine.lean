import SymbolicCalculus.Reduction.Configuration
import SymbolicCalculus.Reduction.Log
import SymbolicCalculus.Reduction.Rule
import SymbolicCalculus.Reduction.Trace

/-! # The reduction engine

An expression is reduced until no rule matches anywhere in it. Operands are settled before the
node above them, from left to right, and a node is taken up again as long as one of its operands or
the node itself changed. At each node the first matching rule in the order of weights is applied,
unless that would continue a repeating pattern of recent steps.
-/
namespace SymbolicCalculus

/-- What a run remembers: the recent steps, and all events, newest first. -/
structure Session where
  log : ReductionLog
  events : List Event

namespace Session

/-- The log starts empty. Memory is idealised: there is room for a log of any capacity, and no depth
of an expression exhausts the call stack. -/
def start (configuration : Configuration) : Session := ⟨.empty configuration.logCapacity, []⟩

def record (s : Session) (event : Event) : Session := { s with events := event :: s.events }

/-- The applied steps, oldest first. -/
def steps (s : Session) : List Step := (s.events.filterMap Event.appliedStep?).reverse

/-- The steps held back, oldest first. -/
def suppressed (s : Session) : List Step := (s.events.filterMap Event.suppressedStep?).reverse

end Session

/-- How a run ends. It is exhausted when its budget was too small to finish. -/
inductive Outcome (α : Type)
  | done (value : α) (session : Session)
  | failed (error : Error) (session : Session)
  | exhausted

/-- A rule with its number in the order of weights. -/
structure RankedRule where
  id : Nat
  rule : Rule

/-- A rule that matches a node, and the fit it reported. -/
structure Redex where
  ranked : RankedRule
  fit : Fit

structure Engine where
  rules : List RankedRule
  configuration : Configuration

namespace Engine

/-- Puts a rule behind those that are not lighter, in a list with the lightest rule first. -/
def insertByWeight (rule : Rule) : List Rule → List Rule
  | [] => [rule]
  | other :: rest =>
    if other.weight.less rule.weight then other :: insertByWeight rule rest
    else rule :: other :: rest

/-- The rules by descending weight; rules of equal weight keep their order. -/
def sortByWeight (rules : List Rule) : List Rule :=
  (rules.foldl (fun sorted rule => insertByWeight rule sorted) []).reverse

def new (rules : List Rule) (configuration : Configuration) : Engine where
  rules := (sortByWeight rules).zipIdx.map fun (rule, id) => ⟨id, rule⟩
  configuration := configuration

def ruleNames (engine : Engine) : List String := engine.rules.map (·.rule.name)

def redex? (engine : Engine) (e : Expr) : Option Redex :=
  engine.rules.findSome? fun ranked => (ranked.rule.fit? e).map (Redex.mk ranked)

/-- The period of the loop that a step would continue, and the log with the step in it. A step that
would continue a loop is taken off the log again. -/
def loopCheck (configuration : Configuration) (log : ReductionLog) (entry : Site) :
    Option Nat × ReductionLog :=
  if configuration.loopDetection then
    let log := log.push entry
    match log.period? configuration.minPeriod with
    | some period => (some period, log.pop)
    | none => (none, log)
  else (none, log)

/-- The redex to be reduced at the node, if any; the event is recorded in the session. -/
def choose (engine : Engine) (path : List Nat) (e : Expr) (s : Session) :
    Option Redex × Session :=
  match engine.redex? e with
  | none => (none, s)
  | some redex =>
    let (period?, log) := loopCheck engine.configuration s.log ⟨path, redex.ranked.id⟩
    let step : Step := ⟨path, redex.ranked.id, redex.ranked.rule.name⟩
    let s : Session := { s with log := log }
    (if period?.isSome then none else some redex, s.record ⟨step, e, period?⟩)

/-- Settles the operands from position `i` on, and tells whether one of them changed. -/
def settleOperands (settleAt : List Nat → Expr → Session → Outcome (Bool × Expr))
    (path : List Nat) : Nat → List Expr → Session → Outcome (Bool × List Expr)
  | _, [], s => .done (false, []) s
  | i, e :: es, s =>
    match settleAt (path ++ [i]) e s with
    | .done (changed, e) s =>
      match settleOperands settleAt path (i + 1) es s with
      | .done (changedLater, es) s => .done (changed || changedLater, e :: es) s
      | .failed error s => .failed error s
      | .exhausted => .exhausted
    | .failed error s => .failed error s
    | .exhausted => .exhausted

/-- Reduces the node at `path` until nothing in it changes any more. `changed` tells whether it has
changed before; the budget bounds the nesting of passes and levels. -/
def settle (engine : Engine) :
    Nat → List Nat → Bool → Expr → Session → Outcome (Bool × Expr)
  | 0, _, _, _, _ => .exhausted
  | budget + 1, path, changed, .node kind operands, s =>
    match settleOperands (settle engine budget · false) path 0 operands s with
    | .done (changedBelow, operands) s =>
      match engine.choose path (.node kind operands) s with
      | (some redex, s) =>
        match redex.ranked.rule.reduce (.node kind operands) redex.fit with
        | .ok e => settle engine budget path true e s
        | .error error => .failed error s
      | (none, s) =>
        if changedBelow then settle engine budget path true (.node kind operands) s
        else .done (changed, .node kind operands) s
    | .failed error s => .failed error s
    | .exhausted => .exhausted

/-- Reduces an expression within a budget and reports all steps. -/
def runWithin (engine : Engine) (budget : Nat) (e : Expr) : Outcome Trace :=
  match engine.settle budget [] false e (.start engine.configuration) with
  | .done (changed, e) s => .done ⟨changed, e, s.steps, s.suppressed⟩ s
  | .failed error s => .failed error s
  | .exhausted => .exhausted

/-- A budget that no run comes to the end of in practice. -/
def ampleBudget : Nat := Nat.pow 2 60

def run (engine : Engine) (e : Expr) : Outcome Trace := engine.runWithin ampleBudget e

end Engine

end SymbolicCalculus
