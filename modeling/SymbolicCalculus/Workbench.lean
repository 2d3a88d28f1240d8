import SymbolicCalculus.Simplify

/-! # A workbench for expressions

A workbench keeps a stack of expressions, the newest on top, and works on it command by command. A
command that finds too few expressions changes nothing. A rule that fails uses up its expression.
-/
namespace SymbolicCalculus.Workbench

inductive Command
  | push (e : Expr)
  /-- Joins the two topmost expressions to a node; the right operand is on top. -/
  | join (kind : Kind)
  /-- Makes the top the operand of a node. -/
  | wrap (kind : Kind)
  | duplicate
  | drop
  | swap
  | compare
  /-- Pushes a copy of the node that the path leads to. -/
  | pick (path : List Nat)
  | evaluate
  /-- Replaces a node by its two operands. -/
  | splitPair
  /-- Replaces a node by its only operand. -/
  | splitOperand
  /-- Replaces a node by its operands. -/
  | takeApart
  | simplify
  /-- Applies a rule where it matches. -/
  | reduce (rule : Rule)
  /-- Applies a rule with a given fit. -/
  | reduceAs (rule : Rule) (fit : Fit)

inductive Reply
  | done
  | tooFew
  | answer (b : Bool)
  | value (x : Binary64)
  | kind (k : Kind)
  | fit (f : Fit)
  | failed (error : Error)
  | exhausted

abbrev Stack := List Expr

/-- The outcome of a rule replaces the top. -/
def replaceTop (reply : Reply) (stack : Stack) : Except Error Expr → Reply × Stack
  | .ok e => (reply, e :: stack)
  | .error error => (.failed error, stack)

def step : Command → Stack → Reply × Stack
  | .push e, stack => (.done, e :: stack)
  | .join kind, right :: left :: stack => (.done, .node kind [left, right] :: stack)
  | .wrap kind, e :: stack => (.done, .node kind [e] :: stack)
  | .duplicate, e :: stack => (.done, e :: e :: stack)
  | .drop, _ :: stack => (.done, stack)
  | .swap, e :: f :: stack => (.done, f :: e :: stack)
  | .compare, e :: f :: stack => (.answer (f.displaysLike e), e :: f :: stack)
  | .pick path, e :: stack =>
    match e.at? path with
    | some u => (.answer true, u :: e :: stack)
    | none => (.answer false, e :: stack)
  | .evaluate, e :: stack =>
    match e.evaluate with
    | .ok x => (.value x, e :: stack)
    | .error error => (.failed error, e :: stack)
  | .splitPair, e :: stack =>
    match e.pair? with
    | some (left, right) => (.answer true, right :: left :: stack)
    | none => (.answer false, e :: stack)
  | .splitOperand, e :: stack =>
    match e.operand? with
    | some u => (.answer true, u :: stack)
    | none => (.answer false, e :: stack)
  | .takeApart, e :: stack => (.kind e.kind, e.operands.reverse ++ stack)
  | .simplify, e :: stack =>
    match SymbolicCalculus.simplify e with
    | .done trace _ => (.done, trace.expression :: stack)
    | .failed error _ => (.failed error, stack)
    | .exhausted => (.exhausted, stack)
  | .reduce rule, e :: stack =>
    match rule.fit? e with
    | some fit => replaceTop (.fit fit) stack (rule.reduce e fit)
    | none => (.answer false, e :: stack)
  | .reduceAs rule fit, e :: stack => replaceTop (.fit fit) stack (rule.reduce e fit)
  | _, stack => (.tooFew, stack)

end SymbolicCalculus.Workbench
