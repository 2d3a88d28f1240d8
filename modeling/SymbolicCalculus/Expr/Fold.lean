import SymbolicCalculus.Expr.Basic

/-! # Folding an expression without recursion

A fold visits every node once, operands before the node and from left to right, and combines the
results of the operands. It keeps its own agenda and results, so trees of any depth are folded in
constant call depth. The agenda never runs short of results, and the outcome is that of the plain
recursion.
-/
namespace SymbolicCalculus.Expr

universe u v

variable {β : Type u} {σ : Type v}

mutual

/-- The fold by recursion over the tree, with a state passed along in the order of the visits. -/
def foldRec (combine : Expr → List β → σ → β × σ) : Expr → σ → β × σ
  | node kind operands, s =>
    let (below, s) := foldRecAll combine operands s
    combine (node kind operands) below s

def foldRecAll (combine : Expr → List β → σ → β × σ) : List Expr → σ → List β × σ
  | [], s => ([], s)
  | e :: es, s =>
    let (b, s) := foldRec combine e s
    let (bs, s) := foldRecAll combine es s
    (b :: bs, s)

end

/-- An entry of the agenda: a node to look into, or a node whose operands are done. -/
inductive Task
  | enter (e : Expr)
  | leave (e : Expr)

namespace Task

def cost : Task → Nat
  | enter e => 2 * e.nodeCount
  | leave _ => 1

def costs : List Task → Nat
  | [] => 0
  | t :: ts => t.cost + costs ts

theorem costs_append (ts us : List Task) : costs (ts ++ us) = costs ts + costs us := by
  induction ts with
  | nil => simp [costs]
  | cons t ts ih => simp [costs, ih, Nat.add_assoc]

theorem costs_enter (es : List Expr) : costs (es.map enter) = 2 * nodeCounts es := by
  induction es with
  | nil => rfl
  | cons e es ih => simp [costs, cost, nodeCounts, ih, Nat.mul_add]

end Task

/-- Takes the `n` newest results, oldest first, in front of those already taken. -/
def takeResults : Nat → List β → List β → Option (List β × List β)
  | 0, taken, rest => some (taken, rest)
  | _ + 1, _, [] => none
  | n + 1, taken, b :: rest => takeResults n (b :: taken) rest

/-- Works off the agenda, newest results first. There is no outcome if a node finds fewer results
than it has operands. -/
def work (combine : Expr → List β → σ → β × σ) :
    List Task → List β → σ → Option (List β × σ)
  | [], results, s => some (results, s)
  | .enter e :: agenda, results, s =>
    work combine (e.operands.map .enter ++ .leave e :: agenda) results s
  | .leave e :: agenda, results, s =>
    match takeResults e.operands.length [] results with
    | none => none
    | some (below, rest) =>
      let (b, s) := combine e below s
      work combine agenda (b :: rest) s
termination_by agenda => Task.costs agenda
decreasing_by
  · cases e
    simp only [operands, Task.costs_append, Task.costs_enter, Task.costs, Task.cost, nodeCount]
    omega
  · simp only [Task.costs, Task.cost]
    omega

theorem takeResults_append (bs taken rest : List β) :
    takeResults bs.length taken (bs ++ rest) = some (bs.reverse ++ taken, rest) := by
  induction bs generalizing taken with
  | nil => rfl
  | cons b bs ih => simp [takeResults, ih]

theorem length_foldRecAll (combine : Expr → List β → σ → β × σ) (es : List Expr) (s : σ) :
    (foldRecAll combine es s).1.length = es.length := by
  induction es generalizing s with
  | nil => rfl
  | cons e es ih => simp [foldRecAll, ih]

mutual

/-- Entering a tree leaves its result on top of the results. -/
theorem work_enter (combine : Expr → List β → σ → β × σ) (e : Expr) (agenda : List Task)
    (results : List β) (s : σ) :
    work combine (.enter e :: agenda) results s =
      work combine agenda ((foldRec combine e s).1 :: results) (foldRec combine e s).2 := by
  match e with
  | node kind operands =>
    rw [work, Expr.operands, work_enterAll combine operands, work, Expr.operands]
    have h := takeResults_append (foldRecAll combine operands s).1.reverse [] results
    simp only [List.length_reverse, length_foldRecAll, List.reverse_reverse,
      List.append_nil] at h
    simp only [h, foldRec]

theorem work_enterAll (combine : Expr → List β → σ → β × σ) (es : List Expr)
    (agenda : List Task) (results : List β) (s : σ) :
    work combine (es.map .enter ++ agenda) results s =
      work combine agenda ((foldRecAll combine es s).1.reverse ++ results)
        (foldRecAll combine es s).2 := by
  match es with
  | [] => simp [foldRecAll]
  | e :: es =>
    rw [List.map_cons, List.cons_append, work_enter combine e, work_enterAll combine es]
    simp [foldRecAll]

end

theorem work_single (combine : Expr → List β → σ → β × σ) (e : Expr) (s : σ) :
    work combine [.enter e] [] s = some ([(foldRec combine e s).1], (foldRec combine e s).2) := by
  rw [work_enter, work]

/-- The result that the agenda of a single tree ends with. -/
def foldState? (combine : Expr → List β → σ → β × σ) (e : Expr) (s : σ) : Option (β × σ) :=
  match work combine [.enter e] [] s with
  | some (b :: _, s) => some (b, s)
  | _ => none

theorem foldState?_eq_some (combine : Expr → List β → σ → β × σ) (e : Expr) (s : σ) :
    foldState? combine e s = some (foldRec combine e s) := by
  simp [foldState?, work_single]

/-- Folds a tree bottom up, with a state passed along in the order of the visits. -/
def foldState (combine : Expr → List β → σ → β × σ) (e : Expr) (s : σ) : β × σ :=
  (foldState? combine e s).get (by simp [foldState?_eq_some])

theorem foldState_eq_foldRec (combine : Expr → List β → σ → β × σ) (e : Expr) (s : σ) :
    foldState combine e s = foldRec combine e s := by
  simp [foldState, foldState?_eq_some]

def fold (combine : Expr → List β → β) (e : Expr) : β :=
  (foldState (fun e below () => (combine e below, ())) e ()).1

theorem fold_node (combine : Expr → List β → β) (kind : Kind) (operands : List Expr) :
    fold combine (node kind operands) =
      combine (node kind operands) (operands.map (fold combine)) := by
  have all (es : List Expr) :
      (foldRecAll (fun e below () => (combine e below, ())) es ()).1 = es.map (fold combine) := by
    induction es with
    | nil => rfl
    | cons e es ih => simp [foldRecAll, fold, foldState_eq_foldRec, ← ih]
  simp [fold, foldState_eq_foldRec, foldRec, all]

def depth (e : Expr) : Nat := e.fold fun _ below => below.foldl max 0 + 1

def mentions (symbol : Option String) (e : Expr) : Bool :=
  e.fold fun e below =>
    below.any id ||
      match e.variableName?, symbol with
      | some _, none => true
      | some name, some symbol => name == symbol
      | none, _ => false

def isOpen (e : Expr) : Bool :=
  e.fold fun e below =>
    below.any id ||
      match e.kind with
      | .var _ | .diff _ => true
      | _ => false

end SymbolicCalculus.Expr
