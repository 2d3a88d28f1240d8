import SymbolicCalculus.Expr.Kind

/-! # Expression trees

A node has a kind and a list of operands. The list is not tied to the kind's arity, because decoded
trees may disagree with it; `WellFormed` says that every node has as many operands as it expects.
-/
namespace SymbolicCalculus

inductive Expr
  | node (kind : Kind) (operands : List Expr)

namespace Expr

instance : Inhabited Expr := ⟨.node (.integer 0) []⟩

def kind : Expr → Kind
  | node kind _ => kind

def operands : Expr → List Expr
  | node _ operands => operands

@[match_pattern] abbrev var (name : String) : Expr := node (.var name) []

@[match_pattern] abbrev real (value : Binary64) : Expr := node (.real value) []

@[match_pattern] abbrev integer (value : Int64) : Expr := node (.integer value) []

@[match_pattern] abbrev neg (u : Expr) : Expr := node .negate [u]

@[match_pattern] abbrev sin (u : Expr) : Expr := node .sin [u]

@[match_pattern] abbrev cos (u : Expr) : Expr := node .cos [u]

@[match_pattern] abbrev exp (u : Expr) : Expr := node .exp [u]

@[match_pattern] abbrev log (u : Expr) : Expr := node .log [u]

/-- The derivative of `u` with regard to a symbol, not yet computed. -/
@[match_pattern] abbrev diff (regard : String) (u : Expr) : Expr := node (.diff regard) [u]

@[match_pattern] abbrev add (u v : Expr) : Expr := node .add [u, v]

@[match_pattern] abbrev sub (u v : Expr) : Expr := node .sub [u, v]

@[match_pattern] abbrev mul (u v : Expr) : Expr := node .mul [u, v]

@[match_pattern] abbrev div (u v : Expr) : Expr := node .div [u, v]

@[match_pattern] abbrev pow (u v : Expr) : Expr := node .pow [u, v]

def precedence (e : Expr) : Precedence := e.kind.precedence

def pair? : Expr → Option (Expr × Expr)
  | node _ [left, right] => some (left, right)
  | _ => none

def left? (e : Expr) : Option Expr := e.pair?.map Prod.fst

def right? (e : Expr) : Option Expr := e.pair?.map Prod.snd

def operand? : Expr → Option Expr
  | node _ [u] => some u
  | _ => none

def number? (e : Expr) : Option Binary64 :=
  match e.kind with
  | .real value => some value
  | .integer value => some (Binary64.ofInt value.toInt)
  | _ => none

def isNumber (e : Expr) : Bool := e.number?.isSome

/-- Whether the node is a literal of this very value. -/
def isNumberOf (expected : Binary64) (e : Expr) : Bool :=
  e.number?.any (Binary64.equals · expected)

def variableName? (e : Expr) : Option String :=
  match e.kind with
  | .var name => some name
  | _ => none

def isVariable (e : Expr) : Bool := e.variableName?.isSome

/-- The node that a path of operand positions leads to. -/
def at? (e : Expr) : List Nat → Option Expr
  | [] => some e
  | i :: path => e.operands[i]?.bind (at? · path)

mutual

/-- Every node has as many operands as its kind expects. -/
def WellFormed : Expr → Prop
  | node kind operands => operands.length = kind.arity ∧ AllWellFormed operands

def AllWellFormed : List Expr → Prop
  | [] => True
  | e :: es => e.WellFormed ∧ AllWellFormed es

end

mutual

def nodeCount : Expr → Nat
  | node _ operands => nodeCounts operands + 1

def nodeCounts : List Expr → Nat
  | [] => 0
  | e :: es => e.nodeCount + nodeCounts es

end

theorem nodeCounts_append (es fs : List Expr) :
    nodeCounts (es ++ fs) = nodeCounts es + nodeCounts fs := by
  induction es with
  | nil => simp [nodeCounts]
  | cons e es ih => simp [nodeCounts, ih, Nat.add_assoc]

/-- Counts the nodes of the pending trees without recursing into them. -/
def countPending : List Expr → Nat → Nat
  | [], count => count
  | node _ operands :: pending, count => countPending (operands ++ pending) (count + 1)
termination_by pending => nodeCounts pending
decreasing_by simp only [nodeCounts_append, nodeCounts, nodeCount]; omega

def size (e : Expr) : Nat := countPending [e] 0

theorem countPending_eq (pending : List Expr) (count : Nat) :
    countPending pending count = nodeCounts pending + count := by
  fun_induction countPending with
  | case1 => simp [nodeCounts]
  | case2 count _ operands pending ih =>
    rw [ih, nodeCounts_append, nodeCounts, nodeCount]
    omega

@[simp] theorem size_eq_nodeCount (e : Expr) : e.size = e.nodeCount := by
  simp [size, countPending_eq, nodeCounts]

end Expr

end SymbolicCalculus
