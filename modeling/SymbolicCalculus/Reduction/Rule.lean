import SymbolicCalculus.Error

/-! # Reduction rules

A rule looks at a single node, never at the path to it. It reports a fit, which tells apart the
patterns that it knows, and reduces the node for the fit it reported. The two are written apart: to
reduce a node it is split once more, and every split that does not work out is reported as misuse.
-/
namespace SymbolicCalculus

/-- Which of the mutually exclusive patterns of a rule a node has. Every rule numbers its own. -/
structure Fit where
  tag : UInt8
deriving DecidableEq

structure Rule where
  name : String
  /-- Rules of greater weight are tried first. -/
  weight : Binary64
  fit? : Expr → Option Fit
  reduce : Expr → Fit → Except Error Expr

namespace Rule

/-- The rule that refuses every fit but the one it reports on the same node. -/
def checked (name : String) (weight : Int) (fit? : Expr → Option Fit)
    (reduce : String → Expr → Fit → Except Error Expr) : Rule where
  name := name
  weight := Binary64.ofInt weight
  fit? := fit?
  reduce e fit := if fit? e = some fit then reduce name e fit else .error (.misuse name e)

def splitPair (name : String) (e : Expr) : Except Error (Expr × Expr) :=
  match e.pair? with
  | some operands => .ok operands
  | none => .error (.misuse name e)

def splitOperand (name : String) (e : Expr) : Except Error Expr :=
  match e.operand? with
  | some u => .ok u
  | none => .error (.misuse name e)

end Rule

end SymbolicCalculus
