import SymbolicCalculus.Reduction.Rule

/-! # Rules made to order

Small rules with a name and weight of the caller's choice, to be used beside the standard ones. They
know a single pattern and reduce a node without asking again whether it matches.
-/
namespace SymbolicCalculus.Tailored

/-- A rule with a single pattern. -/
def rule (name : String) (weight : Binary64) (fits : Expr → Bool)
    (reduce : Expr → Except Error Expr) : Rule where
  name := name
  weight := weight
  fit? e := if fits e then some ⟨0⟩ else none
  reduce e _ := reduce e

def rename (name : String) (weight : Binary64) (old new : String) : Rule :=
  rule name weight (fun e => e.variableName? == some old) fun _ => .ok (.var new)

def swap (name : String) (weight : Binary64) (kind : Kind) : Rule :=
  rule name weight (fun e => e.kind.agrees kind) fun e =>
    match e.pair? with
    | some (u, v) => .ok (.node e.kind [v, u])
    | none => .error (.misuse name e)

def replace (name : String) (weight : Binary64) (old new : Expr) : Rule :=
  rule name weight (·.displaysLike old) fun _ => .ok new

def fail (name : String) (weight : Binary64) (old : Expr) : Rule :=
  rule name weight (·.displaysLike old) fun e => .error (.misuse name e)

/-- Writes the sum of a variable with itself as a product. -/
def double (name : String) (weight : Binary64) : Rule :=
  rule name weight
    (fun e =>
      match e with
      | .add u v => u.isVariable && u.variableName? == v.variableName?
      | _ => false)
    fun e =>
      match e.pair? with
      | some (u, _) => .ok (.mul (.real .two) u)
      | none => .error (.misuse name e)

end SymbolicCalculus.Tailored
