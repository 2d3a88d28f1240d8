import SymbolicCalculus.Error

/-! # Names that can be called

A context maps function names to the kinds they build. A name that is no function but consists of
`d` and a symbol calls the derivative with regard to that symbol.
-/
namespace SymbolicCalculus

structure Context where
  functions : List (String × Kind)

namespace Context

def empty : Context := ⟨[]⟩

def standard : Context :=
  ⟨[("sin", .sin), ("cos", .cos), ("exp", .exp), ("log", .log)]⟩

def function? (context : Context) (name : String) : Option Kind := context.functions.lookup name

def isFunction (context : Context) (name : String) : Bool := (context.function? name).isSome

/-- Makes `name` call `kind`, whatever it called before. -/
def insert (context : Context) (name : String) (kind : Kind) : Context :=
  ⟨(name, kind) :: context.functions.filter (·.1 != name)⟩

/-- The kind that a call of `name` builds. -/
def called (context : Context) (name : String) : Except Error Kind :=
  match context.function? name with
  | some kind => .ok kind
  | none =>
    match name.toList with
    | 'd' :: c :: rest => .ok (.diff (String.ofList (c :: rest)))
    | _ => .error (.unknownFunction name)

end Context

end SymbolicCalculus
