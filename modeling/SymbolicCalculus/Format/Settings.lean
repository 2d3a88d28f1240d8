import SymbolicCalculus.Error
import SymbolicCalculus.Reduction.Configuration
import SymbolicCalculus.Yaml.Composition

/-! # Reading settings

Settings are a YAML mapping from names to values, or a sequence of the values in order. Settings
that are not mentioned keep their default. Other names are ignored, but no setting may occur twice.
-/
namespace SymbolicCalculus.Configuration

open Yaml (Node)

inductive Setting
  | logCapacity
  | minPeriod
  | loopDetection
deriving DecidableEq

namespace Setting

def ofName? : String → Option Setting
  | "log-capacity" => some logCapacity
  | "min-period" => some minPeriod
  | "loop-detection" => some loopDetection
  | _ => none

def all : List Setting := [logCapacity, minPeriod, loopDetection]

def set? (setting : Setting) (value : Node) (c : Configuration) : Option Configuration :=
  match setting with
  | logCapacity => value.count?.map fun n => { c with logCapacity := n }
  | minPeriod => value.count?.map fun n => { c with minPeriod := n }
  | loopDetection => value.bool?.map fun b => { c with loopDetection := b }

end Setting

/-- The entries that name a setting. Keys have to be scalars. -/
def named? : List (Node × Node) → Option (List (Setting × Node))
  | [] => some []
  | (key, value) :: entries => do
    let name ← key.scalar?
    let rest ← named? entries
    match Setting.ofName? name with
    | some setting => return (setting, value) :: rest
    | none => return rest

def assign? (assignments : List (Setting × Node)) : Option Configuration :=
  if (assignments.map Prod.fst).Nodup then
    assignments.foldlM (fun c (setting, value) => setting.set? value c) {}
  else none

def ofNode? : Node → Option Configuration
  | .mapping entries => (named? entries).bind assign?
  | .sequence items =>
    if items.length ≤ Setting.all.length then assign? (Setting.all.zip items) else none
  | _ => none

def ofYaml (text : String) : Except Error Configuration :=
  match (Yaml.read? text).bind ofNode? with
  | some c => .ok c
  | none => .error .yaml

end SymbolicCalculus.Configuration
