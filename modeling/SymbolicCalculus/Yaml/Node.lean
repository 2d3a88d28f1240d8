import SymbolicCalculus.Number.Positional
import SymbolicCalculus.Yaml.Token

/-! # What a YAML document holds

Only the structure counts: how sequences and mappings nest, and as what the text of each scalar is
to be taken.
-/
namespace SymbolicCalculus.Yaml

/-- As what a scalar is to be taken. -/
inductive Form
  /-- As what it looks like; this is how untagged plain scalars are taken. -/
  | untyped
  | text
  | integer
  | boolean
deriving DecidableEq

/-- The form of a scalar with the given tag, plain or not. Only the core tags make a difference. -/
def Form.ofTag (plain : Bool) : Option Tag → Form
  | none => if plain then untyped else text
  | some ⟨"!!", "int"⟩ => integer
  | some ⟨"!!", "bool"⟩ => boolean
  | some _ => text

inductive Node
  | scalar (form : Form) (text : String)
  | sequence (items : List Node)
  | mapping (entries : List (Node × Node))
  /-- A reference to a collection from inside itself. -/
  | enclosing

namespace Node

def absent : Node := .scalar .untyped ""

/-- The text of a scalar, whatever its form. -/
def scalar? : Node → Option String
  | scalar _ text => some text
  | _ => none

/-- An unsigned number in base sixteen, eight, two or ten. A decimal number has no leading zeros. -/
def unsigned? : List Char → Option Nat
  | '0' :: 'x' :: digits => natInBase? 16 digits
  | '0' :: 'o' :: digits => natInBase? 8 digits
  | '0' :: 'b' :: digits => natInBase? 2 digits
  | ['0'] => some 0
  | '0' :: _ => none
  | digits => natInBase? 10 digits

/-- The same with a plus in front, which may also stand behind the letter of the base. -/
def positive? : List Char → Option Nat
  | '+' :: text => positiveDigits? text
  | text => positiveDigits? text
where
  positiveDigits? : List Char → Option Nat
    | '0' :: x :: '+' :: digits => unsigned? ('0' :: x :: digits)
    | text => unsigned? text

/-- A number that looks like one. It may have a sign, but only zero may have a minus. -/
def untypedCount? : List Char → Option Nat
  | '-' :: text => (unsigned? text).filter (· = 0)
  | text => (positive? text).filter (· < Nat.pow 2 64)

/-- A decimal number of 63 bits, leading zeros or not, with the same rule for signs. -/
def integerCount? : List Char → Option Nat
  | '-' :: digits => (natInBase? 10 digits).filter (· = 0)
  | '+' :: digits => (natInBase? 10 digits).filter (· < Nat.pow 2 63)
  | digits => (natInBase? 10 digits).filter (· < Nat.pow 2 63)

def count? : Node → Option Nat
  | scalar .untyped text => untypedCount? text.toList
  | scalar .integer text => integerCount? text.toList
  | _ => none

def bool? : Node → Option Bool
  | scalar .untyped "true" | scalar .boolean "true" => some true
  | scalar .untyped "false" | scalar .boolean "false" => some false
  | _ => none

end Node

end SymbolicCalculus.Yaml
