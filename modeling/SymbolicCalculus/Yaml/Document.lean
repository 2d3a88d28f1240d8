/-! # YAML documents as they are written

A document is laid out in blocks: every level is indented by two more spaces, the items of a
sequence start with a dash, and an empty sequence is written in brackets.
-/
namespace SymbolicCalculus.Yaml

inductive Document
  | scalar (text : String)
  | sequence (items : List Document)
  | mapping (entries : List (String × Document))

namespace Document

def indent (lines : List String) : List String := lines.map ("  " ++ ·)

/-- The lines of an item, with a dash before the first one. -/
def dashed : List String → List String
  | [] => []
  | line :: rest => ("- " ++ line) :: indent rest

/-- Whether the document stands on the line of its key. -/
def isInline : Document → Bool
  | scalar _ | sequence [] | mapping [] => true
  | _ => false

/-- The lines of an entry: an inline value follows its key, any other is indented below it. -/
def keyed (key : String) (inline : Bool) (lines : List String) : List String :=
  if inline then [key ++ ": " ++ String.join lines] else (key ++ ":") :: indent lines

mutual

def lines : Document → List String
  | scalar text => [text]
  | sequence [] => ["[]"]
  | sequence (item :: items) => dashed item.lines ++ itemLines items
  | mapping [] => ["\x7b\x7d"]
  | mapping ((key, value) :: entries) => keyed key value.isInline value.lines ++ entryLines entries

def itemLines : List Document → List String
  | [] => []
  | item :: items => dashed item.lines ++ itemLines items

def entryLines : List (String × Document) → List String
  | [] => []
  | (key, value) :: entries => keyed key value.isInline value.lines ++ entryLines entries

end

def render (d : Document) : String := "---\n" ++ String.join (d.lines.map (· ++ "\n"))

end Document

end SymbolicCalculus.Yaml
