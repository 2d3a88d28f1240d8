/-! # YAML tokens

The marks, scalars and properties of a text in the order in which nodes are composed from them. The
starts and ends of block collections, which the text shows by columns only, are tokens too.
-/
namespace SymbolicCalculus.Yaml

/-- A tag as it is written: the handle that it starts with, and the name in there. -/
structure Tag where
  handle : String
  name : String
deriving DecidableEq

inductive Token
  | directive
  | documentStart
  | documentEnd
  /-- The first dash of a block sequence follows. -/
  | sequenceStart
  /-- The first key of a block mapping follows. -/
  | mappingStart
  | blockEnd
  | bracketOpen
  | bracketClose
  | braceOpen
  | braceClose
  | dash
  | comma
  /-- A key follows, whether a question mark says so or the colon behind it. -/
  | key
  | value
  | alias (name : String)
  | anchor (name : String)
  | tag (tag : Tag)
  | scalar (plain : Bool) (text : String)
deriving DecidableEq

end SymbolicCalculus.Yaml
