import SymbolicCalculus.Yaml.Cursor

/-! # Plain scalars

A plain scalar is a series of words. It goes on over line breaks as long as the lines are indented
far enough, and ends before a comment, a colon that ends a key, a mark of an enclosing flow
collection or a marker between documents.
-/
namespace SymbolicCalculus.Yaml

/-- The number of line breaks; a carriage return with a newline is one. -/
def lineBreaks : List Char → Nat
  | '\r' :: '\n' :: rest => lineBreaks rest + 1
  | c :: rest => if isBreak c then lineBreaks rest + 1 else lineBreaks rest
  | [] => 0

/-- What the white space between two words stands for: itself on a single line; a line break is a
space, and of several the first is dropped. -/
def joint (gap : List Char) : List Char :=
  match lineBreaks gap with
  | 0 => gap
  | 1 => [' ']
  | n + 2 => List.replicate (n + 1) '\n'

/-- A colon that ends a key. -/
def isKeyEnd (inFlow : Bool) : List Char → Bool
  | ':' :: rest => isLoose rest || (inFlow && rest.head?.any isFlowMark)
  | _ => false

/-- The word at the start of the text. -/
def plainWord (inFlow : Bool) : List Char → List Char
  | [] => []
  | c :: rest =>
    if isSpacing c || isKeyEnd inFlow (c :: rest) || (inFlow && isFlowMark c) then []
    else c :: plainWord inFlow rest

/-- A tab to the left of column `least`, in a text that starts in the given column. -/
def hasTabBefore (least : Nat) : Nat → List Char → Bool
  | _, [] => false
  | column, c :: rest =>
    (c == '\t' && column < least) || hasTabBefore least (if c = '\n' then 0 else column + 1) rest

/-- The part of a plain scalar that has been read. -/
structure PlainText where
  text : List Char
  /-- The white space after the last word. -/
  gap : List Char
  cursor : Cursor

namespace PlainText

def start (c : Cursor) : PlainText := ⟨[], [], c⟩

def endsLine (p : PlainText) : Bool := lineBreaks p.gap != 0

def addWord (word : List Char) (p : PlainText) : PlainText :=
  if word.isEmpty then p
  else ⟨p.text ++ joint p.gap ++ word, [], p.cursor.advance word.length⟩

/-- Passes white space. There must be no tab where a further line has to be indented. -/
def addGap? (least : Nat) (gap : List Char) (p : PlainText) : Option PlainText :=
  let firstLine := (gap.takeWhile isBlank).length
  if hasTabBefore least (p.cursor.column + firstLine) (gap.drop firstLine) then none
  else some ⟨p.text, gap, p.cursor.advance gap.length⟩

/-- Reads on. Further lines stand in column `least` or to the right of it, unless a flow collection
encloses the scalar. -/
def complete? (inFlow : Bool) (least : Nat) : Nat → PlainText → Option PlainText
  | 0, _ => none
  | budget + 1, p =>
    if p.cursor.isBoundary || p.cursor.isAt '#' then some p
    else
      let p := p.addWord (plainWord inFlow p.cursor.rest)
      let gap := p.cursor.rest.takeWhile isSpacing
      if gap.isEmpty then some p
      else
        (p.addGap? least gap).bind fun p =>
          if !inFlow && p.cursor.column < least then some p else complete? inFlow least budget p

end PlainText

def Cursor.plain? (inFlow : Bool) (least : Nat) (c : Cursor) : Option PlainText :=
  (PlainText.start c).complete? inFlow least (c.rest.length + 1)

end SymbolicCalculus.Yaml
