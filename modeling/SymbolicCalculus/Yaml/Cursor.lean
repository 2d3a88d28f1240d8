/-! # Places in a YAML text

A cursor is the text still to be read together with the numbers of characters, lines and columns
before it. Lines are counted by newlines; a carriage return also breaks a line of content, but
does not lead back to the first column. A NUL character ends the text.
-/
namespace SymbolicCalculus.Yaml

def isBlank (c : Char) : Bool := c == ' ' || c == '\t'

def isBreak (c : Char) : Bool := c == '\n' || c == '\r'

def isSpacing (c : Char) : Bool := isBlank c || isBreak c

/-- The marks that make up flow collections. -/
def isFlowMark (c : Char) : Bool := ",[]\x7b\x7d".contains c

/-- The characters of anchors, tag handles and directives. -/
def isNameChar (c : Char) : Bool := c.isAlphanum || c == '_' || c == '-'

/-- Whether the text starts with white space or ends. -/
def isLoose : List Char → Bool
  | [] => true
  | c :: _ => isSpacing c

structure Cursor where
  rest : List Char
  index : Nat := 0
  line : Nat := 0
  column : Nat := 0

namespace Cursor

def ofText (text : String) : Cursor := { rest := text.toList.takeWhile (· != '\x00') }

def isEnd (c : Cursor) : Bool := c.rest.isEmpty

def isAt (x : Char) (c : Cursor) : Bool := c.rest.head? == some x

def next (c : Cursor) : Cursor :=
  match c.rest with
  | [] => c
  | '\n' :: rest => ⟨rest, c.index + 1, c.line + 1, 0⟩
  | _ :: rest => ⟨rest, c.index + 1, c.line, c.column + 1⟩

def advance : Nat → Cursor → Cursor
  | 0, c => c
  | n + 1, c => advance n c.next

/-- Passes the characters that come next and have the property. -/
def skip (p : Char → Bool) (c : Cursor) : Cursor := c.advance (c.rest.takeWhile p).length

/-- Passes a line break, which may be a carriage return with a newline. -/
def skipBreak (c : Cursor) : Cursor :=
  match c.rest with
  | '\r' :: '\n' :: _ => c.advance 2
  | x :: _ => if isBreak x then c.next else c
  | [] => c

def skipComment (c : Cursor) : Cursor := if c.isAt '#' then c.skip (!isBreak ·) else c

/-- Passes the rest of the line, in which there may be only blanks and a comment. -/
def finishLine? (c : Cursor) : Option Cursor :=
  let c := (c.skip isBlank).skipComment
  if c.rest.head?.all isBreak then some c.skipBreak else none

/-- Three equal characters at the start of a line, and white space after them. -/
def isMarker (mark : Char) (c : Cursor) : Bool :=
  c.column == 0 && c.rest.take 3 == [mark, mark, mark] && isLoose (c.rest.drop 3)

def isBoundary (c : Cursor) : Bool := c.isMarker '-' || c.isMarker '.'

end Cursor

end SymbolicCalculus.Yaml
