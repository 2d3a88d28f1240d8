import SymbolicCalculus.Yaml.Cursor

/-! # Block scalars

A block scalar takes the lines below its mark that are indented to one column: as they are, or
folded into paragraphs. Its header may fix the column and says what becomes of the line breaks at
the end. -/
namespace SymbolicCalculus.Yaml

/-- What becomes of the line breaks at the end of a block scalar. -/
inductive Chomping
  | strip
  /-- The first of them stays. -/
  | clip
  | keep
deriving DecidableEq

structure BlockHeader where
  chomping : Chomping
  /-- Columns to the right of the enclosing block, or zero if the lines show it. -/
  depth : Nat

namespace BlockHeader

def readChomping (c : Cursor) : Chomping × Cursor :=
  if c.isAt '-' then (.strip, c.next) else if c.isAt '+' then (.keep, c.next) else (.clip, c)

/-- A single digit other than zero, or nothing. -/
def readDepth? (c : Cursor) : Option (Nat × Cursor) :=
  match c.rest with
  | '0' :: _ => none
  | x :: _ => some (if x.isDigit then (x.toNat - '0'.toNat, c.next) else (0, c))
  | [] => some (0, c)

/-- The header, its two parts in either order, up to the end of its line. -/
def read? (c : Cursor) : Option (BlockHeader × Cursor) := do
  let (first, c) := readChomping c
  let (depth, c) ← readDepth? c
  let (chomping, c) := if first = .clip then readChomping c else (first, c)
  return (⟨chomping, depth⟩, ← c.finishLine?)

end BlockHeader

/-- Where the content of a block scalar goes on: the number of empty lines before it, the column
farthest to the right that was reached on the way, and the place. -/
structure Indentation where
  emptyLines : Nat
  farthest : Nat
  cursor : Cursor

/-- Passes spaces up to the given column, or any number of them if it is zero, and empty lines. No
tab may stand there. -/
def indentation? (column : Nat) : Nat → Cursor → Option Indentation
  | 0, _ => none
  | budget + 1, c =>
    let spaces := (c.rest.takeWhile (· == ' ')).length
    let c := c.advance (if column = 0 then spaces else min spaces (column - c.column))
    if (column = 0 || c.column < column) && c.isAt '\t' then none
    else if c.rest.head?.any isBreak then
      (indentation? column budget c.skipBreak).map fun i =>
        { i with emptyLines := i.emptyLines + 1, farthest := max c.column i.farthest }
    else some ⟨0, c.column, c⟩

/-- The part of a block scalar that has been read. -/
structure BlockText where
  text : List Char := []
  /-- Whether a line has ended since. -/
  broken : Bool := false
  /-- The number of empty lines since. -/
  emptyLines : Nat
  /-- Whether the last line started with a blank. -/
  indented : Bool := false
  cursor : Cursor

namespace BlockText

def newlines (n : Nat) : List Char := List.replicate n '\n'

/-- Adds the line at the cursor. Folding joins two lines that start without a blank by a space, or
by the empty lines between them. -/
def addLine (folded : Bool) (b : BlockText) : BlockText :=
  let line := b.cursor.rest.takeWhile (!isBreak ·)
  let indented := line.head?.any isBlank
  let joint :=
    if folded && b.broken && !b.indented && !indented then
      if b.emptyLines = 0 then [' '] else newlines b.emptyLines
    else newlines ((if b.broken then 1 else 0) + b.emptyLines)
  { text := b.text ++ joint ++ line, emptyLines := 0, indented := indented,
    cursor := b.cursor.advance line.length }

/-- The text with the line breaks at its end that stay. -/
def chomped (chomping : Chomping) (b : BlockText) : List Char :=
  let last := if b.broken then 1 else 0
  match chomping with
  | .strip => b.text
  | .clip => b.text ++ newlines last
  | .keep => b.text ++ newlines (last + b.emptyLines)

/-- Reads the lines that start in the given column. -/
def complete? (folded : Bool) (column : Nat) : Nat → BlockText → Option BlockText
  | 0, _ => none
  | budget + 1, b =>
    if b.cursor.column ≠ column ∨ b.cursor.isEnd then some b
    else
      let b := b.addLine folded
      if b.cursor.isEnd then some b
      else (indentation? column budget b.cursor.skipBreak).bind fun i =>
        complete? folded column budget
          { b with broken := true, emptyLines := i.emptyLines, cursor := i.cursor }

end BlockText

/-- The block scalar below the mark at the cursor, and the cursor after it. The innermost block
around it stands in the given column, if there is one. -/
def Cursor.block? (folded : Bool) (outer : Option Nat) (c : Cursor) :
    Option (List Char × Cursor) := do
  let (header, c) ← BlockHeader.read? c.next
  let fixed := if header.depth = 0 then 0 else outer.getD 0 + header.depth
  let i ← indentation? fixed (c.rest.length + 1) c
  let column := if fixed = 0 then max i.farthest (outer.elim 1 (· + 1)) else fixed
  let start : BlockText := { emptyLines := i.emptyLines, cursor := i.cursor }
  let b ← start.complete? folded column (c.rest.length + 1)
  return (b.chomped header.chomping, b.cursor)

end SymbolicCalculus.Yaml
