import SymbolicCalculus.Yaml.BlockText
import SymbolicCalculus.Yaml.Property
import SymbolicCalculus.Yaml.Quotation

/-! # The layout of a YAML text

A text is cut into tokens from left to right. The columns of the block collections that are open
tell where they end. That something is a key shows only at the colon behind it: its start is kept in
mind until then, but not beyond its line or for more than 1024 characters.
-/
namespace SymbolicCalculus.Yaml

/-- The start of what may turn out to be a key. -/
structure KeyStart where
  /-- The number of tokens before it. -/
  tokens : Nat
  index : Nat
  line : Nat
  column : Nat
  /-- Inside a flow collection, what stands in the column of the block around has to be a key. -/
  required : Bool

/-- Whether it is too late for the colon at the cursor. -/
def KeyStart.isStale (c : Cursor) (k : KeyStart) : Bool :=
  k.line < c.line || k.index + 1024 < c.index

structure Layout where
  cursor : Cursor
  /-- The tokens so far, the last one first. -/
  tokens : List Token := []
  /-- The columns of the open block collections, the innermost first. -/
  columns : List Nat := []
  /-- The start of a key among the open collections. -/
  keyStart : Option KeyStart := none
  /-- The same outside each of the open flow collections, the innermost first. -/
  outerStarts : List (Option KeyStart) := []
  /-- Whether a key may start here. -/
  keyAllowed : Bool := true
  /-- The place just behind a quoted scalar, where a colon needs no white space. -/
  quoteEnd : Nat := 0

namespace Layout

def inFlow (s : Layout) : Bool := !s.outerStarts.isEmpty

/-- The first column to the right of the innermost block. -/
def least (s : Layout) : Nat := s.columns.head?.elim 0 (· + 1)

/-- Adds a token, and goes on at the given place. -/
def emit (t : Token) (c : Cursor) (s : Layout) : Layout :=
  { s with tokens := t :: s.tokens, cursor := c }

def allowKey (allowed : Bool) (s : Layout) : Layout := { s with keyAllowed := allowed }

/-- Adds a token behind the first `n` ones. -/
def insert (n : Nat) (t : Token) (s : Layout) : Layout :=
  let later := s.tokens.length - n
  { s with tokens := s.tokens.take later ++ t :: s.tokens.drop later }

/-- Forgets the start of a key, unless there has to be one. -/
def dropKey? (s : Layout) : Option Layout :=
  if s.keyStart.any (·.required) then none else some { s with keyStart := none }

/-- Keeps this place in mind as the start of a key, if one may start here. -/
def markKey? (s : Layout) : Option Layout :=
  if s.keyAllowed then
    let c := s.cursor
    let start : KeyStart :=
      ⟨s.tokens.length, c.index, c.line, c.column, s.inFlow && s.columns.head? == some c.column⟩
    s.dropKey?.map fun s => { s with keyStart := some start }
  else some s

/-- Forgets the starts of keys for which it is too late. -/
def dropStale? (s : Layout) : Option Layout :=
  let starts := s.keyStart :: s.outerStarts
  if starts.any (·.any fun k => k.required && k.isStale s.cursor) then none
  else
    let fresh (k : Option KeyStart) : Option KeyStart := k.filter (!·.isStale s.cursor)
    some { s with keyStart := fresh s.keyStart, outerStarts := s.outerStarts.map fresh }

/-- Ends the innermost blocks whose columns have the property. -/
def endBlocks (isLeft : Nat → Bool) (s : Layout) : Layout :=
  if s.inFlow then s
  else
    let ended := (s.columns.takeWhile isLeft).length
    { s with columns := s.columns.drop ended
             tokens := List.replicate ended .blockEnd ++ s.tokens }

def endAllBlocks (s : Layout) : Layout := s.endBlocks fun _ => true

/-- Starts a block behind the first `n` tokens, if the column lies to the right of all open ones. -/
def startBlock (n column : Nat) (t : Token) (s : Layout) : Layout :=
  if s.inFlow || column < s.least then s
  else { s.insert n t with columns := column :: s.columns }

def startBlockHere (t : Token) (s : Layout) : Layout :=
  s.startBlock s.tokens.length s.cursor.column t

/-- Passes white space and comments. A tab is no white space where a key may start, and a line
break outside flow collections lets a key start. -/
def skipIdle : Nat → Layout → Layout
  | 0, s => s
  | budget + 1, s =>
    match s.cursor.rest with
    | [] => s
    | x :: _ =>
      if x = ' ' ∨ (x = '\t' ∧ (s.inFlow ∨ !s.keyAllowed)) then
        skipIdle budget { s with cursor := s.cursor.next }
      else if isBreak x then
        skipIdle budget
          { s with cursor := s.cursor.skipBreak, keyAllowed := s.keyAllowed || !s.inFlow }
      else if x = '#' then skipIdle budget { s with cursor := s.cursor.skipComment }
      else s

/-- A marker between documents. -/
def boundary? (t : Token) (s : Layout) : Option Layout :=
  s.endAllBlocks.dropKey?.map fun s => (s.emit t (s.cursor.advance 3)).allowKey false

def directive? (s : Layout) : Option Layout := do
  let s ← s.endAllBlocks.dropKey?
  return (s.emit .directive (← s.cursor.directive?)).allowKey false

/-- Collections in brackets and braces nest up to 255 levels. -/
def openFlow? (t : Token) (s : Layout) : Option Layout :=
  if s.outerStarts.length = 255 then none
  else
    s.markKey?.map fun s =>
      { s.emit t s.cursor.next with
        keyStart := none, outerStarts := s.keyStart :: s.outerStarts, keyAllowed := true }

def closeFlow? (t : Token) (s : Layout) : Option Layout :=
  s.dropKey?.map fun s =>
    let s := (s.emit t s.cursor.next).allowKey false
    match s.outerStarts with
    | [] => s
    | start :: starts => { s with keyStart := start, outerStarts := starts }

def comma? (s : Layout) : Option Layout :=
  s.dropKey?.map fun s => (s.emit .comma s.cursor.next).allowKey true

def dash? (s : Layout) : Option Layout :=
  if s.inFlow || !s.keyAllowed then none
  else
    (s.startBlockHere .sequenceStart).dropKey?.map fun s =>
      (s.emit .dash s.cursor.next).allowKey true

/-- A question mark, which says that a key follows. -/
def key? (s : Layout) : Option Layout :=
  if !s.inFlow && !s.keyAllowed then none
  else
    (s.startBlockHere .mappingStart).dropKey?.map fun s =>
      (s.emit .key s.cursor.next).allowKey !s.inFlow

/-- A colon. It makes a key of what started one; otherwise a question mark came before. -/
def value? (s : Layout) : Option Layout :=
  match s.keyStart with
  | some k =>
    let s := (s.insert k.tokens .key).startBlock k.tokens k.column .mappingStart
    some { s.emit .value s.cursor.next with keyStart := none, keyAllowed := false }
  | none =>
    if !s.inFlow && !s.keyAllowed then none
    else
      let s := s.startBlockHere .mappingStart
      some ((s.emit .value s.cursor.next).allowKey !s.inFlow)

def alias? (s : Layout) : Option Layout := do
  let s ← s.markKey?
  let (name, c) ← s.cursor.anchor?
  return (s.emit (.alias name) c).allowKey false

def anchor? (s : Layout) : Option Layout := do
  let s ← s.markKey?
  let (name, c) ← s.cursor.anchor?
  return (s.emit (.anchor name) c).allowKey false

def tag? (s : Layout) : Option Layout := do
  let s ← s.markKey?
  let (tag, c) ← s.cursor.tag?
  return (s.emit (.tag tag) c).allowKey false

def block? (folded : Bool) (s : Layout) : Option Layout := do
  let s ← s.markKey?
  let (text, c) ← s.cursor.block? folded s.columns.head?
  return (s.emit (.scalar false (String.ofList text)) c).allowKey true

def quoted? (quote : Char) (s : Layout) : Option Layout := do
  let s ← s.markKey?
  let (text, c) ← s.cursor.quoted? quote
  return { (s.emit (.scalar false (String.ofList text)) c).allowKey false with quoteEnd := c.index }

def plain? (s : Layout) : Option Layout := do
  let s ← s.markKey?
  let p ← s.cursor.plain? s.inFlow s.least
  return (s.emit (.scalar true (String.ofList p.text)) p.cursor).allowKey p.endsLine

/-- Whether a colon with the text behind it starts a value. -/
def startsValue (rest : List Char) (s : Layout) : Bool :=
  isKeyEnd s.inFlow (':' :: rest) || (s.inFlow && s.cursor.index == s.quoteEnd)

/-- Reads the token that starts with the given character. -/
def token? (x : Char) (rest : List Char) (s : Layout) : Option Layout :=
  match x with
  | '[' => s.openFlow? .bracketOpen
  | '\x7b' => s.openFlow? .braceOpen
  | ']' => s.closeFlow? .bracketClose
  | '\x7d' => s.closeFlow? .braceClose
  | ',' => s.comma?
  | '-' => if isLoose rest then s.dash? else s.plain?
  | '?' => if isLoose rest then s.key? else s.plain?
  | ':' => if s.startsValue rest then s.value? else s.plain?
  | '*' => s.alias?
  | '&' => s.anchor?
  | '!' => s.tag?
  | '|' => if s.inFlow then s.plain? else s.block? false
  | '>' => if s.inFlow then s.plain? else s.block? true
  | '\'' | '"' => s.quoted? x
  | _ => if "%@`".contains x then none else s.plain?

def step? (s : Layout) : Option Layout :=
  match s.cursor.rest with
  | [] => some s
  | x :: rest =>
    if s.cursor.column = 0 ∧ x = '%' then s.directive?
    else if s.cursor.isMarker '-' then s.boundary? .documentStart
    else if s.cursor.isMarker '.' then s.boundary? .documentEnd
    else s.token? x rest

/-- The tokens up to the end of the text, in order. -/
def finish? : Nat → Layout → Option (List Token)
  | 0, _ => none
  | budget + 1, s =>
    (s.skipIdle (s.cursor.rest.length + 1)).dropStale?.bind fun s =>
      if s.cursor.isEnd then s.endAllBlocks.dropKey?.map (·.tokens.reverse)
      else (s.endBlocks (s.cursor.column < ·)).step?.bind (finish? budget)

end Layout

def tokens? (text : String) : Option (List Token) :=
  let c := Cursor.ofText text
  Layout.finish? (c.rest.length + 1) { cursor := c }

end SymbolicCalculus.Yaml
