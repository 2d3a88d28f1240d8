import SymbolicCalculus.Number.Positional
import SymbolicCalculus.Yaml.Cursor
import SymbolicCalculus.Yaml.Token

/-! # Anchors, tags and directives

The names by which nodes are referred to, the tags that say what a node is, and the lines before a
document that start with a percent sign.
-/
namespace SymbolicCalculus.Yaml

/-- Whether an anchor may end before the text. -/
def endsAnchor (text : List Char) : Bool :=
  isLoose text || text.head?.any ("?:,]\x7d%@`".contains ·)

/-- The name of an anchor or alias; the cursor stands at the mark before it. -/
def Cursor.anchor? (c : Cursor) : Option (String × Cursor) :=
  let name := c.next.rest.takeWhile isNameChar
  let c := c.next.advance name.length
  if name.isEmpty || !endsAnchor c.rest then none else some (String.ofList name, c)

def isUriChar (c : Char) : Bool := isNameChar c || ";/?:@&=+$,.!~*'()[]".contains c

/-- A byte, written as a percent sign and two digits. -/
def octet? (c : Cursor) : Option (Nat × Cursor) :=
  match c.rest with
  | '%' :: high :: low :: _ => (natInBase? 16 [high, low]).map (·, c.advance 3)
  | _ => none

/-- The number of bytes that follow the first one of a character. -/
def trailingOctets? (first : Nat) : Option Nat :=
  if first < 0x80 then some 0
  else if first / 0x20 = 0x6 then some 1
  else if first / 0x10 = 0xE then some 2
  else if first / 0x8 = 0x1E then some 3
  else none

/-- Appends the given number of bytes to a number. -/
def appendOctets? : Nat → Nat → Cursor → Option (Nat × Cursor)
  | 0, code, c => some (code, c)
  | n + 1, code, c =>
    (octet? c).bind fun (octet, c) =>
      if octet / 0x40 = 2 then appendOctets? n (0x100 * code + octet) c else none

/-- A character whose number is made up of the bytes as they stand. -/
def escapedUriChar? (c : Cursor) : Option (Char × Cursor) := do
  let (first, c) ← octet? c
  let (code, c) ← appendOctets? (← trailingOctets? first) first c
  if code.isValidChar then return (Char.ofNat code, c) else none

/-- The longest run of characters that a tag may hold. -/
def uri? : Nat → Cursor → Option (List Char × Cursor)
  | 0, _ => none
  | budget + 1, c =>
    match c.rest with
    | [] => some ([], c)
    | x :: _ =>
      if x = '%' then do
        let (y, c) ← escapedUriChar? c
        let (more, c) ← uri? budget c
        return (y :: more, c)
      else if isUriChar x then (uri? budget c.next).map fun (more, c) => (x :: more, c)
      else some ([], c)

def Cursor.uri? (c : Cursor) : Option (List Char × Cursor) := Yaml.uri? (c.rest.length + 1) c

def Cursor.someUri? (c : Cursor) : Option (List Char × Cursor) := c.uri?.filter (!·.1.isEmpty)

/-- An exclamation mark with a name, and whether a second mark closes it. -/
def tagHandle (c : Cursor) : List Char × Bool × Cursor :=
  let name := c.next.rest.takeWhile isNameChar
  let c := c.next.advance name.length
  if c.isAt '!' then (name, true, c.next) else (name, false, c)

/-- The tag at the cursor: a whole one in angle brackets, one in the space of a handle, or a local
one. White space has to follow it. -/
def Cursor.tag? (c : Cursor) : Option (Tag × Cursor) := do
  let (handle, name, c) ←
    if c.next.isAt '<' then do
      let (name, c) ← (c.advance 2).someUri?
      if c.isAt '>' then pure ([], name, c.next) else none
    else
      match tagHandle c with
      | (name, true, c) => do
        let (rest, c) ← c.someUri?
        pure (['!'] ++ name ++ ['!'], rest, c)
      | (name, false, c) => do
        let (rest, c) ← c.uri?
        pure (if (name ++ rest).isEmpty then ([], ['!'], c) else (['!'], name ++ rest, c))
  if isLoose c.rest then return (⟨String.ofList handle, String.ofList name⟩, c) else none

/-- A part of a version number, with up to nine digits. -/
def versionPart? (c : Cursor) : Option Cursor :=
  let digits := (c.rest.takeWhile Char.isDigit).length
  if 0 < digits ∧ digits ≤ 9 then some (c.advance digits) else none

def versionValue? (c : Cursor) : Option Cursor := do
  let c ← versionPart? (c.skip isBlank)
  if c.isAt '.' then versionPart? c.next else none

def tagValue? (c : Cursor) : Option Cursor := do
  let c := c.skip isBlank
  let (name, closed, after) := tagHandle c
  if !c.isAt '!' || (!closed && !name.isEmpty) then none
  let (_, c) ← (after.skip isBlank).someUri?
  if isLoose c.rest then return c else none

/-- Passes the directive at the cursor with its line. Versions and tags have to be well formed; what
they say does not matter. -/
def Cursor.directive? (c : Cursor) : Option Cursor :=
  let name := c.next.rest.takeWhile isNameChar
  let c := c.next.advance name.length
  if name.isEmpty || !isLoose c.rest then none
  else
    let value? :=
      if name = ['Y', 'A', 'M', 'L'] then versionValue? c
      else if name = ['T', 'A', 'G'] then tagValue? c
      else some (c.skip (!isBreak ·))
    value?.bind Cursor.finishLine?

end SymbolicCalculus.Yaml
