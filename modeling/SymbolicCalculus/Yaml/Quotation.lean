import SymbolicCalculus.Number.Positional
import SymbolicCalculus.Yaml.Plain

/-! # Quoted scalars

Line breaks are folded as between the words of a plain scalar. Between single quotes only the quote
itself is special, and is written twice; between double quotes a backslash starts an escape, and
takes a line break away.
-/
namespace SymbolicCalculus.Yaml

/-- The character that an escape with a single letter stands for. -/
def letterEscape? : Char → Option Char
  | '0' => some '\x00'
  | 'a' => some '\x07'
  | 'b' => some '\x08'
  | 't' | '\t' => some '\t'
  | 'n' => some '\n'
  | 'v' => some '\x0b'
  | 'f' => some '\x0c'
  | 'r' => some '\r'
  | 'e' => some '\x1b'
  | ' ' => some ' '
  | '"' => some '"'
  | '\'' => some '\''
  | '\\' => some '\\'
  | 'N' => some '\u0085'
  | '_' => some '\u00a0'
  | 'L' => some '\u2028'
  | 'P' => some '\u2029'
  | _ => none

/-- The number of hexadecimal digits after an escape that gives a character by its number. -/
def codeWidth? : Char → Option Nat
  | 'x' => some 2
  | 'u' => some 4
  | 'U' => some 8
  | _ => none

/-- The character that the escape after a backslash stands for, and the length of the escape. -/
def escape? : List Char → Option (Char × Nat)
  | [] => none
  | c :: rest =>
    match codeWidth? c with
    | none => (letterEscape? c).map (·, 1)
    | some width =>
      if rest.length < width then none
      else (natInBase? 16 (rest.take width)).bind fun n =>
        if n.isValidChar then some (Char.ofNat n, width + 1) else none

/-- The text up to the closing quote, and the cursor behind it. -/
def quotedText? (quote : Char) : Nat → Cursor → Option (List Char × Cursor)
  | 0, _ => none
  | budget + 1, c =>
    if c.isBoundary then none
    else
      let continue? (text : List Char) (c : Cursor) : Option (List Char × Cursor) :=
        (quotedText? quote budget c).map fun (more, c) => (text ++ more, c)
      match c.rest with
      | [] => none
      | x :: rest =>
        if x = quote then
          if quote = '\'' ∧ rest.head? = some '\'' then continue? ['\''] (c.advance 2)
          else some ([], c.next)
        else if isSpacing x then
          let gap := c.rest.takeWhile isSpacing
          continue? (joint gap) (c.advance gap.length)
        else if x = '\\' ∧ quote = '"' then
          if rest.head?.any isBreak then
            let c := c.next.skipBreak
            let gap := c.rest.takeWhile isSpacing
            continue? (List.replicate (lineBreaks gap) '\n') (c.advance gap.length)
          else (escape? rest).bind fun (y, length) => continue? [y] (c.advance (length + 1))
        else continue? [x] c.next

/-- The quoted scalar at the cursor, which stands at its opening quote. -/
def Cursor.quoted? (quote : Char) (c : Cursor) : Option (List Char × Cursor) :=
  quotedText? quote (c.rest.length + 1) c.next

end SymbolicCalculus.Yaml
