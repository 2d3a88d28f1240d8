import SymbolicCalculus.Number.Numeral
import SymbolicCalculus.Text.Quoted

/-! # Texts in a YAML document

A text is written plainly unless a reader could take it for something else: a number, a special
word, or the start of some structure. Then it is put in double quotes.
-/
namespace SymbolicCalculus.Yaml

/-- Characters that a plain text does not start with. -/
def isOpeningMark (c : Char) : Bool := "&*?|-<>=!%@.".contains c

/-- Characters that a plain text does not contain. -/
def isMark (c : Char) : Bool :=
  let n := c.toNat
  ":\x7b\x7d[],#`\"'\\\t\n\r".contains c || n ≤ 6 || (0x0E ≤ n && n ≤ 0x1A) ||
    (0x1C ≤ n && n ≤ 0x1F)

def specialWords : List String :=
  ["yes", "Yes", "YES", "no", "No", "NO", "True", "TRUE", "true", "False", "FALSE", "false",
    "on", "On", "ON", "off", "Off", "OFF", "null", "Null", "NULL", "~"]

def needsQuotes (s : String) : Bool :=
  let cs := s.toList
  cs.isEmpty || cs.head? == some ' ' || cs.getLast? == some ' ' || cs.head?.any isOpeningMark ||
    s.startsWith "0x" || cs.any isMark || specialWords.contains s || (Numeral.read? cs).isSome

def escape (c : Char) : List Char :=
  match c with
  | '"' => ['\\', '"']
  | '\\' => ['\\', '\\']
  | '\x08' => ['\\', 'b']
  | '\t' => ['\\', 't']
  | '\n' => ['\\', 'n']
  | '\x0c' => ['\\', 'f']
  | '\r' => ['\\', 'r']
  | c =>
    if c.toNat < 0x20 || c.toNat = 0x7F then
      let digits := Text.hexDigits c.toNat
      ['\\', 'u', '0', '0'] ++ List.replicate (2 - digits.length) '0' ++ digits
    else [c]

def scalarText (s : String) : String :=
  if needsQuotes s then String.ofList ('"' :: s.toList.flatMap escape ++ ['"']) else s

end SymbolicCalculus.Yaml
