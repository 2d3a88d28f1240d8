import SymbolicCalculus.Expr.Fold

/-! # Expressions as text

A node is printed by filling the markers of its template with its printed operands. The display form
brackets an operand that binds looser than the node around it; the symbolic form brackets every
operand. Expressions of different shape may display alike.
-/
namespace SymbolicCalculus

/-- The text for the marker with these digits. A marker without digits or without an operand stands
for itself. -/
def fillMarker (texts : List (List Char)) (digits : List Char) : List Char :=
  if digits.isEmpty then ['%']
  else (texts[Numeral.natOfDigits digits]?).getD ('%' :: digits)

/-- Fills the markers of a template. Filled-in text is not looked at again. The first argument holds
the digits of a marker that may still go on. -/
def fillIn (texts : List (List Char)) : Option (List Char) → List Char → List Char
  | none, [] => []
  | some digits, [] => fillMarker texts digits
  | none, c :: rest =>
    if c = '%' then fillIn texts (some []) rest else c :: fillIn texts none rest
  | some digits, c :: rest =>
    if c.isDigit then fillIn texts (some (digits ++ [c])) rest
    else if c = '%' then fillMarker texts digits ++ fillIn texts (some []) rest
    else fillMarker texts digits ++ c :: fillIn texts none rest

def Kind.fill (kind : Kind) (texts : List (List Char)) : List Char :=
  fillIn texts none kind.template.toList

def bracket (text : List Char) : List Char := '(' :: text ++ [')']

namespace Expr

mutual

def displayIn (around : Precedence) : Expr → List Char
  | node kind operands =>
    let text := kind.fill (displayAll kind.precedence operands)
    if kind.precedence < around then bracket text else text

def displayAll (around : Precedence) : List Expr → List (List Char)
  | [] => []
  | e :: es => e.displayIn around :: displayAll around es

end

mutual

def symbolicChars : Expr → List Char
  | node kind operands => kind.fill (symbolicAll operands)

def symbolicAll : List Expr → List (List Char)
  | [] => []
  | e :: es => bracket e.symbolicChars :: symbolicAll es

end

def display (e : Expr) : String := String.ofList (e.displayIn .lowest)

/-- The text that shows the shape of the tree. -/
def symbolic (e : Expr) : String := String.ofList e.symbolicChars

/-- Differently shaped trees that display alike count as equal. -/
def displaysLike (e f : Expr) : Bool := e.display == f.display

/-- The tree by the names of its kinds, operands in square brackets; a node without operands is
displayed. -/
def outline (e : Expr) : String :=
  e.fold fun e below =>
    if below.isEmpty then e.display
    else e.kind.name ++ "[" ++ String.intercalate "," below ++ "]"

end Expr

end SymbolicCalculus
