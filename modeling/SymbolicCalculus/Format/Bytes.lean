/-! # Bytes and their readers

Numbers are written with a fixed number of bytes, lowest first; texts and lists start with their
length. A reader takes a value off the front of the bytes and returns what follows it.
-/
namespace SymbolicCalculus

abbrev Bytes := List UInt8

/-- Reads a value off the front of the bytes; `none` if they do not start with one. -/
abbrev ByteReader (α : Type) := Bytes → Option (α × Bytes)

namespace Bytes

/-- The number in `width` bytes, lowest first. -/
def ofNat : Nat → Nat → Bytes
  | 0, _ => []
  | width + 1, n => (n % 256).toUInt8 :: ofNat width (n / 256)

def readNat : Nat → ByteReader Nat
  | 0, bytes => some (0, bytes)
  | _ + 1, [] => none
  | width + 1, byte :: bytes =>
    match readNat width bytes with
    | some (n, rest) => some (byte.toNat + 256 * n, rest)
    | none => none

def ofCount (n : Nat) : Bytes := ofNat 8 n

def readCount : ByteReader Nat := readNat 8

def ofBool (b : Bool) : Bytes := [if b then 1 else 0]

def readBool : ByteReader Bool
  | 0 :: bytes => some (false, bytes)
  | 1 :: bytes => some (true, bytes)
  | _ => none

def readExactly : Nat → ByteReader Bytes
  | 0, bytes => some ([], bytes)
  | _ + 1, [] => none
  | n + 1, byte :: bytes =>
    match readExactly n bytes with
    | some (taken, rest) => some (byte :: taken, rest)
    | none => none

def ofText (s : String) : Bytes := ofCount s.toUTF8.size ++ s.toUTF8.toList

def readText : ByteReader String := fun bytes =>
  match readCount bytes with
  | some (n, bytes) =>
    match readExactly n bytes with
    | some (taken, rest) =>
      match String.fromUTF8? (ByteArray.mk taken.toArray) with
      | some s => some (s, rest)
      | none => none
    | none => none
  | none => none

/-- A list: its length, then its elements. -/
def ofList {α : Type} (write : α → Bytes) (xs : List α) : Bytes :=
  ofCount xs.length ++ xs.flatMap write

def readMany {α : Type} (read : ByteReader α) : Nat → ByteReader (List α)
  | 0, bytes => some ([], bytes)
  | n + 1, bytes =>
    match read bytes with
    | some (x, bytes) =>
      match readMany read n bytes with
      | some (xs, rest) => some (x :: xs, rest)
      | none => none
    | none => none

def readList {α : Type} (read : ByteReader α) : ByteReader (List α) := fun bytes =>
  match readCount bytes with
  | some (n, bytes) => readMany read n bytes
  | none => none

end Bytes

end SymbolicCalculus
