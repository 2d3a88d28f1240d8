/-! # The log of recent steps

The log remembers where the last few steps took place, up to its capacity. A run that goes in
circles shows as a block of entries that occurs twice in a row; the length of the shortest such
block is its period.
-/
namespace SymbolicCalculus

/-- A rule by its number, at the node that a path leads to. -/
structure Site where
  path : List Nat
  ruleId : Nat
deriving DecidableEq

structure ReductionLog where
  capacity : Nat
  entries : List Site
  within : entries.length ≤ capacity := by simp

/-- Both lists start with the same `p` entries. -/
def agree : Nat → List Site → List Site → Bool
  | 0, _, _ => true
  | p + 1, x :: xs, y :: ys => x == y && agree p xs ys
  | _ + 1, _, _ => false

/-- Somewhere in the list a block of `p` entries is followed by its own copy. -/
def repeats (p : Nat) : List Site → Bool
  | [] => false
  | x :: xs => agree p (x :: xs) ((x :: xs).drop p) || repeats p xs

namespace ReductionLog

def empty (capacity : Nat) : ReductionLog := { capacity := capacity, entries := [] }

/-- Appends an entry; a full log forgets its oldest one. -/
def push (log : ReductionLog) (entry : Site) : ReductionLog :=
  if h₀ : log.capacity = 0 then log
  else if h : log.entries.length = log.capacity then
    { capacity := log.capacity
      entries := log.entries.drop 1 ++ [entry]
      within := by
        simp only [List.length_append, List.length_drop, List.length_singleton]
        omega }
  else
    { capacity := log.capacity
      entries := log.entries ++ [entry]
      within := by
        have := log.within
        simp only [List.length_append, List.length_singleton]
        omega }

def newest? (log : ReductionLog) : Option Site := log.entries.getLast?

def pop (log : ReductionLog) : ReductionLog :=
  { capacity := log.capacity
    entries := log.entries.dropLast
    within := by
      have := log.within
      simp only [List.length_dropLast]
      omega }

/-- The length of the shortest block, of at least `least` entries, that occurs twice in a row. -/
def period? (log : ReductionLog) (least : Nat) : Option Nat :=
  let first := max least 1
  (List.range' first (log.entries.length / 2 + 1 - first)).find? (repeats · log.entries)

end ReductionLog

end SymbolicCalculus
