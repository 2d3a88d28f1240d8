/-! # Settings of the reduction engine -/
namespace SymbolicCalculus

structure Configuration where
  /-- The number of recent steps kept for loop detection. -/
  logCapacity : Nat := 20
  /-- The shortest repeating block that counts as a loop. -/
  minPeriod : Nat := 2
  loopDetection : Bool := true
deriving DecidableEq

end SymbolicCalculus
