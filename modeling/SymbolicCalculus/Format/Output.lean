import SymbolicCalculus.Error
import SymbolicCalculus.Format.Binary
import SymbolicCalculus.Format.Readable

/-! # Writing traces

A trace is written to an output that may have room for a limited number of bytes only.
-/
namespace SymbolicCalculus.Trace

def fits (room? : Option Nat) (size : Nat) : Bool := room?.all (size ≤ ·)

def writeYaml (room? : Option Nat) (trace : Trace) : Except Error String :=
  if fits room? trace.toYaml.utf8ByteSize then .ok trace.toYaml else .error .yaml

def writeBinary (room? : Option Nat) (trace : Trace) : Except Error Bytes :=
  if fits room? trace.encode.length then .ok trace.encode else .error .binary

end SymbolicCalculus.Trace
