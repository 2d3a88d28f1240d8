import SymbolicCalculus.Format.Output
import SymbolicCalculus.Proofs.Expr.Structure
import SymbolicCalculus.Proofs.Format.Reader

/-! # The binary form tells where it ends

Counts are written in eight bytes. A text, an expression or a trace that keeps below 2^64 wherever
something is counted is restored from its binary form, whatever follows the form, and no other bytes
are read as the same value. The reader of expressions bounds the levels by the bytes at hand, which
is no restriction: a form has more bytes than the tree has levels.
-/
namespace SymbolicCalculus

open SymbolicCalculus.Bytes

namespace Kind

def Writable : Kind → Prop
  | var text | diff text => text.toUTF8.size < 2 ^ 64
  | _ => True

theorem readPayload_payload {kind : Kind} (h : kind.Writable) (rest : Bytes) :
    readPayload kind.number (kind.payload ++ rest) = some (kind, rest) := by
  have hword (n : UInt64) : readNat 8 (ofNat 8 n.toNat ++ rest) = some (n.toNat, rest) :=
    (inverts_nat 8).read_write rest n.toNat_lt
  cases kind with
  | var name => simp [number, payload, readPayload, inverts_text.read_write rest h]
  | diff regard => simp [number, payload, readPayload, inverts_text.read_write rest h]
  | real value => simp [number, payload, readPayload, hword]
  | integer value => simp [number, payload, readPayload, hword]
  | negate | sin | cos | exp | log | add | sub | mul | div | pow => rfl

theorem payload_of_readPayload {n : Nat} {bytes : Bytes} {kind : Kind} {rest : Bytes}
    (h : readPayload n bytes = some (kind, rest)) :
    (kind.number = n ∧ kind.Writable) ∧ bytes = kind.payload ++ rest := by
  unfold readPayload at h
  split at h
  case h_1 | h_9 =>
    obtain ⟨⟨text, _⟩, hread, heq⟩ := Option.map_eq_some_iff.mp h
    cases heq
    obtain ⟨hsize, rfl⟩ := inverts_text.write_of_read hread
    exact ⟨⟨rfl, hsize⟩, rfl⟩
  case h_2 | h_3 =>
    obtain ⟨⟨word, _⟩, hread, heq⟩ := Option.map_eq_some_iff.mp h
    cases heq
    obtain ⟨hword, rfl⟩ := (inverts_nat 8).write_of_read hread
    have hrestored : word.toUInt64.toNat = word := Nat.mod_eq_of_lt hword
    exact ⟨⟨rfl, trivial⟩, by rw [payload, hrestored]⟩
  case h_15 => cases h
  all_goals
    cases h
    exact ⟨⟨rfl, trivial⟩, rfl⟩

theorem number_lt (kind : Kind) : kind.number < 256 ^ 4 := by
  cases kind <;> simp [number]

theorem inverts_read : Inverts read encode Writable := by
  constructor
  · intro kind rest h
    rw [read, encode, List.append_assoc, (inverts_nat 4).read_write _ kind.number_lt]
    exact readPayload_payload h rest
  · intro bytes kind rest h
    rw [read] at h
    split at h
    · rename_i n bytes' hnumber
      obtain ⟨-, rfl⟩ := (inverts_nat 4).write_of_read hnumber
      obtain ⟨⟨rfl, hkind⟩, rfl⟩ := payload_of_readPayload h
      exact ⟨hkind, (List.append_assoc ..).symm⟩
    · cases h

end Kind

namespace Expr

theorem encodeAll_eq (es : List Expr) : encodeAll es = es.flatMap encode := by
  induction es with
  | nil => rfl
  | cons e es ih => rw [encodeAll, ih, List.flatMap_cons]

theorem encode_node (kind : Kind) (operands : List Expr) :
    (node kind operands).encode = kind.encode ++ ofList encode operands := by
  rw [encode, encodeAll_eq, ofList, List.append_assoc]

def Writable (e : Expr) : Prop := e.Everywhere fun u => u.kind.Writable ∧ u.operands.length < 2 ^ 64

theorem writable_node_iff {kind : Kind} {operands : List Expr} :
    (node kind operands).Writable ↔
      (kind.Writable ∧ operands.length < 2 ^ 64) ∧ ∀ u ∈ operands, u.Writable :=
  everywhere_node_iff

theorem length_encode_lt_node (kind : Kind) {operands : List Expr} {u : Expr} (hu : u ∈ operands) :
    u.encode.length < (node kind operands).encode.length := by
  obtain ⟨front, back, rfl⟩ := List.append_of_mem hu
  rw [encode_node, Kind.encode]
  simp [ofList, ofNat]
  omega

/-- Every level takes up bytes. -/
theorem depth_le_length_encode (e : Expr) : e.depth ≤ e.encode.length := by
  induction e using operandInduction with
  | node kind operands ih =>
    have hpos : 0 < (node kind operands).encode.length := by
      rw [encode_node, Kind.encode, ofNat]
      exact Nat.zero_lt_succ _
    rw [← Nat.sub_add_cancel hpos]
    refine depth_node_le_iff.mpr fun u hu => ?_
    have hu := Nat.lt_of_le_of_lt (ih u hu) (length_encode_lt_node kind hu)
    omega

theorem inverts_readLevels (levels : Nat) :
    Inverts (readLevels levels) encode fun e => e.Writable ∧ e.depth ≤ levels := by
  induction levels with
  | zero =>
    constructor
    · rintro ⟨kind, operands⟩ rest ⟨-, hdepth⟩
      rw [depth_node] at hdepth
      omega
    · exact nofun
  | succ levels ih =>
    constructor
    · rintro ⟨kind, operands⟩ rest ⟨hwritable, hdepth⟩
      obtain ⟨⟨hkind, hlength⟩, hoperands⟩ := writable_node_iff.mp hwritable
      have hbelow := depth_node_le_iff.mp hdepth
      have hread : readList (readLevels levels) (ofList encode operands ++ rest) =
          some (operands, rest) :=
        (inverts_list ih).read_write rest ⟨hlength, fun u hu => ⟨hoperands u hu, hbelow u hu⟩⟩
      rw [encode_node, List.append_assoc, readLevels, Kind.inverts_read.read_write _ hkind]
      dsimp only
      rw [hread]
    · intro bytes e rest h
      rw [readLevels] at h
      split at h
      · rename_i kind bytes' hfirst
        split at h
        · rename_i operands rest' hread
          cases h
          obtain ⟨hkind, rfl⟩ := Kind.inverts_read.write_of_read hfirst
          obtain ⟨⟨hlength, hall⟩, rfl⟩ := (inverts_list ih).write_of_read hread
          refine ⟨⟨?_, ?_⟩, ?_⟩
          · exact writable_node_iff.mpr ⟨⟨hkind, hlength⟩, fun u hu => (hall u hu).1⟩
          · exact depth_node_le_iff.mpr fun u hu => (hall u hu).2
          · rw [encode_node, List.append_assoc]
        · cases h
      · cases h

theorem inverts_read : Inverts read encode Writable := by
  constructor
  · intro e rest h
    have hlevels : e.depth ≤ (e.encode ++ rest).length := by
      rw [List.length_append]
      exact Nat.le_add_right_of_le e.depth_le_length_encode
    exact (inverts_readLevels _).read_write rest ⟨h, hlevels⟩
  · intro bytes e rest h
    obtain ⟨⟨hwritable, -⟩, hbytes⟩ := (inverts_readLevels _).write_of_read h
    exact ⟨hwritable, hbytes⟩

end Expr

namespace Step

structure Writable (step : Step) : Prop where
  path : step.path.length < 2 ^ 64 ∧ ∀ i ∈ step.path, i < 2 ^ 64
  ruleId : step.ruleId < 2 ^ 64
  rule : step.rule.toUTF8.size < 2 ^ 64

theorem inverts_read : Inverts read encode Writable := by
  constructor
  · intro step rest h
    simp only [encode, List.append_assoc]
    simp [read, (inverts_list inverts_count).read_write _ h.path,
      inverts_count.read_write _ h.ruleId, inverts_text.read_write _ h.rule]
  · intro bytes step rest h
    obtain ⟨path, bytes₁, hpath, hbytes, h⟩ := (inverts_list inverts_count).of_bind h
    obtain ⟨ruleId, bytes₂, hruleId, hbytes₁, h⟩ := inverts_count.of_bind h
    obtain ⟨rule, bytes₃, hrule, hbytes₂, h⟩ := inverts_text.of_bind h
    cases h
    refine ⟨⟨hpath, hruleId, hrule⟩, ?_⟩
    simp only [hbytes, hbytes₁, hbytes₂, encode, List.append_assoc]

end Step

namespace Trace

/-- Everything that is counted in a trace is below 2^64. -/
structure Writable (trace : Trace) : Prop where
  expression : trace.expression.Writable
  steps : trace.steps.length < 2 ^ 64 ∧ ∀ step ∈ trace.steps, step.Writable
  suppressed : trace.suppressed.length < 2 ^ 64 ∧ ∀ step ∈ trace.suppressed, step.Writable

theorem inverts_read : Inverts read encode Writable := by
  have hlist := inverts_list Step.inverts_read
  constructor
  · intro trace rest h
    simp only [encode, List.append_assoc]
    simp [read, inverts_bool.read_write _ trivial, Expr.inverts_read.read_write _ h.expression,
      hlist.read_write _ h.steps, hlist.read_write _ h.suppressed]
  · intro bytes trace rest h
    obtain ⟨changed, bytes₁, -, hbytes, h⟩ := inverts_bool.of_bind h
    obtain ⟨expression, bytes₂, hexpression, hbytes₁, h⟩ := Expr.inverts_read.of_bind h
    obtain ⟨steps, bytes₃, hsteps, hbytes₂, h⟩ := hlist.of_bind h
    obtain ⟨suppressed, bytes₄, hsuppressed, hbytes₃, h⟩ := hlist.of_bind h
    cases h
    refine ⟨⟨hexpression, hsteps, hsuppressed⟩, ?_⟩
    simp only [hbytes, hbytes₁, hbytes₂, hbytes₃, encode, List.append_assoc]

/-- The binary form of a trace tells where it ends, and no trace has a second one. Reading returns a
trace and a rest exactly if the bytes are what is written of the trace, followed by the rest. The
same holds of expressions. Nodes may have any number of operands, whatever their kinds expect; all
that is counted has to be below 2^64. -/
theorem binary_form_self_delimiting :
    (∀ bytes trace rest, Trace.read bytes = some (trace, rest) ↔
      trace.Writable ∧ ∃ written, trace.writeBinary none = .ok written ∧ bytes = written ++ rest) ∧
    (∀ bytes e rest, Expr.read bytes = some (e, rest) ↔
      e.Writable ∧ bytes = e.encode ++ rest) := by
  constructor
  · intro bytes trace rest
    have hwrite : trace.writeBinary none = .ok trace.encode := rfl
    rw [inverts_read.read_eq_some_iff, hwrite]
    simp
  · intro bytes e rest
    exact Expr.inverts_read.read_eq_some_iff

example : Expr.read ((Expr.node .sin [.var "x", .var "y"]).encode ++ [7]) =
    some (.node .sin [.var "x", .var "y"], [7]) := by
  with_unfolding_all rfl

end Trace

end SymbolicCalculus
