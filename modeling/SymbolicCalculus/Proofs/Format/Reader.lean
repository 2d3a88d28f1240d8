import Mathlib.Algebra.GroupWithZero.Nat
import SymbolicCalculus.Format.Bytes

/-! # Readers that undo their writers

A reader inverts a writer if it returns a value exactly when the bytes begin with what the writer
makes of the value, and leaves alone what follows. Every value then has one form, which tells where
it ends. Numbers, truth values, texts and lists are read in this way, as far as their lengths can be
written.
-/
namespace SymbolicCalculus.Bytes

variable {α β : Type}

/-- The reader finds the values of a domain, each in the form that the writer gives it. -/
structure Inverts (read : ByteReader α) (write : α → Bytes) (domain : α → Prop) : Prop where
  read_write : ∀ {x} rest, domain x → read (write x ++ rest) = some (x, rest)
  write_of_read : ∀ {bytes x rest}, read bytes = some (x, rest) →
    domain x ∧ bytes = write x ++ rest

variable {read : ByteReader α} {write : α → Bytes} {domain : α → Prop}

namespace Inverts

theorem read_eq_some_iff (h : Inverts read write domain) {bytes : Bytes} {x : α} {rest : Bytes} :
    read bytes = some (x, rest) ↔ domain x ∧ bytes = write x ++ rest := by
  constructor
  · exact h.write_of_read
  · rintro ⟨hx, rfl⟩
    exact h.read_write rest hx

/-- Takes the first value off a successful reading. -/
theorem of_bind (h : Inverts read write domain) {next : α × Bytes → Option β} {bytes : Bytes}
    {y : β} (hbind : (read bytes).bind next = some y) :
    ∃ x rest, domain x ∧ bytes = write x ++ rest ∧ next (x, rest) = some y := by
  obtain ⟨⟨x, rest⟩, hread, hnext⟩ := Option.bind_eq_some_iff.mp hbind
  obtain ⟨hx, hbytes⟩ := h.write_of_read hread
  exact ⟨x, rest, hx, hbytes, hnext⟩

end Inverts

theorem inverts_nat (width : Nat) : Inverts (readNat width) (ofNat width) (· < 256 ^ width) := by
  induction width with
  | zero =>
    constructor
    · intro n rest hn
      rw [Nat.lt_one_iff.mp hn]
      rfl
    · intro bytes n rest h
      cases h
      exact ⟨Nat.one_pos, rfl⟩
  | succ width ih =>
    constructor
    · intro n rest hn
      have hhigh : n / 256 < 256 ^ width := Nat.div_lt_of_lt_mul (by rwa [Nat.pow_succ'] at hn)
      rw [ofNat, List.cons_append, readNat, ih.read_write rest hhigh]
      simp [Nat.mod_add_div]
    · intro bytes n rest h
      cases bytes with
      | nil => cases h
      | cons byte bytes =>
        rw [readNat] at h
        split at h
        · rename_i high rest' hread
          cases h
          obtain ⟨hhigh, rfl⟩ := ih.write_of_read hread
          have hbyte : byte.toNat < 256 := byte.toNat_lt
          have hlow : (byte.toNat + 256 * high) % 256 = byte.toNat := by omega
          have hshift : (byte.toNat + 256 * high) / 256 = high := by omega
          constructor
          · rw [Nat.pow_succ']
            omega
          · rw [ofNat, hlow, hshift]
            simp
        · cases h

theorem inverts_count : Inverts readCount ofCount (· < 2 ^ 64) := inverts_nat 8

theorem inverts_bool : Inverts readBool ofBool fun _ => True := by
  constructor
  · rintro (_ | _) rest -
    · rfl
    · rfl
  · intro bytes b rest h
    unfold readBool at h
    split at h
    · cases h
      exact ⟨trivial, rfl⟩
    · cases h
      exact ⟨trivial, rfl⟩
    · cases h

theorem inverts_exactly (n : Nat) : Inverts (readExactly n) id fun taken => taken.length = n := by
  induction n with
  | zero =>
    constructor
    · intro taken rest htaken
      rw [List.length_eq_zero_iff.mp htaken]
      rfl
    · intro bytes taken rest h
      cases h
      exact ⟨rfl, rfl⟩
  | succ n ih =>
    constructor
    · intro taken rest htaken
      cases taken with
      | nil => cases htaken
      | cons byte taken =>
        have hread : readExactly n (taken ++ rest) = some (taken, rest) :=
          ih.read_write rest (Nat.succ.inj htaken)
        rw [id, List.cons_append, readExactly, hread]
    · intro bytes taken rest h
      cases bytes with
      | nil => cases h
      | cons byte bytes =>
        rw [readExactly] at h
        split at h
        · rename_i hread
          cases h
          obtain ⟨hlength, rfl⟩ := ih.write_of_read hread
          exact ⟨congrArg (· + 1) hlength, rfl⟩
        · cases h

theorem toList_eq_data (bytes : ByteArray) : bytes.toList = bytes.data.toList := by
  have hloop (i : Nat) (taken : Bytes) :
      ByteArray.toList.loop bytes i taken = taken.reverse ++ bytes.data.toList.drop i := by
    fun_induction ByteArray.toList.loop bytes i taken with
    | case1 i taken h ih =>
      have hi : i < bytes.data.toList.length := by simpa using h
      have hget : bytes.get! i = bytes.data.toList[i] := by
        rw [ByteArray.get!, getElem!_pos bytes.data i (by simpa using hi), Array.getElem_toList]
      rw [ih, hget, List.drop_eq_getElem_cons hi, List.reverse_cons, List.append_assoc,
        List.singleton_append]
    | case2 i taken h =>
      rw [List.drop_eq_nil_of_le (by simpa using h), List.append_nil]
  rw [ByteArray.toList, hloop]
  simp

theorem fromUTF8?_eq_some_iff {taken : Bytes} {s : String} :
    String.fromUTF8? ⟨taken.toArray⟩ = some s ↔ s.toUTF8.toList = taken := by
  rw [toList_eq_data, String.fromUTF8?]
  split
  · rename_i hvalid
    rw [Option.some_inj, ← String.toByteArray_inj, ByteArray.ext_iff, ← Array.toList_inj]
    exact eq_comm
  · rename_i hvalid
    constructor
    · exact nofun
    · rintro rfl
      exact (hvalid s.isValidUTF8).elim

theorem length_toUTF8_toList (s : String) : s.toUTF8.toList.length = s.toUTF8.size := by
  rw [toList_eq_data, Array.length_toList, ByteArray.size_data]

theorem inverts_text : Inverts readText ofText fun s => s.toUTF8.size < 2 ^ 64 := by
  constructor
  · intro s rest hs
    have htaken : readExactly s.toUTF8.size (s.toUTF8.toList ++ rest) =
        some (s.toUTF8.toList, rest) :=
      (inverts_exactly _).read_write rest (length_toUTF8_toList s)
    rw [readText, ofText, List.append_assoc, inverts_count.read_write _ hs]
    dsimp only
    rw [htaken]
    dsimp only
    rw [fromUTF8?_eq_some_iff.mpr rfl]
  · intro bytes s rest h
    rw [readText] at h
    split at h
    · rename_i n bytes' hcount
      split at h
      · rename_i taken rest' htaken
        split at h
        · rename_i s' htext
          cases h
          obtain ⟨hn, rfl⟩ := inverts_count.write_of_read hcount
          obtain ⟨rfl, rfl⟩ := (inverts_exactly n).write_of_read htaken
          obtain rfl := fromUTF8?_eq_some_iff.mp htext
          rw [length_toUTF8_toList] at hn ⊢
          exact ⟨hn, (List.append_assoc ..).symm⟩
        · cases h
      · cases h
    · cases h

theorem inverts_many (h : Inverts read write domain) (n : Nat) :
    Inverts (readMany read n) (·.flatMap write) fun xs => xs.length = n ∧ ∀ x ∈ xs, domain x := by
  induction n with
  | zero =>
    constructor
    · rintro xs rest ⟨hlength, -⟩
      rw [List.length_eq_zero_iff.mp hlength]
      rfl
    · intro bytes xs rest hread
      cases hread
      exact ⟨⟨rfl, by simp⟩, rfl⟩
  | succ n ih =>
    constructor
    · rintro xs rest ⟨hlength, hxs⟩
      cases xs with
      | nil => cases hlength
      | cons x xs =>
        obtain ⟨hx, hxs⟩ := List.forall_mem_cons.mp hxs
        rw [List.flatMap_cons, List.append_assoc, readMany, h.read_write _ hx]
        dsimp only
        rw [ih.read_write rest ⟨Nat.succ.inj hlength, hxs⟩]
    · intro bytes xs rest hread
      rw [readMany] at hread
      split at hread
      · rename_i x bytes' hx
        split at hread
        · rename_i xs' rest' hxs
          cases hread
          obtain ⟨hdomain, rfl⟩ := h.write_of_read hx
          obtain ⟨⟨hlength, hall⟩, rfl⟩ := ih.write_of_read hxs
          exact ⟨⟨congrArg (· + 1) hlength, List.forall_mem_cons.mpr ⟨hdomain, hall⟩⟩, by simp⟩
        · cases hread
      · cases hread

theorem inverts_list (h : Inverts read write domain) :
    Inverts (readList read) (ofList write)
      fun xs => xs.length < 2 ^ 64 ∧ ∀ x ∈ xs, domain x := by
  constructor
  · rintro xs rest ⟨hlength, hxs⟩
    rw [readList, ofList, List.append_assoc, inverts_count.read_write _ hlength]
    exact (inverts_many h _).read_write rest ⟨rfl, hxs⟩
  · intro bytes xs rest hread
    rw [readList] at hread
    split at hread
    · rename_i n bytes' hcount
      obtain ⟨hn, rfl⟩ := inverts_count.write_of_read hcount
      obtain ⟨⟨rfl, hxs⟩, rfl⟩ := (inverts_many h n).write_of_read hread
      exact ⟨⟨hn, hxs⟩, (List.append_assoc ..).symm⟩
    · cases hread

end SymbolicCalculus.Bytes
