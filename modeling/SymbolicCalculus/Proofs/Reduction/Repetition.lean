import SymbolicCalculus.Reduction.Log

/-! # Repeated blocks

A block that is followed by its own copy, anywhere in a list or at its end. The search of the log
finds a period exactly if there is a repeated block that is long enough.
-/
namespace SymbolicCalculus

section Blocks

variable {α : Type} {p : Nat} {xs ys : List α} {x : α}

def RepeatsWithin (p : Nat) (xs : List α) : Prop :=
  ∃ block : List α, block.length = p ∧ block ++ block <:+: xs

def RepeatsAtEnd (p : Nat) (xs : List α) : Prop :=
  ∃ block : List α, block.length = p ∧ block ++ block <:+ xs

theorem RepeatsWithin.of_infix (h : RepeatsWithin p xs) (hxs : xs <:+: ys) :
    RepeatsWithin p ys := by
  obtain ⟨block, hlength, hblock⟩ := h
  exact ⟨block, hlength, hblock.trans hxs⟩

theorem RepeatsWithin.le_length (h : RepeatsWithin p xs) : 2 * p ≤ xs.length := by
  obtain ⟨block, hlength, hblock⟩ := h
  have hle := hblock.length_le
  rw [List.length_append, hlength] at hle
  omega

theorem RepeatsAtEnd.repeatsWithin (h : RepeatsAtEnd p xs) : RepeatsWithin p xs := by
  obtain ⟨block, hlength, hblock⟩ := h
  exact ⟨block, hlength, hblock.isInfix⟩

theorem RepeatsAtEnd.of_suffix (h : RepeatsAtEnd p ys) (hxs : xs <:+ ys)
    (hle : 2 * p ≤ xs.length) : RepeatsAtEnd p xs := by
  obtain ⟨block, hlength, hblock⟩ := h
  refine ⟨block, hlength, List.suffix_of_suffix_length_le hblock hxs ?_⟩
  rw [List.length_append, hlength]
  omega

/-- A further entry brings about no other repetition than one at the end. -/
theorem repeatsWithin_concat_iff :
    RepeatsWithin p (xs ++ [x]) ↔ RepeatsAtEnd p (xs ++ [x]) ∨ RepeatsWithin p xs := by
  simp only [RepeatsWithin, RepeatsAtEnd, List.infix_concat_iff, and_or_left, exists_or]

end Blocks

theorem agree_iff {p : Nat} {xs ys : List Site} :
    agree p xs ys = true ↔ ∃ block : List Site, block.length = p ∧ block <+: xs ∧ block <+: ys := by
  fun_induction agree p xs ys with
  | case1 xs ys => simp
  | case2 p x xs y ys ih =>
    rw [Bool.and_eq_true, beq_iff_eq, ih]
    constructor
    · rintro ⟨rfl, block, hlength, hxs, hys⟩
      refine ⟨x :: block, by simp [hlength], ?_, ?_⟩
      · exact (List.prefix_cons_inj x).mpr hxs
      · exact (List.prefix_cons_inj x).mpr hys
    · rintro ⟨block, hlength, hxs, hys⟩
      cases block with
      | nil => simp at hlength
      | cons z block =>
        obtain ⟨hx, hblock⟩ := List.cons_prefix_cons.mp hxs
        obtain ⟨hy, hcopy⟩ := List.cons_prefix_cons.mp hys
        exact ⟨hx.symm.trans hy, block, by simpa using hlength, hblock, hcopy⟩
  | case3 p xs ys hne =>
    simp only [Bool.false_eq_true, false_iff]
    rintro ⟨block, hlength, hxs, hys⟩
    cases block with
    | nil => simp at hlength
    | cons z block =>
      obtain ⟨rest, rfl⟩ := hxs
      obtain ⟨rest', rfl⟩ := hys
      exact hne z _ z _ rfl rfl

/-- A list starts with a block and its copy if it agrees with itself, shifted by the block. -/
theorem agree_drop_iff {p : Nat} {xs : List Site} :
    agree p xs (xs.drop p) = true ↔
      ∃ block : List Site, block.length = p ∧ block ++ block <+: xs := by
  rw [agree_iff]
  constructor
  · rintro ⟨block, rfl, ⟨rest, rfl⟩, hcopy⟩
    rw [List.drop_left] at hcopy
    exact ⟨block, rfl, (List.prefix_append_right_inj block).mpr hcopy⟩
  · rintro ⟨block, rfl, rest, rfl⟩
    refine ⟨block, rfl, ?_, ?_⟩
    · rw [List.append_assoc]
      exact List.prefix_append _ _
    · rw [List.append_assoc, List.drop_left]
      exact List.prefix_append _ _

theorem repeats_iff {p : Nat} (hp : 0 < p) {xs : List Site} :
    repeats p xs = true ↔ RepeatsWithin p xs := by
  induction xs with
  | nil =>
    simp only [repeats, Bool.false_eq_true, false_iff]
    intro h
    have hle := h.le_length
    simp at hle
    omega
  | cons x xs ih =>
    rw [repeats, Bool.or_eq_true, agree_drop_iff, ih]
    simp only [RepeatsWithin, List.infix_cons_iff, and_or_left, exists_or]

theorem ReductionLog.isSome_period?_iff {log : ReductionLog} {least : Nat} :
    (log.period? least).isSome = true ↔ ∃ p, max 1 least ≤ p ∧ RepeatsWithin p log.entries := by
  simp only [period?, List.find?_isSome, List.mem_range'_1]
  constructor
  · rintro ⟨p, ⟨hleast, _⟩, hp⟩
    exact ⟨p, by omega, (repeats_iff (by omega)).mp hp⟩
  · rintro ⟨p, hleast, hp⟩
    have hle := hp.le_length
    exact ⟨p, by omega, (repeats_iff (by omega)).mpr hp⟩

end SymbolicCalculus
