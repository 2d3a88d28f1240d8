import Mathlib.Data.Nat.PSub
import Mathlib.Order.Bounds.Defs
import SymbolicCalculus.Proofs.Reduction.Repetition

/-! # The period of the log

The search of the log finds the length of the shortest repeated block. It can also be carried out
position by position, with every difference and every position checked. That search never leaves the
log, so it always has an answer, and it is the same one.
-/
namespace SymbolicCalculus

/-- A block is repeated where all entries recur after as many positions as it is long. -/
theorem repeatsWithin_iff_getElem? {α : Type} {p : Nat} {xs : List α} :
    RepeatsWithin p xs ↔
      ∃ start, start + 2 * p ≤ xs.length ∧ ∀ i < p, xs[start + i]? = xs[start + p + i]? := by
  constructor
  · rintro ⟨block, rfl, before, after, rfl⟩
    refine ⟨before.length, by simp only [List.length_append]; omega, fun i hi => ?_⟩
    have hbehind (ys : List α) (j : Nat) : (before ++ ys)[before.length + j]? = ys[j]? := by
      rw [List.getElem?_append_right (Nat.le_add_right _ _), Nat.add_sub_cancel_left]
    rw [List.append_assoc, List.append_assoc, Nat.add_assoc, hbehind, hbehind,
      List.getElem?_append_left hi, List.getElem?_append_right (Nat.le_add_right _ _),
      Nat.add_sub_cancel_left, List.getElem?_append_left hi]
  · rintro ⟨start, hroom, hrecur⟩
    have hcopy : (xs.drop (start + p)).take p = (xs.drop start).take p := by
      apply List.ext_getElem?
      intro i
      simp only [List.getElem?_take, List.getElem?_drop]
      split
      · rename_i hi
        exact (hrecur i hi).symm
      · rfl
    refine ⟨(xs.drop start).take p, ?_, xs.take start, xs.drop (start + p + p), ?_⟩
    · rw [List.length_take, List.length_drop]
      omega
    · calc xs.take start ++ ((xs.drop start).take p ++ (xs.drop start).take p) ++
            xs.drop (start + p + p)
          = xs.take start ++ ((xs.drop start).take p ++
            ((xs.drop (start + p)).take p ++ (xs.drop (start + p)).drop p)) := by
            rw [hcopy, List.drop_drop]
            simp only [List.append_assoc]
        _ = xs := by
            rw [List.take_append_drop, ← List.drop_drop, List.take_append_drop,
              List.take_append_drop]

theorem findM?_eq_some {α : Type} {f : α → Option Bool} {test : α → Bool} {xs : List α}
    (h : ∀ x ∈ xs, f x = some (test x)) : xs.findM? f = some (xs.find? test) := by
  induction xs with
  | nil => rfl
  | cons x xs ih =>
    rw [List.forall_mem_cons] at h
    rw [List.findM?, h.1, ih h.2]
    cases hx : test x <;> simp [hx]

namespace ReductionLog

variable {log : ReductionLog} {least p start : Nat}

/-- The first position at which the block of `p` entries from `start` on differs from the block
behind it. There is no answer if the search leaves the log. -/
def difference? (log : ReductionLog) (p start : Nat) : Option (Option Nat) :=
  (List.range p).findM? fun i => do
    let entry ← log.entries[start + i]?
    let copy ← log.entries[start + p + i]?
    return entry != copy

/-- The first place where a block of `p` entries is followed by its own copy. There is no answer if
the log is too short for both. -/
def place? (log : ReductionLog) (p : Nat) : Option (Option Nat) := do
  let last ← log.entries.length.psub (2 * p)
  (List.range (last + 1)).findM? fun start => (log.difference? p start).map Option.isNone

def checkedPeriod? (log : ReductionLog) (least : Nat) : Option (Option Nat) :=
  let first := max least 1
  (List.range' first (log.entries.length / 2 + 1 - first)).findM? fun p =>
    (log.place? p).map Option.isSome

/-- With room for both blocks, the comparison looks at entries of the log only. -/
theorem difference?_eq_some (h : start + 2 * p ≤ log.entries.length) :
    log.difference? p start = some ((List.range p).find? fun i =>
      log.entries[start + i]? != log.entries[start + p + i]?) := by
  apply findM?_eq_some
  intro i hi
  rw [List.mem_range] at hi
  have hentry : start + i < log.entries.length := by omega
  have hcopy : start + p + i < log.entries.length := by omega
  simp [List.getElem?_eq_getElem hentry, List.getElem?_eq_getElem hcopy, bne]

theorem place?_eq_some (h : 2 * p ≤ log.entries.length) :
    log.place? p = some ((List.range (log.entries.length - 2 * p + 1)).find? fun start =>
      decide (∀ i < p, log.entries[start + i]? = log.entries[start + p + i]?)) := by
  rw [place?, Nat.psub_eq_sub h]
  apply findM?_eq_some
  intro start hstart
  rw [List.mem_range] at hstart
  rw [difference?_eq_some (by omega), Option.map_some, Option.some.injEq, Bool.eq_iff_iff]
  simp

theorem isSome_place? (hp : 0 < p) (h : 2 * p ≤ log.entries.length) :
    (log.place? p).map Option.isSome = some (repeats p log.entries) := by
  rw [place?_eq_some h, Option.map_some, Option.some.injEq, Bool.eq_iff_iff, repeats_iff hp,
    repeatsWithin_iff_getElem?]
  simp only [List.find?_isSome, List.mem_range, decide_eq_true_eq]
  constructor
  · rintro ⟨start, hstart, hrecur⟩
    exact ⟨start, by omega, hrecur⟩
  · rintro ⟨start, hroom, hrecur⟩
    exact ⟨start, by omega, hrecur⟩

/-- All positions that the search looks at lie in the log. -/
theorem checkedPeriod?_eq (log : ReductionLog) (least : Nat) :
    log.checkedPeriod? least = some (log.period? least) := by
  apply findM?_eq_some
  intro p hp
  rw [List.mem_range'_1] at hp
  exact isSome_place? (by omega) (by omega)

theorem period?_eq_some_iff :
    log.period? least = some p ↔
      IsLeast {p | max 1 least ≤ p ∧ RepeatsWithin p log.entries} p := by
  rw [period?, List.find?_range'_eq_some, List.mem_range'_1]
  constructor
  · rintro ⟨hp, ⟨hleast, -⟩, hshorter⟩
    refine ⟨⟨by omega, (repeats_iff (by omega)).mp hp⟩, ?_⟩
    rintro q ⟨hq, hrepeats⟩
    by_contra hlt
    have hnone := hshorter q (by omega) (by omega)
    rw [(repeats_iff (by omega)).mpr hrepeats] at hnone
    exact absurd hnone (by decide)
  · rintro ⟨⟨hleast, hp⟩, hshortest⟩
    have hle := hp.le_length
    refine ⟨(repeats_iff (by omega)).mpr hp, by omega, fun q hq hlt => ?_⟩
    rw [Bool.not_eq_true', Bool.eq_false_iff]
    intro hrepeats
    have hge := hshortest ⟨by omega, (repeats_iff (by omega)).mp hrepeats⟩
    omega

theorem period?_eq_none_iff :
    log.period? least = none ↔ ∀ p, max 1 least ≤ p → ¬ RepeatsWithin p log.entries := by
  rw [← Option.not_isSome_iff_eq_none, isSome_period?_iff]
  simp only [not_exists, not_and]

/-- The search finds the shortest repeated block that is long enough, wherever in the log it stands,
and fails only if there is none. For every length that it tries there is room for both blocks, and
for every place that it tries all positions lie in the log; so the search with all of them checked
always has an answer, and it is the same one. -/
theorem shortest_repetition_found (log : ReductionLog) (least : Nat) :
    (∀ p, log.period? least = some p ↔
      IsLeast {p | max 1 least ≤ p ∧ RepeatsWithin p log.entries} p) ∧
    (log.period? least = none ↔ ∀ p, max 1 least ≤ p → ¬ RepeatsWithin p log.entries) ∧
    (∀ p, max 1 least ≤ p → p ≤ log.entries.length / 2 → 2 * p ≤ log.entries.length ∧
      ∀ start ≤ log.entries.length - 2 * p, ∀ i < p, start + p + i < log.entries.length) ∧
    log.checkedPeriod? least = some (log.period? least) := by
  refine ⟨fun _ => period?_eq_some_iff, period?_eq_none_iff, ?_, checkedPeriod?_eq log least⟩
  intro p _ hhalf
  have hroom : 2 * p ≤ log.entries.length := by omega
  exact ⟨hroom, fun start hstart i hi => by omega⟩

/-- Blocks that are too short are passed over, and no block is longer than the one of two. -/
theorem shortest_repetition_found_inside :
    let log : ReductionLog :=
      { capacity := 8, entries := [4, 4, 1, 2, 1, 2, 3].map (Site.mk []) }
    IsLeast {p | 1 ≤ p ∧ RepeatsWithin p log.entries} 1 ∧
      IsLeast {p | 2 ≤ p ∧ RepeatsWithin p log.entries} 2 ∧
      ∀ p, 3 ≤ p → ¬ RepeatsWithin p log.entries :=
  ⟨((shortest_repetition_found _ 0).1 1).mp rfl, ((shortest_repetition_found _ 2).1 2).mp rfl,
    (shortest_repetition_found _ 3).2.1.mp rfl⟩

end ReductionLog

end SymbolicCalculus
