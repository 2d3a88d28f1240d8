import Mathlib.Data.List.Induction
import Mathlib.Data.List.Pairwise
import SymbolicCalculus.Proofs.Reduction.Ranking
import SymbolicCalculus.Proofs.Reduction.Settling
import SymbolicCalculus.Rules.Tailored

/-! # The choice among matching rules

The rules are sorted by weight, and rules of equal weight stay in the order in which they were
given. So the rule chosen at a node is a heaviest one among those that match, and the first one
given among the heaviest. If no two weights are equal, the order in which the rules were given has
no influence on a run.
-/
namespace SymbolicCalculus

namespace Binary64

variable {x y : Binary64}

theorem less_iff_place (hx : x.isNaN = false) (hy : y.isNaN = false) :
    x.less y = true ↔ x.place < y.place := by
  simp [less, hx, hy]

theorem equals_iff_place (hx : x.isNaN = false) (hy : y.isNaN = false) :
    x.equals y = true ↔ x.place = y.place := by
  simp [equals, hx, hy]

theorem equals_comm (x y : Binary64) : x.equals y = y.equals x := by
  rw [Bool.eq_iff_iff, equals_iff, equals_iff]
  constructor <;> exact fun h => ⟨h.2.1, h.1, h.2.2.symm⟩

end Binary64

namespace Engine

open Binary64

variable {rules : List Rule}

section Sorting

theorem pairwise_insertByWeight {rule : Rule} (hrule : rule.weight.isNaN = false)
    (hrules : ∀ other ∈ rules, other.weight.isNaN = false)
    (h : rules.Pairwise fun a b => a.weight.place ≤ b.weight.place) :
    (insertByWeight rule rules).Pairwise fun a b => a.weight.place ≤ b.weight.place := by
  induction rules with
  | nil => exact List.pairwise_singleton _ _
  | cons other rest ih =>
    rw [List.forall_mem_cons] at hrules
    rw [List.pairwise_cons] at h
    rw [insertByWeight]
    by_cases hless : other.weight.less rule.weight = true
    · rw [if_pos hless, List.pairwise_cons]
      rw [less_iff_place hrules.1 hrule] at hless
      refine ⟨?_, ih hrules.2 h.2⟩
      intro next hnext
      rw [(insertByWeight_perm rule rest).mem_iff, List.mem_cons] at hnext
      rcases hnext with rfl | hnext
      · omega
      · exact h.1 next hnext
    · rw [if_neg hless, List.pairwise_cons]
      rw [less_iff_place hrules.1 hrule] at hless
      refine ⟨?_, List.pairwise_cons.mpr h⟩
      intro next hnext
      rw [List.mem_cons] at hnext
      rcases hnext with rfl | hnext
      · omega
      · have hle := h.1 next hnext
        omega

theorem sortByWeight_concat (rules : List Rule) (rule : Rule) :
    sortByWeight (rules ++ [rule]) =
      (insertByWeight rule (sortByWeight rules).reverse).reverse := by
  simp [sortByWeight]

theorem pairwise_sortByWeight (hweights : ∀ rule ∈ rules, rule.weight.isNaN = false) :
    (sortByWeight rules).Pairwise fun a b => b.weight.place ≤ a.weight.place := by
  induction rules using List.reverseRecOn with
  | nil => exact List.Pairwise.nil
  | append_singleton rules rule ih =>
    rw [List.forall_mem_append] at hweights
    rw [sortByWeight_concat, List.pairwise_reverse]
    apply pairwise_insertByWeight (hweights.2 rule (List.mem_singleton_self rule))
    · intro other hother
      rw [List.mem_reverse, (sortByWeight_perm rules).mem_iff] at hother
      exact hweights.1 other hother
    · rw [List.pairwise_reverse]
      exact ih hweights.1

/-- A rule passes only rules of another weight. -/
theorem filter_insertByWeight (weight : Binary64) (rule : Rule) (rules : List Rule) :
    (insertByWeight rule rules).filter (·.weight.equals weight) =
      (rule :: rules).filter (·.weight.equals weight) := by
  induction rules with
  | nil => rfl
  | cons other rest ih =>
    rw [insertByWeight]
    by_cases hless : other.weight.less rule.weight = true
    · rw [if_pos hless, List.filter_cons, ih]
      rw [less_iff] at hless
      by_cases hrule : rule.weight.equals weight = true
      · have hother : ¬ other.weight.equals weight = true := by
          rw [equals_iff] at hrule ⊢
          omega
        simp [hrule, hother]
      · simp [hrule, List.filter_cons]
    · rw [if_neg hless]

/-- Rules of equal weight keep their order. -/
theorem filter_sortByWeight (weight : Binary64) (rules : List Rule) :
    (sortByWeight rules).filter (·.weight.equals weight) =
      rules.filter (·.weight.equals weight) := by
  induction rules using List.reverseRecOn with
  | nil => rfl
  | append_singleton rules rule ih =>
    rw [sortByWeight_concat, List.filter_reverse, filter_insertByWeight, ← List.filter_reverse,
      List.reverse_cons, List.reverse_reverse, List.filter_append, List.filter_append, ih]

theorem eq_of_equals (hdistinct : rules.Pairwise fun a b => a.weight.equals b.weight = false)
    {a b : Rule} (ha : a ∈ rules) (hb : b ∈ rules) (h : a.weight.equals b.weight = true) :
    a = b := by
  have : Std.Symm fun a b : Rule => a.weight.equals b.weight = false :=
    ⟨fun a b hab => by rwa [equals_comm]⟩
  by_contra hne
  rw [hdistinct.forall ha hb hne] at h
  cases h

/-- Rules of different weights are sorted in the same way, however they were given. -/
theorem sortByWeight_eq_of_perm (hweights : ∀ rule ∈ rules, rule.weight.isNaN = false)
    (hdistinct : rules.Pairwise fun a b => a.weight.equals b.weight = false) {others : List Rule}
    (hperm : rules.Perm others) : sortByWeight others = sortByWeight rules := by
  have hothers : ∀ rule ∈ others, rule.weight.isNaN = false := by
    intro rule hrule
    exact hweights rule (hperm.mem_iff.mpr hrule)
  apply List.Perm.eq_of_pairwise _ (pairwise_sortByWeight hothers) (pairwise_sortByWeight hweights)
    ((sortByWeight_perm others).trans (hperm.symm.trans (sortByWeight_perm rules).symm))
  intro a b ha hb hba hab
  rw [(sortByWeight_perm others).mem_iff, ← hperm.mem_iff] at ha
  rw [(sortByWeight_perm rules).mem_iff] at hb
  apply eq_of_equals hdistinct ha hb
  rw [equals_iff_place (hweights a ha) (hweights b hb)]
  omega

theorem mem_or_le_of_sortByWeight_eq {rule other : Rule} {front back : List Rule}
    (hweights : ∀ rule ∈ rules, rule.weight.isNaN = false)
    (h : sortByWeight rules = front ++ rule :: back) (hother : other ∈ rules) :
    other ∈ front ∨ other.weight.place ≤ rule.weight.place := by
  have hpairwise := pairwise_sortByWeight hweights
  rw [h, List.pairwise_append, List.pairwise_cons] at hpairwise
  rw [← (sortByWeight_perm rules).mem_iff, h, List.mem_append, List.mem_cons] at hother
  rcases hother with hother | rfl | hother
  · exact .inl hother
  · exact .inr (Int.le_refl _)
  · exact .inr (hpairwise.2.1.1 other hother)

/-- Of the rules given before it, only rules tried before it have the weight of a rule. -/
theorem exists_of_sortByWeight_eq {rule : Rule} {front back : List Rule}
    (hrule : rule.weight.isNaN = false) (h : sortByWeight rules = front ++ rule :: back) :
    ∃ given later, rules = given ++ rule :: later ∧
      ∀ other ∈ given, other.weight.equals rule.weight = true → other ∈ front := by
  have hself : rule.weight.equals rule.weight = true := (equals_iff_place hrule hrule).mpr rfl
  have hfilter := filter_sortByWeight rule.weight rules
  rw [h, List.filter_append, List.filter_cons, if_pos hself] at hfilter
  obtain ⟨given, rest, rfl, hgiven, hrest⟩ := List.filter_eq_append_iff.mp hfilter.symm
  obtain ⟨passed, later, rfl, hpassed, _⟩ := List.filter_eq_cons_iff.mp hrest
  refine ⟨given ++ passed, later, by rw [List.append_assoc], ?_⟩
  intro other hother hequals
  rcases List.mem_append.mp hother with hother | hother
  · have hmem : other ∈ front.filter (·.weight.equals rule.weight) := by
      rw [← hgiven]
      exact List.mem_filter.mpr ⟨hother, hequals⟩
    exact (List.mem_filter.mp hmem).1
  · exact absurd hequals (hpassed other hother)

end Sorting

/-- The rule matches the node with this fit. Of the rules given, none that matches is heavier, and
those that match and were given before it are lighter. -/
def Prefers (rules : List Rule) (e : Expr) (rule : Rule) (fit : Fit) : Prop :=
  ∃ front back, rules = front ++ rule :: back ∧ rule.fit? e = some fit ∧
    (∀ other ∈ rules, (other.fit? e).isSome →
      other.weight.less rule.weight = true ∨ other.weight.equals rule.weight = true) ∧
    ∀ other ∈ front, (other.fit? e).isSome → other.weight.less rule.weight = true

theorem map_rule_new (rules : List Rule) (configuration : Configuration) :
    (Engine.new rules configuration).rules.map (·.rule) = sortByWeight rules := by
  rw [Engine.new, List.map_map]
  exact List.zipIdx_map_fst 0 (sortByWeight rules)

theorem prefers_of_redex? (hweights : ∀ rule ∈ rules, rule.weight.isNaN = false)
    {configuration : Configuration} {e : Expr} {redex : Redex}
    (h : (Engine.new rules configuration).redex? e = some redex) :
    Prefers rules e redex.ranked.rule redex.fit := by
  obtain ⟨front, back, hrules, hfit, hfront⟩ := redex?_eq_some_iff.mp h
  have hsorted := map_rule_new rules configuration
  rw [hrules, List.map_append, List.map_cons] at hsorted
  -- No rule that was tried before matches, so one that matches is neither heavier nor, with the
  -- same weight, given before.
  have htried : ∀ other, (other.fit? e).isSome → other ∉ front.map (·.rule) := by
    intro other hmatch hother
    rw [List.mem_map] at hother
    obtain ⟨ranked, hranked, rfl⟩ := hother
    simp [hfront ranked hranked] at hmatch
  have hheaviest : ∀ other ∈ rules, (other.fit? e).isSome →
      other.weight.place ≤ redex.ranked.rule.weight.place := by
    intro other hother hmatch
    exact (mem_or_le_of_sortByWeight_eq hweights hsorted.symm hother).resolve_left
      (htried other hmatch)
  have hrule : redex.ranked.rule.weight.isNaN = false := by
    apply hweights
    rw [← (sortByWeight_perm rules).mem_iff, ← hsorted]
    simp
  obtain ⟨given, later, hgiven, hequal⟩ := exists_of_sortByWeight_eq hrule hsorted.symm
  refine ⟨given, later, hgiven, hfit, ?_, ?_⟩
  · intro other hother hmatch
    have hle := hheaviest other hother hmatch
    rw [less_iff_place (hweights other hother) hrule,
      equals_iff_place (hweights other hother) hrule]
    omega
  · intro other hother hmatch
    have hgivenRule : other ∈ rules := by
      rw [hgiven]
      exact List.mem_append_left _ hother
    have hle := hheaviest other hgivenRule hmatch
    have hne : ¬ other.weight.equals redex.ranked.rule.weight = true := by
      intro hequals
      exact htried other hmatch (hequal other hother hequals)
    rw [equals_iff_place (hweights other hgivenRule) hrule] at hne
    rw [less_iff_place (hweights other hgivenRule) hrule]
    omega

/-- Which rule is tried at a node depends on the weights, and among equal weights on the order in
which the rules were given. Where a rule matches, the step of the preferred one is recorded, and its
redex is reduced unless the step is held back. If no two weights are equal, runs do not depend on
the order in which the rules were given. -/
theorem rule_choice_by_weight_then_order (hweights : ∀ rule ∈ rules, rule.weight.isNaN = false)
    (configuration : Configuration) :
    (∀ path e s,
      (∀ rule ∈ rules, rule.fit? e = none) ∧
        (Engine.new rules configuration).choose path e s = (none, s) ∨
      ∃ redex log period?, Prefers rules e redex.ranked.rule redex.fit ∧
        (Engine.new rules configuration).choose path e s =
          (if period?.isSome then none else some redex,
            ⟨log, ⟨redex.stepAt path, e, period?⟩ :: s.events⟩)) ∧
    ∀ others, rules.Perm others →
      rules.Pairwise (fun a b => a.weight.equals b.weight = false) → ∀ budget e,
        (Engine.new others configuration).runWithin budget e =
          (Engine.new rules configuration).runWithin budget e := by
  constructor
  · intro path e s
    cases hredex : (Engine.new rules configuration).redex? e with
    | none =>
      refine .inl ⟨?_, by rw [choose, hredex]⟩
      intro rule hrule
      obtain ⟨ranked, hranked, rfl⟩ := tries_new_iff.mpr hrule
      exact redex?_eq_none_iff.mp hredex ranked hranked
    | some redex =>
      let check := loopCheck configuration s.log ⟨path, redex.ranked.id⟩
      have hchoose : (Engine.new rules configuration).choose path e s =
          (if check.1.isSome then none else some redex,
            ⟨check.2, ⟨redex.stepAt path, e, check.1⟩ :: s.events⟩) := by
        rw [choose, hredex]
        rfl
      exact .inr ⟨redex, check.2, check.1, prefers_of_redex? hweights hredex, hchoose⟩
  · intro others hperm hdistinct budget e
    rw [Engine.new, Engine.new, sortByWeight_eq_of_perm hweights hdistinct hperm]

/-- Of three rules for `x` the two heavier ones are preferred, and of these the one given first. Two
rules of different weights may be exchanged. -/
theorem rule_choice_by_weight_then_order_rename :
    ∃ light first second, light = Tailored.rename "Light" .one "x" "u" ∧
      first = Tailored.rename "First" .two "x" "v" ∧
      second = Tailored.rename "Second" .two "x" "w" ∧
      (∀ rule ∈ [light, first, second], rule.weight.isNaN = false) ∧
      (∃ redex s, Prefers [light, first, second] (.var "x") redex.ranked.rule redex.fit ∧
        (Engine.new [light, first, second] {}).choose [] (.var "x") (.start {}) = (some redex, s) ∧
        redex.ranked.rule.name = "First") ∧
      [light, first].Pairwise (fun a b => a.weight.equals b.weight = false) ∧
      ∀ budget e, (Engine.new [first, light] {}).runWithin budget e =
        (Engine.new [light, first] {}).runWithin budget e := by
  let light := Tailored.rename "Light" .one "x" "u"
  let first := Tailored.rename "First" .two "x" "v"
  let second := Tailored.rename "Second" .two "x" "w"
  have hweights : ∀ rule ∈ [light, first, second], rule.weight.isNaN = false := by
    simp only [List.forall_mem_cons]
    decide
  have hpair : ∀ rule ∈ [light, first], rule.weight.isNaN = false := by
    intro rule hrule
    exact hweights rule (List.mem_append_left [second] hrule)
  have hdistinct : [light, first].Pairwise fun a b => a.weight.equals b.weight = false := by
    simp only [List.pairwise_cons, List.forall_mem_cons]
    decide
  have hsorted : sortByWeight [light, first, second] = [first, second, light] := by
    have hless : Binary64.one.less .two = true := by decide
    have hequal : Binary64.two.less .two = false := by decide
    simp [sortByWeight, insertByWeight, light, first, second, Tailored.rename, Tailored.rule, hless,
      hequal]
  obtain ⟨redex, s, hchoose, hname⟩ : ∃ redex s,
      (Engine.new [light, first, second] {}).choose [] (.var "x") (.start {}) = (some redex, s) ∧
        redex.ranked.rule.name = "First" := by
    rw [Engine.new, hsorted]
    dsimp only [light, first, second]
    exact ⟨_, _, rfl, rfl⟩
  have hchoice := (rule_choice_by_weight_then_order hweights {}).1 [] (.var "x") (.start {})
  rw [hchoose] at hchoice
  have hprefers : Prefers [light, first, second] (.var "x") redex.ranked.rule redex.fit := by
    rcases hchoice with ⟨_, hnone⟩ | ⟨found, log, period?, hfound, hsome⟩
    · cases hnone
    · cases period? with
      | some period => cases hsome
      | none =>
        cases hsome
        exact hfound
  exact ⟨light, first, second, rfl, rfl, rfl, hweights, ⟨redex, s, hprefers, hchoose, hname⟩,
    hdistinct, (rule_choice_by_weight_then_order hpair {}).2 _ (.swap _ _ _) hdistinct⟩

end Engine

end SymbolicCalculus
