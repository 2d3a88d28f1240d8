import SymbolicCalculus.Reduction.Engine

/-! # The order of the rules

An engine sorts its rules by weight and numbers them in the order in which it tries them. The redex
of a node belongs to the first rule that matches, which is the matching rule of the smallest number.
-/
namespace SymbolicCalculus.Engine

theorem insertByWeight_perm (rule : Rule) (rules : List Rule) :
    (insertByWeight rule rules).Perm (rule :: rules) := by
  induction rules with
  | nil => exact .refl _
  | cons other rest ih =>
    rw [insertByWeight]
    split
    · exact (ih.cons other).trans (.swap rule other rest)
    · exact .refl _

theorem sortByWeight_perm (rules : List Rule) : (sortByWeight rules).Perm rules := by
  have hfold (sorted : List Rule) :
      (rules.foldl (fun sorted rule => insertByWeight rule sorted) sorted).Perm
        (rules ++ sorted) := by
    induction rules generalizing sorted with
    | nil => exact .refl _
    | cons rule rules ih =>
      exact (ih _).trans (((insertByWeight_perm rule sorted).append_left rules).trans
        List.perm_middle)
  refine (List.reverse_perm _).trans ?_
  simpa using hfold []

def Tries (engine : Engine) (rule : Rule) : Prop := ∃ ranked ∈ engine.rules, ranked.rule = rule

theorem tries_new_iff {rules : List Rule} {configuration : Configuration} {rule : Rule} :
    (Engine.new rules configuration).Tries rule ↔ rule ∈ rules := by
  rw [← (sortByWeight_perm rules).mem_iff]
  simp only [Tries, Engine.new, List.mem_map, Prod.exists]
  constructor
  · rintro ⟨ranked, ⟨found, i, hmem, rfl⟩, rfl⟩
    exact List.fst_mem_of_mem_zipIdx hmem
  · intro hrule
    obtain ⟨i, hi⟩ := List.mem_iff_getElem?.mp hrule
    exact ⟨⟨i, rule⟩, ⟨rule, i, List.mem_zipIdx_iff_getElem?.mpr hi, rfl⟩, rfl⟩

theorem id_of_getElem? {rules : List Rule} {configuration : Configuration} {i : Nat}
    {ranked : RankedRule} (h : (Engine.new rules configuration).rules[i]? = some ranked) :
    ranked.id = i := by
  simp only [Engine.new, List.getElem?_map, Option.map_eq_some_iff] at h
  obtain ⟨⟨rule, id⟩, hzip, rfl⟩ := h
  rw [List.getElem?_zipIdx, Option.map_eq_some_iff] at hzip
  obtain ⟨rule', _, hpair⟩ := hzip
  simpa using (congrArg Prod.snd hpair).symm

theorem redex?_eq_none_iff {engine : Engine} {e : Expr} :
    engine.redex? e = none ↔ ∀ ranked ∈ engine.rules, ranked.rule.fit? e = none := by
  simp [redex?, List.findSome?_eq_none_iff]

/-- The rule of a redex matches, and none of the rules tried before it does. -/
theorem redex?_eq_some_iff {engine : Engine} {e : Expr} {redex : Redex} :
    engine.redex? e = some redex ↔ ∃ front back, engine.rules = front ++ redex.ranked :: back ∧
      redex.ranked.rule.fit? e = some redex.fit ∧
        ∀ ranked ∈ front, ranked.rule.fit? e = none := by
  obtain ⟨ranked, fit⟩ := redex
  rw [redex?, List.findSome?_eq_some_iff]
  constructor
  · rintro ⟨front, found, back, hrules, hfound, hfront⟩
    simp only [Option.map_eq_some_iff, Redex.mk.injEq] at hfound
    obtain ⟨fit', hfit, rfl, rfl⟩ := hfound
    exact ⟨front, back, hrules, hfit, fun r hr => by simpa using hfront r hr⟩
  · rintro ⟨front, back, hrules, hfit, hfront⟩
    exact ⟨front, ranked, back, hrules, by simpa using hfit, fun r hr => by simp [hfront r hr]⟩

/-- The rule of a redex stands at the position that its number says, and all rules before it fail to
match. -/
theorem getElem?_of_redex? {rules : List Rule} {configuration : Configuration} {e : Expr}
    {redex : Redex} (h : (Engine.new rules configuration).redex? e = some redex) :
    (Engine.new rules configuration).rules[redex.ranked.id]? = some redex.ranked ∧
      redex.ranked.rule.fit? e = some redex.fit ∧
        ∀ ranked ∈ (Engine.new rules configuration).rules.take redex.ranked.id,
          ranked.rule.fit? e = none := by
  obtain ⟨front, back, hrules, hfit, hfront⟩ := redex?_eq_some_iff.mp h
  have hget : (Engine.new rules configuration).rules[front.length]? = some redex.ranked := by
    simp [hrules]
  have hid : redex.ranked.id = front.length := id_of_getElem? hget
  refine ⟨hid ▸ hget, hfit, ?_⟩
  rw [hid, hrules, List.take_left]
  exact hfront

theorem redex?_id_le {rules : List Rule} {configuration : Configuration} {e : Expr}
    {redex : Redex} (h : (Engine.new rules configuration).redex? e = some redex)
    {ranked : RankedRule} (hmem : ranked ∈ (Engine.new rules configuration).rules)
    (hmatch : (ranked.rule.fit? e).isSome) : redex.ranked.id ≤ ranked.id := by
  obtain ⟨i, hi⟩ := List.mem_iff_getElem?.mp hmem
  rw [id_of_getElem? hi]
  apply Nat.le_of_not_lt
  intro hlt
  have hnone := (getElem?_of_redex? h).2.2 ranked
    (List.mem_of_getElem? (by rw [List.getElem?_take_of_lt hlt, hi]))
  simp [hnone] at hmatch

end SymbolicCalculus.Engine
