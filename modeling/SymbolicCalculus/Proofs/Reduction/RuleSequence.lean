import SymbolicCalculus.Proofs.Reduction.Derivation
import SymbolicCalculus.Proofs.Rules.Safety

/-! # Rules that fire at one node

Between two rules that fire at a node, all steps take place in its operands. The rules that fire at
the node one after the other form its rule sequence. If no such sequence has a repeated block, no
derivation has one: a repeated block with steps at the node repeats a block of the node's sequence,
and a repeated block without any lies within a single operand.
-/
namespace SymbolicCalculus

section Blocks

variable {α β : Type} {p : Nat} {xs ys : List α}

theorem RepeatsWithin.map (f : α → β) (h : RepeatsWithin p xs) : RepeatsWithin p (xs.map f) := by
  obtain ⟨block, hlength, hblock⟩ := h
  refine ⟨block.map f, by rw [List.length_map, hlength], ?_⟩
  rw [← List.map_append]
  exact hblock.map f

/-- A list in two parts repeats a block in one of them, if they have nothing in common. -/
theorem RepeatsWithin.of_append {q : α → Bool} (h : RepeatsWithin p (xs ++ ys))
    (hxs : ∀ x ∈ xs, q x = true) (hys : ∀ y ∈ ys, q y = false) :
    RepeatsWithin p xs ∨ RepeatsWithin p ys := by
  obtain ⟨block, hlength, hblock⟩ := h
  -- In the list, everything before an entry of the first part is in the first part.
  have hsorted : (xs ++ ys).Pairwise fun x y => q y = true → q x = true := by
    refine List.pairwise_append.mpr ⟨?_, ?_, fun x hx _ _ _ => hxs x hx⟩
    · exact List.pairwise_iff_forall_sublist.mpr fun hsub _ => hxs _ (hsub.subset (by simp))
    · refine List.pairwise_iff_forall_sublist.mpr fun hsub hq => ?_
      rw [hys _ (hsub.subset (by simp))] at hq
      cases hq
  have hcopies := (List.pairwise_append.mp (hsorted.sublist hblock.sublist)).2.2
  by_cases hsome : ∃ x ∈ block, q x = true
  · obtain ⟨x, hx, hqx⟩ := hsome
    have hall : ∀ y ∈ block ++ block, q y = true := by
      intro y hy
      exact hcopies y (by simpa using hy) x hx hqx
    have hfilter := hblock.filter q
    rw [List.filter_append xs, List.filter_eq_self.mpr hall, List.filter_eq_self.mpr hxs,
      List.filter_eq_nil_iff.mpr (by simpa using hys), List.append_nil] at hfilter
    exact .inl ⟨block, hlength, hfilter⟩
  · have hnone : ∀ y ∈ block ++ block, (!q y) = true := by
      intro y hy
      rw [Bool.not_eq_true', ← Bool.not_eq_true]
      exact fun hqy => hsome ⟨y, by simpa using hy, hqy⟩
    have hfilter := hblock.filter fun x => !q x
    rw [List.filter_append xs, List.filter_eq_self.mpr hnone,
      List.filter_eq_nil_iff.mpr (by simpa using hxs),
      List.filter_eq_self.mpr (by simpa using hys), List.nil_append] at hfilter
    exact .inr ⟨block, hlength, hfilter⟩

/-- A part of a list that does not have the entry lies before it or behind it. -/
theorem infix_of_infix_append_cons {block : List α} {x : α} (h : block <:+: xs ++ x :: ys)
    (hx : x ∉ block) : block <:+: xs ∨ block <:+: ys := by
  have hnil {part : List α} (hpart : part <+: x :: ys) (hsub : part ⊆ block) : part = [] := by
    cases part with
    | nil => rfl
    | cons y part =>
      obtain ⟨rfl, _⟩ := List.cons_prefix_cons.mp hpart
      exact absurd (hsub List.mem_cons_self) hx
  rcases List.infix_append_iff.mp h with hfront | hback | ⟨front, back, rfl, hfront, hback⟩
  · exact .inl hfront
  · rcases List.infix_cons_iff.mp hback with hstart | hlater
    · rw [hnil hstart (List.Subset.refl _)]
      exact .inl List.nil_infix
    · exact .inr hlater
  · rw [hnil hback (List.subset_append_right _ _), List.append_nil]
    exact .inl hfront.isInfix

end Blocks

namespace Engine

variable {engine : Engine}

inductive NormalizesBelow (engine : Engine) : Expr → Expr → Prop
  | node {kind : Kind} {es fs : List Expr} : NormalizesAll engine es fs →
    NormalizesBelow engine (.node kind es) (.node kind fs)

inductive Next (engine : Engine) : Expr → RankedRule → Expr → Prop
  | reduce {e r f : Expr} {redex : Redex} : engine.redex? e = some redex →
    redex.ranked.rule.reduce e redex.fit = .ok r → NormalizesBelow engine r f →
    Next engine e redex.ranked f

/-- The numbers of rules that fire at a node one after the other, beginning with its first redex
over normal forms. -/
inductive RuleSequence (engine : Engine) : Expr → List Nat → Prop
  | nil {e : Expr} : RuleSequence engine e []
  | cons {e f : Expr} {ranked : RankedRule} {ids : List Nat} : Next engine e ranked f →
    RuleSequence engine f ids → RuleSequence engine e (ranked.id :: ids)

theorem RuleSequence.exists_of_cons {e : Expr} {id : Nat} {ids : List Nat}
    (h : engine.RuleSequence e (id :: ids)) :
    ∃ ranked f, ranked.id = id ∧ engine.Next e ranked f ∧ engine.RuleSequence f ids := by
  cases h with
  | cons hnext hlater => exact ⟨_, _, rfl, hnext, hlater⟩

/-- What every rule keeps holds at the node where a sequence goes on. -/
theorem RuleSequence.exists_of_append {I : Expr → Prop}
    (hI : ∀ {e ranked f}, I e → engine.Next e ranked f → I f) {e : Expr} {ids later : List Nat}
    (h : engine.RuleSequence e (ids ++ later)) (he : I e) :
    ∃ f, I f ∧ engine.RuleSequence f later := by
  induction ids generalizing e with
  | nil => exact ⟨e, he, h⟩
  | cons id ids ih =>
    cases h with
    | cons hnext hlater => exact ih hlater (hI he hnext)

def rootRules (sites : List Site) : List Nat :=
  sites.filterMap fun site => if site.path = [] then some site.ruleId else none

theorem rootRules_append (sites later : List Site) :
    rootRules (sites ++ later) = rootRules sites ++ rootRules later :=
  List.filterMap_append

theorem rootRules_eq_nil_iff {sites : List Site} :
    rootRules sites = [] ↔ ∀ site ∈ sites, site.path ≠ [] := by
  simp [rootRules, List.filterMap_eq_nil_iff]

/-- A repetition with steps at the node repeats a block of their rules. -/
theorem repeatsWithin_rootRules {block sites : List Site} (h : block ++ block <:+: sites)
    (hroot : rootRules block ≠ []) : ∃ p, 0 < p ∧ RepeatsWithin p (rootRules sites) := by
  refine ⟨_, List.length_pos_iff.mpr hroot, rootRules block, rfl, ?_⟩
  rw [← rootRules_append]
  exact h.filterMap _

theorem DerivesAll.rootRules_eq_nil {i : Nat} {es ns : List Expr} {steps : List Step}
    (h : engine.DerivesAll i es steps ns) : rootRules (steps.map Step.site) = [] := by
  rw [rootRules_eq_nil_iff]
  intro site hsite
  obtain ⟨j, path, _, hpath⟩ := h.exists_path site hsite
  simp [hpath]

/-- The steps of a derivation at the node itself follow a rule sequence. -/
theorem Derives.exists_ruleSequence {e n : Expr} {steps : List Step}
    (h : engine.Derives e steps n) :
    ∃ f, engine.NormalizesBelow e f ∧
      engine.RuleSequence f (rootRules (steps.map Step.site)) := by
  refine h.rootInduction (P := fun e steps => ∃ f, engine.NormalizesBelow e f ∧
    engine.RuleSequence f (rootRules (steps.map Step.site))) ?_ ?_
  · intro kind es fs steps hall
    rw [hall.rootRules_eq_nil]
    exact ⟨_, .node hall.normalizes, .nil⟩
  · rintro kind es fs steps later redex r hall hredex hreduce ⟨f, hf, hids⟩
    refine ⟨_, .node hall.normalizes, ?_⟩
    rw [List.map_append, rootRules_append, hall.rootRules_eq_nil, List.nil_append, List.map_cons]
    exact .cons (.reduce hredex hreduce hf) hids

theorem IsSafe.wellFormed_of_contract? (hsafe : engine.IsSafe) {e r : Expr} (he : e.WellFormed)
    (h : engine.contract? e = some (.ok r)) : r.WellFormed := by
  obtain ⟨rule, fit, htries, hfit, hreduce⟩ := exists_rule_of_contract? h
  obtain ⟨r', hr', hwell⟩ := hsafe htries he hfit
  rw [hreduce] at hr'
  cases hr'
  exact hwell

theorem NormalizesAll.node_wellFormed {kind : Kind} {es ns : List Expr}
    (h : engine.NormalizesAll es ns) (he : (Expr.node kind es).WellFormed)
    (hns : ∀ n ∈ ns, n.WellFormed) : (Expr.node kind ns).WellFormed :=
  Expr.wellFormed_node_iff.mpr ⟨h.length_eq.trans (Expr.wellFormed_node_iff.mp he).1, hns⟩

mutual

theorem Normalizes.wellFormed (hsafe : engine.IsSafe) {e n : Expr} (h : engine.Normalizes e n)
    (he : e.WellFormed) : n.WellFormed := by
  match h with
  | .rest hall _ =>
    have hes := (Expr.wellFormed_node_iff.mp he).2
    exact hall.node_wellFormed he (hall.wellFormed hsafe hes)
  | .reduce hall hsome hnext =>
    have hes := (Expr.wellFormed_node_iff.mp he).2
    have hnode := hall.node_wellFormed he (hall.wellFormed hsafe hes)
    exact hnext.wellFormed hsafe (hsafe.wellFormed_of_contract? hnode hsome)

theorem NormalizesAll.wellFormed (hsafe : engine.IsSafe) {es ns : List Expr}
    (h : engine.NormalizesAll es ns) (hes : ∀ u ∈ es, u.WellFormed) :
    ∀ n ∈ ns, n.WellFormed := by
  match h with
  | .nil => simp
  | .cons hfirst hlater =>
    rw [List.forall_mem_cons] at hes ⊢
    exact ⟨hfirst.wellFormed hsafe hes.1, hlater.wellFormed hsafe hes.2⟩

end

def IsUnrepeating (engine : Engine) : Prop :=
  ∀ ⦃e f : Expr⦄ ⦃ids : List Nat⦄, e.WellFormed → engine.NormalizesBelow e f →
    engine.RuleSequence f ids → ∀ p, 0 < p → ¬ RepeatsWithin p ids

mutual

theorem Derives.not_repeatsWithin (hsafe : engine.IsSafe) (hsequence : engine.IsUnrepeating)
    {e n : Expr} {steps : List Step} (h : engine.Derives e steps n) (he : e.WellFormed) {p : Nat}
    (hp : 0 < p) : ¬ RepeatsWithin p (steps.map Step.site) := by
  rintro ⟨block, hlength, hblock⟩
  by_cases hroot : rootRules block = []
  · have hnot (redex : Redex) : (redex.stepAt []).site ∉ block ++ block := by
      intro hmem
      exact rootRules_eq_nil_iff.mp hroot _ (by simpa using hmem) rfl
    match h with
    | .rest hall _ =>
      have hes := (Expr.wellFormed_node_iff.mp he).2
      exact hall.not_repeatsWithin hsafe hsequence hes hp ⟨block, hlength, hblock⟩
    | .reduce hall hredex hreduce hnext =>
      have hes := (Expr.wellFormed_node_iff.mp he).2
      rw [List.map_append, List.map_cons] at hblock
      rcases infix_of_infix_append_cons hblock (hnot _) with hfront | hback
      · exact hall.not_repeatsWithin hsafe hsequence hes hp ⟨block, hlength, hfront⟩
      · have hnode := hall.normalizes.node_wellFormed he (hall.normalizes.wellFormed hsafe hes)
        have hr := hsafe.wellFormed_of_contract? hnode (contract?_of_redex? hredex hreduce)
        exact hnext.not_repeatsWithin hsafe hsequence hr hp ⟨block, hlength, hback⟩
  · obtain ⟨q, hq, hrepeats⟩ := repeatsWithin_rootRules hblock hroot
    obtain ⟨f, hf, hids⟩ := h.exists_ruleSequence
    exact hsequence he hf hids q hq hrepeats

theorem DerivesAll.not_repeatsWithin (hsafe : engine.IsSafe) (hsequence : engine.IsUnrepeating)
    {i : Nat} {es ns : List Expr} {steps : List Step} (h : engine.DerivesAll i es steps ns)
    (hes : ∀ u ∈ es, u.WellFormed) {p : Nat} (hp : 0 < p) :
    ¬ RepeatsWithin p (steps.map Step.site) := by
  match h with
  | .nil =>
    intro hrepeats
    have hle := hrepeats.le_length
    simp at hle
    omega
  | .cons hfirst hlater =>
    rw [List.forall_mem_cons] at hes
    intro hrepeats
    rw [List.map_append] at hrepeats
    -- The steps in the first operand are told apart from those in later ones by their paths.
    have hparts := hrepeats.of_append (q := fun site => site.path.head? == some i) ?_ ?_
    · rcases hparts with hfront | hback
      · have htail := hfront.map fun site => Site.mk site.path.tail site.ruleId
        simp only [List.map_map] at htail
        exact hfirst.not_repeatsWithin hsafe hsequence hes.1 hp htail
      · exact hlater.not_repeatsWithin hsafe hsequence hes.2 hp hback
    · intro site hsite
      simp only [List.map_map, List.mem_map] at hsite
      obtain ⟨step, _, rfl⟩ := hsite
      simp [Step.site, Step.below]
    · intro site hsite
      obtain ⟨j, path, hj, hpath⟩ := hlater.exists_path site hsite
      simp [hpath]
      omega

end

end Engine

end SymbolicCalculus
