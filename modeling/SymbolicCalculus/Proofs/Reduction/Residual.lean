import SymbolicCalculus.Proofs.Reduction.Innermost
import SymbolicCalculus.Rules.Tailored

/-! # Redexes left in the outcome

The last pass over a node sees it in its final form, and so do the last passes over its operands. A
rule that still matches somewhere in the outcome was therefore held back there, and the trace says
so. An outcome of a run that held nothing back has no redex.
-/
namespace SymbolicCalculus.Engine

variable {engine : Engine}

theorem mem_suppressed_of_choose {step : Step} {path : List Nat} {e : Expr} {s t : Session}
    {choice : Option Redex} (h : engine.choose path e s = (choice, t))
    (hs : step ∈ s.suppressed) : step ∈ t.suppressed := by
  cases choice with
  | some redex =>
    obtain ⟨_, log, _, rfl⟩ := choose_eq_some h
    rwa [Session.suppressed_applied]
  | none =>
    rcases choose_eq_none h with ⟨_, rfl⟩ | ⟨redex, period, log, _, _, rfl⟩
    · exact hs
    · rw [Session.suppressed_heldBack]
      exact List.mem_append_left _ hs

theorem stepAt_mem_suppressed_of_choose {path : List Nat} {e : Expr} {s t : Session}
    {redex : Redex} (h : engine.choose path e s = (none, t))
    (hredex : engine.redex? e = some redex) : redex.stepAt path ∈ t.suppressed := by
  rcases choose_eq_none h with ⟨hnone, _⟩ | ⟨found, period, log, hfound, _, rfl⟩
  · simp [hredex] at hnone
  · rw [Session.suppressed_heldBack]
    obtain rfl : redex = found := by simpa [hredex] using hfound
    exact List.mem_append_right _ (List.mem_singleton_self _)

mutual

theorem Settles.mem_suppressed {path : List Nat} {changed changed' : Bool} {e e' : Expr}
    {s t : Session} (h : engine.Settles path changed e s changed' e' t) (p : List Nat) (u : Expr)
    (redex : Redex) (hu : e'.at? p = some u) (hredex : engine.redex? u = some redex) :
    redex.stepAt (path ++ p) ∈ t.suppressed := by
  match h with
  | .rest hall hchoose =>
    match p with
    | [] =>
      simp only [Expr.at?, Option.some.injEq] at hu
      subst hu
      simpa using stepAt_mem_suppressed_of_choose hchoose hredex
    | j :: p =>
      have hbelow := hall.mem_suppressed j p u redex hu hredex
      rw [Nat.zero_add] at hbelow
      exact mem_suppressed_of_choose hchoose hbelow
  | .pass _ _ hnext => exact hnext.mem_suppressed p u redex hu hredex
  | .reduce _ _ _ hnext => exact hnext.mem_suppressed p u redex hu hredex

theorem SettlesAll.mem_suppressed {path : List Nat} {i : Nat} {es es' : List Expr}
    {changed : Bool} {s t : Session} (h : engine.SettlesAll path i es s changed es' t) (j : Nat)
    (p : List Nat) (u : Expr) (redex : Redex) (hu : es'[j]?.bind (·.at? p) = some u)
    (hredex : engine.redex? u = some redex) :
    redex.stepAt (path ++ (i + j) :: p) ∈ t.suppressed := by
  match h with
  | .nil => simp at hu
  | .cons hfirst hlater =>
    match j with
    | 0 =>
      have hmem := hfirst.mem_suppressed p u redex (by simpa using hu) hredex
      rw [List.append_assoc] at hmem
      exact hlater.keeps mem_suppressed_of_choose hmem
    | j + 1 =>
      have hmem := hlater.mem_suppressed j p u redex (by simpa using hu) hredex
      rwa [Nat.add_right_comm] at hmem

end

theorem normal_of_isComplete {e : Expr} {budget : Nat} {trace : Trace} {s : Session}
    (h : engine.runWithin budget e = .done trace s) (hcomplete : trace.isComplete = true) :
    engine.Normal trace.expression := by
  obtain ⟨hsettles, _, hsuppressed⟩ := settles_of_runWithin h
  have hnil : s.suppressed = [] := hsuppressed ▸ List.isEmpty_iff.mp hcomplete
  apply normal_of_everywhere
  intro path u hu
  rw [Option.eq_none_iff_forall_ne_some]
  intro redex hredex
  have hmem := hsettles.mem_suppressed path u redex hu hredex
  rw [hnil] at hmem
  cases hmem

/-- Every redex in the outcome of a run is reported as held back: at each position where some rule
matches, the trace has a step with that position and the smallest number of a matching rule. If
nothing was held back, no rule matches anywhere. -/
theorem residual_redexes_reported (rules : List Rule) (configuration : Configuration) (e : Expr)
    (budget : Nat) (trace : Trace) (s : Session)
    (h : (Engine.new rules configuration).runWithin budget e = .done trace s) :
    (∀ path u, trace.expression.at? path = some u →
      (∃ ranked ∈ (Engine.new rules configuration).rules, (ranked.rule.fit? u).isSome) →
      ∃ step ∈ trace.suppressed, step.path = path ∧
        (∃ ranked ∈ (Engine.new rules configuration).rules,
          ranked.id = step.ruleId ∧ (ranked.rule.fit? u).isSome) ∧
        ∀ ranked ∈ (Engine.new rules configuration).rules,
          (ranked.rule.fit? u).isSome → step.ruleId ≤ ranked.id) ∧
    (trace.isComplete → ∀ path u, trace.expression.at? path = some u →
      ∀ ranked ∈ (Engine.new rules configuration).rules, ranked.rule.fit? u = none) := by
  obtain ⟨hsettles, _, hsuppressed⟩ := settles_of_runWithin h
  have hreported (path : List Nat) (u : Expr) (redex : Redex)
      (hu : trace.expression.at? path = some u)
      (hredex : (Engine.new rules configuration).redex? u = some redex) :
      redex.stepAt path ∈ trace.suppressed := by
    rw [hsuppressed]
    exact hsettles.mem_suppressed path u redex hu hredex
  constructor
  · rintro path u hu ⟨ranked, hmem, hmatch⟩
    cases hredex : (Engine.new rules configuration).redex? u with
    | none => simp [redex?_eq_none_iff.mp hredex ranked hmem] at hmatch
    | some redex =>
      obtain ⟨hget, hfit, _⟩ := getElem?_of_redex? hredex
      refine ⟨redex.stepAt path, hreported path u redex hu hredex, rfl, ?_, ?_⟩
      · exact ⟨redex.ranked, List.mem_of_getElem? hget, rfl, by simp [hfit]⟩
      · intro other hother hmatches
        exact redex?_id_le hredex hother hmatches
  · intro hcomplete path u hu
    rw [← redex?_eq_none_iff, Option.eq_none_iff_forall_ne_some]
    intro redex hredex
    have hmem := hreported path u redex hu hredex
    rw [List.isEmpty_iff.mp hcomplete] at hmem
    cases hmem

/-- Swapping the operands of a sum forever is held back below the root, and reported there. -/
theorem residual_redexes_reported_swap :
    ∃ trace s, (Engine.new [Tailored.swap "Swap" .one .add] {}).runWithin 9
        (.sin (.add (.var "a") (.var "b"))) = .done trace s ∧
      trace.expression.at? [0] = some (.add (.var "b") (.var "a")) ∧
      ∃ step ∈ trace.suppressed, step.path = [0] ∧ step.ruleId = 0 := by
  have hswap : (⟨0, Tailored.swap "Swap" .one .add⟩ : RankedRule) ∈
      (Engine.new [Tailored.swap "Swap" .one .add] {}).rules := List.mem_singleton_self _
  have h := residual_redexes_reported [Tailored.swap "Swap" .one .add] {}
    (.sin (.add (.var "a") (.var "b"))) 9 _ _ rfl
  obtain ⟨step, hmem, hpath, _, hleast⟩ :=
    h.1 [0] (.add (.var "b") (.var "a")) rfl ⟨_, hswap, rfl⟩
  exact ⟨_, _, rfl, rfl, step, hmem, hpath, Nat.le_zero.mp (hleast _ hswap rfl)⟩

end SymbolicCalculus.Engine
