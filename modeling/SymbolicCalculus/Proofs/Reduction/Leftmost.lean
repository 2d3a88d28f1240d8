import SymbolicCalculus.Proofs.Reduction.Derivation
import SymbolicCalculus.Rules.Tailored

/-! # Leftmost innermost reduction

The plain strategy looks for the first redex of the whole expression, operands before the node above
them and from left to right, reduces it, and starts over from the root. The engine never goes back
to the root, but without loop detection it does the same: everything to the left of the node that it
works on is a normal form. Both return the same expression after the same steps, or fail in the same
step.
-/
namespace SymbolicCalculus

namespace Expr

mutual

/-- All nodes with the paths to them, operands before the node and from left to right. -/
def postorder : Expr → List (List Nat × Expr)
  | node kind operands => postorderFrom 0 operands ++ [([], node kind operands)]

def postorderFrom : Nat → List Expr → List (List Nat × Expr)
  | _, [] => []
  | i, e :: es => (postorder e).map (fun (path, u) => (i :: path, u)) ++ postorderFrom (i + 1) es

end

theorem put_operand (v : Expr) (kind : Kind) (front back : List Expr) (u : Expr)
    (path : List Nat) : put v (node kind (front ++ u :: back)) (front.length :: path) =
      node kind (front ++ put v u path :: back) := by
  simp [put, List.modify_eq_set]

end Expr

structure Spot where
  path : List Nat
  node : Expr
  redex : Redex

namespace Spot

def step (spot : Spot) : Step := spot.redex.stepAt spot.path

def reduce (spot : Spot) : Except Error Expr :=
  spot.redex.ranked.rule.reduce spot.node spot.redex.fit

def below (i : Nat) (spot : Spot) : Spot := { spot with path := i :: spot.path }

end Spot

namespace Engine

def spot? (engine : Engine) (path : List Nat) (u : Expr) : Option Spot :=
  (engine.redex? u).map (Spot.mk path u)

def leftmost? (engine : Engine) (e : Expr) : Option Spot :=
  e.postorder.findSome? fun (path, u) => engine.spot? path u

/-- Reduces the leftmost innermost redex and starts over from the root, until there is none or its
rule fails. Returns the steps and the outcome if the given number of rounds is enough. -/
def rewriteLeftmost (engine : Engine) : Nat → Expr → Option (List Step × Except Error Expr)
  | 0, _ => none
  | rounds + 1, e =>
    match engine.leftmost? e with
    | none => some ([], .ok e)
    | some spot =>
      match spot.reduce with
      | .ok v => (rewriteLeftmost engine rounds (.put v e spot.path)).map fun (steps, outcome) =>
          (spot.step :: steps, outcome)
      | .error error => some ([spot.step], .error error)

variable {engine : Engine}

def leftmostFrom? (engine : Engine) (i : Nat) (es : List Expr) : Option Spot :=
  (Expr.postorderFrom i es).findSome? fun (path, u) => engine.spot? path u

theorem leftmost?_node (kind : Kind) (es : List Expr) :
    engine.leftmost? (.node kind es) =
      (engine.leftmostFrom? 0 es).or (engine.spot? [] (.node kind es)) := by
  simp [leftmost?, leftmostFrom?, Expr.postorder, List.findSome?_append]

theorem leftmostFrom?_cons (i : Nat) (e : Expr) (es : List Expr) :
    engine.leftmostFrom? i (e :: es) =
      ((engine.leftmost? e).map (Spot.below i)).or (engine.leftmostFrom? (i + 1) es) := by
  simp only [leftmostFrom?, leftmost?, Expr.postorderFrom, List.findSome?_append,
    List.findSome?_map, List.map_findSome?]
  congr 2
  funext ⟨path, u⟩
  simp [spot?, Function.comp_def, Spot.below]

theorem leftmostFrom?_eq_none_iff {es : List Expr} (i : Nat)
    (h : ∀ u ∈ es, engine.leftmost? u = none ↔ engine.Normal u) :
    engine.leftmostFrom? i es = none ↔ ∀ u ∈ es, engine.Normal u := by
  induction es generalizing i with
  | nil => simp [leftmostFrom?, Expr.postorderFrom]
  | cons e es ih =>
    rw [List.forall_mem_cons] at h
    rw [leftmostFrom?_cons, Option.or_eq_none_iff, Option.map_eq_none_iff, h.1, ih (i + 1) h.2,
      List.forall_mem_cons]

theorem leftmost?_eq_none_iff {e : Expr} : engine.leftmost? e = none ↔ engine.Normal e := by
  induction e using Expr.operandInduction with
  | node kind es ih =>
    rw [leftmost?_node, Option.or_eq_none_iff, leftmostFrom?_eq_none_iff 0 ih, normal_node_iff,
      contract?_eq_none_iff, spot?, Option.map_eq_none_iff]

/-- Operands that are normal forms are passed over. -/
theorem leftmostFrom?_append {i : Nat} {front back : List Expr} {u : Expr} {spot : Spot}
    (hfront : ∀ w ∈ front, engine.Normal w) (hspot : engine.leftmost? u = some spot) :
    engine.leftmostFrom? i (front ++ u :: back) = some (spot.below (i + front.length)) := by
  induction front generalizing i with
  | nil => simp [leftmostFrom?_cons, hspot]
  | cons w front ih =>
    rw [List.forall_mem_cons] at hfront
    rw [List.cons_append, leftmostFrom?_cons, leftmost?_eq_none_iff.mpr hfront.1,
      Option.map_none, Option.none_or, ih hfront.2, List.length_cons,
      Nat.add_right_comm i 1, Nat.add_assoc]

theorem leftmost?_operand {kind : Kind} {front back : List Expr} {u : Expr} {spot : Spot}
    (hfront : ∀ w ∈ front, engine.Normal w) (hspot : engine.leftmost? u = some spot) :
    engine.leftmost? (.node kind (front ++ u :: back)) = some (spot.below front.length) := by
  rw [leftmost?_node, leftmostFrom?_append hfront hspot, Option.some_or, Nat.zero_add]

theorem leftmost?_root {kind : Kind} {es : List Expr} {redex : Redex}
    (hes : ∀ u ∈ es, engine.Normal u) (hredex : engine.redex? (.node kind es) = some redex) :
    engine.leftmost? (.node kind es) = some ⟨[], .node kind es, redex⟩ := by
  rw [leftmost?_node, (leftmostFrom?_eq_none_iff 0 fun _ _ => leftmost?_eq_none_iff).mpr hes,
    Option.none_or, spot?, hredex, Option.map_some]

theorem exists_of_leftmostFrom? {i : Nat} {es : List Expr} {spot : Spot}
    (h : engine.leftmostFrom? i es = some spot) :
    ∃ front u back below, es = front ++ u :: back ∧ (∀ w ∈ front, engine.Normal w) ∧
      engine.leftmost? u = some below ∧ spot = below.below (i + front.length) := by
  induction es generalizing i with
  | nil => simp [leftmostFrom?, Expr.postorderFrom] at h
  | cons e es ih =>
    rw [leftmostFrom?_cons] at h
    cases hfirst : engine.leftmost? e with
    | some below =>
      rw [hfirst] at h
      exact ⟨[], e, es, below, rfl, by simp, hfirst, by simpa using h.symm⟩
    | none =>
      rw [hfirst] at h
      obtain ⟨front, u, back, below, rfl, hfront, hu, rfl⟩ := ih h
      refine ⟨e :: front, u, back, below, rfl, ?_, hu, ?_⟩
      · exact List.forall_mem_cons.mpr ⟨leftmost?_eq_none_iff.mp hfirst, hfront⟩
      · rw [List.length_cons, Nat.add_right_comm i 1, Nat.add_assoc]

/-- The first redex is that of an operand with normal forms to its left, or the node itself is the
redex and all its operands are normal forms. -/
theorem exists_of_leftmost? {kind : Kind} {es : List Expr} {spot : Spot}
    (h : engine.leftmost? (.node kind es) = some spot) :
    (∃ front u back below, es = front ++ u :: back ∧ (∀ w ∈ front, engine.Normal w) ∧
      engine.leftmost? u = some below ∧ spot = below.below front.length) ∨
    (∃ redex, (∀ u ∈ es, engine.Normal u) ∧ engine.redex? (.node kind es) = some redex ∧
      spot = ⟨[], .node kind es, redex⟩) := by
  rw [leftmost?_node] at h
  cases hfrom : engine.leftmostFrom? 0 es with
  | some found =>
    rw [hfrom, Option.some_or, Option.some.injEq] at h
    subst h
    obtain ⟨front, u, back, below, hes, hfront, hu, hspot⟩ := exists_of_leftmostFrom? hfrom
    rw [Nat.zero_add] at hspot
    exact .inl ⟨front, u, back, below, hes, hfront, hu, hspot⟩
  | none =>
    rw [hfrom, Option.none_or, spot?, Option.map_eq_some_iff] at h
    obtain ⟨redex, hredex, rfl⟩ := h
    have hes := (leftmostFrom?_eq_none_iff 0 fun _ _ => leftmost?_eq_none_iff).mp hfrom
    exact .inr ⟨redex, hes, hredex, rfl⟩

section Expansion

-- The operand behind the normal forms becomes `w` by a step, and goes on from there.
variable {front back : List Expr} {u w : Expr} {step : Step}
  (hfront : ∀ v ∈ front, engine.Normal v)
  (hderives : ∀ {steps n}, engine.Derives w steps n → engine.Derives u (step :: steps) n)

include hfront hderives

theorem DerivesAll.expand {i : Nat} {steps : List Step} {ns : List Expr}
    (h : engine.DerivesAll i (front ++ w :: back) steps ns) :
    engine.DerivesAll i (front ++ u :: back) (step.below [i + front.length] :: steps) ns := by
  induction front generalizing i steps ns with
  | nil =>
    cases h with
    | cons hfirst hlater => exact .cons (hderives hfirst) hlater
  | cons v front ih =>
    rw [List.forall_mem_cons] at hfront
    cases h with
    | cons hfirst hlater =>
      obtain rfl := hfirst.steps_eq_nil hfront.1
      have hexpanded := ih hfront.2 hlater
      rw [Nat.add_assoc, Nat.add_comm 1] at hexpanded
      exact .cons hfirst hexpanded

theorem FailsAmong.expand
    (hfails : ∀ {steps error}, engine.Fails w steps error → engine.Fails u (step :: steps) error)
    {i : Nat} {steps : List Step} {error : Error}
    (h : engine.FailsAmong i (front ++ w :: back) steps error) :
    engine.FailsAmong i (front ++ u :: back) (step.below [i + front.length] :: steps) error := by
  induction front generalizing i steps with
  | nil =>
    cases h with
    | first hfirst => exact .first (hfails hfirst)
    | later hfirst hlater => exact .later (hderives hfirst) hlater
  | cons v front ih =>
    rw [List.forall_mem_cons] at hfront
    cases h with
    | first hfirst => exact absurd hfront.1 hfirst.not_normal
    | later hfirst hlater =>
      obtain rfl := hfirst.steps_eq_nil hfront.1
      have hexpanded := ih hfront.2 hlater
      rw [Nat.add_assoc, Nat.add_comm 1] at hexpanded
      exact .later hfirst hexpanded

end Expansion

/-- A derivation goes on as it does after its first step, the leftmost innermost one. -/
theorem Derives.expand {e v n : Expr} {spot : Spot} {steps : List Step}
    (hspot : engine.leftmost? e = some spot) (hreduce : spot.reduce = .ok v)
    (h : engine.Derives (.put v e spot.path) steps n) :
    engine.Derives e (spot.step :: steps) n := by
  induction e using Expr.operandInduction generalizing spot steps n with
  | node kind es ih =>
    rcases exists_of_leftmost? hspot with ⟨front, u, back, found, rfl, hfront, hu, rfl⟩ |
      ⟨redex, hes, hredex, rfl⟩
    · have hu' {steps : List Step} {n : Expr} (h : engine.Derives (.put v u found.path) steps n) :=
        ih u (by simp) hu hreduce h
      rw [Spot.below, Expr.put_operand] at h
      cases h with
      | rest hall hnone =>
        have hexpanded := hall.expand hfront hu'
        rw [Nat.zero_add] at hexpanded
        exact .rest hexpanded hnone
      | reduce hall hredex hnext hlater =>
        have hexpanded := hall.expand hfront hu'
        rw [Nat.zero_add] at hexpanded
        exact .reduce hexpanded hredex hnext hlater
    · exact .reduce (derivesAll_self (fun u hu => (hes u hu).derives) 0) hredex hreduce h

theorem Fails.expand {e v : Expr} {spot : Spot} {steps : List Step} {error : Error}
    (hspot : engine.leftmost? e = some spot) (hreduce : spot.reduce = .ok v)
    (h : engine.Fails (.put v e spot.path) steps error) :
    engine.Fails e (spot.step :: steps) error := by
  induction e using Expr.operandInduction generalizing spot steps error with
  | node kind es ih =>
    rcases exists_of_leftmost? hspot with ⟨front, u, back, found, rfl, hfront, hu, rfl⟩ |
      ⟨redex, hes, hredex, rfl⟩
    · have hu' {steps : List Step} {n : Expr} (h : engine.Derives (.put v u found.path) steps n) :=
        h.expand hu hreduce
      rw [Spot.below, Expr.put_operand] at h
      cases h with
      | here hall hredex hnext =>
        have hexpanded := hall.expand hfront hu'
        rw [Nat.zero_add] at hexpanded
        exact .here hexpanded hredex hnext
      | among hamong =>
        have hexpanded := hamong.expand hfront hu' fun h => ih u (by simp) hu hreduce h
        rw [Nat.zero_add] at hexpanded
        exact .among hexpanded
      | reduce hall hredex hnext hlater =>
        have hexpanded := hall.expand hfront hu'
        rw [Nat.zero_add] at hexpanded
        exact .reduce hexpanded hredex hnext hlater
    · exact .reduce (derivesAll_self (fun u hu => (hes u hu).derives) 0) hredex hreduce h

theorem failsAmong_operand {i : Nat} {front back : List Expr} {u : Expr} {steps : List Step}
    {error : Error} (hfront : ∀ w ∈ front, engine.Normal w) (h : engine.Fails u steps error) :
    engine.FailsAmong i (front ++ u :: back) (steps.map (Step.below [i + front.length])) error := by
  induction front generalizing i with
  | nil => exact .first h
  | cons w front ih =>
    rw [List.forall_mem_cons] at hfront
    have hlater := ih (i := i + 1) hfront.2
    rw [Nat.add_assoc, Nat.add_comm 1] at hlater
    exact .later hfront.1.derives hlater

theorem fails_of_leftmost? {e : Expr} {spot : Spot} {error : Error}
    (hspot : engine.leftmost? e = some spot) (hreduce : spot.reduce = .error error) :
    engine.Fails e [spot.step] error := by
  induction e using Expr.operandInduction generalizing spot with
  | node kind es ih =>
    rcases exists_of_leftmost? hspot with ⟨front, u, back, found, rfl, hfront, hu, rfl⟩ |
      ⟨redex, hes, hredex, rfl⟩
    · have hamong : engine.FailsAmong 0 (front ++ u :: back) _ error :=
        failsAmong_operand hfront (ih u (by simp) hu hreduce)
      rw [Nat.zero_add] at hamong
      exact .among hamong
    · exact .here (derivesAll_self (fun u hu => (hes u hu).derives) 0) hredex hreduce

/-- The plain strategy as a relation: these steps lead from `e` to the outcome. -/
inductive Rewrites (engine : Engine) : Expr → List Step → Except Error Expr → Prop
  | stop {e : Expr} : engine.leftmost? e = none → Rewrites engine e [] (.ok e)
  | step {e v : Expr} {spot : Spot} {steps : List Step} {outcome : Except Error Expr} :
    engine.leftmost? e = some spot → spot.reduce = .ok v →
    Rewrites engine (.put v e spot.path) steps outcome →
    Rewrites engine e (spot.step :: steps) outcome
  | fail {e : Expr} {spot : Spot} {error : Error} : engine.leftmost? e = some spot →
    spot.reduce = .error error → Rewrites engine e [spot.step] (.error error)

theorem rewrites_of_rewriteLeftmost {rounds : Nat} {e : Expr} {steps : List Step}
    {outcome : Except Error Expr} (h : engine.rewriteLeftmost rounds e = some (steps, outcome)) :
    engine.Rewrites e steps outcome := by
  induction rounds generalizing e steps with
  | zero => cases h
  | succ rounds ih =>
    rw [rewriteLeftmost] at h
    cases hspot : engine.leftmost? e with
    | none =>
      rw [hspot] at h
      cases h
      exact .stop hspot
    | some spot =>
      rw [hspot] at h
      cases hreduce : spot.reduce with
      | error error =>
        simp only [hreduce, Option.some.injEq, Prod.mk.injEq] at h
        obtain ⟨rfl, rfl⟩ := h
        exact .fail hspot hreduce
      | ok v =>
        simp only [hreduce, Option.map_eq_some_iff, Prod.mk.injEq] at h
        obtain ⟨⟨later, _⟩, hlater, rfl, rfl⟩ := h
        exact .step hspot hreduce (ih hlater)

/-- Enough rounds give the outcome, and more rounds give no other. -/
theorem Rewrites.rewriteLeftmost_eq {e : Expr} {steps : List Step} {outcome : Except Error Expr}
    (h : engine.Rewrites e steps outcome) :
    ∃ least, ∀ rounds, least ≤ rounds →
      engine.rewriteLeftmost rounds e = some (steps, outcome) := by
  induction h with
  | stop hspot =>
    refine ⟨1, fun rounds hrounds => ?_⟩
    obtain ⟨rounds, rfl⟩ := Nat.exists_eq_add_of_le' hrounds
    simp [rewriteLeftmost, hspot]
  | step hspot hreduce _ ih =>
    obtain ⟨least, hleast⟩ := ih
    refine ⟨least + 1, fun rounds hrounds => ?_⟩
    obtain ⟨rounds, rfl⟩ := Nat.exists_eq_add_of_le' hrounds
    have henough := hleast (rounds + least) (Nat.le_add_left _ _)
    simp [rewriteLeftmost, hspot, hreduce, henough]
  | fail hspot hreduce =>
    refine ⟨1, fun rounds hrounds => ?_⟩
    obtain ⟨rounds, rfl⟩ := Nat.exists_eq_add_of_le' hrounds
    simp [rewriteLeftmost, hspot, hreduce]

/-- Whatever the plain strategy returns has a derivation with the same steps. -/
theorem Rewrites.derivation {e : Expr} {steps : List Step} {outcome : Except Error Expr}
    (h : engine.Rewrites e steps outcome) :
    match outcome with
    | .ok n => engine.Derives e steps n
    | .error error => engine.Fails e steps error := by
  induction h with
  | stop hspot => exact (leftmost?_eq_none_iff.mp hspot).derives
  | @step _ _ _ _ outcome hspot hreduce _ ih =>
    cases outcome with
    | ok n => exact ih.expand hspot hreduce
    | error error => exact ih.expand hspot hreduce
  | fail hspot hreduce => exact fails_of_leftmost? hspot hreduce

section Context

variable {kind : Kind} {front back : List Expr} (hfront : ∀ w ∈ front, engine.Normal w)

include hfront

/-- Behind normal forms, an operand is rewritten as it is on its own. -/
theorem Rewrites.operand {u n : Expr} {steps later : List Step} {outcome : Except Error Expr}
    (hu : engine.Rewrites u steps (.ok n))
    (h : engine.Rewrites (.node kind (front ++ n :: back)) later outcome) :
    engine.Rewrites (.node kind (front ++ u :: back))
      (steps.map (Step.below [front.length]) ++ later) outcome := by
  generalize hok : Except.ok n = outcome' at hu
  induction hu with
  | stop =>
    cases hok
    exact h
  | step hspot hreduce _ ih =>
    refine .step (leftmost?_operand hfront hspot) hreduce ?_
    rw [Spot.below, Expr.put_operand]
    exact ih hok
  | fail => cases hok

theorem Rewrites.operand_failure {u : Expr} {steps : List Step} {error : Error}
    (hu : engine.Rewrites u steps (.error error)) :
    engine.Rewrites (.node kind (front ++ u :: back))
      (steps.map (Step.below [front.length])) (.error error) := by
  generalize herror : Except.error error = outcome at hu
  induction hu with
  | stop => cases herror
  | step hspot hreduce _ ih =>
    refine .step (leftmost?_operand hfront hspot) hreduce ?_
    rw [Spot.below, Expr.put_operand]
    exact ih herror
  | fail hspot hreduce => exact .fail (leftmost?_operand hfront hspot) hreduce

end Context

theorem Rewrites.root {kind : Kind} {es : List Expr} {redex : Redex} {r : Expr}
    {later : List Step} {outcome : Except Error Expr} (hes : ∀ u ∈ es, engine.Normal u)
    (hredex : engine.redex? (.node kind es) = some redex)
    (hreduce : redex.ranked.rule.reduce (.node kind es) redex.fit = .ok r)
    (h : engine.Rewrites r later outcome) :
    engine.Rewrites (.node kind es) (redex.stepAt [] :: later) outcome :=
  .step (leftmost?_root hes hredex) hreduce h

mutual

theorem Derives.rewrites {e n : Expr} {steps : List Step} (h : engine.Derives e steps n) :
    engine.Rewrites e steps (.ok n) := by
  match h with
  | .rest hall hnone =>
    have hnormal := Normal.node hall.normalizes.normal (contract?_eq_none_iff.mpr hnone)
    have hrewrites := hall.rewrites [] rfl (by simp) (.stop (leftmost?_eq_none_iff.mpr hnormal))
    rwa [List.append_nil] at hrewrites
  | .reduce hall hredex hreduce hnext =>
    exact hall.rewrites [] rfl (by simp)
      (.root hall.normalizes.normal hredex hreduce hnext.rewrites)

theorem DerivesAll.rewrites {i : Nat} {es ns : List Expr} {steps : List Step}
    (h : engine.DerivesAll i es steps ns) {kind : Kind} (front : List Expr) {later : List Step}
    {outcome : Except Error Expr} (hi : front.length = i) (hfront : ∀ w ∈ front, engine.Normal w)
    (hlater : engine.Rewrites (.node kind (front ++ ns)) later outcome) :
    engine.Rewrites (.node kind (front ++ es)) (steps ++ later) outcome := by
  match h with
  | .nil => exact hlater
  | .cons (n := n) hfirst hrest =>
    rw [← hi, List.append_assoc]
    refine .operand hfront hfirst.rewrites ?_
    rw [List.append_cons]
    refine hrest.rewrites (front ++ [n]) (by simp [hi]) ?_ (by rwa [← List.append_cons])
    simpa [or_imp, forall_and] using ⟨hfront, hfirst.normalizes.normal⟩

end

mutual

theorem Fails.rewrites {e : Expr} {steps : List Step} {error : Error}
    (h : engine.Fails e steps error) : engine.Rewrites e steps (.error error) := by
  match h with
  | .here hall hredex hreduce =>
    exact hall.rewrites [] rfl (by simp)
      (.fail (leftmost?_root hall.normalizes.normal hredex) hreduce)
  | .among hamong => exact hamong.rewrites [] rfl (by simp)
  | .reduce hall hredex hreduce hnext =>
    exact hall.rewrites [] rfl (by simp)
      (.root hall.normalizes.normal hredex hreduce hnext.rewrites)

theorem FailsAmong.rewrites {i : Nat} {es : List Expr} {steps : List Step} {error : Error}
    (h : engine.FailsAmong i es steps error) {kind : Kind} (front : List Expr)
    (hi : front.length = i) (hfront : ∀ w ∈ front, engine.Normal w) :
    engine.Rewrites (.node kind (front ++ es)) steps (.error error) := by
  match h with
  | .first hfirst =>
    rw [← hi]
    exact .operand_failure hfront hfirst.rewrites
  | .later (n := n) hfirst hrest =>
    rw [← hi]
    refine .operand hfront hfirst.rewrites ?_
    rw [List.append_cons]
    refine hrest.rewrites (front ++ [n]) (by simp [hi]) ?_
    simpa [or_imp, forall_and] using ⟨hfront, hfirst.normalizes.normal⟩

end

/-- Without loop detection the engine does leftmost innermost reduction. It returns if and only if
the plain strategy does, with the same expression and the same steps, and it fails if and only if
the plain strategy does, with the same error in the same last step. Neither has a second outcome. -/
theorem engine_is_leftmost_innermost (rules : List Rule) (configuration : Configuration)
    (hoff : configuration.loopDetection = false) (e : Expr) :
    (∀ n steps, (∃ budget trace s,
        (Engine.new rules configuration).runWithin budget e = .done trace s ∧
          trace.expression = n ∧ trace.steps = steps) ↔
      ∃ rounds, (Engine.new rules configuration).rewriteLeftmost rounds e =
        some (steps, .ok n)) ∧
    (∀ error steps, (∃ budget s,
        (Engine.new rules configuration).runWithin budget e = .failed error s ∧
          s.steps = steps) ↔
      ∃ rounds, (Engine.new rules configuration).rewriteLeftmost rounds e =
        some (steps, .error error)) ∧
    (∀ rounds rounds' result result',
      (Engine.new rules configuration).rewriteLeftmost rounds e = some result →
      (Engine.new rules configuration).rewriteLeftmost rounds' e = some result' →
      result = result') := by
  refine ⟨fun n steps => ?_, fun error steps => ?_, ?_⟩
  · rw [exists_runWithin_done_iff hoff]
    constructor
    · intro h
      obtain ⟨least, hleast⟩ := h.rewrites.rewriteLeftmost_eq
      exact ⟨least, hleast least (Nat.le_refl _)⟩
    · rintro ⟨rounds, hrounds⟩
      exact (rewrites_of_rewriteLeftmost hrounds).derivation
  · rw [exists_runWithin_failed_iff hoff]
    constructor
    · intro h
      obtain ⟨least, hleast⟩ := h.rewrites.rewriteLeftmost_eq
      exact ⟨least, hleast least (Nat.le_refl _)⟩
    · rintro ⟨rounds, hrounds⟩
      exact (rewrites_of_rewriteLeftmost hrounds).derivation
  · intro rounds rounds' result result' h h'
    obtain ⟨least, hleast⟩ := (rewrites_of_rewriteLeftmost h).rewriteLeftmost_eq
    obtain ⟨least', hleast'⟩ := (rewrites_of_rewriteLeftmost h').rewriteLeftmost_eq
    have hmore := hleast (least + least') (Nat.le_add_right _ _)
    rw [hleast' (least + least') (Nat.le_add_left _ _)] at hmore
    exact (Option.some.inj hmore).symm

/-- Two renamings below a node that a third rule fails on: the engine takes the three steps of the
plain strategy and fails in the last. -/
theorem engine_is_leftmost_innermost_fail :
    ∃ budget s, (Engine.new [Tailored.rename "Rename" .one "x" "y", Tailored.swap "Swap" .two .sin]
        { loopDetection := false }).runWithin budget
          (.mul (.neg (.var "x")) (.sin (.var "x"))) =
        .failed (.misuse "Swap" (.sin (.var "y"))) s ∧
      s.steps = [⟨[0, 0], 1, "Rename"⟩, ⟨[1, 0], 1, "Rename"⟩, ⟨[1], 0, "Swap"⟩] :=
  ((engine_is_leftmost_innermost
    [Tailored.rename "Rename" .one "x" "y", Tailored.swap "Swap" .two .sin]
    { loopDetection := false } rfl (.mul (.neg (.var "x")) (.sin (.var "x")))).2.1 _ _).mpr
    ⟨3, rfl⟩

end Engine

end SymbolicCalculus
