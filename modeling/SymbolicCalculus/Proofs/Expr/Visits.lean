import Mathlib.Algebra.GroupWithZero.Nat
import SymbolicCalculus.Expr.Fold
import SymbolicCalculus.Proofs.Expr.Position

/-! # The visits of a fold

A fold calls its operation once for every node, operands before the node and from left to right, and
hands it what the operation returned for the node's own operands. Nodes are told apart by their
paths, because equal trees may stand in several places. The record of all calls says what was
visited, in which order and with which results.
-/
namespace SymbolicCalculus.Expr

universe u v

variable {β : Type u} {σ : Type v}

/-- Whether a fold comes to the node at the first path before the node at the second. Operands come
before the node above them, and what stands further left comes first. -/
def ComesBefore : List Nat → List Nat → Prop
  | [], _ => False
  | _ :: _, [] => True
  | i :: path, j :: path' => i < j ∨ i = j ∧ ComesBefore path path'

theorem not_comesBefore_self (path : List Nat) : ¬ ComesBefore path path := by
  induction path with
  | nil => exact id
  | cons i path ih => simp [ComesBefore, ih]

mutual

/-- The paths to all nodes, operands before the node and from left to right. -/
def paths : Expr → List (List Nat)
  | node _ operands => pathsFrom 0 operands ++ [[]]

def pathsFrom : Nat → List Expr → List (List Nat)
  | _, [] => []
  | i, e :: es => e.paths.map (i :: ·) ++ pathsFrom (i + 1) es

end

theorem mem_pathsFrom {i : Nat} {es : List Expr} {path : List Nat} :
    path ∈ pathsFrom i es ↔
      ∃ j rest u, path = (i + j) :: rest ∧ es[j]? = some u ∧ rest ∈ u.paths := by
  induction es generalizing i with
  | nil => simp [pathsFrom]
  | cons e es ih =>
    rw [pathsFrom, List.mem_append, List.mem_map, ih]
    constructor
    · rintro (⟨rest, hrest, rfl⟩ | ⟨j, rest, u, rfl, hu, hrest⟩)
      · exact ⟨0, rest, e, rfl, rfl, hrest⟩
      · exact ⟨j + 1, rest, u, by rw [Nat.add_right_comm, Nat.add_assoc], hu, hrest⟩
    · rintro ⟨j, rest, u, rfl, hu, hrest⟩
      cases j with
      | zero =>
        cases hu
        exact .inl ⟨rest, hrest, rfl⟩
      | succ j => exact .inr ⟨j, rest, u, by rw [Nat.add_right_comm, Nat.add_assoc], hu, hrest⟩

theorem mem_paths {e : Expr} {path : List Nat} : path ∈ e.paths ↔ (e.at? path).isSome := by
  induction e using operandInduction generalizing path with
  | node kind operands ih =>
    rw [paths, List.mem_append, mem_pathsFrom, List.mem_singleton]
    cases path with
    | nil => simp [at?]
    | cons i path =>
      rw [at?_node]
      simp only [Nat.zero_add, List.cons.injEq, reduceCtorEq, or_false]
      constructor
      · rintro ⟨j, rest, u, ⟨rfl, rfl⟩, hu, hrest⟩
        rw [hu, Option.bind_some]
        exact (ih u (List.mem_of_getElem? hu)).mp hrest
      · intro h
        cases hu : operands[i]? with
        | none => simp [hu] at h
        | some u =>
          rw [hu, Option.bind_some] at h
          exact ⟨i, path, u, ⟨rfl, rfl⟩, hu, (ih u (List.mem_of_getElem? hu)).mpr h⟩

mutual

theorem pairwise_paths (e : Expr) : e.paths.Pairwise ComesBefore := by
  match e with
  | node kind operands =>
    rw [paths, List.pairwise_append]
    refine ⟨pairwise_pathsFrom 0 operands, List.pairwise_singleton _ _, ?_⟩
    intro path hpath root hroot
    obtain ⟨j, rest, u, rfl, _⟩ := mem_pathsFrom.mp hpath
    rw [List.mem_singleton.mp hroot]
    trivial

theorem pairwise_pathsFrom (i : Nat) (es : List Expr) :
    (pathsFrom i es).Pairwise ComesBefore := by
  match es with
  | [] => exact List.Pairwise.nil
  | e :: es =>
    rw [pathsFrom, List.pairwise_append]
    refine ⟨?_, pairwise_pathsFrom (i + 1) es, ?_⟩
    · apply List.Pairwise.map (i :: ·) _ (pairwise_paths e)
      intro path path' h
      exact .inr ⟨rfl, h⟩
    · intro path hpath path' hpath'
      obtain ⟨rest, _, rfl⟩ := List.mem_map.mp hpath
      obtain ⟨j, rest', u, rfl, _⟩ := mem_pathsFrom.mp hpath'
      apply Or.inl
      omega

end

theorem nodup_paths (e : Expr) : e.paths.Nodup := by
  apply (pairwise_paths e).imp
  rintro path path' h rfl
  exact not_comesBefore_self path h

mutual

theorem length_paths (e : Expr) : e.paths.length = e.nodeCount := by
  match e with
  | node kind operands => simp [paths, nodeCount, length_pathsFrom 0 operands]

theorem length_pathsFrom (i : Nat) (es : List Expr) :
    (pathsFrom i es).length = nodeCounts es := by
  match es with
  | [] => rfl
  | e :: es => simp [pathsFrom, nodeCounts, length_paths e, length_pathsFrom (i + 1) es]

end

/-- A call of the operation: the node, the results handed over and the one returned. -/
structure Visit (β : Type u) where
  node : Expr
  below : List β
  result : β

def recording (combine : Expr → List β → σ → β × σ) (e : Expr) (below : List β)
    (s : σ × List (Visit β)) : β × σ × List (Visit β) :=
  let (b, later) := combine e below s.1
  (b, later, s.2 ++ [⟨e, below, b⟩])

/-- The visit of the node at a path, where `results` gives the result at each node. It is handed the
results at the node's own operands, in their order. -/
def visitAt? (results : List Nat → β) (e : Expr) (path : List Nat) : Option (Visit β) :=
  (e.at? path).map fun u =>
    ⟨u, u.operands.mapIdx fun i _ => results (path ++ [i]), results path⟩

theorem visitAt?_operand (results : List Nat → β) (kind : Kind) (front back : List Expr) (u : Expr)
    (path : List Nat) :
    (node kind (front ++ u :: back)).visitAt? results (front.length :: path) =
      u.visitAt? (fun rest => results (front.length :: rest)) path := by
  simp [visitAt?, at?_node]

/-- Only the results at and right below a node matter for its visit. -/
theorem visitAt?_congr {results results' : List Nat → β} {e : Expr} {path : List Nat}
    (h : ∀ rest, results (path ++ rest) = results' (path ++ rest)) :
    e.visitAt? results path = e.visitAt? results' path := by
  have hself := h []
  rw [List.append_nil] at hself
  simp only [visitAt?, h, hself]

/-- The results at all paths, from those inside the operand at position `i` and all others. -/
def splice (i : Nat) (inside others : List Nat → β) : List Nat → β
  | [] => others []
  | j :: path => if j = i then inside path else others (j :: path)

theorem splice_inside (i : Nat) (inside others : List Nat → β) (path : List Nat) :
    splice i inside others (i :: path) = inside path := by
  simp [splice]

theorem splice_other {i j : Nat} (h : i < j) (inside others : List Nat → β) (path : List Nat) :
    splice i inside others (j :: path) = others (j :: path) := by
  have hj : j ≠ i := by omega
  simp [splice, hj]

mutual

/-- The record of the fold by recursion holds one visit for each path, in their order. -/
theorem foldRec_recording (combine : Expr → List β → σ → β × σ) (e : Expr) (s : σ)
    (before : List (Visit β)) :
    ∃ results visits, foldRec (recording combine) e (s, before) =
        ((foldRec combine e s).1, (foldRec combine e s).2, before ++ visits) ∧
      results [] = (foldRec combine e s).1 ∧
      visits.map some = e.paths.map (e.visitAt? results) := by
  match e with
  | node kind operands =>
    obtain ⟨results, visits, hrun, hroot, hbelow, hvisits⟩ := foldRecAll_recording combine kind
      (foldRec combine (node kind operands) s).1 [] operands s before
    refine ⟨results, visits ++ [⟨node kind operands, (foldRecAll combine operands s).1,
      (foldRec combine (node kind operands) s).1⟩], ?_, hroot, ?_⟩
    · simp [foldRec, hrun, recording]
    · have hself : (node kind operands).visitAt? results [] = some ⟨node kind operands,
          (foldRecAll combine operands s).1, (foldRec combine (node kind operands) s).1⟩ := by
        simp [visitAt?, at?, Expr.operands, hbelow, hroot]
      rw [paths, List.map_append, List.map_append, hvisits, List.map_singleton, List.map_singleton,
        hself]
      rfl

-- The visits are those in the whole node, behind the operands in front. So their paths are the same
-- for all operands, and only the results of later operands are put beside those of the first.
theorem foldRecAll_recording (combine : Expr → List β → σ → β × σ) (kind : Kind) (root : β)
    (front es : List Expr) (s : σ) (before : List (Visit β)) :
    ∃ results visits, foldRecAll (recording combine) es (s, before) =
        ((foldRecAll combine es s).1, (foldRecAll combine es s).2, before ++ visits) ∧
      results [] = root ∧
      (foldRecAll combine es s).1 = es.mapIdx (fun i _ => results [front.length + i]) ∧
      visits.map some =
        (pathsFrom front.length es).map ((node kind (front ++ es)).visitAt? results) := by
  match es with
  | [] => exact ⟨fun _ => root, [], by simp [foldRecAll], rfl, rfl, rfl⟩
  | e :: es =>
    obtain ⟨inside, visits, hrun, hinside, hvisits⟩ := foldRec_recording combine e s before
    obtain ⟨others, visits', hrun', hroot, hbelow, hvisits'⟩ := foldRecAll_recording combine kind
      root (front ++ [e]) es (foldRec combine e s).2 (before ++ visits)
    rw [List.length_append, List.length_singleton] at hbelow hvisits'
    refine ⟨splice front.length inside others, visits ++ visits', ?_, hroot, ?_, ?_⟩
    · simp [foldRecAll, hrun, hrun']
    · have hothers (i : Nat) : splice front.length inside others [front.length + (i + 1)] =
          others [front.length + 1 + i] := by
        rw [splice_other (by omega), ← Nat.add_assoc, Nat.add_right_comm]
      rw [List.mapIdx_cons, Nat.add_zero, splice_inside, hinside]
      simp only [foldRecAll, hbelow, hothers]
    · have hfirst (path : List Nat) :
          (node kind (front ++ e :: es)).visitAt? (splice front.length inside others)
            (front.length :: path) = e.visitAt? inside path := by
        rw [visitAt?_operand]
        exact visitAt?_congr fun rest => splice_inside ..
      have hlater : ∀ path ∈ pathsFrom (front.length + 1) es,
          (node kind (front ++ e :: es)).visitAt? (splice front.length inside others) path =
            (node kind (front ++ [e] ++ es)).visitAt? others path := by
        intro path hpath
        obtain ⟨j, rest, u, rfl, _⟩ := mem_pathsFrom.mp hpath
        rw [List.append_assoc, List.singleton_append]
        exact visitAt?_congr fun _ => splice_other (by omega) ..
      rw [pathsFrom, List.map_append, List.map_append, List.map_map, hvisits, hvisits',
        List.map_congr_left hlater]
      congr 1
      exact (List.map_congr_left fun path _ => hfirst path).symm

end

theorem nodeCounts_eq_sum (es : List Expr) : nodeCounts es = (es.map nodeCount).sum := by
  induction es with
  | nil => rfl
  | cons e es ih => simp [nodeCounts, ih]

theorem fold_count (e : Expr) : (e.fold fun _ below => below.sum + 1) = e.size := by
  rw [size_eq_nodeCount]
  induction e using operandInduction with
  | node kind operands ih =>
    rw [fold_node, List.map_congr_left ih, nodeCount, nodeCounts_eq_sum]

/-- A fold is the recursion over the tree. It never runs short of results, ends with exactly one,
and returns what the recursion returns, from the same state and with the same state in the end. It
calls the operation once for each node of the tree, operands before the node and from left to right,
with the results at the node's own operands in their order. So counting nodes by a fold gives the
size. -/
theorem fold_visits_each_node_once (combine : Expr → List β → σ → β × σ) (e : Expr) (s : σ) :
    work combine [.enter e] [] s = some ([(foldRec combine e s).1], (foldRec combine e s).2) ∧
    foldState? combine e s = some (foldRec combine e s) ∧
    foldState combine e s = foldRec combine e s ∧
    (∃ results visits, foldState (recording combine) e (s, []) =
        ((foldRec combine e s).1, (foldRec combine e s).2, visits) ∧
      results [] = (foldRec combine e s).1 ∧
      visits.map some = e.paths.map (e.visitAt? results) ∧ visits.length = e.size) ∧
    e.paths.Nodup ∧ e.paths.Pairwise ComesBefore ∧
    (∀ path, path ∈ e.paths ↔ (e.at? path).isSome) ∧
    (e.fold fun _ below => below.sum + 1) = e.size := by
  obtain ⟨results, visits, hrun, hroot, hvisits⟩ := foldRec_recording combine e s []
  have hlength : visits.length = e.size := by
    rw [size_eq_nodeCount, ← length_paths, ← List.length_map some, hvisits, List.length_map]
  rw [List.nil_append] at hrun
  exact ⟨work_single combine e s, foldState?_eq_some combine e s, foldState_eq_foldRec combine e s,
    ⟨results, visits, (foldState_eq_foldRec _ e _).trans hrun, hroot, hvisits, hlength⟩,
    nodup_paths e, pairwise_paths e, fun _ => mem_paths, fold_count e⟩

end SymbolicCalculus.Expr
