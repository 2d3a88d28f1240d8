import SymbolicCalculus.Expr.Basic

/-! # Positions in an expression

A path of operand positions leads to a node. An expression can be put in the place of that node, and
the rest of the tree stays as it is.
-/
namespace SymbolicCalculus.Expr

/-- Induction over an expression, with the statement for all operands of a node at hand. -/
@[elab_as_elim]
theorem operandInduction {motive : Expr → Prop}
    (node : ∀ kind operands, (∀ u ∈ operands, motive u) → motive (.node kind operands))
    (e : Expr) : motive e :=
  @Expr.rec motive (fun es => ∀ u ∈ es, motive u) node (by simp)
    (fun _ _ he hes => List.forall_mem_cons.mpr ⟨he, hes⟩) e

theorem at?_node (kind : Kind) (operands : List Expr) (i : Nat) (path : List Nat) :
    (node kind operands).at? (i :: path) = operands[i]?.bind (·.at? path) := rfl

theorem at?_concat (e : Expr) (path : List Nat) (i : Nat) :
    e.at? (path ++ [i]) = (e.at? path).bind (·.operands[i]?) := by
  induction path generalizing e with
  | nil => simp [at?]
  | cons j path ih =>
    simp only [List.cons_append, at?, ih]
    cases e.operands[j]? <;> simp

def Everywhere (P : Expr → Prop) (e : Expr) : Prop := ∀ path u, e.at? path = some u → P u

theorem everywhere_node_iff {P : Expr → Prop} {kind : Kind} {operands : List Expr} :
    (node kind operands).Everywhere P ↔
      P (node kind operands) ∧ ∀ u ∈ operands, u.Everywhere P := by
  constructor
  · intro h
    refine ⟨h [] _ rfl, fun u hu path w hw => ?_⟩
    obtain ⟨i, hi⟩ := List.mem_iff_getElem?.mp hu
    exact h (i :: path) w (by rw [at?_node, hi]; exact hw)
  · rintro ⟨hroot, hoperands⟩ path w hw
    cases path with
    | nil =>
      simp only [at?, Option.some.injEq] at hw
      exact hw ▸ hroot
    | cons i path =>
      rw [at?_node, Option.bind_eq_some_iff] at hw
      obtain ⟨u, hu, hw⟩ := hw
      exact hoperands u (List.mem_of_getElem? hu) path w hw

theorem everywhere_of_inherited {P Q : Expr → Prop}
    (hQ : ∀ kind operands, Q (node kind operands) → ∀ u ∈ operands, Q u) (hP : ∀ u, Q u → P u)
    {e : Expr} (he : Q e) : e.Everywhere P := by
  induction e using operandInduction with
  | node kind operands ih =>
    exact everywhere_node_iff.mpr ⟨hP _ he, fun u hu => ih u hu (hQ kind operands he u hu)⟩

def put (v : Expr) : Expr → List Nat → Expr
  | _, [] => v
  | node kind operands, i :: path => node kind (operands.modify i fun u => put v u path)

theorem at?_put {e u v : Expr} {path : List Nat} (h : e.at? path = some u) :
    (put v e path).at? path = some v := by
  induction path generalizing e with
  | nil => simp [put, at?]
  | cons i path ih =>
    obtain ⟨kind, operands⟩ := e
    simp only [at?_node, Option.bind_eq_some_iff] at h
    obtain ⟨w, hw, hu⟩ := h
    simp [put, at?_node, hw, ih hu]

theorem put_put (v w e : Expr) (path : List Nat) : put w (put v e path) path = put w e path := by
  induction path generalizing e with
  | nil => simp [put]
  | cons i path ih =>
    obtain ⟨kind, operands⟩ := e
    simp only [put, List.modify_modify_eq]
    congr 2
    funext u
    exact ih u

theorem put_self {e u : Expr} {path : List Nat} (h : e.at? path = some u) : put u e path = e := by
  induction path generalizing e with
  | nil => simpa [put, at?] using h.symm
  | cons i path ih =>
    obtain ⟨kind, operands⟩ := e
    simp only [at?_node, Option.bind_eq_some_iff] at h
    obtain ⟨w, hw, hu⟩ := h
    simp only [put, node.injEq, true_and]
    apply List.ext_getElem?
    intro j
    rw [List.getElem?_modify]
    split
    · rename_i hij
      simp [← hij, hw, ih hu]
    · simp

theorem put_concat {e u v : Expr} {path : List Nat} {kind : Kind} {front back : List Expr}
    (h : e.at? path = some (node kind (front ++ u :: back))) :
    put v e (path ++ [front.length]) = put (node kind (front ++ v :: back)) e path := by
  induction path generalizing e with
  | nil =>
    simp only [at?, Option.some.injEq] at h
    subst h
    simp [put, List.modify_eq_set]
  | cons i path ih =>
    obtain ⟨kind', operands⟩ := e
    simp only [at?_node, Option.bind_eq_some_iff] at h
    obtain ⟨w, hw, hu⟩ := h
    simp only [List.cons_append, put, node.injEq, true_and]
    apply List.ext_getElem?
    intro j
    rw [List.getElem?_modify, List.getElem?_modify]
    split
    · rename_i hij
      simp [← hij, hw, ih hu]
    · rfl

def label (e : Expr) : Kind × Nat := (e.kind, e.operands.length)

/-- Whatever is put in a place, all nodes outside of it stay. -/
theorem label_at?_put {e v : Expr} {path path' : List Nat} (h : ¬ path <+: path') :
    ((put v e path).at? path').map label = (e.at? path').map label := by
  induction path generalizing e path' with
  | nil => exact absurd List.nil_prefix h
  | cons i path ih =>
    obtain ⟨kind, operands⟩ := e
    cases path' with
    | nil => simp [put, at?, label, Expr.kind, Expr.operands]
    | cons j path' =>
      rw [put, at?_node, at?_node, List.getElem?_modify]
      by_cases hij : i = j
      · subst hij
        have hbelow (u : Expr) : ((put v u path).at? path').map label = (u.at? path').map label :=
          ih fun hpath => h (List.cons_prefix_cons.mpr ⟨rfl, hpath⟩)
        cases operands[i]? with
        | none => rfl
        | some u => simpa using hbelow u
      · simp [hij]

end SymbolicCalculus.Expr
