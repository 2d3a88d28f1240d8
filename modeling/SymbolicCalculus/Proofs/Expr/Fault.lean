import SymbolicCalculus.Proofs.Expr.Structure
import SymbolicCalculus.Proofs.Expr.Visits

/-! # Faults of an expression

A node is faulty if no operation is defined for it: variables, uncomputed derivatives, and nodes
with a wrong number of operands. Evaluation fails exactly on the expressions with a faulty node, and
it reports the first one that a fold comes to. So the failure of an operand hides that of the node
above it and those further to the right.
-/
namespace SymbolicCalculus.Expr

def IsFaulty (u : Expr) : Prop := u.kind.isSymbol = true ∨ u.operands.length ≠ u.kind.arity

/-- The path leads to a faulty node, and none that a fold comes to before it is faulty. -/
structure IsFirstFault (e : Expr) (path : List Nat) (u : Expr) : Prop where
  found : e.at? path = some u
  faulty : u.IsFaulty
  first : ∀ path' v, ComesBefore path' path → e.at? path' = some v → ¬ v.IsFaulty

theorem IsFirstFault.operand {kind : Kind} {front back : List Expr} {u w : Expr} {path : List Nat}
    (h : u.IsFirstFault path w) (hfront : ∀ v ∈ front, v.Everywhere (¬ ·.IsFaulty)) :
    (node kind (front ++ u :: back)).IsFirstFault (front.length :: path) w where
  found := by simpa [at?_node] using h.found
  faulty := h.faulty
  first := by
    intro path' v hbefore hv
    cases path' with
    | nil => exact hbefore.elim
    | cons i path' =>
      rw [at?_node] at hv
      rcases hbefore with hlt | ⟨rfl, hbefore⟩
      · rw [List.getElem?_append_left hlt] at hv
        obtain ⟨x, hx, hv⟩ := Option.bind_eq_some_iff.mp hv
        exact hfront x (List.mem_of_getElem? hx) path' v hv
      · rw [List.getElem?_append_right (Nat.le_refl _), Nat.sub_self] at hv
        exact h.first path' v hbefore hv

theorem IsFaulty.isFirstFault {kind : Kind} {operands : List Expr}
    (h : (node kind operands).IsFaulty) (hoperands : ∀ v ∈ operands, v.Everywhere (¬ ·.IsFaulty)) :
    (node kind operands).IsFirstFault [] (node kind operands) where
  found := rfl
  faulty := h
  first := by
    intro path v hbefore hv
    cases path with
    | nil => exact hbefore.elim
    | cons i path =>
      rw [at?_node] at hv
      obtain ⟨x, hx, hv⟩ := Option.bind_eq_some_iff.mp hv
      exact hoperands x (List.mem_of_getElem? hx) path v hv

/-- No operation is defined for symbols, or on a wrong number of values. -/
theorem operate_eq_error {kind : Kind} {values : List Binary64}
    (h : kind.isSymbol = true ∨ values.length ≠ kind.arity) :
    operate kind values = .error (.unsupported kind) := by
  unfold operate
  split
  case h_13 => rfl
  all_goals simp [Kind.isSymbol, Kind.arity] at h

theorem exists_of_collect_error {es : List Expr} {error : Error}
    (h : collect (es.map evaluate) = .error error) :
    ∃ front u back, es = front ++ u :: back ∧ (∀ v ∈ front, ∃ x, v.evaluate = .ok x) ∧
      u.evaluate = .error error := by
  induction es with
  | nil => cases h
  | cons e es ih =>
    rw [List.map_cons] at h
    cases he : e.evaluate with
    | error failure =>
      rw [he, collect] at h
      cases h
      exact ⟨[], e, es, rfl, by simp, he⟩
    | ok x =>
      rw [he, collect] at h
      cases hes : collect (es.map evaluate) with
      | ok values => simp [hes] at h
      | error failure =>
        simp only [hes, Except.error.injEq] at h
        subst h
        obtain ⟨front, u, back, rfl, hfront, hu⟩ := ih hes
        refine ⟨e :: front, u, back, rfl, ?_, hu⟩
        rw [List.forall_mem_cons]
        exact ⟨⟨x, he⟩, hfront⟩

theorem forall_of_collect_ok {es : List Expr} {values : List Binary64}
    (h : collect (es.map evaluate) = .ok values) :
    values.length = es.length ∧ ∀ u ∈ es, ∃ x, u.evaluate = .ok x := by
  induction es generalizing values with
  | nil =>
    cases h
    simp
  | cons e es ih =>
    rw [List.map_cons] at h
    cases he : e.evaluate with
    | error failure => simp [he, collect] at h
    | ok x =>
      rw [he, collect] at h
      cases hes : collect (es.map evaluate) with
      | error failure => simp [hes] at h
      | ok later =>
        simp only [hes, Except.ok.injEq] at h
        subst h
        rw [List.forall_mem_cons]
        exact ⟨by simp [(ih hes).1], ⟨x, he⟩, (ih hes).2⟩

/-- An expression without faults has a value; of any other the first fault is reported. -/
theorem evaluate_eq_ok_or_error (e : Expr) :
    (∃ x, e.evaluate = .ok x) ∧ e.Everywhere (¬ ·.IsFaulty) ∨
      ∃ path u, e.evaluate = .error (.unsupported u.kind) ∧ e.IsFirstFault path u := by
  induction e using operandInduction with
  | node kind operands ih =>
    have hfree : ∀ v ∈ operands, (∃ x, v.evaluate = .ok x) → v.Everywhere (¬ ·.IsFaulty) := by
      rintro v hv ⟨x, hx⟩
      rcases ih v hv with ⟨_, hv⟩ | ⟨path, u, hu, _⟩
      · exact hv
      · rw [hx] at hu
        cases hu
    rw [evaluate_node]
    cases hcollect : collect (operands.map evaluate) with
    | error error =>
      -- The operands in front of the one that failed have values, so they are free of faults.
      obtain ⟨front, u, back, rfl, hfront, hu⟩ := exists_of_collect_error hcollect
      rcases ih u (by simp) with ⟨⟨x, hx⟩, _⟩ | ⟨path, w, hw, hfirst⟩
      · rw [hx] at hu
        cases hu
      · rw [hw] at hu
        cases hu
        exact .inr ⟨front.length :: path, w, rfl,
          hfirst.operand fun v hv => hfree v (by simp [hv]) (hfront v hv)⟩
    | ok values =>
      obtain ⟨hlength, hvalues⟩ := forall_of_collect_ok hcollect
      have hoperands := fun v hv => hfree v hv (hvalues v hv)
      by_cases hfaulty : (node kind operands).IsFaulty
      · have hoperate : operate kind values = .error (.unsupported kind) := by
          apply operate_eq_error
          rw [hlength]
          exact hfaulty
        exact .inr ⟨[], node kind operands, hoperate, hfaulty.isFirstFault hoperands⟩
      · have hnode := hfaulty
        rw [IsFaulty, not_or, Bool.not_eq_true, not_not] at hnode
        exact .inl ⟨operate_eq_ok hnode.1 (hlength.trans hnode.2),
          everywhere_node_iff.mpr ⟨hfaulty, hoperands⟩⟩

theorem evaluate_eq_ok_iff {e : Expr} :
    (∃ x, e.evaluate = .ok x) ↔ e.Everywhere (¬ ·.IsFaulty) := by
  constructor
  · rintro ⟨x, hx⟩
    rcases evaluate_eq_ok_or_error e with ⟨_, hfree⟩ | ⟨path, u, hu, _⟩
    · exact hfree
    · rw [hx] at hu
      cases hu
  · intro hfree
    rcases evaluate_eq_ok_or_error e with ⟨hvalue, _⟩ | ⟨path, u, _, hfirst⟩
    · exact hvalue
    · exact absurd hfirst.faulty (hfree path u hfirst.found)

/-- Faults in the number of operands apart, the faults are the variables and derivatives. -/
theorem WellFormed.evaluate_eq_ok_iff {e : Expr} (he : e.WellFormed) :
    (∃ x, e.evaluate = .ok x) ↔ e.isOpen = false := by
  constructor
  · intro hvalue
    rw [isOpen_eq_false_iff]
    intro path u hu
    have hnode : ¬ u.IsFaulty := Expr.evaluate_eq_ok_iff.mp hvalue path u hu
    rw [IsFaulty, not_or, Bool.not_eq_true] at hnode
    exact hnode.1
  · exact he.evaluate_eq_ok

/-- Evaluation fails exactly on the expressions with a faulty node, whatever the number of operands
in their nodes, and reports the kind of the first one in the order of a fold. On well-formed
expressions it succeeds exactly if there is no variable and no derivative. -/
theorem evaluation_reports_first_fault (e : Expr) :
    ((∃ error, e.evaluate = .error error) ↔ ∃ path u, e.at? path = some u ∧ u.IsFaulty) ∧
    (∀ error, e.evaluate = .error error → ∃ path u, e.IsFirstFault path u ∧
      error = .unsupported u.kind ∧
      error.message? = some ("Can not evaluate expressions containing '" ++ u.kind.name ++ "'")) ∧
    (e.WellFormed → ((∃ x, e.evaluate = .ok x) ↔ e.isOpen = false)) := by
  have hreport : ∀ error, e.evaluate = .error error →
      ∃ path u, e.IsFirstFault path u ∧ error = .unsupported u.kind := by
    intro error herror
    rcases evaluate_eq_ok_or_error e with ⟨⟨x, hx⟩, _⟩ | ⟨path, u, hu, hfirst⟩
    · rw [hx] at herror
      cases herror
    · rw [hu] at herror
      cases herror
      exact ⟨path, u, hfirst, rfl⟩
  refine ⟨⟨?_, ?_⟩, ?_, WellFormed.evaluate_eq_ok_iff⟩
  · rintro ⟨error, herror⟩
    obtain ⟨path, u, hfirst, _⟩ := hreport error herror
    exact ⟨path, u, hfirst.found, hfirst.faulty⟩
  · rintro ⟨path, u, hu, hfaulty⟩
    cases hvalue : e.evaluate with
    | error error => exact ⟨error, rfl⟩
    | ok x => exact absurd hfaulty (evaluate_eq_ok_iff.mp ⟨x, hvalue⟩ path u hu)
  · intro error herror
    obtain ⟨path, u, hfirst, rfl⟩ := hreport error herror
    exact ⟨path, u, hfirst, rfl, rfl⟩

/-- A sum of one operand comes before the variable and the derivative to its right, and before the
sine of two operands above it. A well-formed quotient by zero has a value. -/
theorem evaluation_reports_first_fault_sum :
    (∃ e error, e = node .sin [node .add [real .one], diff "x" (var "x")] ∧
      e.evaluate = .error error ∧ (∃ path u, e.IsFirstFault path u ∧ error = .unsupported u.kind) ∧
      error.message? = some "Can not evaluate expressions containing 'Add'") ∧
    ∃ e, e = div (real .one) (real .zero) ∧ e.WellFormed ∧ e.isOpen = false ∧
      ∃ x, e.evaluate = .ok x := by
  have herror : (node .sin [node .add [real .one], diff "x" (var "x")]).evaluate =
      .error (.unsupported .add) := by
    simp [evaluate_node, collect, operate]
  obtain ⟨path, u, hfirst, hkind, _⟩ := (evaluation_reports_first_fault _).2.1 _ herror
  have hquotient : (div (real .one) (real .zero)).WellFormed := by
    simp [WellFormed, AllWellFormed, Kind.arity]
  have hclosed : (div (real .one) (real .zero)).isOpen = false := by
    simp [isOpen_node, Kind.isSymbol]
  exact ⟨⟨_, _, rfl, herror, ⟨path, u, hfirst, hkind⟩, rfl⟩, _, rfl, hquotient, hclosed,
    ((evaluation_reports_first_fault _).2.2 hquotient).mpr hclosed⟩

end SymbolicCalculus.Expr
