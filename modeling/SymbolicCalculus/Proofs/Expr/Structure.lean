import Mathlib.Algebra.GroupWithZero.Nat
import SymbolicCalculus.Expr.Evaluate
import SymbolicCalculus.Proofs.Expr.Position

/-! # The structure of well-formed expressions

A well-formed node has no operand, one operand or two. Folds measure an expression: its symbols,
which are the variables and derivatives in it, and its weight, which counts the nodes and a power
fourfold. Its depth counts the levels. An expression without symbols has a value.
-/
namespace SymbolicCalculus.Expr

theorem allWellFormed_iff {es : List Expr} : AllWellFormed es ↔ ∀ u ∈ es, u.WellFormed := by
  induction es with
  | nil => simp [AllWellFormed]
  | cons e es ih => simp [AllWellFormed, ih]

theorem wellFormed_node_iff {kind : Kind} {operands : List Expr} :
    (node kind operands).WellFormed ↔
      operands.length = kind.arity ∧ ∀ u ∈ operands, u.WellFormed := by
  rw [WellFormed, allWellFormed_iff]

theorem wellFormed_unary_iff {kind : Kind} {u : Expr} :
    (node kind [u]).WellFormed ↔ kind.arity = 1 ∧ u.WellFormed := by
  simp [WellFormed, AllWellFormed, eq_comm]

theorem wellFormed_binary_iff {kind : Kind} {u v : Expr} :
    (node kind [u, v]).WellFormed ↔ kind.arity = 2 ∧ u.WellFormed ∧ v.WellFormed := by
  simp [WellFormed, AllWellFormed, eq_comm]

theorem wellFormed_real (x : Binary64) : (real x).WellFormed := by
  simp [WellFormed, AllWellFormed, Kind.arity]

theorem WellFormed.operands_singleton {kind : Kind} {operands : List Expr}
    (h : (node kind operands).WellFormed) (hkind : kind.arity = 1) :
    ∃ u, operands = [u] ∧ u.WellFormed := by
  obtain ⟨hlength, hoperands⟩ := wellFormed_node_iff.mp h
  obtain ⟨u, rfl⟩ := List.length_eq_one_iff.mp (hlength.trans hkind)
  exact ⟨u, rfl, hoperands u (List.mem_singleton_self u)⟩

theorem WellFormed.operands_pair {kind : Kind} {operands : List Expr}
    (h : (node kind operands).WellFormed) (hkind : kind.arity = 2) :
    ∃ u v, operands = [u, v] ∧ u.WellFormed ∧ v.WellFormed := by
  obtain ⟨hlength, hoperands⟩ := wellFormed_node_iff.mp h
  match operands, hlength.trans hkind, hoperands with
  | [u, v], _, hoperands => exact ⟨u, v, rfl, hoperands u (by simp), hoperands v (by simp)⟩

theorem WellFormed.operands_nil {kind : Kind} {operands : List Expr}
    (h : (node kind operands).WellFormed) (hkind : kind.arity = 0) : operands = [] := by
  obtain ⟨hlength, _⟩ := wellFormed_node_iff.mp h
  exact List.eq_nil_of_length_eq_zero (hlength.trans hkind)

theorem pair?_eq_some_iff {e u v : Expr} : e.pair? = some (u, v) ↔ e = node e.kind [u, v] := by
  constructor
  · intro h
    unfold pair? at h
    split at h
    · cases h
      rfl
    · cases h
  · intro h
    rw [h]
    rfl

end SymbolicCalculus.Expr

namespace SymbolicCalculus

def Kind.isSymbol : Kind → Bool
  | .var _ | .diff _ => true
  | _ => false

namespace Expr

def symbols (e : Expr) : List Kind :=
  e.fold fun e below => (if e.kind.isSymbol then [e.kind] else []) ++ below.flatten

theorem symbols_node (kind : Kind) (operands : List Expr) :
    (node kind operands).symbols =
      (if kind.isSymbol then [kind] else []) ++ (operands.map symbols).flatten := by
  rw [symbols, fold_node]
  rfl

/-- The number of nodes, where a power counts like the exponential it can turn into. -/
def weight (e : Expr) : Nat := e.fold fun e below => below.sum + if e.kind = .pow then 4 else 1

theorem weight_node (kind : Kind) (operands : List Expr) :
    (node kind operands).weight = (operands.map weight).sum + if kind = .pow then 4 else 1 := by
  rw [weight, fold_node]
  rfl

theorem weight_pos (e : Expr) : 0 < e.weight := by
  obtain ⟨kind, operands⟩ := e
  rw [weight_node]
  split <;> omega

theorem weight_real (x : Binary64) : (real x).weight = 1 := by
  simp [weight_node]

theorem weight_lt_node (kind : Kind) {operands : List Expr} {u : Expr} (hu : u ∈ operands) :
    u.weight < (node kind operands).weight := by
  obtain ⟨front, back, rfl⟩ := List.append_of_mem hu
  rw [weight_node, List.map_append, List.map_cons, List.sum_append_nat, List.sum_cons]
  split <;> omega

/-- A power outweighs the exponential that it can turn into. -/
theorem weight_exponential_lt (b n : Expr) : (exp (mul b (log n))).weight < (pow b n).weight := by
  simp only [weight_node, List.map_cons, List.map_nil, List.sum_cons, List.sum_nil, reduceCtorEq,
    if_false, if_true]
  omega

theorem depth_node (kind : Kind) (operands : List Expr) :
    (node kind operands).depth = (operands.map depth).foldl max 0 + 1 := by
  rw [depth, fold_node]
  rfl

theorem depth_node_le_iff {kind : Kind} {operands : List Expr} {bound : Nat} :
    (node kind operands).depth ≤ bound + 1 ↔ ∀ u ∈ operands, u.depth ≤ bound := by
  have hmax (depths : List Nat) (least : Nat) :
      depths.foldl max least ≤ bound ↔ least ≤ bound ∧ ∀ d ∈ depths, d ≤ bound := by
    induction depths generalizing least with
    | nil => simp
    | cons d depths ih =>
      simp only [List.foldl_cons, ih, Nat.max_le, List.forall_mem_cons, and_assoc]
  rw [depth_node, Nat.add_le_add_iff_right, hmax]
  simp

theorem isOpen_node (kind : Kind) (operands : List Expr) :
    (node kind operands).isOpen = (operands.any isOpen || kind.isSymbol) := by
  rw [isOpen, fold_node, List.any_map]
  cases kind <;> rfl

theorem isOpen_node_eq_false_iff {kind : Kind} {operands : List Expr} :
    (node kind operands).isOpen = false ↔
      (∀ u ∈ operands, u.isOpen = false) ∧ kind.isSymbol = false := by
  simp [isOpen_node]

def IsConstant (e : Expr) : Prop := e.Everywhere (·.kind.isSymbol = false)

theorem isOpen_eq_false_iff {e : Expr} : e.isOpen = false ↔ e.IsConstant := by
  induction e using operandInduction with
  | node kind operands ih =>
    rw [isOpen_node_eq_false_iff, IsConstant, everywhere_node_iff, and_comm]
    exact and_congr Iff.rfl (forall₂_congr ih)

theorem mentions_node (symbol : Option String) (kind : Kind) (operands : List Expr) :
    (node kind operands).mentions symbol = (operands.any (mentions symbol) ||
      match (node kind operands).variableName?, symbol with
      | some _, none => true
      | some name, some symbol => name == symbol
      | none, _ => false) := by
  rw [mentions, fold_node, List.any_map]
  rfl

theorem mentions_iff {x : String} {e : Expr} :
    e.mentions (some x) = true ↔ .var x ∈ e.symbols := by
  induction e using operandInduction with
  | node kind operands ih =>
    have hoperands : operands.any (mentions (some x)) = true ↔
        .var x ∈ (operands.map symbols).flatten := by
      simp only [List.any_eq_true, List.mem_flatten, List.mem_map, exists_exists_and_eq_and]
      exact exists_congr fun u => and_congr_right (ih u)
    rw [mentions_node, symbols_node, Bool.or_eq_true, hoperands, List.mem_append, or_comm]
    apply or_congr_left
    cases kind with
    | var name => simp [variableName?, Expr.kind, Kind.isSymbol, @eq_comm _ name]
    | real | integer | negate | sin | cos | exp | log | diff | add | sub | mul | div | pow =>
      simp [variableName?, Expr.kind, Kind.isSymbol]

theorem mentions_eq_false_iff {x : String} {e : Expr} :
    e.mentions (some x) = false ↔ .var x ∉ e.symbols := by
  rw [← mentions_iff, Bool.not_eq_true]

theorem evaluate_node (kind : Kind) (operands : List Expr) :
    (node kind operands).evaluate =
      match collect (operands.map evaluate) with
      | .ok values => operate kind values
      | .error e => .error e := by
  rw [evaluate, fold_node]
  rfl

theorem collect_eq_ok {es : List Expr} (h : ∀ u ∈ es, ∃ x, u.evaluate = .ok x) :
    ∃ values, collect (es.map evaluate) = .ok values ∧ values.length = es.length := by
  induction es with
  | nil => exact ⟨[], rfl, rfl⟩
  | cons e es ih =>
    rw [List.forall_mem_cons] at h
    obtain ⟨⟨x, hx⟩, hes⟩ := h
    obtain ⟨values, hvalues, hlength⟩ := ih hes
    exact ⟨x :: values, by simp [collect, hx, hvalues], by simp [hlength]⟩

/-- Every kind but the symbols has an operation on as many values as it expects. -/
theorem operate_eq_ok {kind : Kind} {values : List Binary64} (hkind : kind.isSymbol = false)
    (hlength : values.length = kind.arity) : ∃ x, operate kind values = .ok x := by
  cases kind with
  | var _ | diff _ => simp [Kind.isSymbol] at hkind
  | real _ | integer _ =>
    obtain rfl := List.eq_nil_of_length_eq_zero hlength
    exact ⟨_, rfl⟩
  | negate | sin | cos | exp | log =>
    obtain ⟨x, rfl⟩ := List.length_eq_one_iff.mp hlength
    exact ⟨_, rfl⟩
  | add | sub | mul | div | pow =>
    match values, (hlength : values.length = 2) with
    | [x, y], _ => exact ⟨_, rfl⟩

theorem WellFormed.evaluate_eq_ok {e : Expr} (h : e.WellFormed) (hclosed : e.isOpen = false) :
    ∃ x, e.evaluate = .ok x := by
  induction e using operandInduction with
  | node kind operands ih =>
    obtain ⟨hlength, hoperands⟩ := wellFormed_node_iff.mp h
    obtain ⟨hbelow, hkind⟩ := isOpen_node_eq_false_iff.mp hclosed
    obtain ⟨values, hvalues, hcount⟩ := collect_eq_ok fun u hu =>
      ih u hu (hoperands u hu) (hbelow u hu)
    obtain ⟨x, hx⟩ := operate_eq_ok hkind (hcount.trans hlength)
    rw [evaluate_node, hvalues]
    exact ⟨x, hx⟩

theorem isNumber_arity {kind : Kind} {operands : List Expr}
    (h : (node kind operands).isNumber = true) : kind.arity = 0 := by
  cases kind <;> simp_all [isNumber, number?, Expr.kind, Kind.arity]

theorem WellFormed.literal_of_isNumber {e : Expr} (he : e.WellFormed) (h : e.isNumber = true) :
    (∃ x, e = .real x) ∨ ∃ i, e = .integer i := by
  obtain ⟨kind, operands⟩ := e
  obtain rfl := he.operands_nil (isNumber_arity h)
  cases kind with
  | real x => exact .inl ⟨x, rfl⟩
  | integer i => exact .inr ⟨i, rfl⟩
  | var | negate | sin | cos | exp | log | diff | add | sub | mul | div | pow => cases h

theorem WellFormed.eq_var {e : Expr} {symbol : String} (he : e.WellFormed)
    (h : e.variableName? = some symbol) : e = .var symbol := by
  obtain ⟨kind, operands⟩ := e
  cases kind with
  | var name =>
    cases h
    obtain rfl := he.operands_nil rfl
    rfl
  | real | integer | negate | sin | cos | exp | log | diff | add | sub | mul | div | pow => cases h

theorem WellFormed.isOpen_of_isNumber {e : Expr} (h : e.WellFormed) (hnumber : e.isNumber = true) :
    e.isOpen = false := by
  obtain ⟨kind, operands⟩ := e
  rw [h.operands_nil (isNumber_arity hnumber), isOpen_node]
  cases kind <;> simp_all [isNumber, number?, Expr.kind, Kind.isSymbol]

end Expr

end SymbolicCalculus
