import SymbolicCalculus.Proofs.Expr.Structure
import SymbolicCalculus.Proofs.Number.Sign

/-! # Literals with a sign

A negative literal carries its sign within its value. `signsApart` makes the sign a node of its own:
`-2` becomes the negation of `2`, and nothing else in the tree changes.
-/
namespace SymbolicCalculus

/-- No node of this kind is a literal with a sign. -/
def Kind.Unsigned : Kind → Prop
  | .real value => value.isNegative = false
  | _ => True

theorem Kind.unsigned_or_negative (kind : Kind) :
    kind.Unsigned ∨ ∃ value, kind = .real value ∧ value.isNegative = true := by
  cases kind <;> simp [Unsigned]

theorem Kind.unsigned_of_arity {kind : Kind} (h : kind.arity ≠ 0) : kind.Unsigned := by
  cases kind <;> simp_all [arity, Unsigned]

theorem Kind.unsigned_neg {value : Binary64} (h : value.isNegative = true) :
    (Kind.real (-value)).Unsigned := by
  rw [Unsigned, Binary64.isNegative_neg, h]
  rfl

namespace Expr

def signApart (kind : Kind) (operands : List Expr) : Expr :=
  match kind with
  | .real value =>
    if value.isNegative then .neg (.node (.real (-value)) operands)
    else .node (.real value) operands
  | kind => .node kind operands

/-- The tree with the sign of every negative literal as a node of its own. -/
def signsApart (e : Expr) : Expr := e.fold fun e below => signApart e.kind below

section Node

variable {kind : Kind} {operands : List Expr}

theorem signsApart_node (kind : Kind) (operands : List Expr) :
    (node kind operands).signsApart = signApart kind (operands.map signsApart) :=
  fold_node _ kind operands

theorem signApart_of_unsigned (h : kind.Unsigned) (operands : List Expr) :
    signApart kind operands = .node kind operands := by
  cases kind with
  | real value => exact if_neg (by simpa [Kind.Unsigned] using h)
  | _ => rfl

theorem signApart_of_negative {value : Binary64} (h : value.isNegative = true)
    (operands : List Expr) :
    signApart (.real value) operands = .neg (.node (.real (-value)) operands) := if_pos h

end Node

/-- Only literals change. -/
theorem signsApart_eq_self_iff {e : Expr} :
    e.signsApart = e ↔ e.Everywhere (·.kind.Unsigned) := by
  induction e using operandInduction with
  | node kind operands ih =>
    have hmap : operands.map signsApart = operands ↔ ∀ u ∈ operands, u.signsApart = u := by
      simpa using List.map_inj_left (l := operands) (f := signsApart) (g := id)
    rw [signsApart_node, everywhere_node_iff]
    constructor
    · intro h
      rcases kind.unsigned_or_negative with hkind | ⟨value, rfl, hvalue⟩
      · rw [signApart_of_unsigned hkind, node.injEq, hmap] at h
        exact ⟨hkind, fun u hu => (ih u hu).mp (h.2 u hu)⟩
      · rw [signApart_of_negative hvalue] at h
        cases h
    · rintro ⟨hkind, hbelow⟩
      have hoperands := hmap.mpr fun u hu => (ih u hu).mpr (hbelow u hu)
      exact (signApart_of_unsigned hkind _).trans (by rw [hoperands, Expr.kind])

end Expr

end SymbolicCalculus
