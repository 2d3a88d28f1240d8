import SymbolicCalculus.Proofs.Expr.Position
import SymbolicCalculus.Proofs.Reduction.Ranking
import SymbolicCalculus.Proofs.Reduction.Settling

/-! # Innermost reduction

Without loop detection the engine reduces a node only when its operands are normal forms.
`Normalizes` describes this on expressions alone. An expression that has a normal form in this sense
is settled by the engine, which then returns that normal form.
-/
namespace SymbolicCalculus.Engine

variable {engine : Engine}

def contract? (engine : Engine) (e : Expr) : Option (Except Error Expr) :=
  (engine.redex? e).map fun redex => redex.ranked.rule.reduce e redex.fit

theorem contract?_eq_none_iff {e : Expr} : engine.contract? e = none ↔ engine.redex? e = none := by
  simp [contract?]

theorem exists_rule_of_contract? {e : Expr} {outcome : Except Error Expr}
    (h : engine.contract? e = some outcome) :
    ∃ rule fit, engine.Tries rule ∧ rule.fit? e = some fit ∧ rule.reduce e fit = outcome := by
  obtain ⟨redex, hredex, rfl⟩ := Option.map_eq_some_iff.mp h
  obtain ⟨front, back, hrules, hfit, _⟩ := redex?_eq_some_iff.mp hredex
  exact ⟨redex.ranked.rule, redex.fit, ⟨redex.ranked, by simp [hrules], rfl⟩, hfit, rfl⟩

theorem fit?_of_contract?_none {e : Expr} {rule : Rule} (h : engine.contract? e = none)
    (hrule : engine.Tries rule) : rule.fit? e = none := by
  obtain ⟨ranked, hmem, rfl⟩ := hrule
  exact redex?_eq_none_iff.mp (contract?_eq_none_iff.mp h) ranked hmem

inductive Normal (engine : Engine) : Expr → Prop
  | node {kind : Kind} {operands : List Expr} : (∀ u ∈ operands, Normal engine u) →
    engine.contract? (.node kind operands) = none → Normal engine (.node kind operands)

theorem normal_node_iff {kind : Kind} {operands : List Expr} :
    engine.Normal (.node kind operands) ↔
      (∀ u ∈ operands, engine.Normal u) ∧ engine.contract? (.node kind operands) = none := by
  constructor
  · rintro ⟨hoperands, hnone⟩
    exact ⟨hoperands, hnone⟩
  · rintro ⟨hoperands, hnone⟩
    exact .node hoperands hnone

theorem Normal.redex?_at {e u : Expr} (h : engine.Normal e) {path : List Nat}
    (hu : e.at? path = some u) : engine.redex? u = none := by
  induction path generalizing e with
  | nil =>
    obtain ⟨_, hnone⟩ := h
    simp only [Expr.at?, Option.some.injEq] at hu
    subst hu
    exact contract?_eq_none_iff.mp hnone
  | cons i path ih =>
    obtain ⟨hoperands, _⟩ := h
    simp only [Expr.at?_node, Option.bind_eq_some_iff] at hu
    obtain ⟨w, hw, hu⟩ := hu
    exact ih (hoperands w (List.mem_of_getElem? hw)) hu

theorem normal_of_everywhere {e : Expr} (h : e.Everywhere (engine.redex? · = none)) :
    engine.Normal e := by
  induction e using Expr.operandInduction with
  | node kind operands ih =>
    obtain ⟨hnone, hoperands⟩ := Expr.everywhere_node_iff.mp h
    exact .node (fun u hu => ih u hu (hoperands u hu)) (contract?_eq_none_iff.mpr hnone)

mutual

/-- Innermost reduction of `e` ends in a normal form. -/
inductive Normalizes (engine : Engine) : Expr → Expr → Prop
  | rest {kind : Kind} {es fs : List Expr} : NormalizesAll engine es fs →
    engine.contract? (.node kind fs) = none →
    Normalizes engine (.node kind es) (.node kind fs)
  | reduce {kind : Kind} {es fs : List Expr} {r n : Expr} : NormalizesAll engine es fs →
    engine.contract? (.node kind fs) = some (.ok r) → Normalizes engine r n →
    Normalizes engine (.node kind es) n

inductive NormalizesAll (engine : Engine) : List Expr → List Expr → Prop
  | nil : NormalizesAll engine [] []
  | cons {e n : Expr} {es ns : List Expr} : Normalizes engine e n → NormalizesAll engine es ns →
    NormalizesAll engine (e :: es) (n :: ns)

end

mutual

theorem Normalizes.normal {e n : Expr} (h : engine.Normalizes e n) : engine.Normal n := by
  match h with
  | .rest hall hnone => exact .node hall.normal hnone
  | .reduce _ _ hnext => exact hnext.normal

theorem NormalizesAll.normal {es ns : List Expr} (h : engine.NormalizesAll es ns) :
    ∀ n ∈ ns, engine.Normal n := by
  match h with
  | .nil => simp
  | .cons hfirst hlater =>
    rw [List.forall_mem_cons]
    exact ⟨hfirst.normal, hlater.normal⟩

end

theorem NormalizesAll.length_eq {es ns : List Expr} (h : engine.NormalizesAll es ns) :
    ns.length = es.length := by
  match h with
  | .nil => rfl
  | .cons _ hlater => simp [hlater.length_eq]

/-- What normal forms inherit from the expressions, all operands inherit. -/
theorem NormalizesAll.forall_mem {P Q : Expr → Prop} {es ns : List Expr}
    (h : engine.NormalizesAll es ns) (hPQ : ∀ {e n}, engine.Normalizes e n → P e → Q n)
    (hes : ∀ u ∈ es, P u) : ∀ n ∈ ns, Q n := by
  match h with
  | .nil => simp
  | .cons hfirst hlater =>
    rw [List.forall_mem_cons] at hes ⊢
    exact ⟨hPQ hfirst hes.1, hlater.forall_mem hPQ hes.2⟩

theorem normalizesAll_self {es : List Expr} (h : ∀ u ∈ es, engine.Normalizes u u) :
    engine.NormalizesAll es es := by
  induction es with
  | nil => exact .nil
  | cons e es ih =>
    rw [List.forall_mem_cons] at h
    exact .cons h.1 (ih h.2)

theorem Normal.normalizes {e : Expr} (h : engine.Normal e) : engine.Normalizes e e := by
  induction h with
  | node hoperands hnone ih => exact .rest (normalizesAll_self ih) hnone

/-- A node whose operands are normal forms is reduced at once. -/
theorem normalizes_of_contract? {kind : Kind} {es : List Expr} {r n : Expr}
    (hes : ∀ u ∈ es, engine.Normal u) (h : engine.contract? (.node kind es) = some (.ok r))
    (hr : engine.Normalizes r n) : engine.Normalizes (.node kind es) n :=
  .reduce (normalizesAll_self fun u hu => (hes u hu).normalizes) h hr

mutual

theorem Normalizes.eq_of_normal {e n : Expr} (h : engine.Normalizes e n) (he : engine.Normal e) :
    n = e := by
  match h with
  | .rest hall _ => rw [hall.eq_of_normal (normal_node_iff.mp he).1]
  | .reduce hall hsome _ =>
    obtain ⟨hoperands, hnone⟩ := normal_node_iff.mp he
    rw [hall.eq_of_normal hoperands, hnone] at hsome
    cases hsome

theorem NormalizesAll.eq_of_normal {es ns : List Expr} (h : engine.NormalizesAll es ns)
    (hes : ∀ u ∈ es, engine.Normal u) : ns = es := by
  match h with
  | .nil => rfl
  | .cons hfirst hlater =>
    rw [List.forall_mem_cons] at hes
    rw [hfirst.eq_of_normal hes.1, hlater.eq_of_normal hes.2]

end

mutual

theorem Normalizes.unique {e n m : Expr} (h : engine.Normalizes e n) (h' : engine.Normalizes e m) :
    m = n := by
  match h, h' with
  | .rest hall _, .rest hall' _ => rw [hall.unique hall']
  | .rest hall hnone, .reduce hall' hsome _ =>
    rw [hall.unique hall', hnone] at hsome
    cases hsome
  | .reduce hall hsome _, .rest hall' hnone =>
    rw [hall.unique hall', hsome] at hnone
    cases hnone
  | .reduce hall hsome hnext, .reduce hall' hsome' hnext' =>
    rw [hall.unique hall', hsome] at hsome'
    cases hsome'
    exact hnext.unique hnext'

theorem NormalizesAll.unique {es ns ms : List Expr} (h : engine.NormalizesAll es ns)
    (h' : engine.NormalizesAll es ms) : ms = ns := by
  match h, h' with
  | .nil, .nil => rfl
  | .cons hfirst hlater, .cons hfirst' hlater' =>
    rw [hfirst.unique hfirst', hlater.unique hlater']

end

/-- Operands may be replaced by their normal forms. -/
theorem NormalizesAll.node {kind : Kind} {es fs : List Expr} {n : Expr}
    (hall : engine.NormalizesAll es fs) (h : engine.Normalizes (.node kind fs) n) :
    engine.Normalizes (.node kind es) n := by
  cases h with
  | rest hfs hnone =>
    obtain rfl := hfs.eq_of_normal hall.normal
    exact .rest hall hnone
  | reduce hfs hsome hnext =>
    obtain rfl := hfs.eq_of_normal hall.normal
    exact .reduce hall hsome hnext

theorem Normalizes.unary {kind : Kind} {u u' n : Expr} (hu : engine.Normalizes u u')
    (h : engine.Normalizes (.node kind [u']) n) : engine.Normalizes (.node kind [u]) n :=
  (NormalizesAll.cons hu .nil).node h

theorem Normalizes.binary {kind : Kind} {u u' v v' n : Expr} (hu : engine.Normalizes u u')
    (hv : engine.Normalizes v v') (h : engine.Normalizes (.node kind [u', v']) n) :
    engine.Normalizes (.node kind [u, v]) n :=
  (NormalizesAll.cons hu (.cons hv .nil)).node h

theorem choose_of_contract?_none {e : Expr} (h : engine.contract? e = none) (path : List Nat)
    (s : Session) : engine.choose path e s = (none, s) := by
  simp [choose, contract?_eq_none_iff.mp h]

theorem choose_of_contract?_some (hoff : engine.configuration.loopDetection = false) {e : Expr}
    {r : Except Error Expr} (h : engine.contract? e = some r) (path : List Nat) (s : Session) :
    ∃ redex t, engine.choose path e s = (some redex, t) ∧
      redex.ranked.rule.reduce e redex.fit = r := by
  obtain ⟨redex, hredex, hr⟩ := Option.map_eq_some_iff.mp h
  exact ⟨redex, _, by simp only [choose, hredex, loopCheck, hoff]; rfl, hr⟩

theorem settlesAll_self {es : List Expr}
    (h : ∀ u ∈ es, ∀ path changed s, engine.Settles path changed u s changed u s)
    (path : List Nat) (i : Nat) (s : Session) : engine.SettlesAll path i es s false es s := by
  induction es generalizing i with
  | nil => exact .nil
  | cons e es ih =>
    rw [List.forall_mem_cons] at h
    exact .cons (h.1 _ _ _) (ih h.2 (i + 1))

/-- A normal form settles in one pass, without a trace. -/
theorem Normal.settles {e : Expr} (h : engine.Normal e) (path : List Nat) (changed : Bool)
    (s : Session) : engine.Settles path changed e s changed e s := by
  induction h generalizing path changed s with
  | node _ hnone ih =>
    exact .rest (settlesAll_self ih path 0 s) (choose_of_contract?_none hnone _ _)

mutual

/-- The engine finds the normal form. After an operand has changed, it passes over the normal form
once more. -/
theorem Normalizes.settles (hoff : engine.configuration.loopDetection = false) {e n : Expr}
    (h : engine.Normalizes e n) (path : List Nat) (changed : Bool) (s : Session) :
    ∃ changed' t, engine.Settles path changed e s changed' n t := by
  match h with
  | .rest hall hnone =>
    obtain ⟨below, t, ht⟩ := hall.settles hoff path 0 s
    have hchoose := choose_of_contract?_none hnone path t
    cases below with
    | false => exact ⟨changed, t, .rest ht hchoose⟩
    | true =>
      have hagain := (Normal.node hall.normal hnone).settles path true t
      exact ⟨true, t, .pass ht hchoose hagain⟩
  | .reduce hall hsome hnext =>
    obtain ⟨below, t, ht⟩ := hall.settles hoff path 0 s
    obtain ⟨redex, t', hchoose, hreduce⟩ := choose_of_contract?_some hoff hsome path t
    obtain ⟨changed', u, hu⟩ := hnext.settles hoff path true t'
    exact ⟨changed', u, .reduce ht hchoose hreduce hu⟩

theorem NormalizesAll.settles (hoff : engine.configuration.loopDetection = false)
    {es ns : List Expr} (h : engine.NormalizesAll es ns) (path : List Nat) (i : Nat)
    (s : Session) : ∃ changed t, engine.SettlesAll path i es s changed ns t := by
  match h with
  | .nil => exact ⟨false, s, .nil⟩
  | .cons hfirst hlater =>
    obtain ⟨first, t, ht⟩ := hfirst.settles hoff (path ++ [i]) false s
    obtain ⟨later, u, hu⟩ := hlater.settles hoff path (i + 1) t
    exact ⟨first || later, u, .cons ht hu⟩

end

end SymbolicCalculus.Engine
