import SymbolicCalculus.Proofs.Expr.Structure
import SymbolicCalculus.Simplify

/-! # Rules in one step

A standard rule matches a node and reduces it in two separate functions. Here both are told in one
step that finds the fit together with the outcome. The two tellings agree on every node, malformed
ones included: what the second split takes apart is what the first one saw, and the fits that a rule
does not number are never dispatched on.
-/
namespace SymbolicCalculus

namespace Rule

variable {name : String} {weight : Int} {step : Expr → Option (Fit × Except Error Expr)}

/-- The rule that finds fit and outcome in one step. It refuses every fit but the one it finds. -/
def ofStep (name : String) (weight : Int) (step : Expr → Option (Fit × Except Error Expr)) :
    Rule where
  name := name
  weight := Binary64.ofInt weight
  fit? e := (step e).map Prod.fst
  reduce e fit :=
    match step e with
    | some (found, outcome) => if found = fit then outcome else .error (.misuse name e)
    | none => .error (.misuse name e)

theorem ofStep_reduce {e : Expr} {fit : Fit} {outcome : Except Error Expr}
    (h : step e = some (fit, outcome)) : (ofStep name weight step).reduce e fit = outcome := by
  simp [ofStep, h]

theorem ofStep_fit?_eq_none_iff {e : Expr} :
    (ofStep name weight step).fit? e = none ↔ step e = none := by
  simp [ofStep]

/-- Matching and reducing agree with a step that finds the same fit and the outcome for it. -/
theorem checked_eq_ofStep {fit? : Expr → Option Fit}
    {reduce : String → Expr → Fit → Except Error Expr}
    (hfit : ∀ e, fit? e = (step e).map Prod.fst)
    (hreduce : ∀ e fit outcome, step e = some (fit, outcome) → reduce name e fit = outcome) :
    checked name weight fit? reduce = ofStep name weight step := by
  have hchecked (e : Expr) (fit : Fit) : (checked name weight fit? reduce).reduce e fit =
      (ofStep name weight step).reduce e fit := by
    simp only [checked, ofStep, hfit]
    cases hstep : step e with
    | none => simp
    | some result =>
      obtain ⟨found, outcome⟩ := result
      by_cases hfound : found = fit
      · subst hfound
        simp [hreduce e found outcome hstep]
      · simp [hfound]
  rw [checked, ofStep, Rule.mk.injEq]
  exact ⟨rfl, rfl, funext hfit, funext fun e => funext (hchecked e)⟩

end Rule

namespace Simplification

open SymbolicCalculus.Expr

def evaluateStep (e : Expr) : Option (Fit × Except Error Expr) :=
  if e.isNumber || e.isOpen then none
  else some (Evaluate.constant,
    match e.evaluate with
    | .ok x => .ok (.real x)
    | .error error => .error error)

theorem evaluate_eq : evaluate = .ofStep "Evaluate" 10 evaluateStep := by
  apply Rule.checked_eq_ofStep
  · intro e
    unfold Evaluate.fit? evaluateStep
    split <;> rfl
  · intro e fit outcome h
    unfold evaluateStep at h
    split at h
    · cases h
    · cases h
      unfold Evaluate.reduce
      cases e.evaluate <;> rfl

def succeeding (case : Expr → Option (Fit × Expr)) (e : Expr) :
    Option (Fit × Except Error Expr) :=
  (case e).map fun (fit, e) => (fit, .ok e)

/-- Matching and reducing agree with a case if every reduction it calls for succeeds. -/
theorem checked_eq_succeeding {name : String} {weight : Int} {fit? : Expr → Option Fit}
    {reduce : String → Expr → Fit → Except Error Expr} {case : Expr → Option (Fit × Expr)}
    (hfit : ∀ e, fit? e = (case e).map Prod.fst)
    (hreduce : ∀ e fit r, case e = some (fit, r) → reduce name e fit = .ok r) :
    Rule.checked name weight fit? reduce = .ofStep name weight (succeeding case) := by
  apply Rule.checked_eq_ofStep
  · intro e
    rw [hfit, succeeding, Option.map_map]
    rfl
  · intro e fit outcome h
    obtain ⟨⟨found, r⟩, hcase, hpair⟩ := Option.map_eq_some_iff.mp h
    cases hpair
    exact hreduce e fit r hcase

def identityCase : Expr → Option (Fit × Expr)
  | .pow u v =>
    if v.isNumberOf .one then some (Identity.powOne, u)
    else if v.isNumberOf .zero then some (Identity.powZero, .real .one)
    else none
  | .mul u v =>
    if u.isNumberOf .one then some (Identity.mulOne, v)
    else if u.isNumberOf .zero then some (Identity.mulZero, .real .zero)
    else none
  | .add u v =>
    if u.isNumberOf .zero then some (Identity.addZeroLeft, v)
    else if v.isNumberOf .zero then some (Identity.addZeroRight, u)
    else none
  | .sub u v =>
    if v.isNumberOf .zero then some (Identity.subZero, u)
    else if sameVariable u v then some (Identity.subSelf, .real .zero)
    else none
  | .div u v =>
    if sameVariable u v then some (Identity.divSelf, .real .one)
    else if u.isNumberOf .zero then some (Identity.divZero, .real .zero)
    else none
  | _ => none

theorem identity_eq : identity = .ofStep "Identity" 9 (succeeding identityCase) := by
  apply checked_eq_succeeding
  · rintro ⟨kind, operands⟩
    match operands with
    | [u, v] =>
      cases kind with
      | pow | mul | add | sub | div =>
        rw [identityCase, apply_ite (Option.map Prod.fst), apply_ite (Option.map Prod.fst)]
        rfl
      | var | real | integer | negate | sin | cos | exp | log | diff => rfl
    | [] | [_] | _ :: _ :: _ :: _ => cases kind <;> rfl
  · intro e fit r h
    unfold identityCase at h
    split at h
    case h_6 => cases h
    all_goals
      split at h
      · cases h
        rfl
      · split at h <;> cases h
        rfl

/-- Splits `u` into `p` and a number if it is a node of the kind with a number on its right, and `v`
is a number too. -/
def trailing? (kind : Kind) (u v : Expr) : Option (Expr × Expr) :=
  if v.isNumber && u.kind = kind then u.pair?.filter (·.2.isNumber) else none

/-- Splits `v` into a number and `p` if it is a node of the kind with a number on its left, and `u`
is a number too. -/
def leading? (kind : Kind) (u v : Expr) : Option (Expr × Expr) :=
  if u.isNumber && v.kind = kind then v.pair?.filter (·.1.isNumber) else none

def combineAssociative (kind : Kind) (u v : Expr) : Option (Fit × Expr) :=
  match trailing? kind u v with
  | some (p, r) => some (Combine.trailing, .node kind [p, .node kind [r, v]])
  | none =>
    match leading? kind u v with
    | some (r, p) => some (Combine.leading, .node kind [.node kind [u, r], p])
    | none => none

def combineCase : Expr → Option (Fit × Expr)
  | .add u v => combineAssociative .add u v
  | .mul u v => combineAssociative .mul u v
  | .sub u v => (trailing? .sub u v).map fun (p, r) => (Combine.subtrahends, .sub p (.add r v))
  | .div u v => (trailing? .div u v).map fun (p, r) => (Combine.divisors, .div p (.mul r v))
  | _ => none

theorem isTrailing_eq (kind : Kind) (u v : Expr) :
    Combine.isTrailing kind u v = (trailing? kind u v).isSome := by
  unfold Combine.isTrailing trailing? Expr.right?
  split <;> cases u.pair? <;> simp_all [Option.isSome_filter]

theorem isLeading_eq (kind : Kind) (u v : Expr) :
    Combine.isLeading kind u v = (leading? kind u v).isSome := by
  unfold Combine.isLeading leading? Expr.left?
  split <;> cases v.pair? <;> simp_all [Option.isSome_filter]

theorem trailing?_eq_some {kind : Kind} {u v p r : Expr} (h : trailing? kind u v = some (p, r)) :
    u = .node kind [p, r] ∧ r.isNumber = true ∧ v.isNumber = true := by
  unfold trailing? at h
  split at h
  · rename_i hv
    simp only [Bool.and_eq_true, decide_eq_true_eq] at hv
    obtain ⟨hpair, hr⟩ := Option.filter_eq_some_iff.mp h
    exact ⟨hv.2 ▸ pair?_eq_some_iff.mp hpair, hr, hv.1⟩
  · cases h

theorem leading?_eq_some {kind : Kind} {u v r p : Expr} (h : leading? kind u v = some (r, p)) :
    v = .node kind [r, p] := by
  unfold leading? at h
  split at h
  · rename_i hu
    simp only [Bool.and_eq_true, decide_eq_true_eq] at hu
    obtain ⟨hpair, _⟩ := Option.filter_eq_some_iff.mp h
    exact hu.2 ▸ pair?_eq_some_iff.mp hpair
  · cases h

theorem combineAssociative_fst (kind : Kind) (u v : Expr) :
    (combineAssociative kind u v).map Prod.fst =
      if Combine.isTrailing kind u v then some Combine.trailing
      else if Combine.isLeading kind u v then some Combine.leading
      else none := by
  rw [isTrailing_eq, isLeading_eq, combineAssociative]
  cases trailing? kind u v with
  | some => rfl
  | none => cases leading? kind u v <;> rfl

theorem trailing?_fst (kind : Kind) (u v : Expr) (fit : Fit) (f : Expr × Expr → Expr) :
    ((trailing? kind u v).map fun pair => (fit, f pair)).map Prod.fst =
      if Combine.isTrailing kind u v then some fit else none := by
  rw [isTrailing_eq]
  cases trailing? kind u v <;> rfl

theorem combine_reduce_associative {name : String} {kind : Kind} {u v r : Expr} {fit : Fit}
    (h : combineAssociative kind u v = some (fit, r)) :
    Combine.reduce name (.node kind [u, v]) fit = .ok r := by
  unfold combineAssociative at h
  split at h
  · rename_i p q htrailing
    cases h
    obtain ⟨rfl, -, -⟩ := trailing?_eq_some htrailing
    rfl
  · split at h
    · rename_i q p hleading
      cases h
      obtain rfl := leading?_eq_some hleading
      rfl
    · cases h

theorem combine_eq : combine = .ofStep "Combine" 8 (succeeding combineCase) := by
  apply checked_eq_succeeding
  · rintro ⟨kind, operands⟩
    match operands with
    | [u, v] =>
      cases kind with
      | add | mul => exact (combineAssociative_fst _ u v).symm
      | sub | div => exact (trailing?_fst _ u v _ _).symm
      | var | real | integer | negate | sin | cos | exp | log | diff | pow => rfl
    | [] | [_] | _ :: _ :: _ :: _ => cases kind <;> rfl
  · intro e fit r h
    unfold combineCase at h
    split at h
    · exact combine_reduce_associative h
    · exact combine_reduce_associative h
    · obtain ⟨⟨p, q⟩, htrailing, hpair⟩ := Option.map_eq_some_iff.mp h
      cases hpair
      obtain ⟨rfl, -, -⟩ := trailing?_eq_some htrailing
      rfl
    · obtain ⟨⟨p, q⟩, htrailing, hpair⟩ := Option.map_eq_some_iff.mp h
      cases hpair
      obtain ⟨rfl, -, -⟩ := trailing?_eq_some htrailing
      rfl
    · cases h

def reorderOperands (kind : Kind) (u v : Expr) : Option (Fit × Expr) :=
  if v.isNumber && !u.isNumber then some (Reorder.numberFirst, .node kind [v, u])
  else if v.isVariable && !u.isNumber && !u.isVariable && !continues kind u then
    some (Reorder.variableFirst, .node kind [v, u])
  else none

def reorderCase : Expr → Option (Fit × Expr)
  | .add u v => reorderOperands .add u v
  | .mul u v => reorderOperands .mul u v
  | _ => none

theorem reorder_eq : reorder = .ofStep "Reorder" 7 (succeeding reorderCase) := by
  apply checked_eq_succeeding
  · rintro ⟨kind, operands⟩
    match operands with
    | [u, v] =>
      cases kind with
      | add | mul =>
        rw [reorderCase, reorderOperands, apply_ite (Option.map Prod.fst),
          apply_ite (Option.map Prod.fst)]
        rfl
      | var | real | integer | negate | sin | cos | exp | log | diff | sub | div | pow => rfl
    | [] | [_] | _ :: _ :: _ :: _ => cases kind <;> rfl
  · intro e fit r h
    unfold reorderCase reorderOperands at h
    split at h
    case h_3 => cases h
    all_goals
      split at h
      · cases h
        rfl
      · split at h <;> cases h
        rfl

def alignOperands (name : String) (kind : Kind) (u v : Expr) :
    Option (Fit × Except Error Expr) :=
  if continues kind v then
    some (LeftAlign.align,
      match v.pair? with
      | some (b, c) => .ok (.node v.kind [.node kind [u, b], c])
      | none => .error (.misuse name v))
  else none

def leftAlignStep (name : String) : Expr → Option (Fit × Except Error Expr)
  | .add u v => alignOperands name .add u v
  | .mul u v => alignOperands name .mul u v
  | _ => none

theorem leftAlign_reduce {name : String} {kind : Kind} {u v : Expr} {fit : Fit}
    {outcome : Except Error Expr} (h : alignOperands name kind u v = some (fit, outcome)) :
    LeftAlign.reduce name (.node kind [u, v]) fit = outcome := by
  unfold alignOperands at h
  split at h
  · cases h
    change (do
      let (b, c) ← Rule.splitPair name v
      return node v.kind [node kind [u, b], c]) = _
    unfold Rule.splitPair
    cases v.pair? <;> rfl
  · cases h

theorem leftAlign_eq : leftAlign = .ofStep "LeftAlign" 6 (leftAlignStep "LeftAlign") := by
  apply Rule.checked_eq_ofStep
  · rintro ⟨kind, operands⟩
    match operands with
    | [u, v] =>
      cases kind with
      | add | mul =>
        rw [leftAlignStep, alignOperands, apply_ite (Option.map Prod.fst)]
        rfl
      | var | real | integer | negate | sin | cos | exp | log | diff | sub | div | pow => rfl
    | [] | [_] | _ :: _ :: _ :: _ => cases kind <;> rfl
  · intro e fit outcome h
    unfold leftAlignStep at h
    split at h
    · exact leftAlign_reduce h
    · exact leftAlign_reduce h
    · cases h

def hoistDivisionStep (name : String) : Expr → Option (Fit × Except Error Expr)
  | .mul u c =>
    if u.kind = .div then
      some (HoistDivision.hoist,
        match u.pair? with
        | some (a, b) => .ok (.div (.mul a c) b)
        | none => .error (.misuse name u))
    else none
  | _ => none

theorem hoistDivision_eq :
    hoistDivision = .ofStep "HoistDivision" 5 (hoistDivisionStep "HoistDivision") := by
  apply Rule.checked_eq_ofStep
  · rintro ⟨kind, operands⟩
    match operands with
    | [⟨kind', operands'⟩, v] =>
      cases kind with
      | mul => cases kind' <;> rfl
      | var | real | integer | negate | sin | cos | exp | log | diff | add | sub | div | pow => rfl
    | [] | [_] | _ :: _ :: _ :: _ => cases kind <;> rfl
  · intro e fit outcome h
    unfold hoistDivisionStep at h
    split at h
    · rename_i u c
      split at h
      · cases h
        change (do
          let (a, b) ← Rule.splitPair "HoistDivision" u
          return Expr.div (.mul a c) b) = _
        unfold Rule.splitPair
        cases u.pair? <;> rfl
      · cases h
    · cases h

def cancelStep (name : String) : Expr → Option (Fit × Except Error Expr)
  | .node kind [chain, right] =>
    match undone? kind, right.variableName? with
    | some (link, neutral), some symbol =>
      if isOnSpine link symbol chain then
        some (Cancel.cancel,
          match neutralize link symbol neutral chain with
          | .ok e => .ok e
          | .error chain => .error (.misuse name (.node kind [chain, right])))
      else none
    | _, _ => none
  | _ => none

theorem cancel_fit? (kind : Kind) (chain right : Expr) (name : String) :
    Cancel.fit? (.node kind [chain, right]) =
      (cancelStep name (.node kind [chain, right])).map Prod.fst := by
  change (undone? kind).bind (fun partner => right.variableName?.bind fun symbol =>
    if isOnSpine partner.1 symbol chain then some Cancel.cancel else none) = _
  rw [cancelStep]
  cases undone? kind with
  | none => rfl
  | some partner =>
    cases right.variableName? with
    | none => rfl
    | some symbol =>
      dsimp only
      rw [apply_ite (Option.map Prod.fst)]
      rfl

theorem cancel_reduce {kind link : Kind} {chain right : Expr} {neutral : Binary64} {symbol : String}
    (name : String) (fit : Fit) (hundone : undone? kind = some (link, neutral))
    (hright : right.variableName? = some symbol) :
    Cancel.reduce name (.node kind [chain, right]) fit =
      match neutralize link symbol neutral chain with
      | .ok e => .ok e
      | .error chain => .error (.misuse name (.node kind [chain, right])) := by
  have hsplit : Rule.splitPair name (.node kind [chain, right]) = .ok (chain, right) := rfl
  rw [Cancel.reduce, Expr.kind, hundone]
  dsimp only
  rw [hsplit]
  dsimp only [bind, Except.bind]
  rw [hright]
  dsimp only
  cases neutralize link symbol neutral chain <;> rfl

theorem cancel_eq : cancel = .ofStep "Cancel" 4 (cancelStep "Cancel") := by
  apply Rule.checked_eq_ofStep
  · rintro ⟨kind, operands⟩
    match operands with
    | [chain, right] => exact cancel_fit? kind chain right "Cancel"
    | [] | [_] | _ :: _ :: _ :: _ => cases kind <;> rfl
  · intro e fit outcome h
    unfold cancelStep at h
    split at h
    · rename_i kind chain right
      split at h
      · rename_i link neutral symbol hundone hright
        split at h
        · cases h
          exact cancel_reduce _ _ hundone hright
        · cases h
      · cases h
    · cases h

end Simplification

namespace Differentiation

def unary (name : String) (e : Expr) (f : Expr → Expr) : Except Error Expr :=
  match e.operand? with
  | some u => .ok (f u)
  | none => .error (.misuse name e)

def binary (name : String) (e : Expr) (f : Expr → Expr → Expr) : Except Error Expr :=
  match e.pair? with
  | some (u, v) => .ok (f u v)
  | none => .error (.misuse name e)

theorem splitOperand_bind (name : String) (e : Expr) (f : Expr → Expr) :
    (do let u ← Rule.splitOperand name e; return f u) = unary name e f := by
  unfold Rule.splitOperand unary
  cases e.operand? <;> rfl

theorem splitPair_bind (name : String) (e : Expr) (f : Expr → Expr → Expr) :
    (do let (u, v) ← Rule.splitPair name e; return f u v) = binary name e f := by
  unfold Rule.splitPair binary
  cases e.pair? <;> rfl

/-- The step of a rule that is given by what it does to the operand of a derivative. -/
def onDerivative (case : String → Expr → Option (Fit × Except Error Expr)) (e : Expr) :
    Option (Fit × Except Error Expr) :=
  match derivative? e with
  | some (x, u) => case x u
  | none => none

theorem derivative?_eq_some_iff {e : Expr} {x : String} {u : Expr} :
    derivative? e = some (x, u) ↔ e = .diff x u := by
  obtain ⟨kind, operands⟩ := e
  match operands with
  | [v] => cases kind <;> simp [derivative?, Expr.kind, Expr.operand?]
  | [] | _ :: _ :: _ => cases kind <;> simp [derivative?, Expr.kind, Expr.operand?]

/-- The operand that a rule for derivatives looks at. -/
theorem exists_of_onDerivative {case : String → Expr → Option (Fit × Except Error Expr)}
    {e : Expr} {fit : Fit} {outcome : Except Error Expr}
    (h : onDerivative case e = some (fit, outcome)) :
    ∃ x u, e = .diff x u ∧ case x u = some (fit, outcome) := by
  unfold onDerivative at h
  split at h
  · rename_i x u hderivative
    exact ⟨x, u, derivative?_eq_some_iff.mp hderivative, h⟩
  · cases h

/-- A rule that matches and reduces derivatives only agrees with a case for their operands. -/
theorem checked_eq_onDerivative {name : String} {weight : Int} {fit? : Expr → Option Fit}
    {reduce : String → Expr → Fit → Except Error Expr}
    {case : String → Expr → Option (Fit × Except Error Expr)}
    (hnone : ∀ e, derivative? e = none → fit? e = none)
    (hfit : ∀ x u, fit? (.diff x u) = (case x u).map Prod.fst)
    (hreduce : ∀ x u fit outcome, case x u = some (fit, outcome) →
      reduce name (.diff x u) fit = outcome) :
    Rule.checked name weight fit? reduce = .ofStep name weight (onDerivative case) := by
  apply Rule.checked_eq_ofStep
  · intro e
    unfold onDerivative
    split
    · rename_i x u hderivative
      obtain rfl := derivative?_eq_some_iff.mp hderivative
      exact hfit x u
    · rename_i hderivative
      exact hnone e hderivative
  · intro e fit outcome h
    obtain ⟨x, u, rfl, hcase⟩ := exists_of_onDerivative h
    exact hreduce x u fit outcome hcase

def constantCase (x : String) (u : Expr) : Option (Fit × Except Error Expr) :=
  if u.mentions (some x) then none else some (Constant.constant, .ok (.real .zero))

theorem constant_eq : constant = .ofStep "DiffConstant" 10 (onDerivative constantCase) := by
  apply checked_eq_onDerivative
  · intro e h
    rw [Constant.fit?, h]
    rfl
  · intro x u
    rw [constantCase, apply_ite (Option.map Prod.fst)]
    rfl
  · intro x u fit outcome h
    unfold constantCase at h
    split at h <;> cases h
    rfl

def arithmeticCase (name : String) (x : String) (e : Expr) : Option (Fit × Except Error Expr) :=
  match e.kind with
  | .negate => some (Arithmetic.negate, unary name e fun u => .neg (.diff x u))
  | .add => some (Arithmetic.sum, binary name e fun u v => .add (.diff x u) (.diff x v))
  | .sub => some (Arithmetic.difference, binary name e fun u v => .sub (.diff x u) (.diff x v))
  | .mul => some (Arithmetic.product, binary name e (productRule x))
  | .div => some (Arithmetic.quotient, binary name e (quotientRule x))
  | _ => none

theorem arithmetic_eq : arithmetic =
    .ofStep "DiffArithmetic" 9 (onDerivative (arithmeticCase "DiffArithmetic")) := by
  apply checked_eq_onDerivative
  · intro e h
    rw [Arithmetic.fit?, h]
    rfl
  · rintro x ⟨kind, operands⟩
    cases kind <;> rfl
  · rintro x ⟨kind, operands⟩ fit outcome h
    cases kind with
    | negate =>
      cases h
      exact splitOperand_bind _ _ _
    | add | sub | mul | div =>
      cases h
      rw [← splitPair_bind]
      rfl
    | var | real | integer | sin | cos | exp | log | diff | pow => cases h

def powerCase (x : String) (e : Expr) : Option (Fit × Except Error Expr) :=
  if e.variableName? = some x then some (Power.symbol, .ok (.real .one))
  else
    match e with
    | .pow b n =>
      if n.mentions (some x) then some (Power.generalExponent, .ok (exponentialRule x b n))
      else some (Power.constantExponent, .ok (powerRule x b n))
    | _ => none

theorem power_eq : power = .ofStep "DiffPower" 9 (onDerivative powerCase) := by
  apply checked_eq_onDerivative
  · intro e h
    rw [Power.fit?, h]
    rfl
  · intro x u
    unfold powerCase
    rw [apply_ite (Option.map Prod.fst)]
    refine if_congr Iff.rfl rfl ?_
    obtain ⟨kind, operands⟩ := u
    match operands with
    | [b, n] =>
      cases kind with
      | pow =>
        rw [apply_ite (Option.map Prod.fst)]
        rfl
      | var | real | integer | negate | sin | cos | exp | log | diff | add | sub | mul | div => rfl
    | [] | [_] | _ :: _ :: _ :: _ => cases kind <;> rfl
  · intro x u fit outcome h
    unfold powerCase at h
    split at h
    · cases h
      rfl
    · split at h
      · split at h <;> cases h <;> rfl
      · cases h

def expLogCase (name : String) (x : String) (e : Expr) : Option (Fit × Except Error Expr) :=
  match e.kind with
  | .exp => some (ExpLog.exp, unary name e fun u => .mul (.exp u) (.diff x u))
  | .log => some (ExpLog.log, unary name e fun u => .mul (.div (.real .one) u) (.diff x u))
  | _ => none

theorem expLog_eq : expLog =
    .ofStep "DiffExpLog" 9 (onDerivative (expLogCase "DiffExpLog")) := by
  apply checked_eq_onDerivative
  · intro e h
    rw [ExpLog.fit?, h]
    rfl
  · rintro x ⟨kind, operands⟩
    cases kind <;> rfl
  · rintro x ⟨kind, operands⟩ fit outcome h
    cases kind with
    | exp | log =>
      cases h
      exact splitOperand_bind _ _ _
    | var | real | integer | negate | sin | cos | diff | add | sub | mul | div | pow => cases h

def trigCase (name : String) (x : String) (e : Expr) : Option (Fit × Except Error Expr) :=
  match e.kind with
  | .sin => some (Trig.sin, unary name e fun u => .mul (.cos u) (.diff x u))
  | .cos => some (Trig.cos, unary name e fun u => .mul (.neg (.sin u)) (.diff x u))
  | _ => none

theorem trig_eq : trig = .ofStep "DiffTrig" 9 (onDerivative (trigCase "DiffTrig")) := by
  apply checked_eq_onDerivative
  · intro e h
    rw [Trig.fit?, h]
    rfl
  · rintro x ⟨kind, operands⟩
    cases kind <;> rfl
  · rintro x ⟨kind, operands⟩ fit outcome h
    cases kind with
    | sin | cos =>
      cases h
      exact splitOperand_bind _ _ _
    | var | real | integer | negate | exp | log | diff | add | sub | mul | div | pow => cases h

end Differentiation

end SymbolicCalculus
