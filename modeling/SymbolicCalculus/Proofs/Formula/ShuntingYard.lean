import SymbolicCalculus.Proofs.Formula.Grammar

/-! # The two stacks follow the grammar

Completing the operations that precede an operator of a level gives the tree of that level. So the
stacks between two tokens describe how far each nonterminal has been read. Reading what a
nonterminal stands for leads to stacks that complete to its tree; conversely, every state that is
reached shows at which tokens each unfinished nonterminal began.
-/
namespace SymbolicCalculus

namespace Parser

open Grammar

section Settle

variable {op : Operator} {w : Waiting} {waiting waiting' : List Waiting}
  {operands operands' : List Expr}

theorem settle_cons_of_not (h : w.precedes op = false) :
    settle op (w :: waiting) operands = .ok (w :: waiting, operands) := by
  simp [settle, h]

theorem settle_cons_of_complete (h : w.precedes op = true)
    (hcomplete : w.complete operands = .ok operands') :
    settle op (w :: waiting) operands = settle op waiting operands' := by
  simp [settle, h, hcomplete]

theorem precedes_pow (w : Waiting) : w.precedes .pow = false := by
  cases w with
  | binary op => cases op <;> rfl
  | negate | positive | call | bracket => rfl

/-- Everything but brackets and calls is completed before a sum. -/
theorem precedes_add (w : Waiting) : w.precedes .add = !w.awaitsBracket := by
  cases w with
  | binary op => cases op <;> rfl
  | negate | positive | call | bracket => rfl

theorem settle_pow (waiting : List Waiting) (operands : List Expr) :
    settle .pow waiting operands = .ok (waiting, operands) := by
  cases waiting with
  | nil => rfl
  | cons w waiting => exact settle_cons_of_not (precedes_pow w)

theorem settle_congr {op' : Operator} (hrank : op.rank = op'.rank)
    (hgroups : op.groupsRight = op'.groupsRight) (waiting : List Waiting) (operands : List Expr) :
    settle op waiting operands = settle op' waiting operands := by
  induction waiting generalizing operands with
  | nil => rfl
  | cons w waiting ih =>
    have hprecedes : w.precedes op = w.precedes op' := by
      rw [Waiting.precedes, Waiting.precedes, hrank, hgroups]
    rw [settle, settle, hprecedes]
    simp only [ih]

theorem settle_eq_add (h : op = .add ∨ op = .sub) (waiting : List Waiting) (operands : List Expr) :
    settle op waiting operands = settle .add waiting operands := by
  apply settle_congr <;> rcases h with rfl | rfl <;> rfl

theorem settle_eq_mul (h : op = .mul ∨ op = .div) (waiting : List Waiting) (operands : List Expr) :
    settle op waiting operands = settle .mul waiting operands := by
  apply settle_congr <;> rcases h with rfl | rfl <;> rfl

/-- What does not change with a single completed operation does not change with all of them. -/
theorem settle_invariant {α : Type} {F : List Waiting → List Expr → α}
    (hF : ∀ {w waiting operands operands'}, w.precedes op = true →
      w.complete operands = .ok operands' → F (w :: waiting) operands = F waiting operands')
    (h : settle op waiting operands = .ok (waiting', operands')) :
    F waiting operands = F waiting' operands' := by
  fun_induction settle op waiting operands with
  | case1 =>
    cases h
    rfl
  | case2 w waiting operands hprecedes _ hcomplete ih => exact (hF hprecedes hcomplete).trans (ih h)
  | case3 => cases h
  | case4 =>
    cases h
    rfl

theorem settle_add_of_mul (h : settle .mul waiting operands = .ok (waiting', operands')) :
    settle .add waiting operands = settle .add waiting' operands' := by
  apply settle_invariant _ h
  intro w waiting operands operands' hprecedes hcomplete
  have hadd : w.precedes .add = true := by
    rw [Waiting.precedes, Bool.and_eq_true] at hprecedes
    rw [precedes_add, hprecedes.1]
  exact settle_cons_of_complete hadd hcomplete

/-- A closing bracket completes what a sum would complete, and goes on from there. -/
theorem close_of_settle (h : settle .add waiting operands = .ok (waiting', operands')) :
    close waiting operands = close waiting' operands' := by
  apply settle_invariant _ h
  intro w waiting operands operands' hprecedes hcomplete
  rw [precedes_add] at hprecedes
  cases w with
  | call | bracket => cases hprecedes
  | binary | negate | positive => simp [close, hcomplete]

/-- So does the end of input. -/
theorem drain_of_settle (h : settle .add waiting operands = .ok (waiting', operands')) :
    drain waiting operands = drain waiting' operands' := by
  apply settle_invariant _ h
  intro w waiting operands operands' _ hcomplete
  simp [drain, hcomplete]

end Settle

/-- A formula begins at the bottom of the stack or at a bracket. -/
def AtStart : List Waiting → Prop
  | [] | .bracket :: _ => True
  | _ => False

/-- A call waits below its bracket only. -/
def NoCall : List Waiting → Prop
  | .call _ :: _ => False
  | _ => True

theorem AtStart.settle_eq {waiting : List Waiting} (h : AtStart waiting) (op : Operator)
    (operands : List Expr) : settle op waiting operands = .ok (waiting, operands) := by
  match waiting, h with
  | [], _ => rfl
  | .bracket :: _, _ => exact settle_cons_of_not rfl

theorem AtStart.noCall {waiting : List Waiting} (h : AtStart waiting) : NoCall waiting := by
  match waiting, h with
  | [], _ | .bracket :: _, _ => exact trivial

theorem close_bracket {waiting : List Waiting} (h : NoCall waiting) (operands : List Expr) :
    close (.bracket :: waiting) operands = .ok (waiting, operands) := by
  match waiting, h with
  | [], _ => rfl
  | .binary _ :: _, _ | .negate :: _, _ | .positive :: _, _ | .bracket :: _, _ => rfl

section Read

variable {context : Context} {waiting : List Waiting} {operands : List Expr}

theorem run_ident {name : String} {rest : List Token} (h : rest.head? ≠ some .openBracket) :
    run context ⟨waiting, operands, true⟩ (.ident name :: rest) =
      run context ⟨waiting, .var name :: operands, false⟩ rest := by
  match rest, h with
  | [], _ => rfl
  | t :: _, h => cases t <;> first | rfl | exact absurd rfl h

theorem run_call {name : String} {kind : Kind} {ts : List Token} (h : Calls context name kind) :
    run context ⟨waiting, operands, true⟩ (.ident name :: .openBracket :: ts) =
      run context ⟨.bracket :: .call kind :: waiting, operands, true⟩ ts := by
  simp [run, State.readCall, called_eq_ok_iff.mpr h, State.pushWaiting]

/-- An operator waits on top of what it does not complete. -/
theorem run_operator (op : Operator) {ts : List Token} {waiting' : List Waiting}
    {operands' : List Expr} (h : settle op waiting operands = .ok (waiting', operands')) :
    run context ⟨waiting, operands, false⟩ (op.token :: ts) =
      run context ⟨.binary op :: waiting', operands', true⟩ ts := by
  cases op <;> simp [run, Operator.token, State.read, State.readOperator, State.pushOperator, h]

theorem run_closeBracket {ts : List Token} {waiting' : List Waiting} {operands' : List Expr}
    (h : close waiting operands = .ok (waiting', operands')) :
    run context ⟨waiting, operands, false⟩ (.closeBracket :: ts) =
      run context ⟨waiting', operands', false⟩ ts := by
  simp [run, State.read, State.readOperator, State.closeBracket, h]

end Read

end Parser

namespace Grammar

open SymbolicCalculus.Parser

variable {context : Context}

mutual

/-- After a formula has been read, its operations wait on the stack, and its tree is what is left
when they are completed. -/
theorem Formula.run_eq {ts rest : List Token} {u : Expr} (h : Formula context ts u rest)
    (waiting : List Waiting) (hstart : AtStart waiting) (operands : List Expr) :
    ∃ waiting' operands', run context ⟨waiting, operands, true⟩ ts =
        run context ⟨waiting', operands', false⟩ rest ∧
      settle .add waiting' operands' = .ok (waiting, u :: operands) := by
  match h with
  | .term hterm =>
    obtain ⟨waiting', operands', hrun, hsettle⟩ :=
      hterm.run_eq waiting (hstart.settle_eq .mul) hstart.noCall operands
    exact ⟨waiting', operands', hrun, (settle_add_of_mul hsettle).trans (hstart.settle_eq _ _)⟩
  | @Formula.binary _ op _ _ _ left right hop hleft hright =>
    -- The operator waits below the term on its right, which it does not precede.
    obtain ⟨waiting₁, operands₁, hrun₁, hsettle₁⟩ := hleft.run_eq waiting hstart operands
    obtain ⟨waiting₂, operands₂, hrun₂, hsettle₂⟩ := hright.run_eq (.binary op :: waiting)
      (fun _ => settle_cons_of_not (by rcases hop with rfl | rfl <;> rfl)) trivial
      (left :: operands)
    have hsame := settle_eq_add hop waiting₁ operands₁
    refine ⟨waiting₂, operands₂,
      hrun₁.trans ((run_operator op (hsame.trans hsettle₁)).trans hrun₂), ?_⟩
    rw [settle_add_of_mul hsettle₂, settle_cons_of_complete (precedes_add _) rfl]
    exact hstart.settle_eq _ _

theorem Term.run_eq {ts rest : List Token} {u : Expr} (h : Term context ts u rest)
    (waiting : List Waiting)
    (hstays : ∀ operands, settle .mul waiting operands = .ok (waiting, operands))
    (hcall : NoCall waiting) (operands : List Expr) :
    ∃ waiting' operands', run context ⟨waiting, operands, true⟩ ts =
        run context ⟨waiting', operands', false⟩ rest ∧
      settle .mul waiting' operands' = .ok (waiting, u :: operands) := by
  match h with
  | .unary hunary =>
    obtain ⟨waiting', operands', hrun, hsettle⟩ := hunary.run_eq waiting hcall operands
    exact ⟨waiting', operands', hrun, hsettle.trans (hstays _)⟩
  | @Term.binary _ op _ _ _ left right hop hleft hright =>
    obtain ⟨waiting₁, operands₁, hrun₁, hsettle₁⟩ := hleft.run_eq waiting hstays hcall operands
    obtain ⟨waiting₂, operands₂, hrun₂, hsettle₂⟩ :=
      hright.run_eq (.binary op :: waiting) trivial (left :: operands)
    have hsame := settle_eq_mul hop waiting₁ operands₁
    refine ⟨waiting₂, operands₂,
      hrun₁.trans ((run_operator op (hsame.trans hsettle₁)).trans hrun₂), ?_⟩
    rw [hsettle₂, settle_cons_of_complete (by rcases hop with rfl | rfl <;> rfl) rfl]
    exact hstays _

theorem Unary.run_eq {ts rest : List Token} {u : Expr} (h : Unary context ts u rest)
    (waiting : List Waiting) (hcall : NoCall waiting) (operands : List Expr) :
    ∃ waiting' operands', run context ⟨waiting, operands, true⟩ ts =
        run context ⟨waiting', operands', false⟩ rest ∧
      settle .mul waiting' operands' = settle .mul waiting (u :: operands) := by
  match h with
  | .negate hunary =>
    obtain ⟨waiting', operands', hrun, hsettle⟩ :=
      hunary.run_eq (.negate :: waiting) trivial operands
    refine ⟨waiting', operands', hrun, ?_⟩
    rw [hsettle, settle_cons_of_complete rfl rfl]
  | .positive hunary =>
    obtain ⟨waiting', operands', hrun, hsettle⟩ :=
      hunary.run_eq (.positive :: waiting) trivial operands
    refine ⟨waiting', operands', hrun, ?_⟩
    rw [hsettle, settle_cons_of_complete rfl rfl]
  | .power hpower => exact hpower.run_eq waiting hcall operands

theorem Power.run_eq {ts rest : List Token} {u : Expr} (h : Power context ts u rest)
    (waiting : List Waiting) (hcall : NoCall waiting) (operands : List Expr) :
    ∃ waiting' operands', run context ⟨waiting, operands, true⟩ ts =
        run context ⟨waiting', operands', false⟩ rest ∧
      settle .mul waiting' operands' = settle .mul waiting (u :: operands) := by
  match h with
  | .atom hatom => exact ⟨waiting, _, hatom.run_eq waiting hcall operands, rfl⟩
  | .pow (u := base) hbase hexponent =>
    obtain ⟨waiting', operands', hrun, hsettle⟩ :=
      hexponent.run_eq (.binary .pow :: waiting) trivial (base :: operands)
    refine ⟨waiting', operands', (hbase.run_eq waiting hcall operands).trans
      ((run_operator .pow (settle_pow _ _)).trans hrun), ?_⟩
    exact hsettle.trans (settle_cons_of_complete rfl rfl)

theorem Atom.run_eq {ts rest : List Token} {u : Expr} (h : Atom context ts u rest)
    (waiting : List Waiting) (hcall : NoCall waiting) (operands : List Expr) :
    run context ⟨waiting, operands, true⟩ ts =
      run context ⟨waiting, u :: operands, false⟩ rest := by
  match h with
  | .number => rfl
  | .var hrest => exact run_ident hrest
  | @Atom.call _ _ kind _ _ _ hcalls hformula =>
    obtain ⟨waiting', operands', hrun, hsettle⟩ :=
      hformula.run_eq (.bracket :: .call kind :: waiting) trivial operands
    rw [run_call hcalls, hrun]
    exact run_closeBracket (close_of_settle hsettle)
  | .bracket hformula =>
    obtain ⟨waiting', operands', hrun, hsettle⟩ :=
      hformula.run_eq (.bracket :: waiting) trivial operands
    refine Eq.trans hrun (run_closeBracket ?_)
    rw [close_of_settle hsettle, close_bracket hcall]

end

end Grammar

namespace Parser

open Grammar

mutual

/-- The stacks when a formula begins with the tokens `ts` of the input. -/
inductive AwaitsFormula (context : Context) (input : List Token) :
    List Waiting → List Expr → List Token → Prop
  | start : AwaitsFormula context input [] [] input
  | bracket {waiting : List Waiting} {operands : List Expr} {ts : List Token} :
    AwaitsUnary context input waiting operands (.openBracket :: ts) →
    AwaitsFormula context input (.bracket :: waiting) operands ts
  | call {name : String} {kind : Kind} {waiting : List Waiting} {operands : List Expr}
    {ts : List Token} : Calls context name kind →
    AwaitsUnary context input waiting operands (.ident name :: .openBracket :: ts) →
    AwaitsFormula context input (.bracket :: .call kind :: waiting) operands ts

inductive AwaitsTerm (context : Context) (input : List Token) :
    List Waiting → List Expr → List Token → Prop
  | formula {waiting : List Waiting} {operands : List Expr} {ts : List Token} :
    AwaitsFormula context input waiting operands ts → AwaitsTerm context input waiting operands ts
  | binary {op : Operator} {waiting : List Waiting} {operands : List Expr} {ts later : List Token}
    {u : Expr} : op = .add ∨ op = .sub → AwaitsFormula context input waiting operands ts →
    Formula context ts u (op.token :: later) →
    AwaitsTerm context input (.binary op :: waiting) (u :: operands) later

inductive AwaitsUnary (context : Context) (input : List Token) :
    List Waiting → List Expr → List Token → Prop
  | term {waiting : List Waiting} {operands : List Expr} {ts : List Token} :
    AwaitsTerm context input waiting operands ts → AwaitsUnary context input waiting operands ts
  | binary {op : Operator} {waiting : List Waiting} {operands : List Expr} {ts later : List Token}
    {u : Expr} : op = .mul ∨ op = .div → AwaitsTerm context input waiting operands ts →
    Term context ts u (op.token :: later) →
    AwaitsUnary context input (.binary op :: waiting) (u :: operands) later
  | negate {waiting : List Waiting} {operands : List Expr} {ts : List Token} :
    AwaitsUnary context input waiting operands (.minus :: ts) →
    AwaitsUnary context input (.negate :: waiting) operands ts
  | positive {waiting : List Waiting} {operands : List Expr} {ts : List Token} :
    AwaitsUnary context input waiting operands (.plus :: ts) →
    AwaitsUnary context input (.positive :: waiting) operands ts
  | pow {waiting : List Waiting} {operands : List Expr} {ts later : List Token} {u : Expr} :
    AwaitsUnary context input waiting operands ts → Atom context ts u (.power :: later) →
    AwaitsUnary context input (.binary .pow :: waiting) (u :: operands) later

end

section Awaits

variable {context : Context} {input ts rest : List Token} {waiting : List Waiting}
  {operands : List Expr} {u : Expr}

theorem AwaitsFormula.atStart (h : AwaitsFormula context input waiting operands ts) :
    AtStart waiting := by
  cases h <;> exact trivial

theorem AwaitsTerm.settle_mul (h : AwaitsTerm context input waiting operands ts)
    (operands' : List Expr) : settle .mul waiting operands' = .ok (waiting, operands') := by
  cases h with
  | formula hformula => exact hformula.atStart.settle_eq _ _
  | binary hop => exact settle_cons_of_not (by rcases hop with rfl | rfl <;> rfl)

theorem AwaitsUnary.noCall (h : AwaitsUnary context input waiting operands ts) :
    NoCall waiting := by
  cases h with
  | term hterm =>
    cases hterm with
    | formula hformula => exact hformula.atStart.noCall
    | binary => exact trivial
  | binary | negate | positive | pow => exact trivial

theorem AwaitsTerm.settle_add (h : AwaitsTerm context input waiting operands ts)
    (hterm : Term context ts u rest) : ∃ waiting' operands' ts' u',
      settle .add waiting (u :: operands) = .ok (waiting', u' :: operands') ∧
        AwaitsFormula context input waiting' operands' ts' ∧ Formula context ts' u' rest := by
  cases h with
  | formula hformula =>
    exact ⟨waiting, operands, ts, u, hformula.atStart.settle_eq _ _, hformula, .term hterm⟩
  | binary hop hformula hleft =>
    refine ⟨_, _, _, _, ?_, hformula, .binary hop hleft hterm⟩
    rw [settle_cons_of_complete (precedes_add _) rfl]
    exact hformula.atStart.settle_eq _ _

/-- A factor completes the term that it ends, with all signs and powers on the way. -/
theorem AwaitsUnary.settle_mul {ts : List Token} {waiting : List Waiting} {operands : List Expr}
    {u : Expr} (h : AwaitsUnary context input waiting operands ts)
    (hunary : Unary context ts u rest) : ∃ waiting' operands' ts' u',
      settle .mul waiting (u :: operands) = .ok (waiting', u' :: operands') ∧
        AwaitsTerm context input waiting' operands' ts' ∧ Term context ts' u' rest := by
  match h with
  | .term hterm =>
    exact ⟨waiting, operands, ts, u, hterm.settle_mul _, hterm, .unary hunary⟩
  | .binary hop hterm hleft =>
    refine ⟨_, _, _, _, ?_, hterm, .binary hop hleft hunary⟩
    rw [settle_cons_of_complete (by rcases hop with rfl | rfl <;> rfl) rfl]
    exact hterm.settle_mul _
  -- Signs and powers are completed from the inside, until the term has been reached.
  | .negate houter =>
    rw [settle_cons_of_complete rfl rfl]
    exact houter.settle_mul (.negate hunary)
  | .positive houter =>
    rw [settle_cons_of_complete rfl rfl]
    exact houter.settle_mul (.positive hunary)
  | .pow houter hbase =>
    rw [settle_cons_of_complete rfl rfl]
    exact houter.settle_mul (.power (.pow hbase hunary))

theorem AwaitsUnary.settle_add (h : AwaitsUnary context input waiting operands ts)
    (hunary : Unary context ts u rest) : ∃ waiting' operands' ts' u',
      settle .add waiting (u :: operands) = .ok (waiting', u' :: operands') ∧
        AwaitsFormula context input waiting' operands' ts' ∧ Formula context ts' u' rest := by
  obtain ⟨waiting', operands', ts', u', hsettle, hawaits, hterm⟩ := h.settle_mul hunary
  rw [settle_add_of_mul hsettle]
  exact hawaits.settle_add hterm

end Awaits

/-- The states that reading the input leads to, with the tokens that are left. Behind a complete
operand, that operand is an atom. -/
inductive Reached (context : Context) (input : List Token) : State → List Token → Prop
  | operand {waiting : List Waiting} {operands : List Expr} {ts : List Token} :
    AwaitsUnary context input waiting operands ts →
    Reached context input ⟨waiting, operands, true⟩ ts
  | operator {waiting : List Waiting} {operands : List Expr} {ts rest : List Token} {u : Expr} :
    AwaitsUnary context input waiting operands ts → Atom context ts u rest →
    Reached context input ⟨waiting, u :: operands, false⟩ rest

section Reached

variable {context : Context} {input ts rest : List Token} {waiting : List Waiting}
  {operands : List Expr} {u : Expr} {s s' : State}

theorem reached_of_pushOperator (op : Operator)
    (hawaits : AwaitsUnary context input waiting operands ts)
    (hatom : Atom context ts u (op.token :: rest))
    (h : State.pushOperator ⟨waiting, u :: operands, false⟩ op = .ok s') :
    Reached context input s' rest := by
  unfold State.pushOperator at h
  have hunary : Unary context ts u (op.token :: rest) := .power (.atom hatom)
  have hlevel : op = .pow ∨ (op = .mul ∨ op = .div) ∨ op = .add ∨ op = .sub := by
    cases op <;> simp
  rcases hlevel with rfl | hop | hop
  · simp only [settle_pow] at h
    cases h
    exact .operand (.pow hawaits hatom)
  · obtain ⟨_, _, _, _, hsettle, hterm, hleft⟩ := hawaits.settle_mul hunary
    simp only [settle_eq_mul hop, hsettle] at h
    cases h
    exact .operand (.binary hop hterm hleft)
  · obtain ⟨_, _, _, _, hsettle, hformula, hleft⟩ := hawaits.settle_add hunary
    simp only [settle_eq_add hop, hsettle] at h
    cases h
    exact .operand (.term (.binary hop hformula hleft))

theorem reached_of_closeBracket (hawaits : AwaitsUnary context input waiting operands ts)
    (hatom : Atom context ts u (.closeBracket :: rest))
    (h : State.closeBracket ⟨waiting, u :: operands, false⟩ = .ok s') :
    Reached context input s' rest := by
  obtain ⟨waiting', operands', _, u', hsettle, hformula, hu'⟩ :=
    hawaits.settle_add (.power (.atom hatom))
  unfold State.closeBracket at h
  simp only [close_of_settle hsettle] at h
  cases hformula with
  | start => cases h
  | bracket houter =>
    rw [close_bracket houter.noCall] at h
    cases h
    exact .operator houter (.bracket hu')
  | call hcalls houter =>
    cases h
    exact .operator houter (.call hcalls hu')

/-- One token keeps the state among those reached. A name is a variable where no bracket follows. -/
theorem Reached.read {t : Token} (h : Reached context input s (t :: ts))
    (hname : ∀ name, t = .ident name → ts.head? ≠ some .openBracket) (hread : s.read t = .ok s') :
    Reached context input s' ts := by
  cases h with
  | operand hawaits =>
    cases t with
    | number =>
      cases hread
      exact .operator hawaits .number
    | ident name =>
      cases hread
      exact .operator hawaits (.var (hname name rfl))
    | openBracket =>
      cases hread
      exact .operand (.term (.formula (.bracket hawaits)))
    | minus =>
      cases hread
      exact .operand (.negate hawaits)
    | plus =>
      cases hread
      exact .operand (.positive hawaits)
    | multiply | divide | power | closeBracket | endOfInput => cases hread
  | operator hawaits hatom =>
    cases t with
    | closeBracket => exact reached_of_closeBracket hawaits hatom hread
    | plus => exact reached_of_pushOperator .add hawaits hatom hread
    | minus => exact reached_of_pushOperator .sub hawaits hatom hread
    | multiply => exact reached_of_pushOperator .mul hawaits hatom hread
    | divide => exact reached_of_pushOperator .div hawaits hatom hread
    | power => exact reached_of_pushOperator .pow hawaits hatom hread
    | number | ident | openBracket | endOfInput => cases hread

theorem Reached.readCall {name : String}
    (h : Reached context input s (.ident name :: .openBracket :: ts))
    (hread : s.readCall context name = .ok s') : Reached context input s' ts := by
  cases h with
  | operand hawaits =>
    simp only [State.readCall, if_true] at hread
    split at hread
    · rename_i kind hcalled
      cases hread
      exact .operand (.term (.formula (.call (called_eq_ok_iff.mp hcalled) hawaits)))
    · cases hread
  | operator => cases hread

theorem Reached.finish {e : Expr} (h : Reached context input s rest)
    (hexpects : s.expectsOperand = false) (hfinish : s.finish = .ok e) :
    Formula context input e rest := by
  cases h with
  | operand => cases hexpects
  | operator hawaits hatom =>
    obtain ⟨waiting', operands', _, u', hsettle, hformula, hu'⟩ :=
      hawaits.settle_add (.power (.atom hatom))
    unfold State.finish at hfinish
    simp only [drain_of_settle hsettle] at hfinish
    cases hformula with
    | start =>
      cases hfinish
      exact hu'
    | bracket | call => cases hfinish

/-- A formula that is read from a reached state is the one that the whole input stands for. -/
theorem Reached.run {e : Expr} (h : Reached context input s ts)
    (hrun : Parser.run context s ts = .ok e) :
    ∃ rest, Formula context input e (.endOfInput :: rest) := by
  fun_induction Parser.run context s ts with
  | case1 => cases hrun
  | case2 s name ts t hread ih => exact ih (h.readCall hread) hrun
  | case3 => cases hrun
  | case4 s t ts hcall hend =>
    obtain ⟨rfl, hexpects⟩ := hend
    exact ⟨ts, h.finish hexpects hrun⟩
  | case5 s t ts hcall _ s' hread ih =>
    refine ih (h.read (fun name ht hbracket => ?_) hread) hrun
    obtain ⟨ts', rfl⟩ := List.head?_eq_some_iff.mp hbracket
    exact hcall name ts' ht rfl
  | case6 => cases hrun

end Reached

/-- The tokens are read up to the first end of input behind a formula. -/
theorem parseTokens_eq_ok_iff {context : Context} {ts : List Token} {e : Expr} :
    parseTokens context ts = .ok e ↔ ∃ rest, Formula context ts e (.endOfInput :: rest) := by
  constructor
  · intro h
    exact Reached.run (.operand (.term (.formula .start))) h
  · rintro ⟨rest, h⟩
    obtain ⟨waiting, operands, hrun, hsettle⟩ := h.run_eq [] trivial []
    have hfinish : State.finish ⟨waiting, operands, false⟩ = .ok e := by
      simp only [State.finish, drain_of_settle hsettle]
      rfl
    exact hrun.trans hfinish

/-- Of the tokens of a text, the parser accepts exactly those that are a formula of the grammar, and
it builds the tree of the grammar. -/
theorem parser_accepts_grammar {code : String} {ts : List Token} (h : Lexer.tokens code = .ok ts)
    (context : Context) (e : Expr) :
    parseTokens context ts = .ok e ↔ Formula context ts e [.endOfInput] := by
  rw [parseTokens_eq_ok_iff]
  constructor
  · rintro ⟨rest, hformula⟩
    rwa [Lexer.eq_nil_of_suffix h hformula.suffix] at hformula
  · intro hformula
    exact ⟨[], hformula⟩

/-- The sign in an exponent applies to the power behind it, but not to the factor after that. -/
theorem parser_accepts_grammar_exponent :
    ∃ ts, Lexer.tokens "a ^ -b ^ c * d" = .ok ts ∧
      Formula .standard ts (.mul (.pow (.var "a") (.neg (.pow (.var "b") (.var "c")))) (.var "d"))
        [.endOfInput] := by
  have hscan : Lexer.scan "a ^ -b ^ c * d".toList =
      .ok ([.ident "a", .power, .minus, .ident "b", .power, .ident "c", .multiply, .ident "d"],
        []) := by
    repeat refine Lexer.scan_of_token rfl ?_
    exact Lexer.scan_of_none rfl
  have htokens : Lexer.tokens "a ^ -b ^ c * d" =
      .ok [.ident "a", .power, .minus, .ident "b", .power, .ident "c", .multiply, .ident "d",
        .endOfInput] := by
    rw [Lexer.tokens, hscan]
    rfl
  exact ⟨_, htokens, (parser_accepts_grammar htokens .standard _).mp rfl⟩

end Parser

end SymbolicCalculus
