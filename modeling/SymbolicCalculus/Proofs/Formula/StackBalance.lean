import SymbolicCalculus.Proofs.Formula.ShuntingYard

/-! # The balance of the two stacks

While a formula is read, there are as many operands as binary operations wait, and one more where an
operand is complete. A call waits directly below its bracket. So an operation that is completed
finds its operands, a call is completed by its own bracket only, and one operand is left at the end
of the input. The failures that would tell otherwise do not occur, whatever the text is.
-/
namespace SymbolicCalculus

/-- The failure tells that stacks and tokens are out of step. -/
def Error.IsInternal : Error → Prop
  | .flawed .missingOperand | .flawed .danglingOperands | .flawed .missingEnd => True
  | _ => False

theorem Text.head?_append (start rest : String) {c : Char} (h : start.toList.head? = some c) :
    (start ++ rest).toList.head? = some c := by
  rw [String.toList_append, List.head?_append, h]
  rfl

/-- Messages of other failures start with other letters. -/
theorem Flaw.head?_message {flaw : Flaw} (h : ¬ (Error.flawed flaw).IsInternal) :
    flaw.message.toList.head? = some 'U' ∨ flaw.message.toList.head? = some 'P' := by
  cases flaw with
  | missingOperand | danglingOperands | missingEnd => exact absurd trivial h
  | unclosedBracket => exact .inl (show "Unclosed '('".toList.head? = some 'U' from rfl)
  | unexpectedEnd => exact .inl (show "Unexpected end of input".toList.head? = some 'U' from rfl)
  | unexpected => exact .inl (Text.head?_append "Unexpected " _ rfl)
  | unmatched => exact .inl (Text.head?_append "Unmatched " _ rfl)
  | unreadable rest =>
    have hstart := Text.head?_append "Unexpected input '" rest rfl
    exact .inl (Text.head?_append _ "'" hstart)
  | missingExponent rest =>
    have hstart := Text.head?_append "Parsing Failure: Error \x7b input: " (Text.quote rest) rfl
    exact .inr (Text.head?_append _ ", code: Digit \x7d" hstart)

theorem Flaw.isInternal_of_message {flaw : Flaw}
    (h : flaw.message ∈ ["Missing operand", "Dangling operands", "Missing end of input"]) :
    (Error.flawed flaw).IsInternal := by
  apply Classical.byContradiction
  intro hother
  have hhead := head?_message hother
  simp only [List.mem_cons, List.not_mem_nil, or_false] at h
  rcases h with h | h | h
  all_goals
    rw [h] at hhead
    revert hhead
    decide

namespace Lexer

theorem exponentPart_eq_error {text : List Char} {flaw : Flaw}
    (h : exponentPart text = .error flaw) : ∃ rest, flaw = .missingExponent rest := by
  unfold exponentPart at h
  split at h
  · cases h
  · split at h
    · dsimp only at h
      split at h
      · cases h
        exact ⟨_, rfl⟩
      · cases h
    · cases h

/-- The only token that can begin and fail is a numeral. -/
theorem token?_eq_error {text : List Char} {flaw : Flaw} (h : token? text = .error flaw) :
    ∃ rest, flaw = .missingExponent rest := by
  unfold token? at h
  split at h
  · cases h
  · split at h
    · rename_i hnumber
      cases h
      unfold number? at hnumber
      split at hnumber
      · cases hnumber
      · split at hnumber
        · rename_i hexponent
          cases hnumber
          exact exponentPart_eq_error hexponent
        · cases hnumber
    · cases h
    · cases h

theorem scan_eq_error {text : List Char} {flaw : Flaw} (h : scan text = .error flaw) :
    ∃ rest, flaw = .missingExponent rest := by
  fun_induction scan text with
  | case1 text failure htoken =>
    cases h
    exact token?_eq_error htoken
  | case2 => cases h
  | case3 text t rest htoken failure hscan ih => exact ih (hscan.trans h)
  | case4 => cases h

theorem not_isInternal_of_tokens {code : String} {flaw : Flaw} (h : tokens code = .error flaw) :
    ¬ (Error.flawed flaw).IsInternal := by
  unfold tokens at h
  split at h
  · rename_i hscan
    cases h
    obtain ⟨rest, rfl⟩ := scan_eq_error hscan
    exact id
  · split at h
    · cases h
    · cases h
      exact id

end Lexer

def Waiting.isBinary : Waiting → Bool
  | binary _ => true
  | _ => false

namespace Parser

def binaries (waiting : List Waiting) : Nat := waiting.countP Waiting.isBinary

def Bracketed : List Waiting → Prop
  | [] => True
  | .call _ :: _ => False
  | .bracket :: .call _ :: waiting => Bracketed waiting
  | _ :: waiting => Bracketed waiting

theorem Bracketed.bracket {waiting : List Waiting} (h : Bracketed waiting) :
    Bracketed (.bracket :: waiting) := by
  match waiting, h with
  | [], _ => trivial
  | .binary _ :: _, h | .negate :: _, h | .positive :: _, h | .bracket :: _, h => exact h

theorem Bracketed.exists_bracket {waiting above below : List Waiting} {kind : Kind}
    (h : Bracketed waiting) (hwaiting : waiting = above ++ .call kind :: below) :
    ∃ front, above = front ++ [.bracket] := by
  fun_induction Bracketed waiting generalizing above with
  | case1 => simp at hwaiting
  | case2 => exact h.elim
  | case3 own waiting ih =>
    cases above with
    | nil => cases hwaiting
    | cons w above =>
      rw [List.cons_append, List.cons.injEq] at hwaiting
      cases above with
      | nil => exact ⟨[], by rw [← hwaiting.1]; rfl⟩
      | cons w' above =>
        rw [List.cons_append, List.cons.injEq] at hwaiting
        obtain ⟨front, rfl⟩ := ih h hwaiting.2.2
        exact ⟨w :: w' :: front, rfl⟩
  | case4 w waiting hcall hbracket ih =>
    cases above with
    | nil => exact absurd (List.cons_eq_cons.mp hwaiting).1 (hcall kind)
    | cons w' above =>
      rw [List.cons_append, List.cons.injEq] at hwaiting
      obtain ⟨front, rfl⟩ := ih h hwaiting.2
      exact ⟨w' :: front, rfl⟩

/-- There are as many operands as binary operations wait, and one more where an operand is complete.
Calls wait below their brackets. -/
structure Balanced (s : State) : Prop where
  count : s.operands.length = binaries s.waiting + if s.expectsOperand then 0 else 1
  bracketed : Bracketed s.waiting

theorem balanced_start : Balanced start where
  count := rfl
  bracketed := trivial

section Complete

variable {w : Waiting} {waiting : List Waiting} {operands : List Expr}

theorem binaries_cons (w : Waiting) (waiting : List Waiting) :
    binaries (w :: waiting) = binaries waiting + if w.isBinary then 1 else 0 := by
  rw [binaries, List.countP_cons]
  rfl

/-- Whatever has to be completed, other than a bracket, finds its operands, and the stacks stay
balanced. -/
theorem Balanced.complete (h : Balanced ⟨w :: waiting, operands, false⟩) (hw : w ≠ .bracket) :
    ∃ operands', w.complete operands = .ok operands' ∧ Balanced ⟨waiting, operands', false⟩ := by
  obtain ⟨hcount, hbracketed⟩ := h
  simp only [binaries_cons] at hcount
  cases w with
  | binary op =>
    match operands, hcount with
    | right :: left :: operands, hcount =>
      refine ⟨_, rfl, ?_, hbracketed⟩
      simpa [Waiting.isBinary] using hcount
  | negate | positive =>
    match operands, hcount with
    | u :: operands, hcount =>
      refine ⟨_, rfl, ?_, hbracketed⟩
      simpa [Waiting.isBinary] using hcount
  | call kind => exact hbracketed.elim
  | bracket => exact absurd rfl hw

theorem Balanced.complete_call {kind : Kind}
    (h : Balanced ⟨.bracket :: .call kind :: waiting, operands, false⟩) :
    ∃ operands', (Waiting.call kind).complete operands = .ok operands' ∧
      Balanced ⟨waiting, operands', false⟩ := by
  obtain ⟨hcount, hbracketed⟩ := h
  match operands, hcount with
  | u :: operands, hcount => exact ⟨_, rfl, hcount, hbracketed⟩

def Keeps {α : Type} (P : α → Prop) : Except Error α → Prop
  | .ok value => P value
  | .error error => ¬ error.IsInternal

theorem Keeps.of_ok {α : Type} {P : α → Prop} {outcome : Except Error α} {value : α}
    (h : Keeps P outcome) (houtcome : outcome = .ok value) : P value := by
  rw [houtcome] at h
  exact h

theorem Keeps.of_error {α : Type} {P : α → Prop} {outcome : Except Error α} {error : Error}
    (h : Keeps P outcome) (houtcome : outcome = .error error) : ¬ error.IsInternal := by
  rw [houtcome] at h
  exact h

theorem Balanced.settle (op : Operator) (h : Balanced ⟨waiting, operands, false⟩) :
    ∃ waiting' operands', settle op waiting operands = .ok (waiting', operands') ∧
      Balanced ⟨waiting', operands', false⟩ ∧ ∀ w ∈ waiting'.head?, w.precedes op = false := by
  induction waiting generalizing operands with
  | nil => exact ⟨[], operands, rfl, h, by simp⟩
  | cons w waiting ih =>
    by_cases hprecedes : w.precedes op = true
    · have hw : w ≠ .bracket := by
        rintro rfl
        cases hprecedes
      obtain ⟨operands', hcomplete, hbalanced⟩ := h.complete hw
      rw [settle_cons_of_complete hprecedes hcomplete]
      exact ih hbalanced
    · rw [Bool.not_eq_true] at hprecedes
      exact ⟨w :: waiting, operands, settle_cons_of_not hprecedes, h, by simpa using hprecedes⟩

/-- Everything down to the start of the formula is completed before a sum. -/
theorem Balanced.settle_add (h : Balanced ⟨waiting, operands, false⟩) :
    ∃ waiting' operands', Parser.settle .add waiting operands = .ok (waiting', operands') ∧
      Balanced ⟨waiting', operands', false⟩ ∧ AtStart waiting' := by
  obtain ⟨waiting', operands', hsettle, hbalanced, hhead⟩ := h.settle .add
  refine ⟨waiting', operands', hsettle, hbalanced, ?_⟩
  cases waiting' with
  | nil => trivial
  | cons w waiting' =>
    have hw := hhead w rfl
    rw [precedes_add] at hw
    cases w with
    | binary | negate | positive => cases hw
    | call => exact hbalanced.bracketed
    | bracket => trivial

/-- A closing bracket completes what is above its counterpart, unless it has none. -/
theorem Balanced.close (h : Balanced ⟨waiting, operands, false⟩) :
    Keeps (fun left => Balanced ⟨left.1, left.2, false⟩) (close waiting operands) := by
  obtain ⟨waiting', operands', hsettle, hbalanced, hstart⟩ := h.settle_add
  rw [close_of_settle hsettle]
  match waiting', hstart with
  | [], _ => exact id
  | .bracket :: .call kind :: waiting', _ =>
    obtain ⟨completed, hcomplete, hcompleted⟩ := hbalanced.complete_call
    simp only [Parser.close, hcomplete]
    exact hcompleted
  | [.bracket], _ | .bracket :: .binary _ :: _, _ | .bracket :: .negate :: _, _
  | .bracket :: .positive :: _, _ | .bracket :: .bracket :: _, _ =>
    exact ⟨hbalanced.count, hbalanced.bracketed⟩

/-- At the end of the input a single operand is left, unless a bracket is open. -/
theorem Balanced.drain (h : Balanced ⟨waiting, operands, false⟩) :
    Keeps (fun left => ∃ e, left = [e]) (drain waiting operands) := by
  obtain ⟨waiting', operands', hsettle, hbalanced, hstart⟩ := h.settle_add
  rw [drain_of_settle hsettle]
  match waiting', hstart with
  | [], _ => exact List.length_eq_one_iff.mp hbalanced.count
  | .bracket :: _, _ => exact id

end Complete

section Read

variable {context : Context} {s s' : State}

theorem Balanced.pushOperand (h : Balanced s) (hexpects : s.expectsOperand = true) (e : Expr) :
    Balanced (s.pushOperand e) where
  count := by simp [State.pushOperand, h.count, hexpects]
  bracketed := h.bracketed

theorem Balanced.pushOperator (h : Balanced s) (hexpects : s.expectsOperand = false)
    (op : Operator) : Keeps Balanced (s.pushOperator op) := by
  obtain ⟨waiting, operands, _⟩ := s
  cases hexpects
  obtain ⟨waiting', operands', hsettle, hbalanced, _⟩ := h.settle op
  simp only [State.pushOperator, hsettle]
  refine ⟨?_, hbalanced.bracketed⟩
  simpa [binaries_cons, Waiting.isBinary] using hbalanced.count

theorem Balanced.closeBracket (h : Balanced s) (hexpects : s.expectsOperand = false) :
    Keeps Balanced s.closeBracket := by
  obtain ⟨waiting, operands, _⟩ := s
  cases hexpects
  unfold State.closeBracket
  split
  · rename_i hstacks
    exact h.close.of_ok hstacks
  · rename_i hstacks
    exact h.close.of_error hstacks

theorem Balanced.read (h : Balanced s) (t : Token) : Keeps Balanced (s.read t) := by
  by_cases hexpects : s.expectsOperand = true
  · rw [State.read, if_pos hexpects]
    cases t with
    | number | ident => exact h.pushOperand hexpects _
    | openBracket => exact ⟨h.count, h.bracketed.bracket⟩
    | minus | plus => exact ⟨h.count, h.bracketed⟩
    | multiply | divide | power | closeBracket | endOfInput => exact id
  · rw [State.read, if_neg hexpects]
    rw [Bool.not_eq_true] at hexpects
    cases t with
    | closeBracket => exact h.closeBracket hexpects
    | plus | minus | multiply | divide | power => exact h.pushOperator hexpects _
    | number | ident | openBracket | endOfInput => exact id

theorem not_isInternal_of_called {name : String} {error : Error}
    (h : context.called name = .error error) : ¬ error.IsInternal := by
  unfold Context.called at h
  split at h
  · cases h
  · split at h
    · cases h
    · cases h
      exact id

theorem Balanced.readCall (h : Balanced s) (context : Context) (name : String) :
    Keeps Balanced (s.readCall context name) := by
  unfold State.readCall
  split
  · split
    · exact ⟨h.count, h.bracketed⟩
    · rename_i hcalled
      exact not_isInternal_of_called hcalled
  · exact id

/-- At the end of the input either a bracket is open or a single expression is left. -/
theorem Balanced.finish (h : Balanced s) (hexpects : s.expectsOperand = false) :
    Keeps (fun _ => True) s.finish := by
  obtain ⟨waiting, operands, _⟩ := s
  cases hexpects
  unfold State.finish
  split
  · trivial
  · rename_i hleft
    obtain ⟨e, he⟩ := h.drain.of_ok hleft
    cases he
  · rename_i hone _ hleft
    obtain ⟨e, rfl⟩ := h.drain.of_ok hleft
    exact absurd rfl (hone e)
  · rename_i hleft
    exact h.drain.of_error hleft

theorem not_endOfInput_of_read {t : Token} (h : s.read t = .ok s') : t ≠ .endOfInput := by
  rintro rfl
  unfold State.read at h
  split at h <;> cases h

/-- Tokens with an end of input are read without an internal failure. -/
theorem Balanced.run {ts : List Token} (h : Balanced s) (hend : .endOfInput ∈ ts) :
    Keeps (fun _ => True) (run context s ts) := by
  fun_induction Parser.run context s ts with
  | case1 => cases hend
  | case2 s name ts s' hread ih =>
    apply ih ((h.readCall context name).of_ok hread)
    simpa using hend
  | case3 s name ts error hread => exact (h.readCall context name).of_error hread
  | case4 s t ts hcall hlast => exact h.finish hlast.2
  | case5 s t ts hcall hlast s' hread ih =>
    apply ih ((h.read t).of_ok hread)
    rw [List.mem_cons] at hend
    exact hend.resolve_left (not_endOfInput_of_read hread).symm
  | case6 s t ts hcall hlast error hread => exact (h.read t).of_error hread

end Read

/-- The states that a run over the input goes through, with the tokens that are still to be read.
Operations are completed one by one before the token that completes them has been read. -/
inductive Arises (context : Context) (input : List Token) : State → List Token → Prop
  | start : Arises context input start input
  | call {s s' : State} {name : String} {ts : List Token} :
    Arises context input s (.ident name :: .openBracket :: ts) →
    s.readCall context name = .ok s' → Arises context input s' ts
  | read {s s' : State} {t : Token} {ts : List Token} : Arises context input s (t :: ts) →
    (∀ name, t = .ident name → ts.head? ≠ some .openBracket) →
    s.read t = .ok s' → Arises context input s' ts
  | settle {op : Operator} {w : Waiting} {waiting : List Waiting} {operands operands' : List Expr}
    {ts : List Token} : Arises context input ⟨w :: waiting, operands, false⟩ (op.token :: ts) →
    w.precedes op = true → w.complete operands = .ok operands' →
    Arises context input ⟨waiting, operands', false⟩ (op.token :: ts)
  | close {w : Waiting} {waiting : List Waiting} {operands operands' : List Expr}
    {ts : List Token} : Arises context input ⟨w :: waiting, operands, false⟩ (.closeBracket :: ts) →
    w ≠ .bracket → w.complete operands = .ok operands' →
    Arises context input ⟨waiting, operands', false⟩ (.closeBracket :: ts)
  | drain {w : Waiting} {waiting : List Waiting} {operands operands' : List Expr}
    {ts : List Token} : Arises context input ⟨w :: waiting, operands, false⟩ (.endOfInput :: ts) →
    w.complete operands = .ok operands' →
    Arises context input ⟨waiting, operands', false⟩ (.endOfInput :: ts)

section Arises

variable {context : Context} {input ts : List Token} {s : State}

theorem Balanced.of_complete {w : Waiting} {waiting : List Waiting} {operands operands' : List Expr}
    (h : Balanced ⟨w :: waiting, operands, false⟩)
    (hcomplete : w.complete operands = .ok operands') : Balanced ⟨waiting, operands', false⟩ := by
  have hw : w ≠ .bracket := by
    rintro rfl
    cases hcomplete
  obtain ⟨completed, hcompleted, hbalanced⟩ := h.complete hw
  rw [hcompleted] at hcomplete
  cases hcomplete
  exact hbalanced

theorem Arises.balanced (h : Arises context input s ts) : Balanced s := by
  induction h with
  | start => exact balanced_start
  | call _ hread ih => exact (ih.readCall context _).of_ok hread
  | read _ _ hread ih => exact (ih.read _).of_ok hread
  | settle _ _ hcomplete ih => exact ih.of_complete hcomplete
  | close _ _ hcomplete ih => exact ih.of_complete hcomplete
  | drain _ hcomplete ih => exact ih.of_complete hcomplete

/-- From every such state the run goes on to its own outcome. -/
theorem Arises.run_eq (h : Arises context input s ts) :
    run context s ts = parseTokens context input := by
  induction h with
  | start => rfl
  | call _ hread ih => rw [← ih, run, hread]
  | @read s s' t ts _ hname hread ih =>
    have hlast : ¬ (t = .endOfInput ∧ s.expectsOperand = false) := by
      intro h
      exact not_endOfInput_of_read hread h.1
    rw [← ih, run, if_neg hlast, hread]
    rintro name ts' rfl rfl
    exact hname name rfl rfl
  | @settle op w waiting operands operands' ts _ hprecedes hcomplete ih =>
    -- The operator is still to be read, and goes on with what is left to be completed.
    rw [← ih]
    cases op <;> simp [run, Operator.token, State.read, State.readOperator, State.pushOperator,
      settle_cons_of_complete hprecedes hcomplete]
  | @close w waiting operands operands' ts _ hw hcomplete ih =>
    have hclose : Parser.close (w :: waiting) operands = Parser.close waiting operands' := by
      cases w with
      | binary | negate | positive | call => simp [Parser.close, hcomplete]
      | bracket => exact absurd rfl hw
    rw [← ih]
    simp [run, State.read, State.readOperator, State.closeBracket, hclose]
  | @drain w waiting operands operands' ts _ hcomplete ih =>
    rw [← ih]
    simp [run, State.finish, Parser.drain, hcomplete]

end Arises

/-- Reading a formula never ends with an internal failure. In every state that a run over the tokens
of a text goes through, there are as many operands as binary operations wait, and one more where no
operand is expected. Every call waits directly below a bracket, so no call is on top of the stack
and only its bracket completes it. Every operation that may be completed finds its operands. -/
theorem parser_internal_failures_unreachable (context : Context) (code : String) :
    (∀ flaw : Flaw,
      flaw.message ∈ ["Missing operand", "Dangling operands", "Missing end of input"] →
        parseIn context code ≠ .error (.flawed flaw)) ∧
    ∀ ts s rest, Lexer.tokens code = .ok ts → Arises context ts s rest →
      run context s rest = parseTokens context ts ∧
      s.operands.length = binaries s.waiting + (if s.expectsOperand then 0 else 1) ∧
      (∀ above kind below, s.waiting = above ++ .call kind :: below →
        ∃ front, above = front ++ [.bracket]) ∧
      (s.expectsOperand = false →
        (∀ w waiting, s.waiting = w :: waiting → w ≠ .bracket →
          ∃ operands, w.complete s.operands = .ok operands) ∧
        ∀ kind waiting, s.waiting = .bracket :: .call kind :: waiting →
          ∃ operands, (Waiting.call kind).complete s.operands = .ok operands) := by
  constructor
  · intro flaw hmessage hparse
    apply absurd (Flaw.isInternal_of_message hmessage)
    unfold parseIn at hparse
    split at hparse
    · rename_i ts htokens
      obtain ⟨front, rfl, _⟩ := Lexer.tokens_eq_ok htokens
      exact (balanced_start.run (by simp)).of_error hparse
    · rename_i flaw' htokens
      cases hparse
      exact Lexer.not_isInternal_of_tokens htokens
  · intro ts s rest _ harises
    have hbalanced := harises.balanced
    refine ⟨harises.run_eq, hbalanced.count, ?_, ?_⟩
    · intro above kind below hwaiting
      exact hbalanced.bracketed.exists_bracket hwaiting
    · intro hexpects
      obtain ⟨waiting, operands, _⟩ := s
      cases hexpects
      constructor
      · rintro w waiting rfl hw
        obtain ⟨operands', hcomplete, _⟩ := hbalanced.complete hw
        exact ⟨operands', hcomplete⟩
      · rintro kind waiting rfl
        obtain ⟨operands', hcomplete, _⟩ := hbalanced.complete_call
        exact ⟨operands', hcomplete⟩

/-- While the bracket of a call closes, the power inside has become one operand, and the factor
before the call waits for a second one. -/
theorem parser_internal_failures_unreachable_call :
    ∃ ts s, Lexer.tokens "c * sin(a ^ b)" = .ok ts ∧
      Arises .standard ts s [.closeBracket, .endOfInput] ∧
      s.waiting = [.bracket, .call .sin, .binary .mul] ∧
      s.operands = [.pow (.var "a") (.var "b"), .var "c"] ∧
      s.operands.length = binaries s.waiting + 1 ∧
      ∃ operands, (Waiting.call .sin).complete s.operands = .ok operands := by
  have hscan : Lexer.scan "c * sin(a ^ b)".toList =
      .ok ([.ident "c", .multiply, .ident "sin", .openBracket, .ident "a", .power, .ident "b",
        .closeBracket], []) := by
    repeat refine Lexer.scan_of_token rfl ?_
    exact Lexer.scan_of_none rfl
  have htokens : Lexer.tokens "c * sin(a ^ b)" =
      .ok [.ident "c", .multiply, .ident "sin", .openBracket, .ident "a", .power, .ident "b",
        .closeBracket, .endOfInput] := by
    rw [Lexer.tokens, hscan]
    rfl
  have harises : Arises .standard
      [.ident "c", .multiply, .ident "sin", .openBracket, .ident "a", .power, .ident "b",
        .closeBracket, .endOfInput]
      ⟨[.bracket, .call .sin, .binary .mul], [.pow (.var "a") (.var "b"), .var "c"], false⟩
      [.closeBracket, .endOfInput] := by
    have hcall (rest : List Token) :
        Arises .standard (.ident "c" :: .multiply :: .ident "sin" :: .openBracket :: rest)
          ⟨[.bracket, .call .sin, .binary .mul], [.var "c"], true⟩ rest :=
      ((Arises.start.read (by simp) rfl).read (by simp) rfl).call rfl
    have hbase := (hcall [.ident "a", .power, .ident "b", .closeBracket, .endOfInput]).read
      (by simp) rfl
    have hpower := (hbase.read (by simp) rfl).read (by simp) rfl
    exact hpower.close (by simp) rfl
  obtain ⟨_, hcount, _, hcompletes⟩ :=
    (parser_internal_failures_unreachable .standard _).2 _ _ _ htokens harises
  exact ⟨_, _, htokens, harises, rfl, rfl, hcount, (hcompletes rfl).2 _ _ rfl⟩

end Parser

end SymbolicCalculus
