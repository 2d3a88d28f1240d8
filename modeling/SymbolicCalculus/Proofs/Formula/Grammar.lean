import SymbolicCalculus.Formula.Parser

/-! # The grammar of formulas

A formula is a sum of terms, a term a product of signed factors, and sums and products group to the
left. A sign applies to a whole power, and the exponent of a power may have a sign again, so powers
group to the right. Every nonterminal relates the tokens from which it is read to the tree it stands
for and the tokens that are left.
-/
namespace SymbolicCalculus

def Operator.token : Operator → Token
  | add => .plus
  | sub => .minus
  | mul => .multiply
  | div => .divide
  | pow => .power

namespace Grammar

/-- What a call of the name builds: the kind that the context has for it, or else the derivative
with regard to the symbol behind the letter `d`. -/
inductive Calls (context : Context) : String → Kind → Prop
  | function {name : String} {kind : Kind} : context.function? name = some kind →
    Calls context name kind
  | derivative {symbol : String} : context.function? ("d" ++ symbol) = none → symbol ≠ "" →
    Calls context ("d" ++ symbol) (.diff symbol)

theorem called_eq_ok_iff {context : Context} {name : String} {kind : Kind} :
    context.called name = .ok kind ↔ Calls context name kind := by
  constructor
  · intro h
    unfold Context.called at h
    split at h
    · rename_i hsome
      cases h
      exact .function hsome
    · rename_i hnone
      split at h
      · rename_i c rest hname
        cases h
        have hd : name = "d" ++ String.ofList (c :: rest) := by
          rw [← String.toList_inj]
          simp [hname]
        rw [hd] at hnone ⊢
        exact .derivative hnone (by simp [← String.toList_inj])
      · cases h
  · intro h
    cases h with
    | function hsome => simp [Context.called, hsome]
    | @derivative symbol hnone hsymbol =>
      obtain ⟨c, rest, hrest⟩ := List.exists_cons_of_ne_nil (l := symbol.toList)
        (by simpa using hsymbol)
      have hname : ("d" ++ symbol).toList = 'd' :: c :: rest := by simp [hrest]
      have hback : String.ofList (c :: rest) = symbol := by rw [← hrest, String.ofList_toList]
      simp only [Context.called, hnone, hname, hback]

mutual

/-- `formula = term {("+" | "-") term}` -/
inductive Formula (context : Context) : List Token → Expr → List Token → Prop
  | term {ts rest : List Token} {u : Expr} : Term context ts u rest → Formula context ts u rest
  | binary {op : Operator} {ts later rest : List Token} {u v : Expr} : op = .add ∨ op = .sub →
    Formula context ts u (op.token :: later) → Term context later v rest →
    Formula context ts (.node op.kind [u, v]) rest

/-- `term = unary {("*" | "/") unary}` -/
inductive Term (context : Context) : List Token → Expr → List Token → Prop
  | unary {ts rest : List Token} {u : Expr} : Unary context ts u rest → Term context ts u rest
  | binary {op : Operator} {ts later rest : List Token} {u v : Expr} : op = .mul ∨ op = .div →
    Term context ts u (op.token :: later) → Unary context later v rest →
    Term context ts (.node op.kind [u, v]) rest

/-- `unary = "-" unary | "+" unary | power` -/
inductive Unary (context : Context) : List Token → Expr → List Token → Prop
  | negate {ts rest : List Token} {u : Expr} : Unary context ts u rest →
    Unary context (.minus :: ts) (.neg u) rest
  | positive {ts rest : List Token} {u : Expr} : Unary context ts u rest →
    Unary context (.plus :: ts) u rest
  | power {ts rest : List Token} {u : Expr} : Power context ts u rest → Unary context ts u rest

/-- `power = atom ["^" unary]` -/
inductive Power (context : Context) : List Token → Expr → List Token → Prop
  | atom {ts rest : List Token} {u : Expr} : Atom context ts u rest → Power context ts u rest
  | pow {ts later rest : List Token} {u v : Expr} : Atom context ts u (.power :: later) →
    Unary context later v rest → Power context ts (.pow u v) rest

/-- `atom = number | name | name "(" formula ")" | "(" formula ")"`, where a name that is not called
is a variable. -/
inductive Atom (context : Context) : List Token → Expr → List Token → Prop
  | number {value : Binary64} {rest : List Token} :
    Atom context (.number value :: rest) (.real value) rest
  | var {name : String} {rest : List Token} : rest.head? ≠ some .openBracket →
    Atom context (.ident name :: rest) (.var name) rest
  | call {name : String} {kind : Kind} {ts rest : List Token} {u : Expr} :
    Calls context name kind → Formula context ts u (.closeBracket :: rest) →
    Atom context (.ident name :: .openBracket :: ts) (.node kind [u]) rest
  | bracket {ts rest : List Token} {u : Expr} : Formula context ts u (.closeBracket :: rest) →
    Atom context (.openBracket :: ts) u rest

end

mutual

/-- A formula takes its tokens from the front. -/
theorem Formula.suffix {context : Context} {ts rest : List Token} {u : Expr}
    (h : Formula context ts u rest) : rest <:+ ts := by
  match h with
  | .term hterm => exact hterm.suffix
  | .binary _ hleft hright =>
    exact hright.suffix.trans ((List.suffix_cons _ _).trans hleft.suffix)

theorem Term.suffix {context : Context} {ts rest : List Token} {u : Expr}
    (h : Term context ts u rest) : rest <:+ ts := by
  match h with
  | .unary hunary => exact hunary.suffix
  | .binary _ hleft hright =>
    exact hright.suffix.trans ((List.suffix_cons _ _).trans hleft.suffix)

theorem Unary.suffix {context : Context} {ts rest : List Token} {u : Expr}
    (h : Unary context ts u rest) : rest <:+ ts := by
  match h with
  | .negate hunary | .positive hunary => exact hunary.suffix.trans (List.suffix_cons _ _)
  | .power hpower => exact hpower.suffix

theorem Power.suffix {context : Context} {ts rest : List Token} {u : Expr}
    (h : Power context ts u rest) : rest <:+ ts := by
  match h with
  | .atom hatom => exact hatom.suffix
  | .pow hbase hexponent =>
    exact hexponent.suffix.trans ((List.suffix_cons _ _).trans hbase.suffix)

theorem Atom.suffix {context : Context} {ts rest : List Token} {u : Expr}
    (h : Atom context ts u rest) : rest <:+ ts := by
  match h with
  | .number | .var _ => exact List.suffix_cons _ _
  | .call _ hformula =>
    have hbracket := (List.suffix_cons _ _).trans hformula.suffix
    exact hbracket.trans ((List.suffix_cons _ _).trans (List.suffix_cons _ _))
  | .bracket hformula =>
    exact ((List.suffix_cons _ _).trans hformula.suffix).trans (List.suffix_cons _ _)

end

end Grammar

namespace Lexer

theorem scan_of_token {text rest rest' : List Char} {t : Token} {ts : List Token}
    (h : token? (skip text) = .ok (some (t, rest))) (hscan : scan (skip rest) = .ok (ts, rest')) :
    scan text = .ok (t :: ts, rest') := by
  rw [scan]
  split
  · simp_all
  · simp_all
  · rename_i htoken
    rw [h] at htoken
    cases htoken
    rw [hscan]

theorem scan_of_none {text : List Char} (h : token? (skip text) = .ok none) :
    scan text = .ok ([], text) := by
  rw [scan]
  split <;> simp_all

theorem token?_ne_endOfInput {text rest : List Char} {t : Token}
    (h : token? text = .ok (some (t, rest))) : t ≠ .endOfInput := by
  rintro rfl
  unfold token? at h
  split at h
  · rename_i scanned hsign
    obtain rfl : scanned = (.endOfInput, rest) := by simpa using h
    unfold sign? at hsign
    split at hsign <;> cases hsign
  · split at h
    · cases h
    · rename_i scanned hnumber
      obtain rfl : scanned = (.endOfInput, rest) := by simpa using h
      unfold number? at hnumber
      split at hnumber
      · cases hnumber
      · split at hnumber
        · cases hnumber
        · simp at hnumber
    · unfold ident? at h
      split at h
      · cases h
      · split at h
        · cases h
        · cases h

theorem scan_endOfInput {text rest : List Char} {ts : List Token}
    (h : scan text = .ok (ts, rest)) : .endOfInput ∉ ts := by
  fun_induction scan text generalizing ts rest with
  | case1 => cases h
  | case2 =>
    cases h
    exact List.not_mem_nil
  | case3 => cases h
  | case4 text t rest htoken later rest' hscan ih =>
    cases h
    rw [List.mem_cons, not_or]
    exact ⟨(token?_ne_endOfInput htoken).symm, ih hscan⟩

/-- The end of input stands behind all other tokens, and nowhere else. -/
theorem tokens_eq_ok {code : String} {ts : List Token} (h : tokens code = .ok ts) :
    ∃ front, ts = front ++ [.endOfInput] ∧ .endOfInput ∉ front := by
  unfold tokens at h
  split at h
  · cases h
  · rename_i front rest hscan
    split at h
    · cases h
      exact ⟨front, rfl, scan_endOfInput hscan⟩
    · cases h

theorem eq_nil_of_suffix {code : String} {ts rest : List Token} (h : tokens code = .ok ts)
    (hsuffix : .endOfInput :: rest <:+ ts) : rest = [] := by
  obtain ⟨front, rfl, hfront⟩ := tokens_eq_ok h
  rcases List.suffix_concat_iff.mp hsuffix with hnil | ⟨part, hpart, hsub⟩
  · cases hnil
  · cases part with
    | nil => simpa using hpart
    | cons t part =>
      obtain ⟨rfl, _⟩ := List.cons_eq_cons.mp hpart
      exact absurd (hsub.subset List.mem_cons_self) hfront

end Lexer

end SymbolicCalculus
