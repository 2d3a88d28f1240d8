import Mathlib.Data.List.Basic
import Mathlib.Data.List.TakeWhile
import SymbolicCalculus.Expr.Render
import SymbolicCalculus.Proofs.Expr.Structure

/-! # What is displayed of an expression

A template is filled marker by marker. The texts of the operands are put in as they are, whatever is
in them, and the name of a variable stands alone, where no marker has an operand. The symbol of a
derivative, however, is part of the template. A tree is displayed as its structure says as long as
no symbol of a derivative has a marker of the operand in it; a symbol that has one is not shown for
every operand.
-/
namespace SymbolicCalculus

section Markers

variable {texts : List (List Char)}

theorem fillIn_pending {c : Char} (hc : c.isDigit = false) (digits rest : List Char) :
    fillIn texts (some digits) (c :: rest) =
      fillMarker texts digits ++ fillIn texts none (c :: rest) := by
  simp only [fillIn, hc, Bool.false_eq_true, if_false]
  split <;> rfl

/-- A character that is not a digit ends a marker. -/
theorem fillIn_append (text : List Char) {c : Char} (hc : c.isDigit = false) (rest : List Char) :
    fillIn texts none (text ++ c :: rest) =
      fillIn texts none text ++ fillIn texts none (c :: rest) := by
  have hstate (state : Option (List Char)) : fillIn texts state (text ++ c :: rest) =
      fillIn texts state text ++ fillIn texts none (c :: rest) := by
    fun_induction fillIn texts state text with
    | case1 => rfl
    | case2 digits => exact fillIn_pending hc digits rest
    | _ => simp_all [fillIn]
  exact hstate none

theorem fillIn_digits (taken : List Char) {digits : List Char} (h : ∀ d ∈ digits, d.isDigit = true)
    (rest : List Char) :
    fillIn texts (some taken) (digits ++ rest) = fillIn texts (some (taken ++ digits)) rest := by
  induction digits generalizing taken with
  | nil => simp
  | cons d digits ih =>
    obtain ⟨hd, hdigits⟩ := List.forall_mem_cons.mp h
    rw [List.cons_append, fillIn, if_pos hd, ih _ hdigits, List.append_assoc, List.singleton_append]

theorem fillIn_marker {digits rest : List Char} (hdigits : ∀ d ∈ digits, d.isDigit = true)
    (hrest : ∀ c ∈ rest.head?, c.isDigit = false) :
    fillIn texts none ('%' :: (digits ++ rest)) =
      fillMarker texts digits ++ fillIn texts none rest := by
  rw [fillIn, if_pos rfl, fillIn_digits [] hdigits, List.nil_append]
  cases rest with
  | nil => simp [fillIn]
  | cons c rest => exact fillIn_pending (hrest c rfl) digits rest

def HasMarker (text digits : List Char) : Prop :=
  ∃ front back, text = front ++ '%' :: (digits ++ back) ∧ (∀ d ∈ digits, d.isDigit = true) ∧
    ∀ c ∈ back.head?, c.isDigit = false

theorem HasMarker.append_left {text digits : List Char} (h : HasMarker text digits)
    (before : List Char) : HasMarker (before ++ text) digits := by
  obtain ⟨front, back, rfl, hdigits, hback⟩ := h
  exact ⟨before ++ front, back, (List.append_assoc ..).symm, hdigits, hback⟩

theorem fillIn_eq_self_of_markers {text : List Char}
    (h : ∀ digits, HasMarker text digits → fillMarker texts digits = '%' :: digits) :
    fillIn texts none text = text := by
  -- The induction is on the length, because a marker is taken off with all its digits.
  induction hlength : text.length using Nat.strongRecOn generalizing text with
  | _ n ih =>
    cases text with
    | nil => rfl
    | cons c rest =>
      by_cases hc : c = '%'
      · obtain ⟨digits, back, rfl, hdigits, hback⟩ : ∃ digits back, rest = digits ++ back ∧
            (∀ d ∈ digits, d.isDigit = true) ∧ ∀ c ∈ back.head?, c.isDigit = false := by
          refine ⟨rest.takeWhile Char.isDigit, rest.dropWhile Char.isDigit,
            List.takeWhile_append_dropWhile.symm, fun d hd => List.mem_takeWhile_imp hd, ?_⟩
          intro d hd
          have hnot := List.head?_dropWhile_not Char.isDigit rest
          rwa [Option.mem_def.mp hd] at hnot
        have hself := h digits ⟨[], back, by rw [hc]; rfl, hdigits, hback⟩
        have hlater : fillIn texts none back = back := by
          refine ih _ ?_ (fun later hlater => h later ?_) rfl
          · simp only [← hlength, List.length_cons, List.length_append]
            omega
          · exact hlater.append_left (c :: digits)
        rw [hc, fillIn_marker hdigits hback, hself, hlater]
        rfl
      · have hlater : fillIn texts none rest = rest := by
          refine ih _ ?_ (fun later hlater => h later (hlater.append_left [c])) rfl
          simp [← hlength]
        rw [fillIn, if_neg hc, hlater]

theorem fillMarker_nil (digits : List Char) : fillMarker [] digits = '%' :: digits := by
  cases digits with
  | nil => rfl
  | cons d digits => rfl

theorem natOfDigits_eq_zero_iff {digits : List Char} (h : ∀ d ∈ digits, d.isDigit = true) :
    Numeral.natOfDigits digits = 0 ↔ ∀ d ∈ digits, d = '0' := by
  have hfold (n : Nat) : digits.foldl (fun n c => 10 * n + (c.toNat - '0'.toNat)) n = 0 ↔
      n = 0 ∧ ∀ d ∈ digits, d = '0' := by
    induction digits generalizing n with
    | nil => simp
    | cons d digits ih =>
      obtain ⟨hd, hdigits⟩ := List.forall_mem_cons.mp h
      have hzero : d.toNat - '0'.toNat = 0 ↔ d = '0' := by
        have hle := (Char.isDigit_iff_toNat.mp hd).1
        rw [← Char.toNat_inj]
        omega
      have hsum : 10 * n + (d.toNat - '0'.toNat) = 0 ↔ n = 0 ∧ d.toNat - '0'.toNat = 0 := by omega
      rw [List.foldl_cons, ih hdigits, List.forall_mem_cons, hsum, hzero, and_assoc]
  rw [Numeral.natOfDigits, hfold]
  simp

/-- The first operand is marked by zeros. -/
theorem fillMarker_of_zeros {digits : List Char} (h : digits ≠ [] ∧ ∀ d ∈ digits, d = '0')
    (text : List Char) : fillMarker [text] digits = text := by
  obtain ⟨hne, hzeros⟩ := h
  have hdigits : ∀ d ∈ digits, d.isDigit = true := by
    intro d hd
    rw [hzeros d hd]
    rfl
  rw [fillMarker, if_neg (by simpa using hne), (natOfDigits_eq_zero_iff hdigits).mpr hzeros]
  rfl

theorem fillMarker_of_not_zeros {digits : List Char} (hdigits : ∀ d ∈ digits, d.isDigit = true)
    (h : ¬ (digits ≠ [] ∧ ∀ d ∈ digits, d = '0')) (text : List Char) :
    fillMarker [text] digits = '%' :: digits := by
  cases digits with
  | nil => rfl
  | cons d digits =>
    have hpos : 0 < Numeral.natOfDigits (d :: digits) := Nat.pos_of_ne_zero fun hzero =>
      h ⟨List.cons_ne_nil d digits, (natOfDigits_eq_zero_iff hdigits).mp hzero⟩
    rw [fillMarker, if_neg (by simp), List.getElem?_eq_none (show [text].length ≤ _ from hpos)]
    rfl

end Markers

section Layout

/-- How the node is written around the texts of its operands, if it has as many as it expects. -/
def Kind.layout : Kind → List (List Char) → List Char
  | var name, [] => name.toList
  | real value, [] => value.toText.toList
  | integer value, [] => (toString value.toInt).toList
  | negate, [text] => '-' :: text
  | sin, [text] => "sin ".toList ++ text
  | cos, [text] => "cos ".toList ++ text
  | exp, [text] => "exp ".toList ++ text
  | log, [text] => "log ".toList ++ text
  | diff regard, [text] => "d/d".toList ++ regard.toList ++ ' ' :: text
  | add, [left, right] => left ++ ' ' :: '+' :: ' ' :: right
  | sub, [left, right] => left ++ ' ' :: '-' :: ' ' :: right
  | mul, [left, right] => left ++ ' ' :: '*' :: ' ' :: right
  | div, [left, right] => left ++ ' ' :: '/' :: ' ' :: right
  | pow, [left, right] => left ++ ' ' :: '^' :: ' ' :: right
  | _, _ => []

/-- No marker in the symbol of a derivative stands for the operand. -/
def Kind.Unmarked : Kind → Prop
  | .diff regard =>
    ∀ digits, HasMarker regard.toList digits → ¬ (digits ≠ [] ∧ ∀ d ∈ digits, d = '0')
  | _ => True

theorem Kind.fill_nil (kind : Kind) : kind.fill [] = kind.template.toList :=
  fillIn_eq_self_of_markers fun digits _ => fillMarker_nil digits

theorem Kind.fill_diff (regard : String) (text : List Char) :
    (Kind.diff regard).fill [text] =
      "d/d".toList ++ fillIn [text] none regard.toList ++ ' ' :: text := by
  have htemplate : (Kind.diff regard).template.toList =
      'd' :: '/' :: 'd' :: (regard.toList ++ ' ' :: ['%', '0']) := by
    simp [template]
  have hspace : fillIn [text] none (' ' :: ['%', '0']) = ' ' :: text := by
    simp [fillIn, fillMarker, Numeral.natOfDigits]
  rw [fill, htemplate]
  simp only [fillIn]
  rw [fillIn_append _ (by decide), hspace]
  rfl

theorem Kind.Unmarked.fillIn_eq {regard : String} (h : (Kind.diff regard).Unmarked)
    (text : List Char) : fillIn [text] none regard.toList = regard.toList := by
  refine fillIn_eq_self_of_markers fun digits hmarker => ?_
  have ⟨_, _, _, hdigits, _⟩ := hmarker
  exact fillMarker_of_not_zeros hdigits (h digits hmarker) text

/-- A text that is longer than the symbol would be seen in the place of a marker. -/
theorem Kind.unmarked_of_fillIn_eq {regard : String} {text : List Char}
    (hlong : regard.toList.length < text.length)
    (h : fillIn [text] none regard.toList = regard.toList) : (Kind.diff regard).Unmarked := by
  rintro digits ⟨front, back, hregard, hdigits, hback⟩ hzeros
  have hfilled : fillIn [text] none regard.toList =
      fillIn [text] none front ++ (text ++ fillIn [text] none back) := by
    rw [hregard, fillIn_append front (by decide), fillIn_marker hdigits hback,
      fillMarker_of_zeros hzeros]
  rw [← h, hfilled] at hlong
  simp only [List.length_append] at hlong
  omega

theorem Kind.fill_eq_layout {kind : Kind} (h : kind.Unmarked) {texts : List (List Char)}
    (hlength : texts.length = kind.arity) : kind.fill texts = kind.layout texts := by
  cases kind with
  | var | real | integer =>
    obtain rfl := List.eq_nil_of_length_eq_zero hlength
    exact fill_nil _
  | negate | sin | cos | exp | log =>
    obtain ⟨text, rfl⟩ := List.length_eq_one_iff.mp hlength
    rfl
  | diff regard =>
    obtain ⟨text, rfl⟩ := List.length_eq_one_iff.mp hlength
    rw [fill_diff, h.fillIn_eq]
    rfl
  | add | sub | mul | div | pow =>
    obtain ⟨left, right, rfl⟩ := List.length_eq_two.mp hlength
    rfl

end Layout

namespace Expr

mutual

/-- The expression in writing, node by node, in brackets if its root binds looser than what is
around it. -/
def printedIn (around : Precedence) : Expr → List Char
  | node kind operands =>
    let text := kind.layout (printedAll kind.precedence operands)
    if kind.precedence < around then bracket text else text

def printedAll (around : Precedence) : List Expr → List (List Char)
  | [] => []
  | e :: es => e.printedIn around :: printedAll around es

end

theorem displayIn_node (around : Precedence) (kind : Kind) (operands : List Expr) :
    (node kind operands).displayIn around =
      if kind.precedence < around then
        bracket (kind.fill (operands.map (displayIn kind.precedence)))
      else kind.fill (operands.map (displayIn kind.precedence)) := by
  have hall (es : List Expr) :
      displayAll kind.precedence es = es.map (displayIn kind.precedence) := by
    induction es with
    | nil => rfl
    | cons e es ih => simp [displayAll, ih]
  rw [displayIn, hall]

theorem printedIn_node (around : Precedence) (kind : Kind) (operands : List Expr) :
    (node kind operands).printedIn around =
      if kind.precedence < around then
        bracket (kind.layout (operands.map (printedIn kind.precedence)))
      else kind.layout (operands.map (printedIn kind.precedence)) := by
  have hall (es : List Expr) :
      printedAll kind.precedence es = es.map (printedIn kind.precedence) := by
    induction es with
    | nil => rfl
    | cons e es ih => simp [printedAll, ih]
  rw [printedIn, hall]

/-- Expressions are displayed as their structure says, with names as they are, if no symbol of a
derivative has a marker in it that stands for the operand. -/
theorem display_shows_structure {e : Expr} (he : e.WellFormed)
    (hmarkers : e.Everywhere (·.kind.Unmarked)) (around : Precedence) :
    e.displayIn around = e.printedIn around := by
  induction e using operandInduction generalizing around with
  | node kind operands ih =>
    obtain ⟨hlength, hoperands⟩ := wellFormed_node_iff.mp he
    obtain ⟨hkind, hbelow⟩ := everywhere_node_iff.mp hmarkers
    have htexts : operands.map (displayIn kind.precedence) =
        operands.map (printedIn kind.precedence) :=
      List.map_congr_left fun u hu => ih u hu (hoperands u hu) (hbelow u hu) _
    have hfill : kind.fill (operands.map (printedIn kind.precedence)) =
        kind.layout (operands.map (printedIn kind.precedence)) :=
      kind.fill_eq_layout hkind (by rw [List.length_map, hlength])
    rw [displayIn_node, printedIn_node, htexts, hfill]

/-- A marker without an operand may be in a symbol, and any marker in a name. -/
theorem display_shows_structure_names :
    ∃ e, e = mul (.diff "%1" (.add (.var "%0") (.integer 2))) (.var "y") ∧ e.WellFormed ∧
      e.Everywhere (·.kind.Unmarked) ∧ e.displayIn .power = e.printedIn .power ∧
      e.printedIn .power = "(d/d%1 (%0 + 2) * y)".toList := by
  have he : (mul (.diff "%1" (.add (.var "%0") (.integer 2))) (.var "y")).WellFormed := by
    simp [WellFormed, AllWellFormed, Kind.arity]
  have hsymbol : (Kind.diff "%1").Unmarked :=
    Kind.unmarked_of_fillIn_eq (show _ < "long".toList.length by decide) (by decide)
  have hmarkers : (mul (.diff "%1" (.add (.var "%0") (.integer 2))) (.var "y")).Everywhere
      (·.kind.Unmarked) := by
    simp only [everywhere_node_iff, kind, List.mem_cons, List.not_mem_nil, or_false,
      forall_eq_or_imp, forall_eq, IsEmpty.forall_iff, implies_true, and_true, true_and, hsymbol]
    exact ⟨trivial, ⟨trivial, trivial, trivial⟩, trivial⟩
  exact ⟨_, rfl, he, hmarkers, display_shows_structure he hmarkers _, by decide⟩

/-- The operand takes the place of the symbol. -/
theorem display_loses_marked_symbol :
    ∃ e, e = diff "%0" (.var "x") ∧ e.WellFormed ∧ e.displayIn .lowest = "d/dx x".toList ∧
      e.printedIn .lowest = "d/d%0 x".toList ∧ e.displayIn .lowest ≠ e.printedIn .lowest := by
  have hdisplay : (diff "%0" (.var "x")).displayIn .lowest = "d/dx x".toList := by decide
  have hprinted : (diff "%0" (.var "x")).printedIn .lowest = "d/d%0 x".toList := by decide
  refine ⟨_, rfl, by simp [WellFormed, AllWellFormed, Kind.arity], hdisplay, hprinted, ?_⟩
  rw [hdisplay, hprinted]
  decide

/-- No other symbols could be admitted. Each marked one is lost in some derivative, for example in
that of a variable with a longer name. -/
theorem exists_displayIn_ne_printedIn {regard : String} (h : ¬ (Kind.diff regard).Unmarked) :
    ∃ u : Expr, u.WellFormed ∧
      (diff regard u).displayIn .lowest ≠ (diff regard u).printedIn .lowest := by
  have hvar : (var (regard ++ "x")).displayIn .function = (regard ++ "x").toList :=
    (displayIn_node ..).trans (Kind.fill_nil _)
  have hdisplay : (diff regard (var (regard ++ "x"))).displayIn .lowest =
      "d/d".toList ++ fillIn [(regard ++ "x").toList] none regard.toList ++
        ' ' :: (regard ++ "x").toList := by
    rw [displayIn_node, ← Kind.fill_diff, ← hvar]
    rfl
  have hprinted : (diff regard (var (regard ++ "x"))).printedIn .lowest =
      "d/d".toList ++ regard.toList ++ ' ' :: (regard ++ "x").toList := rfl
  refine ⟨.var (regard ++ "x"), by simp [WellFormed, AllWellFormed, Kind.arity], fun heq => ?_⟩
  rw [hdisplay, hprinted, List.append_left_inj, List.append_right_inj] at heq
  exact h (Kind.unmarked_of_fillIn_eq (by simp) heq)

end Expr

end SymbolicCalculus
