import DropTable.Proofs.Program.Conversion
import DropTable.Proofs.Program.Rearrangement
import DropTable.Proofs.Token.Seams
/-!
# Formulas in parentheses

A text in parentheses is read as it is read alone: a parenthesis in front of it is like its start,
and one behind it like its end.  The opening parenthesis also shields the operators that wait from
all that come within, so that a group is put out as the program of its formula before anything
outside is.
-/

namespace DropTable

namespace Token

variable {α : Type} [Scalar α] [Numeral α]

private theorem scan_group (previous : Option Char) (text : String) (rest : List Char) :
    (scan previous [] ('(' :: (solid text ++ ')' :: rest)) : List (Token α)) =
      .operator .openParen ::
        (ofText text ++ .operator .closeParen :: scan (some ')') [] rest) := by
  have hread (op : Operator) (hop : op ≠ .subtract) (previous : Option Char) (rest : List Char) :
      (scan previous [] (op.symbol :: rest) : List (Token α)) =
        .operator op :: scan (some op.symbol) [] rest :=
    scan_operator fun hminus => absurd hminus hop
  have hopen : (scan previous [] ('(' :: (solid text ++ ')' :: rest)) : List (Token α)) =
      .operator .openParen :: scan (some '(') [] (solid text ++ ')' :: rest) :=
    hread .openParen Operator.noConfusion _ _
  have hclose : (scan ((solid text).getLast?.or none) [] (')' :: rest) : List (Token α)) =
      .operator .closeParen :: scan (some ')') [] rest :=
    hread .closeParen Operator.noConfusion _ _
  have hstart : (some '(').any endsOperand = (none : Option Char).any endsOperand := rfl
  have hend : ∀ c ∈ (')' :: rest).head?, (Operator.ofChar? c).isSome = true :=
    isSome_ofChar?_symbol .closeParen rest
  rw [hopen, scan_congr hstart, scan_append hend, hclose]
  rfl

private theorem solid_group (text : String) :
    solid ("(" ++ text ++ ")") = '(' :: (solid text ++ [')']) := by
  rw [solid_append, solid_append]
  rfl

private theorem ofText_group (text : String) :
    (ofText ("(" ++ text ++ ")") : List (Token α)) =
      .operator .openParen :: (ofText text ++ [.operator .closeParen]) := by
  rw [ofText, ← solid, solid_group, scan_group]
  rfl

private theorem ofText_groups {op : Operator} (hop : op.isParen = false) (a b : String) :
    (ofText ("(" ++ a ++ ")" ++ op.symbol.toString ++ "(" ++ b ++ ")") : List (Token α)) =
      ofText ("(" ++ a ++ ")") ++ .operator op :: ofText ("(" ++ b ++ ")") := by
  have hsolid : solid ("(" ++ a ++ ")" ++ op.symbol.toString ++ "(" ++ b ++ ")") =
      '(' :: (solid a ++ ')' :: op.symbol :: solid ("(" ++ b ++ ")")) := by
    have hsplit : "(" ++ a ++ ")" ++ op.symbol.toString ++ "(" ++ b ++ ")" =
        "(" ++ a ++ ")" ++ op.symbol.toString ++ ("(" ++ b ++ ")") := by
      simp only [String.append_assoc]
    rw [hsplit, solid_append, solid_append, solid_group a, solid_symbol, List.append_assoc,
      List.cons_append, List.append_assoc]
    rfl
  have hseam : (scan (some ')') [] (op.symbol :: solid ("(" ++ b ++ ")")) : List (Token α)) =
      .operator op :: ofText ("(" ++ b ++ ")") :=
    scan_seam hop fun _ hprevious => by contradiction
  rw [ofText, ← solid, hsolid, scan_group, hseam, ofText_group a, List.cons_append,
    List.append_assoc]
  rfl

end Token

namespace Program

variable {α : Type}

/-! ## Behind an open parenthesis -/

private theorem emitted_append (top below : List Operator) (t : Token α) :
    emitted (top ++ .openParen :: below) t = emitted top t := by
  cases t with
  | operator op =>
      have htake : (top ++ .openParen :: below).takeWhile (releases op) =
          top.takeWhile (releases op) := by
        rw [List.takeWhile_append, List.takeWhile_cons_of_neg (by simp), List.append_nil]
        split
        case isTrue hall => exact ((List.takeWhile_prefix _).eq_of_length hall).symm
        case isFalse => rfl
      rw [emitted, emitted, Token.operator?, Option.elim_some, Option.elim_some, htake]
  | _ => rfl

private theorem emittedAll_append {top : List Operator} {tokens : List (Token α)}
    (h : Nests top tokens) (below : List Operator) :
    emittedAll (top ++ .openParen :: below) tokens = emittedAll top tokens := by
  induction tokens generalizing top with
  | nil => rfl
  | cons t tokens ih =>
      obtain ⟨hfirst, hrest⟩ := h.step
      rw [emittedAll, emittedAll, emitted_append, stacked_append hfirst, ih hrest]

private theorem rearrange_closeParen {waiting : List Operator}
    (h : ∀ op ∈ waiting, op.isParen = false) (below : List Operator) (rest : List (Token α)) :
    rearrange (waiting ++ .openParen :: below) (.operator .closeParen :: rest) =
      waiting.map .operator ++ rearrange below rest := by
  have hall : ∀ op ∈ waiting, decide (op ≠ .openParen) = true := by
    intro op hop
    apply decide_eq_true
    rintro rfl
    exact absurd (h _ hop) (by decide)
  rw [rearrange, List.takeWhile_append_of_pos hall, List.dropWhile_append_of_pos hall]
  simp

private theorem rearrange_group {tokens : List (Token α)} (h : Formula.Balanced tokens)
    (waiting : List Operator) (rest : List (Token α)) :
    rearrange waiting (.operator .openParen :: (tokens ++ .operator .closeParen :: rest)) =
      (ofFormula tokens).tokens ++ rearrange waiting rest := by
  have hnests : Nests [] tokens := nests_nil_iff.2 h.nested
  have hemitted : emittedAll (.openParen :: waiting) tokens = emittedAll [] tokens :=
    emittedAll_append hnests waiting
  have hwaiting : tokens.foldl stacked (.openParen :: waiting) =
      waitingAfter tokens ++ .openParen :: waiting := foldl_stacked_append hnests waiting
  have hprogram : (ofFormula tokens).tokens =
      emittedAll [] tokens ++ (waitingAfter tokens).map .operator := rearrange_eq [] tokens
  calc rearrange waiting (.operator .openParen :: (tokens ++ .operator .closeParen :: rest))
      = rearrange (.openParen :: waiting) (tokens ++ .operator .closeParen :: rest) := rfl
    _ = emittedAll [] tokens ++ rearrange (waitingAfter tokens ++ .openParen :: waiting)
          (.operator .closeParen :: rest) := by
        rw [rearrange_append, hemitted, hwaiting]
    _ = emittedAll [] tokens ++
          ((waitingAfter tokens).map .operator ++ rearrange waiting rest) := by
        rw [rearrange_closeParen (isParen_of_balanced h).1]
    _ = (ofFormula tokens).tokens ++ rearrange waiting rest := by
        rw [← List.append_assoc, hprogram]

private theorem ofFormula_group {tokens : List (Token α)} (h : Formula.Balanced tokens) :
    ofFormula (.operator .openParen :: (tokens ++ [.operator .closeParen])) = ofFormula tokens := by
  have hgroup := rearrange_group h [] []
  rw [rearrange, List.map_nil, List.append_nil] at hgroup
  rw [ofFormula, hgroup]

private theorem ofFormula_groups {left right : List (Token α)} (hleft : Formula.Balanced left)
    (hright : Formula.Balanced right) {op : Operator} (hop : op.isParen = false) :
    (ofFormula (.operator .openParen :: (left ++ [.operator .closeParen]) ++
        .operator op :: .operator .openParen :: (right ++ [.operator .closeParen]))).tokens =
      (ofFormula left).tokens ++ (ofFormula right).tokens ++ [.operator op] := by
  rw [ofFormula, List.cons_append, List.append_assoc, List.singleton_append, rearrange_group hleft,
    rearrange_binary hop, List.takeWhile_nil, List.dropWhile_nil, List.map_nil, List.nil_append,
    rearrange_group hright, List.append_assoc]
  rfl

/-! ## Compiled groups -/

variable [Scalar α] [Numeral α]

/-- A group compiles to the program of its text, and two groups with an operator between them to
both programs and the operator behind them, whatever else the texts are. -/
theorem compile_grouped {a b : String} {p q : Program α} (ha : compile a = .ok p)
    (hb : compile b = .ok q) :
    compile ("(" ++ a ++ ")") = .ok p ∧
      ∀ op : Operator, op.isParen = false →
        compile ("(" ++ a ++ ")" ++ op.symbol.toString ++ "(" ++ b ++ ")") =
          .ok ⟨p.tokens ++ q.tokens ++ [.operator op]⟩ := by
  obtain ⟨haccepted, rfl⟩ := compile_eq_ok_iff.1 ha
  obtain ⟨hbaccepted, rfl⟩ := compile_eq_ok_iff.1 hb
  refine ⟨compile_eq_ok_iff.2 ?_, fun op hop => compile_eq_ok_iff.2 ?_⟩
  · rw [Token.ofText_group]
    exact ⟨haccepted.group, ofFormula_group haccepted.balanced⟩
  · rw [Token.ofText_groups hop, Token.ofText_group, Token.ofText_group]
    refine ⟨haccepted.group.operation hbaccepted.group hop, ?_⟩
    rw [← ofFormula_groups haccepted.balanced hbaccepted.balanced hop]

/-- A minus between two groups, one with a sign and a minus in it, and one that is no expression. -/
theorem compile_grouped_difference :
    let x : Token Float := .identifier "x" true
    let y : Token Float := .identifier "y" false
    compile "-x - y" = .ok ⟨[x, y, .operator .subtract]⟩ ∧ compile "(y)()" = .ok ⟨[y]⟩ ∧
      compile "(-x - y)" = .ok ⟨[x, y, .operator .subtract]⟩ ∧
      compile "(-x - y)-((y)())" =
        .ok ⟨[x, y, .operator .subtract, y, .operator .subtract]⟩ := by
  intro x y
  have hleft : compile "-x - y" = .ok ⟨[x, y, .operator .subtract]⟩ := rfl
  have hright : compile "(y)()" = .ok ⟨[y]⟩ := rfl
  obtain ⟨hgroup, hjoined⟩ := compile_grouped hleft hright
  exact ⟨hleft, hright, hgroup, hjoined .subtract rfl⟩

end Program

end DropTable
