import Mathlib.Data.List.TakeWhile
import DropTable.Numeral.Binary64
import DropTable.Proofs.Token.Pieces
import DropTable.Scalar.Binary64
/-!
# Operators between two texts

An operator behind a complete operand separates two texts: they are read as if each stood alone,
with the operator between them.  For a minus this depends on the one character before it.  A digit,
a letter, an underscore or a closing parenthesis makes it a subtraction.  But a number may also end
in a point, and behind a point a minus is taken for the sign of what follows.
-/

namespace DropTable

namespace Decimal

/-! ## How a decimal ends -/

/-- The text ends in a digit or in a point, if it does not end at once. -/
def EndsNumeral (cs : List Char) : Prop :=
  ∀ c ∈ cs.getLast?, c.isDigit = true ∨ c = '.'

private theorem endsNumeral_of_digits {cs : List Char} (h : ∀ c ∈ cs, c.isDigit = true) :
    EndsNumeral cs :=
  fun c hc => .inl (h c (List.mem_of_getLast? hc))

theorem EndsNumeral.append {xs ys : List Char} (hx : ys = [] → EndsNumeral xs)
    (hy : EndsNumeral ys) : EndsNumeral (xs ++ ys) := by
  by_cases hnil : ys = []
  · rw [hnil, List.append_nil]
    exact hx hnil
  · rw [EndsNumeral, List.getLast?_append_of_ne_nil _ hnil]
    exact hy

private theorem digits_of_readNatural? {cs : List Char} {n : Nat} (h : readNatural? cs = some n) :
    cs ≠ [] ∧ ∀ c ∈ cs, c.isDigit = true := by
  unfold readNatural? at h
  split at h
  case isTrue hdigits => exact ⟨hdigits.1, List.all_eq_true.1 hdigits.2⟩
  case isFalse => contradiction

private theorem endsNumeral_of_readExponent? {cs : List Char} {exponent : Int}
    (h : readExponent? cs = some exponent) : EndsNumeral cs := by
  have hread : ∀ (before : List Char) {digits : List Char}, readNatural? digits ≠ none →
      EndsNumeral (before ++ digits) := by
    intro before digits hsome
    obtain ⟨n, hn⟩ := Option.ne_none_iff_exists'.1 hsome
    obtain ⟨hne, hdigits⟩ := digits_of_readNatural? hn
    exact .append (absurd · hne) (endsNumeral_of_digits hdigits)
  unfold readExponent? at h
  split at h
  next => exact endsNumeral_of_digits (List.forall_mem_nil _)
  next mark rest =>
    split at h
    case isTrue =>
      split at h
      next digits => exact hread [mark, '+'] fun hnone => by simp [hnone] at h
      next digits => exact hread [mark, '-'] fun hnone => by simp [hnone] at h
      next => exact hread [mark] fun hnone => by simp [hnone] at h
    case isFalse => contradiction

private theorem splitFraction_cases (cs : List Char) :
    (splitFraction cs = ([], cs)) ∨ ∃ fraction rest, cs = ['.'] ++ fraction ++ rest ∧
      splitFraction cs = (fraction, rest) ∧ ∀ c ∈ fraction, c.isDigit = true := by
  unfold splitFraction
  split
  next rest =>
    refine .inr ⟨_, _, ?_, rfl, fun c hc => List.mem_takeWhile_imp hc⟩
    rw [List.append_assoc, List.takeWhile_append_dropWhile]
    rfl
  next => exact .inl rfl

private theorem endsNumeral_of_read? {cs : List Char} {d : Decimal} (h : read? cs = some d) :
    EndsNumeral cs := by
  have hwhole : EndsNumeral (cs.takeWhile Char.isDigit) :=
    endsNumeral_of_digits fun c hc => List.mem_takeWhile_imp hc
  have hrest : EndsNumeral (splitFraction (cs.dropWhile Char.isDigit)).2 := by
    unfold read? at h
    extract_lets whole at h
    split at h
    next fraction rest hsplit =>
      rw [hsplit]
      split at h
      · contradiction
      · obtain ⟨exponent, hexponent, -⟩ := Option.map_eq_some_iff.1 h
        exact endsNumeral_of_readExponent? hexponent
  rw [← List.takeWhile_append_dropWhile (p := Char.isDigit) (l := cs)]
  refine .append (fun _ => hwhole) ?_
  rcases splitFraction_cases (cs.dropWhile Char.isDigit) with hnone | ⟨fraction, rest, hpoint,
    hsome, hfraction⟩
  · rwa [hnone] at hrest
  · rw [hsome] at hrest
    rw [hpoint]
    have hdot : EndsNumeral ['.'] := by
      rintro c ⟨⟩
      exact .inr rfl
    exact .append (fun _ => .append (fun _ => hdot) (endsNumeral_of_digits hfraction)) hrest

end Decimal

namespace Token

variable {α : Type} [Scalar α] [Numeral α]

/-! ## Two texts -/

theorem solid_append (a b : String) : solid (a ++ b) = solid a ++ solid b := by
  rw [solid, String.toList_append, List.filter_append]
  rfl

theorem solid_symbol (op : Operator) : solid op.symbol.toString = [op.symbol] := by
  cases op <;> rfl

theorem scan_congr {previous previous' : Option Char}
    (h : previous.any endsOperand = previous'.any endsOperand) (pending rest : List Char) :
    (scan previous pending rest : List (Token α)) = scan previous' pending rest := by
  cases rest with
  | nil => rfl
  | cons c rest => rw [scan, scan, h]

private theorem any_beginsLiteral_head {rest : List Char}
    (h : ∀ c ∈ rest.head?, (Operator.ofChar? c).isSome = true) :
    rest.head?.any beginsLiteral = false := by
  cases rest with
  | nil => rfl
  | cons c rest =>
      obtain ⟨op, hop⟩ := Option.isSome_iff_exists.1 (h c rfl)
      rw [Operator.eq_symbol_of_ofChar? hop]
      exact beginsLiteral_symbol op

theorem scan_append {rest : List Char}
    (hrest : ∀ c ∈ rest.head?, (Operator.ofChar? c).isSome = true) (previous : Option Char)
    (pending text : List Char) :
    (scan previous pending (text ++ rest) : List (Token α)) =
      scan previous pending text ++ scan (text.getLast?.or previous) [] rest := by
  induction text generalizing previous pending with
  | nil => exact scan_flush previous pending hrest
  | cons c text ih =>
      -- A minus at the end of the text finds no operand behind it, whether the text goes on or not.
      have hnext : (text ++ rest).head?.any beginsLiteral = text.head?.any beginsLiteral := by
        cases text with
        | nil => exact any_beginsLiteral_head hrest
        | cons c' text => rfl
      rw [List.cons_append, scan, scan, hnext, getLast?_cons_or]
      split
      · split
        · rw [ih, List.append_assoc]
          rfl
        · rw [ih, List.append_assoc]
      · split
        · rw [ih, List.append_assoc]
          rfl
        · exact ih _ _

variable (α) in
private theorem exists_scan_pending {pending : List Char} (h : pending ≠ [])
    (previous : Option Char) (rest : List Char) :
    ∃ piece tokens, (scan previous pending rest : List (Token α)) = ofFragment piece :: tokens := by
  induction rest generalizing previous pending with
  | nil => exact ⟨_, _, ofPending_of_ne_nil h⟩
  | cons c rest ih =>
      cases hop : Operator.ofChar? c with
      | none =>
          have hscan : (scan previous pending (c :: rest) : List (Token α)) =
              scan (some c) (c :: pending) rest :=
            scan_body (List.forall_mem_singleton.2 hop) previous pending rest
          obtain ⟨piece, tokens, htokens⟩ := ih (List.cons_ne_nil c pending) (some c)
          exact ⟨piece, tokens, hscan.trans htokens⟩
      | some op =>
          obtain rfl := Operator.eq_symbol_of_ofChar? hop
          rw [scan_flush _ _ (isSome_ofChar?_symbol op rest), ofPending_of_ne_nil h]
          exact ⟨_, _, rfl⟩

private theorem ofFragment_ne_operator (piece : List Char) (op : Operator) :
    (ofFragment piece : Token α) ≠ .operator op := by
  unfold ofFragment
  split
  next negated body =>
    extract_lets numeric
    split <;> exact nofun

/-! ## The last character -/

private theorem getLast?_of_readAs {piece : List Char} {t : Token α} (h : ReadAs piece t)
    (hends : t.ends = true)
    (hname : ∀ name negated, t = .identifier name negated → Formula.isName name = true) :
    ∃ c ∈ piece.getLast?, endsOperand c = true ∨ c = '.' ∧ ∃ value, t = .number value := by
  cases h with
  | operator op =>
      refine ⟨op.symbol, rfl, .inl ?_⟩
      rw [endsOperand_symbol]
      exact hends
  | operand h =>
      obtain ⟨body, hne, hlast, ⟨d, value, hread, hnumber⟩ | ⟨negated, hidentifier⟩⟩ :=
        h.ofFragment_cases α
      · obtain ⟨c, hc⟩ := Option.ne_none_iff_exists'.1 (mt List.getLast?_eq_none_iff.1 hne)
        refine ⟨c, hlast ▸ hc, ?_⟩
        rcases Decimal.endsNumeral_of_read? hread c hc with hdigit | hpoint
        · have halphanum : c.isAlphanum = true := Bool.or_eq_true_iff.2 (.inr hdigit)
          exact .inl (isLiteral_of_isAlphanum (.inl halphanum)).2.1
        · exact .inr ⟨hpoint, value, hnumber⟩
      · obtain ⟨c, hc, hends⟩ := (isBody_name (hname _ _ hidentifier)).ends
        rw [String.toList_ofList, hlast] at hc
        exact ⟨c, hc, .inl hends⟩

private theorem getLast?_solid {text : String} {t : Token α}
    (hlast : (ofText text).getLast? = some t) (hends : t.ends = true)
    (hname : ∀ name negated, t = .identifier name negated → Formula.isName name = true) :
    ∃ c, (solid text).getLast? = some c ∧
      (endsOperand c = true ∨ c = '.' ∧ ∃ value, t = .number value) := by
  obtain ⟨pieces, hcut, htext, htokens⟩ := exists_isCut_ofText α text
  rw [← htokens, List.getLast?_map] at hlast
  obtain ⟨p, hp, rfl⟩ := Option.map_eq_some_iff.1 hlast
  obtain ⟨front, rfl⟩ := List.getLast?_eq_some_iff.1 hp
  have hread := hcut.reads p (by simp)
  obtain ⟨c, hc, hcases⟩ := getLast?_of_readAs hread hends hname
  refine ⟨c, ?_, hcases⟩
  rw [← htext, List.flatMap_append, List.flatMap_singleton,
    List.getLast?_append_of_ne_nil _ hread.ne_nil]
  exact hc

/-! ## Seams -/

/-- A minus with a point before it, behind which an operand can begin. -/
structure SignBehindPoint (a : String) (op : Operator) (b : String) : Prop where
  minus : op = .subtract
  point : (solid a).getLast? = some '.'
  operand : (solid b).head?.any beginsLiteral = true

private theorem ofText_minus {b : String} (h : (solid b).head?.any beginsLiteral = true) :
    (ofText ("-" ++ b) : List (Token α)) = scan (some '-') ['-'] (solid b) := by
  have hsolid : solid ("-" ++ b) = '-' :: solid b := solid_append "-" b
  rw [ofText, ← solid, hsolid, scan_sign rfl h]

theorem scan_seam {op : Operator} (hop : op.isParen = false) {previous : Option Char} {b : String}
    (h : op = .subtract → previous.any endsOperand = false →
      (solid b).head?.any beginsLiteral = false) :
    (scan previous [] (op.symbol :: solid b) : List (Token α)) = .operator op :: ofText b := by
  have hclose : op ≠ .closeParen := by
    rintro rfl
    contradiction
  have hsymbol : (some op.symbol).any endsOperand = (none : Option Char).any endsOperand := by
    rw [Option.any_some, endsOperand_symbol, decide_eq_false hclose]
    rfl
  rw [scan_operator h, scan_congr hsymbol]
  rfl

/-- A text that ends in a complete operand or a closing parenthesis is separated from what follows
by any operator, but for a minus behind the point of a number, which becomes a sign. -/
theorem ofText_seam {a : String} {op : Operator} {t : Token α} (hop : op.isParen = false)
    (hlast : (ofText a).getLast? = some t) (hends : t.ends = true)
    (hname : ∀ name negated, t = .identifier name negated → Formula.isName name = true)
    (b : String) :
    (ofText (a ++ op.symbol.toString ++ b) = ofText a ++ .operator op :: (ofText b : List (Token α)) ↔
        ¬SignBehindPoint a op b) ∧
      (SignBehindPoint a op b → (∃ value, t = .number value) ∧
        ofText (a ++ op.symbol.toString ++ b) =
          ofText a ++ (ofText ("-" ++ b) : List (Token α))) := by
  obtain ⟨c, hc, hcases⟩ := getLast?_solid hlast hends hname
  have hread : (ofText (a ++ op.symbol.toString ++ b) : List (Token α)) =
      ofText a ++ scan (some c) [] (op.symbol :: solid b) := by
    rw [ofText, ← solid, solid_append, solid_append, solid_symbol, List.append_assoc,
      List.singleton_append, scan_append (isSome_ofChar?_symbol op _), hc]
    rfl
  rw [hread]
  by_cases hsign : SignBehindPoint a op b
  · obtain rfl := hsign.minus
    obtain rfl : c = '.' := Option.some.inj (hc.symm.trans hsign.point)
    have hoperand := hsign.operand
    have hnumber : ∃ value, t = .number value := by
      rcases hcases with hends | ⟨-, hnumber⟩
      · exact absurd hends (by decide)
      · exact hnumber
    have hscan : (scan (some '.') [] (Operator.subtract.symbol :: solid b) : List (Token α)) =
        ofText ("-" ++ b) := by
      rw [ofText_minus hoperand]
      exact scan_sign rfl hoperand
    rw [hscan]
    refine ⟨⟨fun heq => ?_, absurd hsign⟩, fun _ => ⟨hnumber, rfl⟩⟩
    obtain ⟨piece, tokens, hpiece⟩ :=
      exists_scan_pending α (List.cons_ne_nil '-' []) (some '-') (solid b)
    rw [ofText_minus hoperand, hpiece] at heq
    exact absurd (List.head_eq_of_cons_eq (List.append_cancel_left heq))
      (ofFragment_ne_operator piece .subtract)
  · have hscan : (scan (some c) [] (op.symbol :: solid b) : List (Token α)) =
        .operator op :: ofText b := by
      refine scan_seam hop fun hminus hprevious => Bool.eq_false_iff.2 fun hoperand => ?_
      rcases hcases with hends | ⟨rfl, -⟩
      · rw [Option.any_some, hends] at hprevious
        contradiction
      · exact hsign ⟨hminus, hc, hoperand⟩
    exact ⟨⟨fun _ => hsign, fun _ => by rw [hscan]⟩, fun h => absurd h hsign⟩

/-- A minus behind a closing parenthesis subtracts, whatever the sign of what it subtracts. -/
theorem ofText_seam_group :
    (ofText "(x + 1) " : List (Token Float)).getLast? = some (.operator .closeParen) ∧
      ofText ("(x + 1) " ++ Operator.subtract.symbol.toString ++ " -y") =
        ofText "(x + 1) " ++ .operator .subtract :: [(.identifier "y" true : Token Float)] := by
  have hlast : (ofText "(x + 1) " : List (Token Float)).getLast? =
      some (.operator .closeParen) := rfl
  have hop : Operator.subtract.isParen = false := rfl
  have hseam := ofText_seam hop hlast rfl nofun " -y"
  refine ⟨hlast, hseam.1.2 fun hsign => ?_⟩
  exact absurd hsign.point (by decide +kernel)

/-- Of a difference two numbers are left, the second with the minus for its sign. -/
theorem ofText_difference_point :
    ∃ one two : Float, (one == 1) = true ∧ (two == 2) = true ∧
      ofText "1." = [.number one] ∧ ofText "2" = [.number two] ∧
      ofText ("1." ++ Operator.subtract.symbol.toString ++ "2") = [.number one, .number (-two)] ∧
      ofText ("1." ++ Operator.subtract.symbol.toString ++ "2") ≠
        ofText "1." ++ .operator .subtract :: (ofText "2" : List (Token Float)) := by
  refine ⟨Numeral.ofDecimal ⟨1, 0⟩, Numeral.ofDecimal ⟨2, 0⟩, by decide +kernel, by decide +kernel,
    rfl, rfl, rfl, fun heq => ?_⟩
  have hlength : 2 = 3 := congrArg List.length heq
  contradiction

end Token

end DropTable
