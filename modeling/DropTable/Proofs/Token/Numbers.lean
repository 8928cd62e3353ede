import DropTable.Proofs.Binary64.Numerals
import DropTable.Proofs.Token.Rendering
import DropTable.Scalar.Binary64
/-!
# Formulas of doubles

The text of a finite double is an operand that is read as the double, zeros and negative numbers
included.  So every formula of finite doubles is read back from whatever way it is written.
-/

namespace DropTable.Token

variable {d : Decimal} {cs : List Char}

private theorem isLiteral_of_isDigit {c : Char} (h : c.isDigit = true) :
    beginsLiteral c = true ∧ endsOperand c = true ∧ Operator.ofChar? c = none ∧
      Text.isBlank c = false :=
  isLiteral_of_isAlphanum (.inl (Bool.or_eq_true_iff.2 (.inr h)))

private theorem isBody_of_writes (h : Decimal.Writes d cs) : IsBody cs := by
  cases h with
  | whole hne hdigits =>
      refine ⟨⟨_, List.head?_eq_some_head hne, ?_⟩, ⟨_, List.getLast?_eq_some_getLast hne, ?_⟩,
        ?_, ?_⟩
      · exact (isLiteral_of_isDigit (hdigits _ (List.head_mem hne))).1
      · exact (isLiteral_of_isDigit (hdigits _ (List.getLast_mem hne))).2.1
      · exact fun c hc => (isLiteral_of_isDigit (hdigits c hc)).2.2.1
      · exact fun c hc => (isLiteral_of_isDigit (hdigits c hc)).2.2.2
  | @point whole fraction hwhole hfraction hdigits =>
      obtain ⟨hbefore, hbehind⟩ := List.forall_mem_append.1 hdigits
      have hfirst : (whole ++ '.' :: fraction).head? = some (whole.head hwhole) := by
        rw [List.head?_append_of_ne_nil _ hwhole, List.head?_eq_some_head hwhole]
      have hlast : (whole ++ '.' :: fraction).getLast? = some (fraction.getLast hfraction) := by
        rw [List.getLast?_append_cons, List.getLast?_cons_of_ne_nil hfraction,
          List.getLast?_eq_some_getLast hfraction]
      refine ⟨⟨_, hfirst, ?_⟩, ⟨_, hlast, ?_⟩, ?_, ?_⟩
      · exact (isLiteral_of_isDigit (hbefore _ (List.head_mem hwhole))).1
      · exact (isLiteral_of_isDigit (hbehind _ (List.getLast_mem hfraction))).2.1
      · rw [List.forall_mem_append, List.forall_mem_cons]
        exact ⟨fun c hc => (isLiteral_of_isDigit (hbefore c hc)).2.2.1, rfl,
          fun c hc => (isLiteral_of_isDigit (hbehind c hc)).2.2.1⟩
      · rw [List.forall_mem_append, List.forall_mem_cons]
        exact ⟨fun c hc => (isLiteral_of_isDigit (hbefore c hc)).2.2.2, by decide,
          fun c hc => (isLiteral_of_isDigit (hbehind c hc)).2.2.2⟩

private theorem exists_digit_cons (h : Decimal.Writes d cs) :
    ∃ first rest, cs = first :: rest ∧ first.isDigit = true := by
  cases h with
  | whole hne hdigits =>
      obtain ⟨first, rest, rfl⟩ := List.exists_cons_of_ne_nil hne
      exact ⟨first, rest, rfl, hdigits first List.mem_cons_self⟩
  | point hwhole _ hdigits =>
      obtain ⟨first, rest, rfl⟩ := List.exists_cons_of_ne_nil hwhole
      exact ⟨first, _, rfl, hdigits first List.mem_cons_self⟩

private theorem ofFragment_of_writes {α : Type} [Scalar α] [Numeral α] (h : Decimal.Writes d cs) :
    ofFragment cs = .number (Numeral.ofDecimal d : α) ∧
      ofFragment ('-' :: cs) = .number (-Numeral.ofDecimal d : α) := by
  have hread := h.read?_eq
  obtain ⟨first, rest, rfl, hfirst⟩ := exists_digit_cons h
  have hminus : first ≠ '-' := by
    rintro rfl
    contradiction
  constructor
  · simp [ofFragment, hminus, hfirst, hread]
  · simp [ofFragment, hfirst, hread]

theorem isOperand_number {x : Float} (h : x.isFinite = true) : IsOperand (.number x) := by
  obtain ⟨d, cs, hwrites, hread, htext⟩ := Binary64.exists_text h
  have htoken : (Token.number x).text.toList = if x.toBits.toNat < 1 <<< 63 then cs else '-' :: cs :=
    htext
  obtain ⟨hplain, hsigned⟩ := ofFragment_of_writes (α := Float) hwrites
  have hvalue : Numeral.ofDecimal d = Binary64.unsigned x := hread
  rw [hvalue, Binary64.unsigned] at hplain hsigned
  by_cases hsign : x.toBits.toNat < 1 <<< 63
  · rw [if_pos hsign] at htoken hplain
    refine ⟨⟨cs, isBody_of_writes hwrites, .inl htoken⟩, ?_⟩
    rw [htoken, hplain]
  · rw [if_neg hsign] at htoken hsigned
    refine ⟨⟨cs, isBody_of_writes hwrites, .inr htoken⟩, ?_⟩
    rw [htoken, hsigned, Binary64.neg_neg_eq]

theorem ofText_listText {tokens : List (Token Float)} (h : Formula.Derivable tokens)
    (hfinite : ∀ x, .number x ∈ tokens → x.isFinite = true) : ofText (listText tokens) = tokens :=
  ofText_of_renders h (fun x hx => isOperand_number (hfinite x hx)) (renders_listText tokens)

/-- A formula of finite doubles is read back from any rendering. -/
theorem ofText_of_renders_finite {tokens : List (Token Float)} (h : Formula.Derivable tokens)
    (hfinite : ∀ x, .number x ∈ tokens → x.isFinite = true) {text : String}
    (htext : Renders tokens text.toList) : ofText text = tokens :=
  ofText_of_renders h (fun x hx => isOperand_number (hfinite x hx)) htext

/-- Every kind of minus, with and without blanks around it. -/
theorem ofText_minuses :
    ofText "(-0.5 - -x)*y--0" =
      [.operator .openParen, .number (-0.5), .operator .subtract, .identifier "x" true,
        .operator .closeParen, .operator .multiply, .identifier "y" false, .operator .subtract,
        .number (-0.0 : Float)] := by
  have hblank : ∀ c ∈ [' '], Text.isBlank c = true := List.forall_mem_singleton.2 rfl
  have hnone : ∀ c ∈ ([] : List Char), Text.isBlank c = true := List.forall_mem_nil _
  refine ofText_of_renders_finite ?_ ?_ ?_
  · have hx : Formula.isName "x" = true := by decide +kernel
    have hy : Formula.isName "y" = true := by decide +kernel
    exact .operation
      (.operation (.group (.operation (.number _) rfl (.identifier "x" true hx))) rfl
        (.identifier "y" false hy))
      rfl (.number _)
  · intro x hx
    simp only [List.mem_cons, List.not_mem_nil, reduceCtorEq, Token.number.injEq, or_false,
      false_or] at hx
    rcases hx with rfl | rfl <;> rfl
  · convert Renders.cons hnone _ (.cons hnone _ (.cons hblank _ (.cons hblank _ (.cons hnone _
      (.cons hnone _ (.cons hnone _ (.cons hnone _ (.cons hnone _ (.nil hnone))))))))) using 1
    decide +kernel

end DropTable.Token
