import DropTable.Proofs.Formula.Derivable
import DropTable.Token.Lexer
/-!
# Reading back what is written

The texts of the tokens of a formula, with or without blanks between them, are read as these tokens
again.  A minus may belong to a subtraction, a number or a variable.  Which of them it is follows
from the character before it, since that ends an operand exactly if its token does.
-/

namespace DropTable.Token

variable {α : Type} [Scalar α] [Numeral α]

/-! ## Operands -/

/-- The characters of an operand without its sign. -/
structure IsBody (body : List Char) : Prop where
  begins : ∃ c ∈ body.head?, beginsLiteral c = true
  ends : ∃ c ∈ body.getLast?, endsOperand c = true
  operator_eq : ∀ c ∈ body, Operator.ofChar? c = none
  blank_eq : ∀ c ∈ body, Text.isBlank c = false

/-- A token with the text of an operand, which is read as that token. -/
structure IsOperand (t : Token α) : Prop where
  text_eq : ∃ body, IsBody body ∧ (t.text.toList = body ∨ t.text.toList = '-' :: body)
  ofFragment_eq : ofFragment t.text.toList = t

private theorem toNat_of_isAlpha {c : Char} (h : c.isAlpha = true) :
    65 ≤ c.toNat ∧ c.toNat ≤ 90 ∨ 97 ≤ c.toNat ∧ c.toNat ≤ 122 := by
  rcases Bool.or_eq_true_iff.1 h with hupper | hlower
  · exact .inl (of_decide_eq_true hupper)
  · obtain ⟨hlow, hhigh⟩ := Bool.and_eq_true_iff.1 hlower
    exact .inr ⟨of_decide_eq_true hlow, of_decide_eq_true hhigh⟩

theorem isLiteral_of_isAlphanum {c : Char} (h : c.isAlphanum = true ∨ c = '_') :
    beginsLiteral c = true ∧ endsOperand c = true ∧ Operator.ofChar? c = none ∧
      Text.isBlank c = false := by
  have hrange : 48 ≤ c.toNat ∧ c.toNat ≤ 57 ∨ 65 ≤ c.toNat ∧ c.toNat ≤ 90 ∨
      97 ≤ c.toNat ∧ c.toNat ≤ 122 ∨ c.toNat = 95 := by
    rcases h with h | rfl
    · rcases Bool.or_eq_true_iff.1 h with halpha | hdigit
      · have hletter := toNat_of_isAlpha halpha
        omega
      · exact .inl (Char.isDigit_iff_toNat.1 hdigit)
    · decide
  have hliteral : Text.isAlphanumeric c = true ∨ c = '_' := by
    rcases h with h | rfl
    · left
      rw [Text.isAlphanumeric, if_pos (by omega), h]
    · exact .inr rfl
  refine ⟨?_, ?_, ?_, ?_⟩
  · simpa [beginsLiteral] using Or.inl hliteral
  · simpa [endsOperand] using Or.inl hliteral
  · unfold Operator.ofChar?
    split <;> first | rfl | (exfalso; revert hrange; decide)
  · simp only [Text.isBlank, Text.blankRanges, List.any_cons, List.any_nil, Bool.or_false,
      Bool.or_eq_false_iff, Bool.and_eq_false_iff, decide_eq_false_iff_not]
    omega

theorem isBody_name {name : String} (h : Formula.isName name = true) : IsBody name.toList := by
  obtain ⟨first, rest, hname, hfirst, hrest⟩ := Formula.isName_iff.1 h
  have hliteral : ∀ c ∈ name.toList, c.isAlphanum = true ∨ c = '_' := by
    rw [hname, List.forall_mem_cons]
    refine ⟨hfirst.imp_left fun halpha => ?_, hrest⟩
    rw [Char.isAlphanum, halpha, Bool.true_or]
  have hne : name.toList ≠ [] := by
    rw [hname]
    exact List.cons_ne_nil _ _
  refine ⟨⟨_, List.head?_eq_some_head hne, ?_⟩, ⟨_, List.getLast?_eq_some_getLast hne, ?_⟩, ?_, ?_⟩
  · exact (isLiteral_of_isAlphanum (hliteral _ (List.head_mem hne))).1
  · exact (isLiteral_of_isAlphanum (hliteral _ (List.getLast_mem hne))).2.1
  · exact fun c hc => (isLiteral_of_isAlphanum (hliteral c hc)).2.2.1
  · exact fun c hc => (isLiteral_of_isAlphanum (hliteral c hc)).2.2.2

private theorem ofFragment_name {name : String} (h : Formula.isName name = true) (negated : Bool) :
    (ofFragment (if negated then '-' :: name.toList else name.toList) : Token α) =
      .identifier name negated := by
  obtain ⟨first, rest, hname, hfirst, -⟩ := Formula.isName_iff.1 h
  have hletter : first ≠ '-' ∧ first.isDigit = false ∧ first ≠ '.' := by
    rcases hfirst with halpha | rfl
    · have hrange := toNat_of_isAlpha halpha
      refine ⟨?_, ?_, ?_⟩
      · rintro rfl
        contradiction
      · by_contra hdigit
        rw [Bool.not_eq_false] at hdigit
        have hdigits : 48 ≤ first.toNat ∧ first.toNat ≤ 57 := Char.isDigit_iff_toNat.1 hdigit
        omega
      · rintro rfl
        contradiction
    · decide
  have hstring : String.ofList (first :: rest) = name := by
    rw [← hname, String.ofList_toList]
  rw [hname]
  cases negated with
  | false => simp [ofFragment, hletter, hstring]
  | true => simp [ofFragment, hletter, hstring]

private theorem isOperand_identifier {name : String} (h : Formula.isName name = true)
    (negated : Bool) :
    IsOperand (.identifier name negated : Token α) := by
  have htext : (text (.identifier name negated : Token α)).toList =
      if negated then '-' :: name.toList else name.toList := by
    cases negated <;> simp [text]
  refine ⟨⟨name.toList, isBody_name h, ?_⟩, ?_⟩
  · rw [htext]
    cases negated <;> simp
  · rw [htext]
    exact ofFragment_name h negated

/-! ## Texts without blanks -/

theorem getLast?_cons_or (c : Char) (text : List Char) (previous : Option Char) :
    (c :: text).getLast?.or previous = text.getLast?.or (some c) := by
  rw [List.getLast?_cons]
  cases text.getLast? <;> rfl

theorem scan_body {body : List Char} (h : ∀ c ∈ body, Operator.ofChar? c = none)
    (previous : Option Char) (pending rest : List Char) :
    (scan previous pending (body ++ rest) : List (Token α)) =
      scan (body.getLast?.or previous) (body.reverse ++ pending) rest := by
  induction body generalizing previous pending with
  | nil => rfl
  | cons c body ih =>
      obtain ⟨hfirst, hrest⟩ := List.forall_mem_cons.1 h
      have hminus : c ≠ '-' := by
        rintro rfl
        contradiction
      rw [List.cons_append, scan, if_neg hminus, hfirst, getLast?_cons_or, List.reverse_cons,
        List.append_assoc, List.singleton_append]
      exact ih hrest (some c) (c :: pending)

theorem ofPending_of_ne_nil {pending : List Char} (h : pending ≠ []) :
    (ofPending pending : List (Token α)) = [ofFragment pending.reverse] := by
  cases pending with
  | nil => contradiction
  | cons c cs => rfl

theorem isSome_ofChar?_symbol (op : Operator) (rest : List Char) :
    ∀ c ∈ (op.symbol :: rest).head?, (Operator.ofChar? c).isSome = true := by
  rintro c ⟨⟩
  rw [Operator.ofChar?_symbol]
  rfl

theorem scan_flush (previous : Option Char) (pending : List Char) {rest : List Char}
    (hrest : ∀ c ∈ rest.head?, (Operator.ofChar? c).isSome = true) :
    (scan previous pending rest : List (Token α)) =
      ofPending pending ++ scan previous [] rest := by
  cases rest with
  | nil => exact (List.append_nil _).symm
  | cons c rest =>
      obtain ⟨op, hop⟩ := Option.isSome_iff_exists.1 (hrest c rfl)
      rw [scan, scan, hop]
      split
      · split <;> rfl
      · rfl

theorem scan_sign {previous : Option Char} (hprevious : previous.any endsOperand = false)
    {rest : List Char} (hrest : rest.head?.any beginsLiteral = true) :
    (scan previous [] ('-' :: rest) : List (Token α)) = scan (some '-') ['-'] rest := by
  rw [scan, if_pos rfl, hprevious, hrest]
  rfl

theorem scan_operator {op : Operator} {previous : Option Char} {rest : List Char}
    (h : op = .subtract → previous.any endsOperand = false →
      rest.head?.any beginsLiteral = false) :
    (scan previous [] (op.symbol :: rest) : List (Token α)) =
      .operator op :: scan (some op.symbol) [] rest := by
  by_cases hminus : op = .subtract
  · have hbinary : (previous.any endsOperand || !rest.head?.any beginsLiteral) = true := by
      cases hprevious : previous.any endsOperand with
      | false => rw [h hminus hprevious]; rfl
      | true => rfl
    rw [hminus, Operator.symbol, scan, if_pos rfl, if_pos hbinary]
    rfl
  · have hsymbol : op.symbol ≠ '-' := by
      cases op <;> first | contradiction | decide
    rw [scan, if_neg hsymbol, Operator.ofChar?_symbol]
    rfl

private theorem scan_operand {t : Token α} (ht : IsOperand t) {previous : Option Char}
    (hprevious : previous.any endsOperand = false) {rest : List Char}
    (hrest : ∀ c ∈ rest.head?, (Operator.ofChar? c).isSome = true) :
    ∃ last, endsOperand last = true ∧
      scan previous [] (t.text.toList ++ rest) = t :: scan (some last) [] rest := by
  obtain ⟨body, hbody, htext⟩ := ht.text_eq
  obtain ⟨first, hfirst, hbegins⟩ := hbody.begins
  obtain ⟨last, hlast, hends⟩ := hbody.ends
  have hread : ∀ previous pending, pending.reverse ++ body = t.text.toList →
      scan previous pending (body ++ rest) = t :: scan (some last) [] rest := by
    intro previous pending hpending
    have hne : body.reverse ++ pending ≠ [] := by
      intro hnil
      rw [List.append_eq_nil_iff, List.reverse_eq_nil_iff] at hnil
      rw [hnil.1] at hfirst
      contradiction
    rw [scan_body hbody.operator_eq, Option.mem_def.1 hlast, Option.some_or,
      scan_flush _ _ hrest, ofPending_of_ne_nil hne, List.reverse_append, List.reverse_reverse,
      hpending, ht.ofFragment_eq]
    rfl
  refine ⟨last, hends, ?_⟩
  rcases htext with htext | htext
  · rw [htext]
    exact hread previous [] htext.symm
  · have hsign : (body ++ rest).head?.any beginsLiteral = true := by
      rw [List.head?_append, Option.mem_def.1 hfirst]
      exact hbegins
    rw [htext, List.cons_append, scan_sign hprevious hsign]
    exact hread (some '-') ['-'] htext.symm

theorem endsOperand_symbol (op : Operator) : endsOperand op.symbol = decide (op = .closeParen) := by
  cases op <;> decide

omit [Scalar α] in
theorem text_operator (op : Operator) : (text (.operator op : Token α)).toList = [op.symbol] := by
  rw [text, Char.toString, String.toList_singleton]

omit [Scalar α] [Numeral α] in
private theorem eq_of_operator? {t : Token α} {op : Operator} (h : t.operator? = some op) :
    t = .operator op := by
  cases t with
  | operator op' => exact congrArg operator (Option.some.inj h)
  | _ => contradiction

omit [Scalar α] in
private theorem isSome_ofChar?_head {tokens : List (Token α)}
    (h : ∀ t ∈ tokens.head?, t.begins = false) :
    ∀ c ∈ (tokens.flatMap fun t => t.text.toList).head?, (Operator.ofChar? c).isSome = true := by
  cases tokens with
  | nil => simp
  | cons t tokens =>
      have hbegins := h t rfl
      rw [begins] at hbegins
      cases hop : t.operator? with
      | none =>
          rw [hop] at hbegins
          contradiction
      | some op =>
          rw [eq_of_operator? hop, List.flatMap_cons, text_operator]
          exact isSome_ofChar?_symbol op _

private theorem scan_texts {tokens : List (Token α)}
    (hoperands : ∀ t ∈ tokens, t.operator? = none → IsOperand t)
    (hjoined : tokens.IsChain fun t u => u.begins = !t.ends) {previous : Option Char}
    (hfirst : ∀ t ∈ tokens.head?, t.begins = !previous.any endsOperand) :
    scan previous [] (tokens.flatMap fun t => t.text.toList) = tokens := by
  induction tokens generalizing previous with
  | nil => rfl
  | cons t tokens ih =>
      obtain ⟨hoperand, hoperands⟩ := List.forall_mem_cons.1 hoperands
      obtain ⟨hnext, hjoined⟩ := List.isChain_cons.1 hjoined
      have hbegins := hfirst t rfl
      rw [List.flatMap_cons]
      -- Of what is read before a token, it matters only whether an operand has ended there.
      cases hop : t.operator? with
      | none =>
          have hends : t.ends = true := by
            rw [ends, hop]
            rfl
          have hprevious : previous.any endsOperand = false := by
            rw [begins, hop] at hbegins
            simpa using hbegins.symm
          obtain ⟨last, hlast, hscan⟩ := scan_operand (hoperand hop) hprevious
            (isSome_ofChar?_head fun u hu => by rw [hnext u hu, hends]; rfl)
          rw [hscan, ih hoperands hjoined]
          intro u hu
          rw [hnext u hu, hends, Option.any_some, hlast]
      | some op =>
          have hsign : op = .subtract → previous.any endsOperand = false →
              (tokens.flatMap fun t => t.text.toList).head?.any beginsLiteral = false := by
            rintro rfl hprevious
            rw [begins, hop, hprevious] at hbegins
            contradiction
          have hends : (some op.symbol).any endsOperand = t.ends := by
            rw [Option.any_some, endsOperand_symbol, ends, hop]
            rfl
          have htext : t.text.toList ++ tokens.flatMap (fun t => t.text.toList) =
              op.symbol :: tokens.flatMap fun t => t.text.toList := by
            rw [eq_of_operator? hop, text_operator]
            rfl
          rw [htext, scan_operator hsign, ih hoperands hjoined, eq_of_operator? hop]
          intro u hu
          rw [hnext u hu, hends]

/-! ## Texts with blanks -/

/-- The texts of tokens one after the other, with any blanks around them. -/
inductive Renders : List (Token α) → List Char → Prop
  | nil {blanks : List Char} (h : ∀ c ∈ blanks, Text.isBlank c = true) : Renders [] blanks
  | cons {blanks : List Char} (h : ∀ c ∈ blanks, Text.isBlank c = true) (t : Token α)
      {tokens : List (Token α)} {text : List Char} (hrest : Renders tokens text) :
      Renders (t :: tokens) (blanks ++ (t.text.toList ++ text))

omit [Scalar α] in
private theorem Renders.blanks_append {tokens : List (Token α)} {text blanks : List Char}
    (h : Renders tokens text) (hblanks : ∀ c ∈ blanks, Text.isBlank c = true) :
    Renders tokens (blanks ++ text) := by
  cases h with
  | nil hmore => exact .nil (List.forall_mem_append.2 ⟨hblanks, hmore⟩)
  | cons hmore t hrest =>
      rw [← List.append_assoc]
      exact .cons (List.forall_mem_append.2 ⟨hblanks, hmore⟩) t hrest

omit [Scalar α] in
theorem renders_listText (tokens : List (Token α)) : Renders tokens (listText tokens).toList := by
  have hnone : ∀ c ∈ ([] : List Char), Text.isBlank c = true := List.forall_mem_nil _
  induction tokens with
  | nil => exact .nil hnone
  | cons t tokens ih =>
      cases tokens with
      | nil =>
          have htext : (listText [t]).toList = t.text.toList ++ [] := by simp [listText]
          rw [htext]
          exact .cons hnone t (.nil hnone)
      | cons u tokens =>
          have htext : (listText (t :: u :: tokens)).toList =
              t.text.toList ++ ([' '] ++ (listText (u :: tokens)).toList) := by
            simp [listText, String.intercalate_cons_cons]
          rw [htext]
          exact .cons hnone t (ih.blanks_append (List.forall_mem_singleton.2 rfl))

private theorem filter_blanks {blanks : List Char} (h : ∀ c ∈ blanks, Text.isBlank c = true) :
    (blanks.filter fun c => !Text.isBlank c) = [] := by
  rw [List.filter_eq_nil_iff]
  intro c hc
  rw [h c hc]
  decide

private theorem isBlank_eq_false {t : Token α} (h : t.operator? = none → IsOperand t) :
    ∀ c ∈ t.text.toList, Text.isBlank c = false := by
  cases hop : t.operator? with
  | none =>
      obtain ⟨body, hbody, htext | htext⟩ := (h hop).text_eq
      · rw [htext]
        exact hbody.blank_eq
      · rw [htext, List.forall_mem_cons]
        exact ⟨by decide, hbody.blank_eq⟩
  | some op =>
      rw [eq_of_operator? hop, text_operator]
      intro c hc
      rw [List.mem_singleton.1 hc]
      cases op <;> decide

private theorem Renders.filter_eq {tokens : List (Token α)} {text : List Char}
    (h : Renders tokens text) (hoperands : ∀ t ∈ tokens, t.operator? = none → IsOperand t) :
    (text.filter fun c => !Text.isBlank c) = tokens.flatMap fun t => t.text.toList := by
  induction h with
  | nil hblanks => exact filter_blanks hblanks
  | cons hblanks t _ ih =>
      obtain ⟨hoperand, hoperands⟩ := List.forall_mem_cons.1 hoperands
      have hsolid : (t.text.toList.filter fun c => !Text.isBlank c) = t.text.toList := by
        rw [List.filter_eq_self]
        intro c hc
        rw [isBlank_eq_false hoperand c hc]
        rfl
      rw [List.filter_append, List.filter_append, filter_blanks hblanks, hsolid, ih hoperands]
      rfl

theorem ofText_of_renders {tokens : List (Token α)} (h : Formula.Derivable tokens)
    (hnumbers : ∀ x, .number x ∈ tokens → IsOperand (.number x : Token α)) {text : String}
    (htext : Renders tokens text.toList) : ofText text = tokens := by
  have hregular := h.regular
  have hoperands : ∀ t ∈ tokens, t.operator? = none → IsOperand t := by
    intro t ht hop
    cases t with
    | number x => exact hnumbers x ht
    | operator op => contradiction
    | identifier name negated => exact isOperand_identifier (hregular.names name negated ht) negated
  rw [ofText, htext.filter_eq hoperands]
  exact scan_texts hoperands hregular.joined hregular.begins

end DropTable.Token
