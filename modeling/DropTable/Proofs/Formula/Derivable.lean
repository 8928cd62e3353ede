import DropTable.Proofs.Formula.Accepted
/-!
# Formulas that the grammar derives

Without precedence the grammar derives a formula in many ways, and with precedence in one, but the
formulas derived are the same.  They can be told without any grammar: the parentheses are balanced,
and of any two neighbours the second begins an expression exactly if the first does not end one.
Where this fails, an operator or an operand is missing between the two.
-/

namespace DropTable.Formula

variable {α : Type}

/-- Formulas in infix order, with no regard to precedence. -/
inductive Derivable : List (Token α) → Prop
  | number (value : α) : Derivable [.number value]
  | identifier (name : String) (negated : Bool) (valid : isName name = true) :
      Derivable [.identifier name negated]
  | group {inner : List (Token α)} (h : Derivable inner) :
      Derivable (.operator .openParen :: (inner ++ [.operator .closeParen]))
  | operation {left right : List (Token α)} {op : Operator} (hleft : Derivable left)
      (hop : op.isParen = false) (hright : Derivable right) :
      Derivable (left ++ .operator op :: right)

/-- Whether an operator is missing between two neighbours. -/
def lacksOperator (t u : Token α) : Bool :=
  t.ends && u.begins

/-- Whether an operand is missing between two neighbours. -/
def lacksOperand (t u : Token α) : Bool :=
  !t.ends && !u.begins

/-- How many pairs of neighbours have a property. -/
def countNeighbours (property : Token α → Token α → Bool) : List (Token α) → Nat
  | t :: u :: rest => (if property t u then 1 else 0) + countNeighbours property (u :: rest)
  | _ => 0

/-- How many operators are missing between neighbours. -/
def missingOperators (tokens : List (Token α)) : Nat :=
  countNeighbours lacksOperator tokens

/-- How many operands are missing between neighbours. -/
def missingOperands (tokens : List (Token α)) : Nat :=
  countNeighbours lacksOperand tokens

theorem isChain_iff {tokens : List (Token α)} :
    (tokens.IsChain fun t u => u.begins = !t.ends) ↔
      missingOperators tokens = 0 ∧ missingOperands tokens = 0 := by
  unfold missingOperators missingOperands
  induction tokens with
  | nil => simp [countNeighbours]
  | cons t tokens ih =>
      cases tokens with
      | nil => simp [countNeighbours]
      | cons u rest =>
          rw [List.isChain_cons_cons, ih, countNeighbours, countNeighbours]
          cases ht : t.ends <;> cases hu : u.begins <;> simp [lacksOperator, lacksOperand, ht, hu]

/-- A formula that may still go on: what it lacks, it lacks at its end. -/
structure Readable (tokens : List (Token α)) : Prop where
  begins : ∀ t ∈ tokens.head?, t.begins = true
  balanced : Balanced tokens
  joined : tokens.IsChain fun t u => u.begins = !t.ends
  names : ∀ name negated, .identifier name negated ∈ tokens → isName name = true

/-- What can be said of a formula that the grammar derives without saying how. -/
structure Regular (tokens : List (Token α)) : Prop extends Readable tokens where
  ends : ∃ t ∈ tokens.getLast?, t.ends = true

private theorem exists_head {tokens : List (Token α)} (hends : ∃ t ∈ tokens.getLast?, t.ends = true)
    (hbegins : ∀ t ∈ tokens.head?, t.begins = true) : ∃ t ∈ tokens.head?, t.begins = true := by
  cases tokens with
  | nil =>
      obtain ⟨t, ht, -⟩ := hends
      contradiction
  | cons t tokens => exact ⟨t, rfl, hbegins t rfl⟩

private theorem regular_iff {tokens : List (Token α)} :
    Regular tokens ↔
      Accepted tokens ∧ missingOperators tokens = 0 ∧ missingOperands tokens = 0 := by
  constructor
  · intro h
    refine ⟨⟨exists_head h.ends h.begins, h.ends, h.balanced, h.joined.imp ?_, h.names⟩,
      isChain_iff.1 h.joined⟩
    intro t u hjoined hbinary
    rw [begins_eq_false_of_isBinary hbinary] at hjoined
    simpa using hjoined
  · rintro ⟨h, hmissing⟩
    refine ⟨⟨?_, h.balanced, isChain_iff.2 hmissing, h.names⟩, h.ends⟩
    obtain ⟨first, hfirst, hbegins⟩ := h.begins
    exact fun t ht => Option.mem_unique hfirst ht ▸ hbegins

/-! ## Derived formulas are regular -/

namespace Regular

theorem operand {t : Token α} (ht : t.operator? = none)
    (hname : ∀ name negated, .identifier name negated = t → isName name = true) :
    Regular [t] where
  begins := by
    rintro u ⟨⟩
    rw [Token.begins, ht]
    rfl
  ends := ⟨t, rfl, by rw [Token.ends, ht]; rfl⟩
  balanced := .singleton (by simp [count, ht]) (by simp [count, ht])
  joined := .singleton t
  names := fun name negated hmem => hname name negated (List.mem_singleton.1 hmem)

theorem group {inner : List (Token α)} (h : Regular inner) :
    Regular (.operator .openParen :: (inner ++ [.operator .closeParen])) where
  begins := by
    rintro u ⟨⟩
    rfl
  ends := ⟨.operator .closeParen, by rw [← List.cons_append, List.getLast?_concat]; rfl, rfl⟩
  balanced := h.balanced.group
  joined := by
    obtain ⟨first, hfirst, hbegins⟩ := exists_head h.ends h.begins
    obtain ⟨last, hlast, hends⟩ := h.ends
    refine .cons (.append h.joined (.singleton _) ?_) ?_
    · intro t ht u hu
      cases Option.mem_unique ht hlast
      cases hu
      rw [hends]
      rfl
    · intro u hu
      rw [List.head?_append, Option.mem_def.1 hfirst] at hu
      cases hu
      exact hbegins
  names := by
    intro name negated hmem
    simp only [List.mem_cons, List.mem_append, reduceCtorEq, List.not_mem_nil, or_false,
      false_or] at hmem
    exact h.names name negated hmem

theorem operation {left right : List (Token α)} (hleft : Regular left) (hright : Regular right)
    {op : Operator} (hop : op.isParen = false) : Regular (left ++ .operator op :: right) where
  begins := by
    obtain ⟨first, hfirst, hbegins⟩ := exists_head hleft.ends hleft.begins
    intro t ht
    rw [List.head?_append, Option.mem_def.1 hfirst] at ht
    cases ht
    exact hbegins
  ends := by
    obtain ⟨last, hlast, hends⟩ := hright.ends
    refine ⟨last, ?_, hends⟩
    rw [List.getLast?_append_cons, List.getLast?_cons, Option.mem_def.1 hlast]
    rfl
  balanced := hleft.balanced.append ((Balanced.operator hop).append hright.balanced)
  joined := by
    obtain ⟨last, hlast, hends⟩ := hleft.ends
    obtain ⟨first, hfirst, hbegins⟩ := exists_head hright.ends hright.begins
    have hbinary :
        (.operator op : Token α).begins = false ∧ (.operator op : Token α).ends = false := by
      cases op <;> first | exact ⟨rfl, rfl⟩ | contradiction
    refine .append hleft.joined (.cons hright.joined ?_) ?_
    · intro u hu
      cases Option.mem_unique hu hfirst
      rw [hbegins, hbinary.2]
      rfl
    · intro t ht u hu
      cases Option.mem_unique ht hlast
      cases hu
      rw [hends, hbinary.1]
      rfl
  names := by
    intro name negated hmem
    simp only [List.mem_append, List.mem_cons, reduceCtorEq, false_or] at hmem
    exact hmem.elim (hleft.names name negated) (hright.names name negated)

end Regular

theorem Derivable.regular {tokens : List (Token α)} (h : Derivable tokens) : Regular tokens := by
  induction h with
  | number value => exact .operand rfl (fun _ _ heq => by contradiction)
  | identifier name negated valid =>
      refine .operand rfl fun name' negated' heq => ?_
      cases heq
      exact valid
  | group _ ih => exact ih.group
  | operation _ hop _ ihl ihr => exact ihl.operation ihr hop

/-! ## Regular formulas are derived -/

theorem derivable_tokens {phrase : Phrase} (d : Derivation α phrase) : Derivable d.tokens := by
  induction d with
  | ofProduct inner ih => exact ih
  | add left right ihl ihr => exact .operation ihl rfl ihr
  | subtract left right ihl ihr => exact .operation ihl rfl ihr
  | ofPower inner ih => exact ih
  | multiply left right ihl ihr => exact .operation ihl rfl ihr
  | divide left right ihl ihr => exact .operation ihl rfl ihr
  | ofAtom inner ih => exact ih
  | power left right ihl ihr => exact .operation ihl rfl ihr
  | number value => exact .number value
  | identifier name negated valid => exact .identifier name negated valid
  | group inner ih => exact .group ih

private theorem exists_power (d : Derivation α .product) (a : Derivation α .atom) :
    ∃ e : Derivation α .product, e.tokens = d.tokens ++ .operator .power :: a.tokens := by
  cases d with
  | ofPower w => exact ⟨.ofPower (w.power a), rfl⟩
  | multiply p w => exact ⟨p.multiply (w.power a), by simp [Derivation.tokens]⟩
  | divide p w => exact ⟨p.divide (w.power a), by simp [Derivation.tokens]⟩

private theorem exists_sum {rest : List (Token α)}
    (h : ∀ p : Derivation α .product, ∃ q : Derivation α .product, q.tokens = p.tokens ++ rest)
    (d : Derivation α .sum) : ∃ e : Derivation α .sum, e.tokens = d.tokens ++ rest := by
  cases d with
  | ofProduct p =>
      obtain ⟨q, hq⟩ := h p
      exact ⟨.ofProduct q, hq⟩
  | add l p =>
      obtain ⟨q, hq⟩ := h p
      exact ⟨l.add q, by simp [Derivation.tokens, hq]⟩
  | subtract l p =>
      obtain ⟨q, hq⟩ := h p
      exact ⟨l.subtract q, by simp [Derivation.tokens, hq]⟩

private theorem exists_operation (d : Derivation α .sum) {op : Operator} (hop : op.isParen = false)
    (a : Derivation α .atom) :
    ∃ e : Derivation α .sum, e.tokens = d.tokens ++ .operator op :: a.tokens := by
  cases op with
  | add => exact ⟨d.add (.ofPower (.ofAtom a)), rfl⟩
  | subtract => exact ⟨d.subtract (.ofPower (.ofAtom a)), rfl⟩
  | multiply => exact exists_sum (fun p => ⟨p.multiply (.ofAtom a), rfl⟩) d
  | divide => exact exists_sum (fun p => ⟨p.divide (.ofAtom a), rfl⟩) d
  | power => exact exists_sum (fun p => exists_power p a) d
  | openParen => contradiction
  | closeParen => contradiction

/-- What is read of a formula between parentheses: nothing yet, a sum, or a sum with an operator
behind it. -/
inductive Reading : List (Token α) → Prop
  | nothing : Reading []
  | sum (d : Derivation α .sum) : Reading d.tokens
  | operator (d : Derivation α .sum) {op : Operator} (hop : op.isParen = false) :
      Reading (d.tokens ++ [.operator op])

private theorem Reading.exists_sum {before : List (Token α)} (h : Reading before)
    (hends : ∀ t ∈ before.getLast?, t.ends = false) (a : Derivation α .atom) :
    ∃ d : Derivation α .sum, d.tokens = before ++ a.tokens := by
  cases h with
  | nothing => exact ⟨.ofProduct (.ofPower (.ofAtom a)), rfl⟩
  | sum d =>
      obtain ⟨t, ht, htrue⟩ := (derivable_tokens d).regular.ends
      rw [hends t ht] at htrue
      contradiction
  | operator d hop =>
      rw [List.append_assoc]
      exact exists_operation d hop a

theorem Reading.atom {before : List (Token α)} (h : Reading before)
    (hends : ∀ t ∈ before.getLast?, t.ends = false) (a : Derivation α .atom) :
    Reading (before ++ a.tokens) := by
  obtain ⟨d, hd⟩ := h.exists_sum hends a
  exact hd ▸ .sum d

private theorem Reading.sum_of_ends {tokens : List (Token α)} (h : Reading tokens)
    (hends : ∃ t ∈ tokens.getLast?, t.ends = true) :
    ∃ d : Derivation α .sum, d.tokens = tokens := by
  cases h with
  | nothing =>
      obtain ⟨t, ht, -⟩ := hends
      contradiction
  | sum d => exact ⟨d, rfl⟩
  | @operator d op hop =>
      obtain ⟨t, ht, htrue⟩ := hends
      rw [List.getLast?_concat] at ht
      cases ht
      cases op <;> contradiction

namespace Readable

theorem of_append {left right : List (Token α)} (h : Readable (left ++ right))
    (hbalanced : Balanced left) : Readable left where
  begins := by
    intro t ht
    apply h.begins
    rw [List.head?_append, Option.mem_def.1 ht]
    rfl
  balanced := hbalanced
  joined := h.joined.left_of_append
  names := fun name negated hmem => h.names name negated (List.mem_append_left _ hmem)

private theorem of_group {outer inner after : List (Token α)}
    (h : Readable (outer ++ .operator .openParen :: (inner ++ after))) (hbalanced : Balanced inner) :
    Readable inner where
  begins := by
    intro t ht
    have hjoined := (List.isChain_cons.1 h.joined.right_of_append).1
    refine hjoined t ?_
    rw [List.head?_append, Option.mem_def.1 ht]
    rfl
  balanced := hbalanced
  joined := (List.isChain_cons.1 h.joined.right_of_append).2.left_of_append
  names := fun name negated hmem => h.names name negated (by simp [hmem])

theorem last {before after : List (Token α)} {t : Token α}
    (h : Readable (before ++ t :: after)) : ∀ u ∈ before.getLast?, t.begins = !u.ends :=
  fun u hu => (List.isChain_append.1 h.joined).2.2 u hu t rfl

private theorem not_ends {before after : List (Token α)} {t : Token α}
    (h : Readable (before ++ t :: after)) (ht : t.begins = true) :
    ∀ u ∈ before.getLast?, u.ends = false := by
  intro u hu
  have hjoined := h.last u hu
  rw [ht] at hjoined
  simpa using hjoined

private theorem reading_binary {front : List (Token α)} {op : Operator}
    (h : Readable (front ++ [.operator op])) (hop : op.isParen = false) (hread : Reading front) :
    Reading (front ++ [.operator op]) := by
  have hbegins : (.operator op : Token α).begins = false := by
    cases op <;> first | rfl | contradiction
  have hends : ∃ t ∈ front.getLast?, t.ends = true := by
    cases hlast : front.getLast? with
    | none =>
        rw [List.getLast?_eq_none_iff.1 hlast] at h
        have hfirst := h.begins _ rfl
        rw [hbegins] at hfirst
        contradiction
    | some t =>
        have hjoined := h.last t hlast
        rw [hbegins] at hjoined
        exact ⟨t, rfl, by simpa using hjoined⟩
  obtain ⟨d, rfl⟩ := hread.sum_of_ends hends
  exact .operator d hop

private theorem reading_closeParen {outer inner : List (Token α)}
    (h : Readable (outer ++ .operator .openParen :: (inner ++ [.operator .closeParen])))
    (houter : Reading outer) (hinner : Reading inner) :
    Reading (outer ++ .operator .openParen :: (inner ++ [.operator .closeParen])) := by
  have hends : ∃ t ∈ inner.getLast?, t.ends = true := by
    have hrest := List.isChain_cons.1 h.joined.right_of_append
    cases hlast : inner.getLast? with
    | none =>
        rw [List.getLast?_eq_none_iff.1 hlast] at hrest
        have hempty := hrest.1 _ rfl
        contradiction
    | some t =>
        have hjoined := (List.isChain_append.1 hrest.2).2.2 t hlast _ rfl
        exact ⟨t, rfl, by simpa [Token.begins, Token.operator?] using hjoined⟩
  obtain ⟨d, rfl⟩ := hinner.sum_of_ends hends
  exact houter.atom (h.not_ends rfl) (.group d)

/-- What is readable is read, from left to right and group by group. -/
private theorem reading {tokens : List (Token α)} (h : Readable tokens) : Reading tokens := by
  induction hlength : tokens.length using Nat.strongRecOn generalizing tokens with
  | ind length ih =>
      subst hlength
      rcases List.eq_nil_or_concat' tokens with rfl | ⟨front, t, rfl⟩
      · exact .nothing
      · have hfront : Balanced front → Reading front := fun hbalanced =>
          ih front.length (by simp) (h.of_append hbalanced) rfl
        have htotal := h.balanced.total
        rw [count_append, count_append] at htotal
        cases t with
        | number value =>
            have hread := hfront ⟨h.balanced.nested.of_append, htotal⟩
            exact hread.atom (h.not_ends rfl) (.number value)
        | identifier name negated =>
            have hread := hfront ⟨h.balanced.nested.of_append, htotal⟩
            exact hread.atom (h.not_ends rfl)
              (.identifier name negated (h.names name negated (by simp)))
        | operator op =>
            have hnested := h.balanced.nested.of_append front List.prefix_rfl
            cases op with
            | openParen =>
                rw [count_closeParen_openParen, count_openParen_openParen] at htotal
                omega
            | closeParen =>
                rw [count_closeParen_closeParen, count_openParen_closeParen] at htotal
                obtain ⟨outer, inner, rfl, hinner⟩ :=
                  exists_open h.balanced.nested.of_append (by omega)
                rw [count_append, count_append, count_cons, count_cons .openParen,
                  count_closeParen_openParen, count_openParen_openParen, hinner.total] at htotal
                -- The group and what stands before it are both shorter, and are read first.
                have houter : Balanced outer :=
                  ⟨h.balanced.nested.of_append.of_append, by omega⟩
                rw [List.append_assoc, List.cons_append] at h ⊢
                have hread := ih outer.length (by simp) (h.of_append houter) rfl
                have hgroup := ih inner.length (by simp; omega) (h.of_group hinner) rfl
                exact h.reading_closeParen hread hgroup
            | _ => exact h.reading_binary rfl (hfront ⟨h.balanced.nested.of_append, htotal⟩)

end Readable

theorem derivable_iff_exists {tokens : List (Token α)} :
    Derivable tokens ↔ ∃ d : Derivation α .sum, d.tokens = tokens := by
  constructor
  · intro h
    exact h.regular.reading.sum_of_ends h.regular.ends
  · rintro ⟨d, rfl⟩
    exact derivable_tokens d

theorem derivable_iff {tokens : List (Token α)} :
    Derivable tokens ↔
      Accepted tokens ∧ missingOperators tokens = 0 ∧ missingOperands tokens = 0 := by
  rw [← regular_iff]
  constructor
  · exact Derivable.regular
  · intro h
    exact derivable_iff_exists.2 (h.reading.sum_of_ends h.ends)

end DropTable.Formula
