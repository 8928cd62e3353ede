import DropTable.Program
import DropTable.Proofs.Formula.Grammar
/-!
# Derived formulas become postfix programs

While a phrase is read, the operators that wait on the stack split into those of the phrase and
those from before it.  The latter stay untouched as long as they bind less tightly than every
operator of the phrase, and what the phrase has put out by its end, followed by its own waiting
operators, is the postorder of its expression.
-/

namespace DropTable

/-- The least precedence of an operator that stands in a phrase outside all parentheses. -/
def Phrase.rank : Phrase → Nat
  | .sum => 1
  | .product => 2
  | .power => 3
  | .atom => 4

namespace Program

variable {α : Type}

/-- An operator that binds at least as tightly as a rank. -/
def Binds (rank : Nat) (op : Operator) : Prop :=
  ∃ p, op.precedence? = some p ∧ rank ≤ p

/-- Waiting operators of which none is applied before an operator of a rank comes: the latest one
binds less tightly, or is a parenthesis. -/
def Below (rank : Nat) (waiting : List Operator) : Prop :=
  ∀ op, waiting.head? = some op → ¬Binds rank op

theorem Below.mono {low high : Nat} {waiting : List Operator} (h : Below low waiting)
    (hle : low ≤ high) : Below high waiting := by
  intro op hop hbinds
  obtain ⟨p, hp, hhigh⟩ := hbinds
  exact h op hop ⟨p, hp, Nat.le_trans hle hhigh⟩

private theorem yieldsTo_iff {rank : Nat} {op waiting : Operator}
    (hop : op.precedence? = some rank) :
    yieldsTo op waiting = true ↔ Binds rank waiting := by
  unfold yieldsTo Binds
  cases waiting.precedence? <;> simp [hop]

private theorem span_yieldsTo {rank : Nat} {op : Operator} (hop : op.precedence? = some rank)
    {pending waiting : List Operator} (hpending : ∀ o ∈ pending, Binds rank o)
    (hwaiting : Below rank waiting) :
    (pending ++ waiting).takeWhile (yieldsTo op) = pending ∧
      (pending ++ waiting).dropWhile (yieldsTo op) = waiting := by
  have hall : ∀ o ∈ pending, yieldsTo op o = true := by
    intro o ho
    exact (yieldsTo_iff hop).2 (hpending o ho)
  rw [List.takeWhile_append_of_pos hall, List.dropWhile_append_of_pos hall]
  cases waiting with
  | nil => simp
  | cons top waiting =>
      have htop : ¬yieldsTo op top = true := by
        intro hyields
        exact hwaiting top rfl ((yieldsTo_iff hop).1 hyields)
      simp [htop]

private theorem span_openParen {rank : Nat} {pending : List Operator}
    (hpending : ∀ o ∈ pending, Binds rank o) (waiting : List Operator) :
    (pending ++ .openParen :: waiting).takeWhile (· ≠ .openParen) = pending ∧
      (pending ++ .openParen :: waiting).dropWhile (· ≠ .openParen) = .openParen :: waiting := by
  have hall : ∀ o ∈ pending, decide (o ≠ .openParen) = true := by
    intro o ho
    obtain ⟨p, hp, -⟩ := hpending o ho
    apply decide_eq_true
    intro hparen
    rw [hparen] at hp
    contradiction
  rw [List.takeWhile_append_of_pos hall, List.dropWhile_append_of_pos hall]
  simp

theorem rearrange_binary {op : Operator} (hop : op.isParen = false) (waiting : List Operator)
    (rest : List (Token α)) :
    rearrange waiting (.operator op :: rest) =
      (waiting.takeWhile (yieldsTo op)).map .operator ++
        rearrange (op :: waiting.dropWhile (yieldsTo op)) rest := by
  cases op <;> first | rfl | contradiction

/-- Tokens of a rank that are put out in a given order, partly at once and partly when the operators
that are left pending on the stack are released. -/
def PutsOut (rank : Nat) (tokens order : List (Token α)) : Prop :=
  ∀ waiting, Below rank waiting →
    ∃ output pending, (∀ op ∈ pending, Binds rank op) ∧
      output ++ pending.map .operator = order ∧
      ∀ rest, rearrange waiting (tokens ++ rest) = output ++ rearrange (pending ++ waiting) rest

namespace PutsOut

theorem mono {low high : Nat} {tokens order : List (Token α)} (h : PutsOut high tokens order)
    (hle : low ≤ high) : PutsOut low tokens order := by
  intro waiting hwaiting
  obtain ⟨output, pending, hpending, horder, hreads⟩ := h waiting (hwaiting.mono hle)
  refine ⟨output, pending, ?_, horder, hreads⟩
  intro op hop
  obtain ⟨p, hp, hhigh⟩ := hpending op hop
  exact ⟨p, hp, Nat.le_trans hle hhigh⟩

theorem operand {t : Token α} (ht : t.operator? = none) (rank : Nat) : PutsOut rank [t] [t] := by
  intro waiting _
  refine ⟨[t], [], by simp, by simp, ?_⟩
  intro rest
  cases t with
  | number value => rfl
  | identifier name negated => rfl
  | operator op => contradiction

theorem group {tokens order : List (Token α)} {low : Nat} (h : PutsOut low tokens order)
    (rank : Nat) :
    PutsOut rank (.operator .openParen :: (tokens ++ [.operator .closeParen])) order := by
  intro waiting _
  have hbelow : Below low (.openParen :: waiting) := by
    intro op hop hbinds
    obtain ⟨p, hp, -⟩ := hbinds
    simp only [List.head?_cons, Option.some.injEq] at hop
    subst hop
    contradiction
  obtain ⟨output, pending, hpending, horder, hreads⟩ := h _ hbelow
  obtain ⟨htake, hdrop⟩ := span_openParen hpending waiting
  refine ⟨order, [], by simp, by simp, ?_⟩
  intro rest
  calc rearrange waiting (.operator .openParen :: (tokens ++ [.operator .closeParen]) ++ rest)
      = rearrange (.openParen :: waiting) (tokens ++ .operator .closeParen :: rest) := by
        simp [rearrange]
    _ = output ++ rearrange (pending ++ .openParen :: waiting) (.operator .closeParen :: rest) :=
        hreads _
    _ = output ++ (pending.map .operator ++ rearrange waiting rest) := by
        rw [rearrange, htake, hdrop, List.drop_one, List.tail_cons]
    _ = order ++ rearrange waiting rest := by
        rw [← List.append_assoc, horder]

/-- The operator between two phrases waits below the pending operators of the right one, which bind
more tightly: this is what groups to the left. -/
theorem operation {rank : Nat} {left right leftOrder rightOrder : List (Token α)}
    (hleft : PutsOut rank left leftOrder) (hright : PutsOut (rank + 1) right rightOrder)
    {op : BinaryOperator} (hop : op.val.precedence? = some rank) :
    PutsOut rank (left ++ .operator op.val :: right)
      (leftOrder ++ rightOrder ++ [.operator op.val]) := by
  intro waiting hwaiting
  obtain ⟨leftOutput, leftPending, hleftPending, hleftOrder, hleftReads⟩ := hleft waiting hwaiting
  obtain ⟨htake, hdrop⟩ := span_yieldsTo hop hleftPending hwaiting
  have hbelow : Below (rank + 1) (op.val :: waiting) := by
    intro o ho hbinds
    obtain ⟨p, hp, hrank⟩ := hbinds
    simp only [List.head?_cons, Option.some.injEq] at ho
    subst ho
    rw [hop, Option.some.injEq] at hp
    omega
  obtain ⟨rightOutput, rightPending, hrightPending, hrightOrder, hrightReads⟩ := hright _ hbelow
  refine ⟨leftOrder ++ rightOutput, rightPending ++ [op.val], ?_, ?_, ?_⟩
  · intro o ho
    rcases List.mem_append.1 ho with ho | ho
    · obtain ⟨p, hp, hrank⟩ := hrightPending o ho
      exact ⟨p, hp, by omega⟩
    · rw [List.mem_singleton] at ho
      subst ho
      exact ⟨rank, hop, Nat.le_refl rank⟩
  · simp [← hrightOrder]
  · intro rest
    calc rearrange waiting (left ++ .operator op.val :: right ++ rest)
        = leftOutput ++ rearrange (leftPending ++ waiting)
            (.operator op.val :: (right ++ rest)) := by
          rw [List.append_assoc, List.cons_append, hleftReads]
      _ = leftOutput ++ (leftPending.map .operator ++
            rearrange (op.val :: waiting) (right ++ rest)) := by
          rw [rearrange_binary op.property, htake, hdrop]
      _ = leftOrder ++ rearrange (op.val :: waiting) (right ++ rest) := by
          rw [← List.append_assoc, hleftOrder]
      _ = leftOrder ++ rightOutput ++ rearrange (rightPending ++ [op.val] ++ waiting) rest := by
          rw [hrightReads, List.append_assoc, List.append_assoc, List.singleton_append]

end PutsOut

private theorem putsOut_tokens {phrase : Phrase} (d : Derivation α phrase) :
    PutsOut phrase.rank d.tokens d.expression.postorder := by
  induction d with
  | ofProduct inner ih => exact ih.mono (by decide)
  | add left right ihl ihr => exact ihl.operation ihr rfl
  | subtract left right ihl ihr => exact ihl.operation ihr rfl
  | ofPower inner ih => exact ih.mono (by decide)
  | multiply left right ihl ihr => exact ihl.operation ihr rfl
  | divide left right ihl ihr => exact ihl.operation ihr rfl
  | ofAtom inner ih => exact ih.mono (by decide)
  | power left right ihl ihr => exact ihl.operation ihr rfl
  | number value => exact .operand rfl _
  | identifier name negated valid => exact .operand rfl _
  | group inner ih => exact ih.group _

theorem tokens_ofFormula {phrase : Phrase} (d : Derivation α phrase) :
    (ofFormula d.tokens).tokens = d.expression.postorder := by
  have hempty : Below phrase.rank [] := by
    intro op hop
    contradiction
  obtain ⟨output, pending, -, horder, hreads⟩ := putsOut_tokens d [] hempty
  have hend := hreads []
  rw [List.append_nil, List.append_nil, rearrange, horder] at hend
  exact hend

end Program

end DropTable
