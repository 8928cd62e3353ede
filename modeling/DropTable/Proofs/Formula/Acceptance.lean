import Mathlib.Data.List.Basic
import DropTable.Proofs.Formula.Grammar
/-!
# Derived formulas pass the check

The check reads a formula from left to right and knows the parentheses so far and the operator right
before.  A phrase leaves both balances as it found them and ends where an operator may follow, which
is all that the phrases around it rely on.
-/

namespace DropTable.Formula

variable {α : Type}

theorem count_append (op : Operator) (left right : List (Token α)) :
    count op (left ++ right) = count op left + count op right := by
  exact List.countP_append

@[simp] theorem count_nil (op : Operator) : count op ([] : List (Token α)) = 0 := rfl

theorem count_operator_cons (op other : Operator) (rest : List (Token α)) :
    count op (.operator other :: rest) = count op rest + if other = op then 1 else 0 := by
  by_cases h : other = op <;> simp [count, Token.operator?, h]

/-- The operator at the start of a token list, if it starts with one. -/
def first? (tokens : List (Token α)) : Option Operator :=
  tokens.head?.bind Token.operator?

/-- The operator at the end of a token list, if it ends with one. -/
def last? (tokens : List (Token α)) : Option Operator :=
  tokens.getLast?.bind Token.operator?

theorem first?_append {left : List (Token α)} (hleft : left ≠ []) (right : List (Token α)) :
    first? (left ++ right) = first? left := by
  rw [first?, List.head?_append_of_ne_nil _ hleft, first?]

theorem last?_append (left : List (Token α)) {right : List (Token α)} (hright : right ≠ []) :
    last? (left ++ right) = last? right := by
  rw [last?, List.getLast?_append_of_ne_nil _ hright, last?]

/-- What the check relies on in a phrase, and that it finds no fault in it wherever it stands. -/
structure Flawless (tokens : List (Token α)) : Prop where
  nonempty : tokens ≠ []
  begins : first? tokens = none ∨ first? tokens = some .openParen
  ends : last? tokens = none ∨ last? tokens = some .closeParen
  balanced : count .closeParen tokens = count .openParen tokens
  within : ∀ opens closes previous rest, closes ≤ opens →
    malformationsWithin opens closes previous (tokens ++ rest) =
      malformationsWithin (opens + count .openParen tokens) (closes + count .openParen tokens)
        (last? tokens) rest

namespace Flawless

theorem number (value : α) : Flawless [(.number value : Token α)] where
  nonempty := by simp
  begins := .inl rfl
  ends := .inl rfl
  balanced := rfl
  within := by
    intro opens closes previous rest _
    rfl

theorem identifier {name : String} (valid : isName name = true) (negated : Bool) :
    Flawless [(.identifier name negated : Token α)] where
  nonempty := by simp
  begins := .inl rfl
  ends := .inl rfl
  balanced := rfl
  within := by
    intro opens closes previous rest _
    simp [malformationsWithin, malformationsAt, valid, count, last?, Token.operator?]

theorem group {tokens : List (Token α)} (h : Flawless tokens) :
    Flawless (.operator .openParen :: (tokens ++ [.operator .closeParen])) where
  nonempty := by simp
  begins := .inr rfl
  ends := by
    right
    rw [← List.cons_append, last?_append _ (by simp)]
    rfl
  balanced := by
    have hbalanced := h.balanced
    simp [count_operator_cons, count_append, hbalanced]
  within := by
    intro opens closes previous rest hcloses
    have hlast : last? (.operator .openParen :: (tokens ++ [.operator .closeParen])) =
        some .closeParen := by
      rw [← List.cons_append, last?_append _ (by simp)]
      rfl
    have hwithin := h.within (opens + 1) closes (some .openParen)
      (.operator .closeParen :: rest) (by omega)
    have hopen : ¬opens + 1 + count .openParen tokens ≤ closes + count .openParen tokens := by
      omega
    simp only [List.cons_append, List.append_assoc, List.nil_append, malformationsWithin,
      malformationsAt, Token.operator?, count_operator_cons, count_append, count_nil, hlast]
    simp only [reduceIte, reduceCtorEq, Nat.zero_add, Nat.add_zero, List.nil_append, hwithin,
      malformationsWithin, malformationsAt, if_neg hopen, count_operator_cons, count_nil,
      Token.operator?]
    congr 1
    omega

theorem operation {left right : List (Token α)} (hleft : Flawless left) (hright : Flawless right)
    {op : Operator} (hop : op.isParen = false) :
    Flawless (left ++ .operator op :: right) where
  nonempty := by simp
  begins := by
    rw [first?_append hleft.nonempty]
    exact hleft.begins
  ends := by
    rw [← List.singleton_append, ← List.append_assoc, last?_append _ hright.nonempty]
    exact hright.ends
  balanced := by
    have hl := hleft.balanced
    have hr := hright.balanced
    simp only [count_append, count_operator_cons]
    cases op <;> simp_all [Operator.isParen, Operator.precedence?]
  within := by
    intro opens closes previous rest hcloses
    have hat : malformationsAt (opens + count .openParen left) (closes + count .openParen left)
        (last? left) (.operator op : Token α) = [] := by
      rcases hleft.ends with hends | hends <;>
        cases op <;> simp_all [malformationsAt, Operator.isParen, Operator.precedence?]
    have hparens : op ≠ .openParen ∧ op ≠ .closeParen := by
      constructor <;> rintro rfl <;> contradiction
    have hlast : last? (left ++ .operator op :: right) = last? right := by
      rw [← List.singleton_append, ← List.append_assoc, last?_append _ hright.nonempty]
    rw [hlast, List.append_assoc, hleft.within _ _ _ _ hcloses, List.cons_append,
      malformationsWithin, hat, List.nil_append, hright.within _ _ _ _ (by
        simp only [count_operator_cons, count_nil, if_neg hparens.1, if_neg hparens.2]
        omega)]
    simp only [count_append, count_operator_cons, count_nil, if_neg hparens.1, if_neg hparens.2]
    congr 1 <;> omega

theorem check_eq [Numeral α] {tokens : List (Token α)} (h : Flawless tokens) :
    check tokens = .ok tokens := by
  have hleading : leading tokens = [] := by
    have hfirst : tokens.head?.bind Token.operator? = first? tokens := rfl
    rcases h.begins with hbegins | hbegins <;> simp [leading, hfirst, hbegins]
  have htrailing : trailing tokens = [] := by
    have hlast : tokens.getLast?.bind Token.operator? = last? tokens := rfl
    rcases h.ends with hends | hends <;> simp [trailing, hlast, hends]
  have hwithin : malformationsWithin 0 0 none tokens = [] := by
    simpa [malformationsWithin] using h.within 0 0 none [] (Nat.le_refl 0)
  have hbalance : balance tokens = [] := by
    simp [balance, h.balanced]
  have hnone : malformations tokens = [] := by
    rw [malformations, hleading, hwithin, htrailing, hbalance]
    rfl
  rw [check, hnone, if_neg (by simpa using h.nonempty)]
  rfl

end Flawless

theorem flawless_tokens {phrase : Phrase} (d : Derivation α phrase) : Flawless d.tokens := by
  induction d with
  | ofProduct inner ih => exact ih
  | add left right ihl ihr => exact ihl.operation ihr rfl
  | subtract left right ihl ihr => exact ihl.operation ihr rfl
  | ofPower inner ih => exact ih
  | multiply left right ihl ihr => exact ihl.operation ihr rfl
  | divide left right ihl ihr => exact ihl.operation ihr rfl
  | ofAtom inner ih => exact ih
  | power left right ihl ihr => exact ihl.operation ihr rfl
  | number value => exact .number value
  | identifier name negated valid => exact .identifier valid negated
  | group inner ih => exact ih.group

end DropTable.Formula
