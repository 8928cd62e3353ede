import Mathlib.Data.List.Basic
import DropTable.Proofs.Formula.Acceptance
/-!
# Balanced parentheses

Balance is a matter of counting: no prefix closes more than it opens, and in the end as much is
closed as is opened.  What counting says of all prefixes, it says of pairs: a parenthesis that can
be closed stands in front of a balanced list of tokens.
-/

namespace DropTable.Formula

variable {α : Type}

theorem count_cons (op : Operator) (t : Token α) (tokens : List (Token α)) :
    count op (t :: tokens) = count op [t] + count op tokens :=
  count_append op [t] tokens

@[simp] theorem count_openParen_openParen :
    count .openParen [(.operator .openParen : Token α)] = 1 := rfl

@[simp] theorem count_openParen_closeParen :
    count .openParen [(.operator .closeParen : Token α)] = 0 := rfl

@[simp] theorem count_closeParen_openParen :
    count .closeParen [(.operator .openParen : Token α)] = 0 := rfl

@[simp] theorem count_closeParen_closeParen :
    count .closeParen [(.operator .closeParen : Token α)] = 1 := rfl

/-- Every parenthesis that is closed has been opened before. -/
def Nested (tokens : List (Token α)) : Prop :=
  ∀ before, before <+: tokens → count .closeParen before ≤ count .openParen before

/-- Besides, every parenthesis that is opened is closed in the end. -/
structure Balanced (tokens : List (Token α)) : Prop where
  nested : Nested tokens
  total : count .closeParen tokens = count .openParen tokens

theorem Nested.of_append {left right : List (Token α)} (h : Nested (left ++ right)) :
    Nested left :=
  fun before hbefore => h before (List.prefix_append_of_prefix hbefore)

private theorem nested_append {left right : List (Token α)} (hleft : Nested left)
    (hright : ∀ before, before <+: right → count .closeParen left + count .closeParen before ≤
      count .openParen left + count .openParen before) : Nested (left ++ right) := by
  intro before hbefore
  rcases List.prefix_or_prefix_of_prefix hbefore (List.prefix_append left right) with h | h
  · exact hleft before h
  · obtain ⟨rest, rfl⟩ := h
    rw [count_append, count_append]
    exact hright rest ((List.prefix_append_right_inj left).1 hbefore)

namespace Balanced

theorem nil : Balanced ([] : List (Token α)) where
  nested := by
    intro before hbefore
    rw [List.prefix_nil.1 hbefore]
    exact Nat.le_refl _
  total := rfl

theorem append {left right : List (Token α)} (hleft : Balanced left) (hright : Balanced right) :
    Balanced (left ++ right) where
  nested := by
    refine nested_append hleft.nested fun before hbefore => ?_
    rw [hleft.total]
    exact Nat.add_le_add_left (hright.nested before hbefore) _
  total := by
    rw [count_append, count_append, hleft.total, hright.total]

theorem singleton {t : Token α} (hopen : count .openParen [t] = 0)
    (hclose : count .closeParen [t] = 0) : Balanced [t] where
  nested := by
    intro before hbefore
    have hle : count .closeParen before ≤ count .closeParen [t] :=
      hbefore.sublist.countP_le
    omega
  total := by rw [hopen, hclose]

theorem operator {op : Operator} (hop : op.isParen = false) :
    Balanced [(.operator op : Token α)] := by
  have hparens : op ≠ .openParen ∧ op ≠ .closeParen := by
    constructor <;> rintro rfl <;> contradiction
  exact .singleton (by simp [count_operator_cons, hparens.1])
    (by simp [count_operator_cons, hparens.2])

theorem group {inner : List (Token α)} (h : Balanced inner) :
    Balanced (.operator .openParen :: inner ++ [.operator .closeParen]) where
  nested := by
    have hopened : Nested (.operator .openParen :: inner) := by
      intro before hbefore
      rcases List.prefix_cons_iff.1 hbefore with rfl | ⟨rest, rfl, hrest⟩
      · exact Nat.le_refl _
      · have hle := h.nested rest hrest
        rw [count_cons, count_cons .openParen, count_closeParen_openParen,
          count_openParen_openParen]
        omega
    refine nested_append hopened fun before hbefore => ?_
    have hle : count .closeParen before ≤ count .closeParen [(.operator .closeParen : Token α)] :=
      hbefore.sublist.countP_le
    rw [count_closeParen_closeParen] at hle
    rw [count_cons, count_cons .openParen, count_closeParen_openParen, count_openParen_openParen,
      h.total]
    omega
  total := by
    rw [count_append, count_append, count_cons, count_cons .openParen]
    simp [h.total, Nat.add_comm]

end Balanced

theorem parens_cases (t : Token α) :
    t = .operator .openParen ∨ t = .operator .closeParen ∨
      count .openParen [t] = 0 ∧ count .closeParen [t] = 0 := by
  cases t with
  | number value => exact .inr (.inr ⟨rfl, rfl⟩)
  | identifier name negated => exact .inr (.inr ⟨rfl, rfl⟩)
  | operator op => cases op <;> simp [count_operator_cons]

theorem exists_open {before : List (Token α)} (hnested : Nested before)
    (hlt : count .closeParen before < count .openParen before) :
    ∃ outer inner, before = outer ++ .operator .openParen :: inner ∧ Balanced inner := by
  induction hlength : before.length using Nat.strongRecOn generalizing before with
  | ind length ih =>
      subst hlength
      rcases List.eq_nil_or_concat' before with rfl | ⟨front, t, rfl⟩
      · contradiction
      · have hfront := hnested.of_append
        rw [count_append, count_append] at hlt
        rcases parens_cases t with rfl | rfl | ⟨hopen, hclose⟩
        · exact ⟨front, [], rfl, .nil⟩
        · -- The group that this token closes lies within the group that is still open.
          rw [count_closeParen_closeParen, count_openParen_closeParen] at hlt
          obtain ⟨middle, inner, rfl, hinner⟩ := ih front.length (by simp) hfront (by omega) rfl
          rw [count_append, count_append, count_cons, count_cons .openParen,
            count_closeParen_openParen, count_openParen_openParen, hinner.total] at hlt
          obtain ⟨outer, more, rfl, hmore⟩ :=
            ih middle.length (by simp) hfront.of_append (by omega) rfl
          exact ⟨outer, more ++ (.operator .openParen :: inner ++ [.operator .closeParen]),
            by simp, hmore.append hinner.group⟩
        · rw [hopen, hclose] at hlt
          obtain ⟨outer, inner, rfl, hinner⟩ := ih front.length (by simp) hfront (by omega) rfl
          exact ⟨outer, inner ++ [t], by simp, hinner.append (.singleton hopen hclose)⟩

/-- Lists that put each parenthesis that is opened together with one that closes it. -/
inductive Paired : List (Token α) → Prop
  | nil : Paired []
  | single {t : Token α} (hopen : t ≠ .operator .openParen) (hclose : t ≠ .operator .closeParen) :
      Paired [t]
  | group {inner : List (Token α)} (h : Paired inner) :
      Paired (.operator .openParen :: inner ++ [.operator .closeParen])
  | append {left right : List (Token α)} (hleft : Paired left) (hright : Paired right) :
      Paired (left ++ right)

theorem Paired.balanced {tokens : List (Token α)} (h : Paired tokens) : Balanced tokens := by
  induction h with
  | nil => exact .nil
  | @single t hopen hclose =>
      rcases parens_cases t with rfl | rfl | ⟨hcountOpen, hcountClose⟩
      · contradiction
      · contradiction
      · exact .singleton hcountOpen hcountClose
  | group _ ih => exact ih.group
  | append _ _ ihl ihr => exact ihl.append ihr

theorem Balanced.paired {tokens : List (Token α)} (h : Balanced tokens) : Paired tokens := by
  induction hlength : tokens.length using Nat.strongRecOn generalizing tokens with
  | ind length ih =>
      subst hlength
      rcases List.eq_nil_or_concat' tokens with rfl | ⟨front, t, rfl⟩
      · exact .nil
      · have hfront := h.nested.of_append
        have hle := hfront front (List.prefix_refl front)
        have htotal := h.total
        rw [count_append, count_append] at htotal
        rcases parens_cases t with rfl | rfl | ⟨hopen, hclose⟩
        · rw [count_closeParen_openParen, count_openParen_openParen] at htotal
          omega
        · rw [count_closeParen_closeParen, count_openParen_closeParen] at htotal
          obtain ⟨outer, inner, rfl, hinner⟩ := exists_open hfront (by omega)
          rw [count_append, count_append, count_cons, count_cons .openParen,
            count_closeParen_openParen, count_openParen_openParen, hinner.total] at htotal
          have houter : Balanced outer := ⟨hfront.of_append, by omega⟩
          rw [List.append_assoc]
          exact (ih outer.length (by simp) houter rfl).append
            (ih inner.length (by simp; omega) hinner rfl).group
        · rw [hopen, hclose] at htotal
          refine (ih front.length (by simp) ⟨hfront, htotal⟩ rfl).append (.single ?_ ?_)
          · rintro rfl
            contradiction
          · rintro rfl
            contradiction

/-- Counting finds the lists whose parentheses can be put in pairs, and no others. -/
theorem balanced_iff_paired {tokens : List (Token α)} : Balanced tokens ↔ Paired tokens :=
  ⟨Balanced.paired, Paired.balanced⟩

end DropTable.Formula
