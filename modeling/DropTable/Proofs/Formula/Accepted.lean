import Mathlib.Data.List.Chain
import DropTable.Proofs.Fault
import DropTable.Proofs.Formula.Balance
/-!
# What the check accepts

The check goes through a formula once, with a few numbers in hand.  What it asks for can be said
without any order of reading: how a formula begins and ends, that its parentheses are balanced, what
may stand before an operator, and which names are valid.  Much passes that no expression is made of.
-/

namespace DropTable

namespace Token

variable {α : Type}

/-- Whether an expression can begin with a token. -/
def begins (t : Token α) : Bool :=
  t.operator?.all (· = .openParen)

/-- Whether an expression can end with a token. -/
def ends (t : Token α) : Bool :=
  t.operator?.all (· = .closeParen)

/-- Whether a token is an operator that has a value. -/
def isBinary (t : Token α) : Bool :=
  t.operator?.any (!·.isParen)

end Token

namespace Formula

variable {α : Type}

theorem isName_iff {name : String} :
    isName name = true ↔ ∃ first rest, name.toList = first :: rest ∧
      (first.isAlpha = true ∨ first = '_') ∧ ∀ c ∈ rest, c.isAlphanum = true ∨ c = '_' := by
  unfold isName
  cases name.toList with
  | nil => simp
  | cons first rest => simp

/-- What the check asks of a formula. -/
structure Accepted (tokens : List (Token α)) : Prop where
  begins : ∃ t ∈ tokens.head?, t.begins = true
  ends : ∃ t ∈ tokens.getLast?, t.ends = true
  balanced : Balanced tokens
  follows : tokens.IsChain fun t u => u.isBinary = true → t.ends = true
  names : ∀ name negated, .identifier name negated ∈ tokens → isName name = true

private theorem malformationsAt_eq_nil_iff {opens closes : Nat} (hle : closes ≤ opens)
    (previous : Option Operator) (t : Token α) :
    malformationsAt opens closes previous t = [] ↔
      closes + count .closeParen [t] ≤ opens + count .openParen [t] ∧
        (t.isBinary = true → previous.all (· = .closeParen) = true) ∧
        ∀ name negated, t = .identifier name negated → isName name = true := by
  cases t with
  | number value => simpa [malformationsAt, count, Token.operator?, Token.isBinary] using hle
  | identifier name negated =>
      simp [malformationsAt, count, Token.operator?, Token.isBinary, hle]
  | operator op =>
      cases op <;> cases previous <;>
        simp [malformationsAt, count, Token.operator?, Token.isBinary, Operator.isParen,
          Operator.precedence?, hle] <;> omega

private theorem forall_prefix_cons_iff {opens closes : Nat} (t : Token α)
    (tokens : List (Token α)) :
    (∀ before, before <+: t :: tokens →
        closes + count .closeParen before ≤ opens + count .openParen before) ↔
      closes ≤ opens ∧ ∀ before, before <+: tokens →
        closes + count .closeParen [t] + count .closeParen before ≤
          opens + count .openParen [t] + count .openParen before := by
  simp only [Nat.add_assoc, ← count_cons]
  constructor
  · intro h
    refine ⟨h [] (List.nil_prefix), fun before hbefore => ?_⟩
    exact h (t :: before) (List.cons_prefix_cons.2 ⟨rfl, hbefore⟩)
  · rintro ⟨hle, h⟩ before hbefore
    rcases List.prefix_cons_iff.1 hbefore with rfl | ⟨rest, rfl, hrest⟩
    · exact hle
    · exact h rest hrest

private theorem malformationsWithin_eq_nil_iff {opens closes : Nat} (hle : closes ≤ opens)
    (previous : Option Operator) (tokens : List (Token α)) :
    malformationsWithin opens closes previous tokens = [] ↔
      (∀ before, before <+: tokens →
        closes + count .closeParen before ≤ opens + count .openParen before) ∧
      (∀ t ∈ tokens.head?, t.isBinary = true → previous.all (· = .closeParen) = true) ∧
      (tokens.IsChain fun t u => u.isBinary = true → t.ends = true) ∧
      ∀ name negated, .identifier name negated ∈ tokens → isName name = true := by
  induction tokens generalizing opens closes previous with
  | nil => simpa [malformationsWithin] using hle
  | cons t tokens ih =>
      have hchain : (t :: tokens).IsChain (fun t u => u.isBinary = true → t.ends = true) ↔
          (∀ u ∈ tokens.head?, u.isBinary = true → t.ends = true) ∧
            tokens.IsChain fun t u => u.isBinary = true → t.ends = true :=
        List.isChain_cons
      rw [malformationsWithin, List.append_eq_nil_iff, malformationsAt_eq_nil_iff hle,
        forall_prefix_cons_iff, hchain]
      constructor
      · rintro ⟨⟨hnext, hbinary, hname⟩, hrest⟩
        obtain ⟨hnested, hhead, hfollows, hnames⟩ := (ih hnext _).1 hrest
        refine ⟨⟨hle, hnested⟩, by simpa using hbinary, ⟨hhead, hfollows⟩, ?_⟩
        intro name negated hmem
        rcases List.mem_cons.1 hmem with heq | hmem
        · exact hname name negated heq.symm
        · exact hnames name negated hmem
      · rintro ⟨⟨-, hnested⟩, hbinary, ⟨hhead, hfollows⟩, hnames⟩
        have hnext := hnested [] List.nil_prefix
        refine ⟨⟨hnext, hbinary t rfl, ?_⟩, (ih hnext _).2 ⟨hnested, hhead, hfollows, ?_⟩⟩
        · exact fun name negated heq => hnames name negated (by simp [heq])
        · exact fun name negated hmem => hnames name negated (by simp [hmem])

private theorem leading_eq_nil_iff {tokens : List (Token α)} :
    leading tokens = [] ↔ ∀ t ∈ tokens.head?, t.begins = true := by
  cases tokens with
  | nil => simp [leading]
  | cons t tokens =>
      cases hop : t.operator? <;> simp [leading, Token.begins, hop]

private theorem trailing_eq_nil_iff {tokens : List (Token α)} :
    trailing tokens = [] ↔ ∀ t ∈ tokens.getLast?, t.ends = true := by
  cases hlast : tokens.getLast? with
  | none => simp [trailing, hlast]
  | some t =>
      cases hop : t.operator? <;> simp [trailing, hlast, Token.ends, hop]

private theorem balance_eq_nil_iff {tokens : List (Token α)} :
    balance tokens = [] ↔ count .closeParen tokens = count .openParen tokens := by
  simp [balance, eq_comm]

theorem malformations_eq_nil_iff {tokens : List (Token α)} (hne : tokens ≠ []) :
    malformations tokens = [] ↔ Accepted tokens := by
  obtain ⟨t, hfirst⟩ : ∃ t, tokens.head? = some t := Option.ne_none_iff_exists'.1 (by simpa)
  obtain ⟨u, hlast⟩ : ∃ u, tokens.getLast? = some u := Option.ne_none_iff_exists'.1 (by simpa)
  rw [malformations, List.append_eq_nil_iff, List.append_eq_nil_iff, List.append_eq_nil_iff,
    leading_eq_nil_iff, malformationsWithin_eq_nil_iff (Nat.le_refl 0), trailing_eq_nil_iff,
    balance_eq_nil_iff]
  simp only [Nat.zero_add, Option.all_none, implies_true, true_and]
  constructor
  · rintro ⟨⟨⟨hbegins, hnested, hfollows, hnames⟩, hends⟩, htotal⟩
    exact ⟨⟨t, hfirst, hbegins t hfirst⟩, ⟨u, hlast, hends u hlast⟩, ⟨hnested, htotal⟩, hfollows,
      hnames⟩
  · rintro ⟨⟨t', ht', hbegins⟩, ⟨u', hu', hends⟩, ⟨hnested, htotal⟩, hfollows, hnames⟩
    refine ⟨⟨⟨?_, hnested, hfollows, hnames⟩, ?_⟩, htotal⟩
    · exact fun t ht => Option.mem_unique ht' ht ▸ hbegins
    · exact fun u hu => Option.mem_unique hu' hu ▸ hends

theorem Accepted.ne_nil {tokens : List (Token α)} (h : Accepted tokens) : tokens ≠ [] := by
  rintro rfl
  obtain ⟨t, ht, -⟩ := h.begins
  contradiction

theorem begins_eq_false_of_isBinary {t : Token α} (h : t.isBinary = true) : t.begins = false := by
  cases t with
  | operator op => cases op <;> first | rfl | contradiction
  | _ => contradiction

namespace Accepted

theorem group {inner : List (Token α)} (h : Accepted inner) :
    Accepted (.operator .openParen :: (inner ++ [.operator .closeParen])) where
  begins := ⟨_, rfl, rfl⟩
  ends := ⟨.operator .closeParen, by rw [← List.cons_append, List.getLast?_concat]; rfl, rfl⟩
  balanced := h.balanced.group
  follows := by
    obtain ⟨first, hfirst, hbegins⟩ := h.begins
    refine .cons (.append h.follows (.singleton _) ?_) ?_
    · rintro t - u ⟨⟩ hbinary
      contradiction
    · intro u hu hbinary
      rw [List.head?_append, Option.mem_def.1 hfirst] at hu
      cases hu
      rw [begins_eq_false_of_isBinary hbinary] at hbegins
      contradiction
  names := by
    intro name negated hmem
    simp only [List.mem_cons, List.mem_append, reduceCtorEq, List.not_mem_nil, or_false,
      false_or] at hmem
    exact h.names name negated hmem

theorem operation {left right : List (Token α)} (hleft : Accepted left) (hright : Accepted right)
    {op : Operator} (hop : op.isParen = false) : Accepted (left ++ .operator op :: right) where
  begins := by
    obtain ⟨first, hfirst, hbegins⟩ := hleft.begins
    exact ⟨first, by rw [List.head?_append, Option.mem_def.1 hfirst]; rfl, hbegins⟩
  ends := by
    obtain ⟨last, hlast, hends⟩ := hright.ends
    refine ⟨last, ?_, hends⟩
    rw [List.getLast?_append_cons, List.getLast?_cons, Option.mem_def.1 hlast]
    rfl
  balanced := hleft.balanced.append ((Balanced.operator hop).append hright.balanced)
  follows := by
    obtain ⟨last, hlast, hends⟩ := hleft.ends
    obtain ⟨first, hfirst, hbegins⟩ := hright.begins
    refine .append hleft.follows (.cons hright.follows ?_) ?_
    · intro u hu hbinary
      cases Option.mem_unique hu hfirst
      rw [begins_eq_false_of_isBinary hbinary] at hbegins
      contradiction
    · intro t ht u _ _
      cases Option.mem_unique ht hlast
      exact hends
  names := by
    intro name negated hmem
    simp only [List.mem_append, List.mem_cons, reduceCtorEq, false_or] at hmem
    exact hmem.elim (hleft.names name negated) (hright.names name negated)

end Accepted

theorem check_eq_ok_iff [Numeral α] {tokens result : List (Token α)} :
    check tokens = .ok result ↔ Accepted tokens ∧ tokens = result := by
  unfold check
  by_cases hne : tokens = []
  · subst hne
    have hnot : ¬ Accepted ([] : List (Token α)) := fun h => h.ne_nil rfl
    simp [hnot]
  · rw [if_neg (by simpa using hne), FaultList.check_eq_ok_iff, List.map_eq_nil_iff,
      malformations_eq_nil_iff hne]

end Formula

end DropTable
