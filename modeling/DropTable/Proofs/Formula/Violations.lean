import DropTable.Numeral.Binary64
import DropTable.Proofs.Formula.Accepted
/-!
# What the check reports

The check carries a few numbers from left to right and reports as it goes.  What it reports can be
said position by position, without any order of reading: each violation of a rule is a matter of the
tokens up to its position, and is reported there whatever else is wrong.
-/

namespace DropTable.Formula

variable {α : Type}

/-- The violations of a formula at its positions. -/
inductive Violates (tokens : List (Token α)) : Nat → Malformation → Prop
  /-- More is closed than opened up to here. -/
  | unmatchedClose {before after : List (Token α)}
      (hsplit : tokens = before ++ .operator .closeParen :: after)
      (hcount : count .openParen (before ++ [.operator .closeParen]) <
        count .closeParen (before ++ [.operator .closeParen])) :
      Violates tokens before.length .unmatchedClose
  /-- An arithmetic operator stands right behind an operator or an opening parenthesis. -/
  | consecutiveOperators {before after : List (Token α)} {first second : Operator}
      (hsplit : tokens = before ++ .operator first :: .operator second :: after)
      (hfirst : first ≠ .closeParen) (hsecond : second.isParen = false) :
      Violates tokens (before.length + 1) .consecutiveOperators
  | invalidIdentifier {before after : List (Token α)} {name : String} {negated : Bool}
      (hsplit : tokens = before ++ .identifier name negated :: after)
      (hname : isName name = false) :
      Violates tokens before.length (.invalidIdentifier name)

/-- All that is wrong with a formula, in the order in which it is reported. -/
structure Reports (tokens : List (Token α)) (reasons : List Malformation) : Prop where
  /-- Between what is wrong with the ends and with the totals stand the violations at positions,
  each once and from left to right. -/
  exists_located : ∃ located : List (Nat × Malformation),
    (located.map Prod.fst).Pairwise (· < ·) ∧
    (∀ position reason, (position, reason) ∈ located ↔ Violates tokens position reason) ∧
    reasons =
      (if tokens.head?.any Token.begins then [] else [.leadingOperator]) ++
        located.map Prod.snd ++
        (if tokens.getLast?.any Token.ends then [] else [.trailingOperator]) ++
        (if count .openParen tokens = count .closeParen tokens then []
          else [.unbalancedParentheses (count .openParen tokens) (count .closeParen tokens)])

/-! ## One position -/

private theorem last?_concat (front : List (Token α)) (t : Token α) :
    last? (front ++ [t]) = t.operator? := by
  rw [last?, List.getLast?_concat, Option.bind_some]

private theorem exists_of_last? {front : List (Token α)} {op : Operator}
    (h : last? front = some op) :
    ∃ before, front = before ++ [.operator op] := by
  obtain ⟨t, hlast, hop⟩ := Option.bind_eq_some_iff.1 h
  obtain ⟨before, rfl⟩ := List.getLast?_eq_some_iff.1 hlast
  refine ⟨before, ?_⟩
  cases t with
  | operator op' => rw [Option.some.inj hop]
  | _ => contradiction

private theorem malformationsAt_binary {op : Operator} (hop : op.isParen = false)
    (opens closes : Nat) (previous : Option Operator) :
    malformationsAt opens closes previous (.operator op : Token α) =
      if previous.any (· ≠ .closeParen) then [.consecutiveOperators] else [] := by
  cases op <;> first | rfl | contradiction

private theorem length_malformationsAt_le (opens closes : Nat) (previous : Option Operator)
    (t : Token α) :
    (malformationsAt opens closes previous t).length ≤ 1 := by
  unfold malformationsAt
  split <;> first | exact Nat.zero_le _ | (split <;> simp)

private theorem count_concat (op : Operator) (front : List (Token α)) (t : Token α) :
    count op (front ++ [t]) = count op front + count op [t] :=
  count_append op front [t]

private theorem violates_of_mem {front : List (Token α)} {t : Token α} {reason : Malformation}
    (h : reason ∈ malformationsAt (count .openParen front) (count .closeParen front)
      (last? front) t) (rest : List (Token α)) :
    Violates (front ++ t :: rest) front.length reason := by
  cases t with
  | number value => contradiction
  | identifier name negated =>
      rw [malformationsAt] at h
      split at h
      case isTrue => contradiction
      case isFalse hname =>
        rw [List.mem_singleton.1 h]
        exact .invalidIdentifier rfl (Bool.eq_false_iff.2 hname)
  | operator op =>
      cases hop : op.isParen with
      | false =>
          rw [malformationsAt_binary hop] at h
          split at h
          case isTrue hprevious =>
            obtain ⟨first, hlast, hfirst⟩ := (Option.any_eq_true _ _).1 hprevious
            obtain ⟨before, rfl⟩ := exists_of_last? hlast
            rw [List.mem_singleton.1 h, List.length_append, List.append_assoc]
            exact .consecutiveOperators rfl (of_decide_eq_true hfirst) hop
          case isFalse => contradiction
      | true =>
          cases op with
          | openParen => contradiction
          | closeParen =>
              rw [malformationsAt] at h
              split at h
              case isTrue hle =>
                rw [List.mem_singleton.1 h]
                refine .unmatchedClose rfl ?_
                rw [count_concat, count_concat, count_openParen_closeParen,
                  count_closeParen_closeParen]
                omega
              case isFalse => contradiction
          | _ => contradiction

private theorem mem_of_violates {front rest : List (Token α)} {t : Token α} {position : Nat}
    {reason : Malformation} (h : Violates (front ++ t :: rest) position reason)
    (hposition : position = front.length) :
    reason ∈ malformationsAt (count .openParen front) (count .closeParen front) (last? front) t := by
  cases h with
  | unmatchedClose hsplit hcount =>
      obtain ⟨rfl, htail⟩ := List.append_inj hsplit hposition.symm
      obtain ⟨rfl, -⟩ := List.cons.inj htail
      rw [count_concat, count_concat, count_openParen_closeParen, count_closeParen_closeParen]
        at hcount
      rw [malformationsAt, if_pos (by omega)]
      exact List.mem_singleton_self _
  | @consecutiveOperators before after first second hsplit hfirst hsecond =>
      rw [List.append_cons before] at hsplit
      obtain ⟨rfl, htail⟩ := List.append_inj hsplit (by simp [hposition])
      obtain ⟨rfl, -⟩ := List.cons.inj htail
      rw [malformationsAt_binary hsecond, last?_concat, if_pos (by simpa [Token.operator?] using hfirst)]
      exact List.mem_singleton_self _
  | invalidIdentifier hsplit hname =>
      obtain ⟨rfl, htail⟩ := List.append_inj hsplit hposition.symm
      obtain ⟨rfl, -⟩ := List.cons.inj htail
      rw [malformationsAt, hname, if_neg Bool.false_ne_true]
      exact List.mem_singleton_self _

theorem Violates.lt_length {tokens : List (Token α)} {position : Nat} {reason : Malformation}
    (h : Violates tokens position reason) : position < tokens.length := by
  cases h with
  | unmatchedClose hsplit => simp [hsplit]
  | consecutiveOperators hsplit => simp [hsplit]
  | invalidIdentifier hsplit => simp [hsplit]

/-! ## All positions -/

private theorem pairwise_of_length_le {β : Type} {r : β → β → Prop} {xs : List β}
    (h : xs.length ≤ 1) :
    xs.Pairwise r := by
  rw [List.pairwise_iff_getElem]
  intro i j hi hj hij
  omega

/-- The check goes on behind some tokens as if it had read them. -/
private theorem exists_located (front rest : List (Token α)) :
    ∃ located : List (Nat × Malformation), (located.map Prod.fst).Pairwise (· < ·) ∧
      (∀ position reason, (position, reason) ∈ located ↔
        front.length ≤ position ∧ Violates (front ++ rest) position reason) ∧
      located.map Prod.snd =
        malformationsWithin (count .openParen front) (count .closeParen front) (last? front) rest := by
  induction rest generalizing front with
  | nil =>
      refine ⟨[], .nil, fun position reason => ?_, rfl⟩
      constructor
      · exact fun hmem => absurd hmem List.not_mem_nil
      · rintro ⟨hle, hviolates⟩
        have hlt := hviolates.lt_length
        rw [List.append_nil] at hlt
        omega
  | cons t rest ih =>
      obtain ⟨later, hsorted, hlater, hreasons⟩ := ih (front ++ [t])
      rw [← List.append_cons] at hlater
      let here := malformationsAt (count .openParen front) (count .closeParen front) (last? front) t
      have hhere : ∀ position reason, (position, reason) ∈ here.map (front.length, ·) ↔
          position = front.length ∧ Violates (front ++ t :: rest) position reason := by
        intro position reason
        simp only [List.mem_map, Prod.mk.injEq, exists_eq_right_right]
        constructor
        · rintro ⟨hmem, rfl⟩
          exact ⟨rfl, violates_of_mem hmem rest⟩
        · rintro ⟨rfl, hviolates⟩
          exact ⟨mem_of_violates hviolates rfl, rfl⟩
      refine ⟨here.map (front.length, ·) ++ later, ?_, fun position reason => ?_, ?_⟩
      · rw [List.map_append, List.pairwise_append]
        refine ⟨?_, hsorted, ?_⟩
        · exact pairwise_of_length_le (by simpa using length_malformationsAt_le ..)
        · intro position hposition above habove
          obtain ⟨⟨_, reason⟩, hmem, rfl⟩ := List.mem_map.1 hposition
          obtain ⟨⟨_, above⟩, hmem', rfl⟩ := List.mem_map.1 habove
          have hle := ((hlater _ _).1 hmem').1
          rw [List.length_append, List.length_singleton] at hle
          rw [((hhere _ _).1 hmem).1]
          exact hle
      · rw [List.mem_append, hhere, hlater, List.length_append, List.length_singleton]
        constructor
        · rintro (⟨rfl, hviolates⟩ | ⟨hle, hviolates⟩)
          · exact ⟨Nat.le_refl _, hviolates⟩
          · exact ⟨by omega, hviolates⟩
        · rintro ⟨hle, hviolates⟩
          rcases hle.eq_or_lt with rfl | hlt
          · exact .inl ⟨rfl, hviolates⟩
          · exact .inr ⟨hlt, hviolates⟩
      · rw [List.map_append, hreasons, malformationsWithin, count_concat, count_concat, last?_concat]
        rw [List.map_map, Function.comp_def, List.map_id']

private theorem leading_eq {tokens : List (Token α)} (hne : tokens ≠ []) :
    leading tokens = if tokens.head?.any Token.begins then [] else [.leadingOperator] := by
  obtain ⟨t, hfirst⟩ : ∃ t, tokens.head? = some t := Option.ne_none_iff_exists'.1 (by simpa)
  rw [leading, hfirst]
  cases hop : t.operator? with
  | none => simp [Token.begins, hop]
  | some op => by_cases hparen : op = .openParen <;> simp [Token.begins, hop, hparen]

private theorem trailing_eq {tokens : List (Token α)} (hne : tokens ≠ []) :
    trailing tokens = if tokens.getLast?.any Token.ends then [] else [.trailingOperator] := by
  obtain ⟨t, hlast⟩ : ∃ t, tokens.getLast? = some t := Option.ne_none_iff_exists'.1 (by simpa)
  rw [trailing, hlast]
  cases hop : t.operator? with
  | none => simp [Token.ends, hop]
  | some op => by_cases hparen : op = .closeParen <;> simp [Token.ends, hop, hparen]

private theorem reports_malformations {tokens : List (Token α)} (hne : tokens ≠ []) :
    Reports tokens (malformations tokens) := by
  obtain ⟨located, hsorted, hmem, hreasons⟩ := exists_located [] tokens
  refine ⟨located, hsorted, fun position reason => ?_, ?_⟩
  · simpa using hmem position reason
  · rw [malformations, leading_eq hne, trailing_eq hne, hreasons]
    rfl

private theorem accepted_iff {tokens : List (Token α)} :
    Accepted tokens ↔ (∃ t ∈ tokens.head?, t.begins = true) ∧
      (∃ t ∈ tokens.getLast?, t.ends = true) ∧ Paired tokens ∧
      (tokens.IsChain fun t u => u.isBinary = true → t.ends = true) ∧
      ∀ name negated, .identifier name negated ∈ tokens → isName name = true := by
  rw [← balanced_iff_paired]
  constructor
  · exact fun h => ⟨h.begins, h.ends, h.balanced, h.follows, h.names⟩
  · rintro ⟨hbegins, hends, hbalanced, hfollows, hnames⟩
    exact ⟨hbegins, hends, hbalanced, hfollows, hnames⟩

/-- The check accepts a formula as it is, or reports all that is wrong with it and nothing else. -/
theorem reports_check [Numeral α] {tokens : List (Token α)} (hne : tokens ≠ []) :
    (∀ result, check tokens = .ok result ↔
      ((∃ t ∈ tokens.head?, t.begins = true) ∧ (∃ t ∈ tokens.getLast?, t.ends = true) ∧
        Paired tokens ∧ (tokens.IsChain fun t u => u.isBinary = true → t.ends = true) ∧
        ∀ name negated, .identifier name negated ∈ tokens → isName name = true) ∧
      tokens = result) ∧
    ∀ faults, check tokens = .error faults → ∃ reasons,
      faults.toList = reasons.map (.malformedExpression (Token.listText tokens)) ∧
        Reports tokens reasons := by
  constructor
  · intro result
    rw [← accepted_iff, check_eq_ok_iff]
  · intro faults hfaults
    have hrefused : malformations tokens ≠ [] := by
      intro hnone
      rw [check_eq_ok_iff.2 ⟨(malformations_eq_nil_iff hne).1 hnone, rfl⟩] at hfaults
      contradiction
    obtain ⟨reported, hcheck, hreported⟩ := FaultList.exists_check_eq_error
      (mt List.map_eq_nil_iff.1 hrefused) tokens
    rw [check, if_neg (by simpa using hne), hcheck] at hfaults
    refine ⟨malformations tokens, ?_, reports_malformations hne⟩
    rw [← Except.error.inj hfaults, hreported]

/-- A formula in which every rule about operators and parentheses is violated once. -/
theorem reports_check_operators :
    let tokens : List (Token Float) := [.operator .add, .operator .add, .identifier "x" false,
      .operator .add, .operator .closeParen, .operator .openParen, .identifier "y" true,
      .operator .add, .operator .openParen]
    let reasons : List Malformation := [.leadingOperator, .consecutiveOperators, .unmatchedClose,
      .trailingOperator, .unbalancedParentheses 2 1]
    tokens ≠ [] ∧ Reports tokens reasons ∧ ∃ faults, check tokens = .error faults ∧
      faults.toList = reasons.map (.malformedExpression "+ + x + ) ( -y + (") := by
  intro tokens reasons
  have hne : tokens ≠ [] := List.cons_ne_nil _ _
  have htext : Token.listText tokens = "+ + x + ) ( -y + (" := rfl
  obtain ⟨faults, hfaults, htoList⟩ : ∃ faults, check tokens = .error faults ∧
      faults.toList = reasons.map (.malformedExpression (Token.listText tokens)) :=
    ⟨_, rfl, rfl⟩
  obtain ⟨reported, hreported, hreports⟩ := (reports_check hne).2 faults hfaults
  have hreasons : reported = reasons := by
    refine List.map_injective_iff.2 (fun first second heq => ?_) (hreported.symm.trans htoList)
    exact (Fault.malformedExpression.inj heq).2
  rw [hreasons] at hreports
  rw [htext] at htoList
  exact ⟨hne, hreports, faults, hfaults, htoList⟩

end DropTable.Formula
