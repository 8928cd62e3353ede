import Mathlib.Data.List.Perm.Basic
import Mathlib.Data.List.TakeWhile
import DropTable.Numeral.Binary64
import DropTable.Proofs.Formula.Accepted
import DropTable.Proofs.Program.Outcomes
import DropTable.Scalar.Binary64
/-!
# The stack of waiting operators

The rearrangement one token at a time: what a token puts out, and which operators wait after it.
Nothing is lost on the way, and an open group shields the operators below its parenthesis, so that
the parenthesis that closes it finds the one that opened it.
-/

namespace DropTable

open Token (operands operators operands_append operators_append)

namespace Program

variable {α : Type}

/-- Whether an operator that is read releases one that waits. -/
def releases : Operator → Operator → Bool
  | .openParen, _ => false
  | .closeParen, waiting => waiting ≠ .openParen
  | op, waiting => yieldsTo op waiting

/-- The place that an operator takes on top of those that still wait.  A closing parenthesis takes
away the one that opened its group. -/
def place : Operator → List Operator → List Operator
  | .closeParen, waiting => waiting.drop 1
  | op, waiting => op :: waiting

/-- What a token puts out. -/
def emitted (waiting : List Operator) (t : Token α) : List (Token α) :=
  t.operator?.elim [t] fun op => (waiting.takeWhile (releases op)).map .operator

/-- The operators that wait after a token, with the latest first. -/
def stacked (waiting : List Operator) (t : Token α) : List Operator :=
  t.operator?.elim waiting fun op => place op (waiting.dropWhile (releases op))

private theorem rearrange_cons (waiting : List Operator) (t : Token α) (rest : List (Token α)) :
    rearrange waiting (t :: rest) = emitted waiting t ++ rearrange (stacked waiting t) rest := by
  cases t with
  | number value => rfl
  | identifier name negated => rfl
  | operator op =>
      cases op with
      | openParen => cases waiting <;> rfl
      | _ => rfl

/-- What a formula puts out before its end. -/
def emittedAll (waiting : List Operator) : List (Token α) → List (Token α)
  | [] => []
  | t :: rest => emitted waiting t ++ emittedAll (stacked waiting t) rest

/-- The operators that wait after a formula. -/
def waitingAfter (tokens : List (Token α)) : List Operator :=
  tokens.foldl stacked []

theorem rearrange_append (waiting : List Operator) (left right : List (Token α)) :
    rearrange waiting (left ++ right) =
      emittedAll waiting left ++ rearrange (left.foldl stacked waiting) right := by
  induction left generalizing waiting with
  | nil => rfl
  | cons t left ih =>
      rw [List.cons_append, rearrange_cons, ih, emittedAll, List.foldl_cons, List.append_assoc]

theorem rearrange_eq (waiting : List Operator) (tokens : List (Token α)) :
    rearrange waiting tokens =
      emittedAll waiting tokens ++ (tokens.foldl stacked waiting).map .operator := by
  have h := rearrange_append waiting tokens []
  rwa [List.append_nil, rearrange] at h

/-! ## One token -/

@[simp] theorem releases_openParen (op : Operator) : releases op .openParen = false := by
  cases op <;> rfl

@[simp] theorem stacked_openParen (waiting : List Operator) :
    stacked waiting (.operator .openParen : Token α) = .openParen :: waiting := by
  cases waiting <;> rfl

private theorem isParen_of_releases {op waiting : Operator} (h : releases op waiting = true)
    (hclose : waiting ≠ .closeParen) : waiting.isParen = false := by
  cases waiting with
  | openParen => simp at h
  | closeParen => contradiction
  | _ => rfl

private theorem count_dropWhile_releases (op : Operator) (waiting : List Operator) :
    (waiting.dropWhile (releases op)).count .openParen = waiting.count .openParen := by
  induction waiting with
  | nil => rfl
  | cons top waiting ih =>
      rw [List.dropWhile_cons]
      split
      case isTrue h =>
        have hne : top ≠ .openParen := by
          rintro rfl
          simp at h
        rw [ih, List.count_cons_of_ne hne]
      case isFalse => rfl

private theorem dropWhile_closeParen (waiting : List Operator) :
    waiting.dropWhile (releases .closeParen) = [] ∨
      ∃ below, waiting.dropWhile (releases .closeParen) = .openParen :: below := by
  induction waiting with
  | nil => exact .inl rfl
  | cons top waiting ih =>
      rw [List.dropWhile_cons]
      split
      case isTrue => exact ih
      case isFalse h =>
        have heq : top = .openParen := by simpa [releases] using h
        exact .inr ⟨waiting, by rw [heq]⟩

private theorem count_stacked {waiting : List Operator} {t : Token α}
    (h : Formula.count .closeParen [t] ≤ waiting.count .openParen) :
    (stacked waiting t).count .openParen + Formula.count .closeParen [t] =
      waiting.count .openParen + Formula.count .openParen [t] := by
  cases t with
  | number value => rfl
  | identifier name negated => rfl
  | operator op =>
      have hcount := count_dropWhile_releases op waiting
      simp only [Formula.count_operator_cons, Formula.count_nil] at h ⊢
      simp only [stacked, Token.operator?, Option.elim_some]
      cases op with
      | closeParen =>
          obtain hnil | ⟨below, hbelow⟩ := dropWhile_closeParen waiting
          · rw [hnil, List.count_nil] at hcount
            simp [← hcount] at h
          · rw [hbelow, List.count_cons_self] at hcount
            simp [hbelow, place, hcount]
      | _ => simp [place, hcount]

private theorem closeParen_notMem_stacked {waiting : List Operator} (hclose : .closeParen ∉ waiting)
    (t : Token α) : .closeParen ∉ stacked waiting t := by
  cases t with
  | number value => exact hclose
  | identifier name negated => exact hclose
  | operator op =>
      have hrest : .closeParen ∉ waiting.dropWhile (releases op) :=
        fun hmem => hclose ((List.dropWhile_suffix _).subset hmem)
      simp only [stacked, Token.operator?, Option.elim_some]
      cases op with
      | closeParen => exact fun hmem => hrest (List.mem_of_mem_drop hmem)
      | _ => simpa [place] using hrest

private theorem isParen_of_emitted {waiting : List Operator} (hclose : .closeParen ∉ waiting)
    {t : Token α} {op : Operator} (hop : op ∈ operators (emitted waiting t)) :
    op.isParen = false := by
  cases t with
  | number value => contradiction
  | identifier name negated => contradiction
  | operator o =>
      rw [emitted, Token.operator?, Option.elim_some, Token.operators_map_operator] at hop
      refine isParen_of_releases (List.mem_takeWhile_imp hop) ?_
      rintro rfl
      exact hclose (List.takeWhile_subset _ hop)

private theorem operands_emitted (waiting : List Operator) (t : Token α) :
    operands (emitted waiting t) = operands [t] := by
  cases t with
  | number value => rfl
  | identifier name negated => rfl
  | operator op => exact Token.operands_map_operator _

private theorem perm_emitted_stacked (waiting : List Operator) (t : Token α) :
    ((operators (emitted waiting t) ++ stacked waiting t).filter (!·.isParen)).Perm
      ((waiting ++ operators [t]).filter (!·.isParen)) := by
  cases t with
  | number value => exact .of_eq (congrArg _ (List.append_nil waiting).symm)
  | identifier name negated => exact .of_eq (congrArg _ (List.append_nil waiting).symm)
  | operator op =>
      have hsplit := waiting.takeWhile_append_dropWhile (p := releases op)
      have hread : operators [(.operator op : Token α)] = [op] := rfl
      simp only [emitted, stacked, Token.operator?, Option.elim_some,
        Token.operators_map_operator, hread]
      cases op with
      | closeParen =>
          apply List.Perm.of_eq
          conv_rhs => rw [← hsplit]
          obtain hnil | ⟨below, hbelow⟩ := dropWhile_closeParen waiting
          · simp [hnil, place, Operator.isParen, Operator.precedence?]
          · simp [hbelow, place, Operator.isParen, Operator.precedence?]
      | _ =>
          apply List.Perm.filter
          conv_rhs => rw [← hsplit]
          exact List.perm_middle.trans (List.perm_append_singleton _ _).symm

/-- An open group shields the operators below its parenthesis. -/
theorem stacked_append {top : List Operator} {t : Token α}
    (h : Formula.count .closeParen [t] ≤ top.count .openParen) (below : List Operator) :
    stacked (top ++ .openParen :: below) t = stacked top t ++ .openParen :: below := by
  cases t with
  | number value => rfl
  | identifier name negated => rfl
  | operator op =>
      have hcount := count_dropWhile_releases op top
      have hdrop : (top ++ .openParen :: below).dropWhile (releases op) =
          top.dropWhile (releases op) ++ .openParen :: below := by
        rw [List.dropWhile_append]
        split
        case isTrue hnil => simp [List.isEmpty_iff.1 hnil]
        case isFalse => rfl
      simp only [stacked, Token.operator?, Option.elim_some, hdrop]
      cases op with
      | closeParen =>
          have hne : top.dropWhile (releases .closeParen) ≠ [] := by
            intro hnil
            rw [hnil, List.count_nil] at hcount
            simp [Formula.count_operator_cons, ← hcount] at h
          exact List.drop_append_of_le_length (List.length_pos_of_ne_nil hne)
      | _ => rfl

/-! ## Formulas -/

/-- Whether no parenthesis is closed that neither waits nor is opened before. -/
def Nests (waiting : List Operator) (tokens : List (Token α)) : Prop :=
  ∀ before, before <+: tokens →
    Formula.count .closeParen before ≤ waiting.count .openParen + Formula.count .openParen before

theorem Nests.step {waiting : List Operator} {t : Token α} {tokens : List (Token α)}
    (h : Nests waiting (t :: tokens)) :
    Formula.count .closeParen [t] ≤ waiting.count .openParen ∧
      Nests (stacked waiting t) tokens := by
  have hfirst : Formula.count .closeParen [t] ≤ waiting.count .openParen := by
    have hle := h [t] (by simp)
    rcases Formula.parens_cases t with rfl | rfl | ⟨-, hclose⟩
    · exact Nat.zero_le _
    · exact hle
    · rw [hclose]
      exact Nat.zero_le _
  refine ⟨hfirst, fun before hbefore => ?_⟩
  have hcount := count_stacked hfirst
  have hle := h (t :: before) (List.cons_prefix_cons.2 ⟨rfl, hbefore⟩)
  rw [Formula.count_cons, Formula.count_cons .openParen] at hle
  omega

private theorem count_foldl_stacked {waiting : List Operator} {tokens : List (Token α)}
    (h : Nests waiting tokens) :
    (tokens.foldl stacked waiting).count .openParen + Formula.count .closeParen tokens =
      waiting.count .openParen + Formula.count .openParen tokens := by
  induction tokens generalizing waiting with
  | nil => rfl
  | cons t tokens ih =>
      obtain ⟨hfirst, hrest⟩ := h.step
      have hstep := count_stacked hfirst
      have hrun := ih hrest
      rw [Formula.count_cons, Formula.count_cons .openParen, List.foldl_cons]
      omega

theorem foldl_stacked_append {top : List Operator} {tokens : List (Token α)} (h : Nests top tokens)
    (below : List Operator) :
    tokens.foldl stacked (top ++ .openParen :: below) =
      tokens.foldl stacked top ++ .openParen :: below := by
  induction tokens generalizing top with
  | nil => rfl
  | cons t tokens ih =>
      obtain ⟨hfirst, hrest⟩ := h.step
      rw [List.foldl_cons, stacked_append hfirst, ih hrest, List.foldl_cons]

private theorem closeParen_notMem_foldl {waiting : List Operator} (hclose : .closeParen ∉ waiting)
    (tokens : List (Token α)) : .closeParen ∉ tokens.foldl stacked waiting := by
  induction tokens generalizing waiting with
  | nil => exact hclose
  | cons t tokens ih => exact ih (closeParen_notMem_stacked hclose t)

private theorem isParen_of_emittedAll {waiting : List Operator} (hclose : .closeParen ∉ waiting)
    {tokens : List (Token α)} {op : Operator} (hop : op ∈ operators (emittedAll waiting tokens)) :
    op.isParen = false := by
  induction tokens generalizing waiting with
  | nil => contradiction
  | cons t tokens ih =>
      rw [emittedAll, operators_append] at hop
      rcases List.mem_append.1 hop with hop | hop
      · exact isParen_of_emitted hclose hop
      · exact ih (closeParen_notMem_stacked hclose t) hop

theorem operands_rearrange (waiting : List Operator) (tokens : List (Token α)) :
    operands (rearrange waiting tokens) = operands tokens := by
  induction tokens generalizing waiting with
  | nil => exact Token.operands_map_operator waiting
  | cons t tokens ih =>
      rw [rearrange_cons, operands_append, operands_emitted, ih]
      exact (operands_append [t] tokens).symm

theorem perm_operators_rearrange (waiting : List Operator) (tokens : List (Token α)) :
    ((operators (rearrange waiting tokens)).filter (!·.isParen)).Perm
      ((waiting ++ operators tokens).filter (!·.isParen)) := by
  induction tokens generalizing waiting with
  | nil =>
      rw [rearrange, Token.operators_map_operator]
      exact .of_eq (congrArg _ (List.append_nil waiting).symm)
  | cons t tokens ih =>
      have hread : operators (t :: tokens) = operators [t] ++ operators tokens :=
        operators_append [t] tokens
      rw [rearrange_cons, operators_append, hread, ← List.append_assoc, List.filter_append,
        List.filter_append]
      refine ((ih (stacked waiting t)).append_left _).trans ?_
      rw [List.filter_append, ← List.append_assoc, ← List.filter_append]
      exact (perm_emitted_stacked waiting t).append_right _

/-! ## Accepted formulas -/

theorem nests_nil_iff {tokens : List (Token α)} : Nests [] tokens ↔ Formula.Nested tokens := by
  simp [Nests, Formula.Nested]

theorem isParen_of_balanced {tokens : List (Token α)} (h : Formula.Balanced tokens) :
    (∀ op ∈ waitingAfter tokens, op.isParen = false) ∧
      ∀ op ∈ operators (ofFormula tokens).tokens, op.isParen = false := by
  have hcount := count_foldl_stacked (nests_nil_iff.2 h.nested)
  have hclose := closeParen_notMem_foldl List.not_mem_nil tokens
  have hwaiting : ∀ op ∈ waitingAfter tokens, op.isParen = false := by
    intro op hop
    have hopen : .openParen ∉ waitingAfter tokens := by
      rw [h.total, List.count_nil] at hcount
      exact List.count_eq_zero.1 (by rw [waitingAfter]; omega)
    cases op with
    | openParen => contradiction
    | closeParen => contradiction
    | _ => rfl
  refine ⟨hwaiting, ?_⟩
  rw [ofFormula, rearrange_eq, operators_append, List.forall_mem_append]
  refine ⟨fun op hop => isParen_of_emittedAll List.not_mem_nil hop, ?_⟩
  rw [Token.operators_map_operator]
  exact hwaiting

theorem operands_ofFormula (tokens : List (Token α)) :
    operands (ofFormula tokens).tokens = operands tokens :=
  operands_rearrange [] tokens

theorem perm_operators_ofFormula {tokens : List (Token α)} (h : Formula.Balanced tokens) :
    (operators (ofFormula tokens).tokens).Perm ((operators tokens).filter (!·.isParen)) := by
  have hperm := perm_operators_rearrange [] tokens
  have hparens := (isParen_of_balanced h).2
  rwa [List.nil_append, List.filter_eq_self.2 (fun op hop => by simp [hparens op hop])] at hperm

private theorem exists_waitingAfter {before after : List (Token α)}
    (h : Formula.Nested (before ++ .operator .closeParen :: after)) :
    ∃ outer inner, before = outer ++ .operator .openParen :: inner ∧ Formula.Balanced inner ∧
      (∀ op ∈ waitingAfter inner, op.isParen = false) ∧
      waitingAfter before = waitingAfter inner ++ .openParen :: waitingAfter outer := by
  have hlt : Formula.count .closeParen before < Formula.count .openParen before := by
    have hle := h (before ++ [.operator .closeParen]) (by simp)
    rw [Formula.count_append, Formula.count_append, Formula.count_closeParen_closeParen,
      Formula.count_openParen_closeParen] at hle
    omega
  obtain ⟨outer, inner, rfl, hinner⟩ := Formula.exists_open h.of_append hlt
  refine ⟨outer, inner, rfl, hinner, (isParen_of_balanced hinner).1, ?_⟩
  rw [waitingAfter, List.foldl_append, List.foldl_cons, stacked_openParen]
  exact foldl_stacked_append (nests_nil_iff.2 hinner.nested) (waitingAfter outer)

theorem mem_variableNames_iff {p : Program α} {name : String} :
    name ∈ p.variableNames ↔ ∃ t ∈ p.tokens, t.name? = some name := by
  rw [← references_iff, references, Std.ExtTreeSet.contains_iff_mem]

variable [Scalar α] [Numeral α]

/-- What a program has kept of the formula that it is made of. -/
structure Rearranges (tokens : List (Token α)) (p : Program α) : Prop where
  parens : ∀ op ∈ operators p.tokens, op.isParen = false
  operands : operands p.tokens = operands tokens
  operators : (operators p.tokens).Perm ((operators tokens).filter (!·.isParen))
  variableNames : ∀ name, name ∈ p.variableNames ↔ ∃ t ∈ tokens, t.name? = some name
  names : ∀ name ∈ p.variableNames, ∃ first rest, name.toList = first :: rest ∧
    (first.isAlpha = true ∨ first = '_') ∧ ∀ c ∈ rest, c.isAlphanum = true ∨ c = '_'
  /-- Evaluation finds no parenthesis left in the program. -/
  evaluation : ∀ missing bindings expression,
    p.evaluate missing bindings ≠ .error (.malformedExpression expression .strayParenthesis)
  /-- The state in which the rest of a formula is read. -/
  reads : ∀ before after, tokens = before ++ after →
    p.tokens = emittedAll [] before ++ rearrange (waitingAfter before) after
  /-- A closing parenthesis finds the one that it closes below the operators of its own group. -/
  closes : ∀ before after, tokens = before ++ .operator .closeParen :: after →
    ∃ outer inner, before = outer ++ .operator .openParen :: inner ∧ Formula.Balanced inner ∧
      (∀ op ∈ waitingAfter inner, op.isParen = false) ∧
      waitingAfter before = waitingAfter inner ++ .openParen :: waitingAfter outer

theorem compile_eq_ok_iff {text : String} {p : Program α} :
    compile text = .ok p ↔
      Formula.Accepted (Token.ofText text : List (Token α)) ∧ ofFormula (Token.ofText text) = p := by
  unfold compile
  constructor
  · intro h
    obtain ⟨tokens, hcheck, rfl⟩ := exists_of_map_eq_ok h
    obtain ⟨haccepted, rfl⟩ := Formula.check_eq_ok_iff.1 hcheck
    exact ⟨haccepted, rfl⟩
  · rintro ⟨haccepted, rfl⟩
    rw [Formula.check_eq_ok_iff.2 ⟨haccepted, rfl⟩]
    rfl

/-- Whatever the check lets through, well formed or not, becomes a program of the same operands, the
same operators and the same variables, and no parenthesis is ever closed but its own. -/
theorem rearranges_of_compile {text : String} {p : Program α} (h : compile text = .ok p) :
    Rearranges (Token.ofText text) p := by
  obtain ⟨haccepted, rfl⟩ := compile_eq_ok_iff.1 h
  have hbalanced := haccepted.balanced
  have hparens := (isParen_of_balanced hbalanced).2
  have hoperands := operands_ofFormula (Token.ofText text : List (Token α))
  have hnames : ∀ name, name ∈ (ofFormula (Token.ofText text : List (Token α))).variableNames ↔
      ∃ t ∈ (Token.ofText text : List (Token α)), t.name? = some name := by
    intro name
    rw [mem_variableNames_iff, ← Token.exists_operands_iff, hoperands, Token.exists_operands_iff]
  refine ⟨hparens, hoperands, perm_operators_ofFormula hbalanced, hnames, ?_, ?_, ?_, ?_⟩
  · intro name hname
    obtain ⟨t, ht, hname⟩ := (hnames name).1 hname
    cases t with
    | identifier name' negated =>
        cases hname
        exact Formula.isName_iff.1 (haccepted.names name negated ht)
    | _ => contradiction
  · intro missing bindings expression heq
    obtain hshortage | ⟨count, hleft⟩ := fault_cases hparens heq
    · contradiction
    · rw [Fault.malformedExpression.injEq] at hleft
      exact absurd hleft.2 (by simp)
  · intro before after heq
    rw [heq]
    exact rearrange_append [] before after
  · intro before after heq
    exact exists_waitingAfter (heq ▸ hbalanced.nested)

/-- A text that is no expression: two groups side by side, and one that is empty. -/
theorem rearranges_of_compile_groups :
    ∃ p : Program Float, compile "(x)(-y ^ x)()" = .ok p ∧
      p.tokens = [.identifier "x" false, .identifier "y" true, .identifier "x" false,
        .operator .power] ∧
      Rearranges (Token.ofText "(x)(-y ^ x)()") p := by
  have hcompile : compile "(x)(-y ^ x)()" = .ok (⟨[.identifier "x" false, .identifier "y" true,
      .identifier "x" false, .operator .power]⟩ : Program Float) := rfl
  exact ⟨_, hcompile, rfl, rearranges_of_compile hcompile⟩

end Program

end DropTable
