import DropTable.Proofs.Program.Evaluation
/-!
# How programs end

A program without parentheses can fail in two ways, for want of operands or of a variable's value.
If it runs to its end, counting its operands and operators says how many values are left.
-/

namespace DropTable

namespace Token

variable {α : Type}

/-- The tokens that are no operators, in their order. -/
def operands (tokens : List (Token α)) : List (Token α) :=
  tokens.filter (!·.isOperator)

/-- The operators among tokens, in their order. -/
def operators (tokens : List (Token α)) : List Operator :=
  tokens.filterMap operator?

theorem operands_append (left right : List (Token α)) :
    operands (left ++ right) = operands left ++ operands right :=
  List.filter_append ..

theorem operators_append (left right : List (Token α)) :
    operators (left ++ right) = operators left ++ operators right :=
  List.filterMap_append ..

theorem exists_operands_iff {tokens : List (Token α)} {name : String} :
    (∃ t ∈ operands tokens, t.name? = some name) ↔ ∃ t ∈ tokens, t.name? = some name := by
  constructor
  · rintro ⟨t, ht, hname⟩
    exact ⟨t, (List.mem_filter.1 ht).1, hname⟩
  · rintro ⟨t, ht, hname⟩
    refine ⟨t, List.mem_filter.2 ⟨ht, ?_⟩, hname⟩
    cases t with
    | operator op => contradiction
    | _ => rfl

@[simp] theorem operands_map_operator (ops : List Operator) :
    operands (ops.map (.operator : Operator → Token α)) = [] := by
  simp [operands, isOperator, operator?]

@[simp] theorem operators_map_operator (ops : List Operator) :
    operators (ops.map (.operator : Operator → Token α)) = ops := by
  simp [operators, List.filterMap_map, Function.comp_def, operator?]

end Token

open Token (operands operators operands_append operators_append)

namespace Program

variable {α : Type} [Scalar α]

/-- The faults that stop a program without parentheses before its end. -/
inductive Shortage (missing : MissingVariable) : Fault → Prop
  | operand (op : Operator) : Shortage missing (.notEnoughOperands op)
  | binding (name : String) (strict : missing = .fail) :
      Shortage missing (.variableNotDefined name)

private theorem shortage_of_lookup {missing : MissingVariable} {bindings : Bindings α}
    {name : String}
    {fault : Fault} (h : lookup missing bindings name = .error fault) : Shortage missing fault := by
  cases missing with
  | zero =>
      rw [lookup_eq (fun hstrict => by contradiction)] at h
      contradiction
  | fail =>
      unfold lookup at h
      split at h
      case h_1 => contradiction
      case h_2 => contradiction
      case h_3 => exact Except.error.inj h ▸ .binding name rfl

variable [Numeral α]

private theorem step_cases (p : Program α) (missing : MissingVariable) (bindings : Bindings α)
    (stack : List α) {t : Token α} (ht : ∀ op ∈ operators [t], op.isParen = false) :
    (∃ next, p.step missing bindings stack t = .ok next ∧
        next.length + (operators [t]).length = stack.length + (operands [t]).length) ∨
      ∃ fault, p.step missing bindings stack t = .error fault ∧ Shortage missing fault := by
  cases t with
  | number value => exact .inl ⟨value :: stack, rfl, rfl⟩
  | identifier name negated =>
      cases hvalue : lookup missing bindings name with
      | ok value => exact .inl ⟨_, by rw [step, hvalue]; rfl, rfl⟩
      | error fault => exact .inr ⟨fault, by rw [step, hvalue]; rfl, shortage_of_lookup hvalue⟩
  | operator op =>
      have hbinary : op.isParen = false := ht op List.mem_cons_self
      obtain _ | ⟨b, _ | ⟨a, rest⟩⟩ := stack
      · exact .inr ⟨_, rfl, .operand op⟩
      · exact .inr ⟨_, rfl, .operand op⟩
      · obtain ⟨result, hresult⟩ := Option.isSome_iff_exists.1
          (Operator.isSome_result? hbinary a b)
        exact .inl ⟨result :: rest, by simp [step, hresult], rfl⟩

private theorem foldlM_step_cases (p : Program α) (missing : MissingVariable)
    (bindings : Bindings α)
    {tokens : List (Token α)} (htokens : ∀ op ∈ operators tokens, op.isParen = false)
    (stack : List α) :
    (∃ final, tokens.foldlM (p.step missing bindings) stack = .ok final ∧
        final.length + (operators tokens).length = stack.length + (operands tokens).length) ∨
      ∃ fault, tokens.foldlM (p.step missing bindings) stack = .error fault ∧
        Shortage missing fault := by
  induction tokens generalizing stack with
  | nil => exact .inl ⟨stack, rfl, rfl⟩
  | cons t tokens ih =>
      have hoperators : operators (t :: tokens) = operators [t] ++ operators tokens :=
        operators_append [t] tokens
      have hoperands : operands (t :: tokens) = operands [t] ++ operands tokens :=
        operands_append [t] tokens
      rw [hoperators, List.forall_mem_append] at htokens
      rw [List.foldlM_cons]
      obtain ⟨next, hstep, hnext⟩ | ⟨fault, hstep, hfault⟩ :=
        p.step_cases missing bindings stack htokens.1
      · rw [hstep]
        refine (ih htokens.2 next).imp_left ?_
        rintro ⟨final, hfinal, hlength⟩
        refine ⟨final, hfinal, ?_⟩
        rw [hoperators, hoperands, List.length_append, List.length_append]
        omega
      · exact .inr ⟨fault, by rw [hstep]; rfl, hfault⟩

theorem evaluate_cases {p : Program α} (hp : ∀ op ∈ operators p.tokens, op.isParen = false)
    (missing : MissingVariable) (bindings : Bindings α) :
    (∃ value, p.evaluate missing bindings = .ok value ∧
        (operands p.tokens).length = (operators p.tokens).length + 1) ∨
      (∃ fault, p.evaluate missing bindings = .error fault ∧ Shortage missing fault) ∨
      ∃ count, p.evaluate missing bindings =
          .error (.malformedExpression p.text (.leftoverOperands count)) ∧
        count ≠ 1 ∧ (operands p.tokens).length = (operators p.tokens).length + count := by
  unfold evaluate
  obtain ⟨final, hfinal, hlength⟩ | ⟨fault, hstop, hfault⟩ :=
    p.foldlM_step_cases missing bindings hp []
  · rw [hfinal]
    rw [List.length_nil] at hlength
    match final with
    | [value] => exact .inl ⟨value, rfl, by simp at hlength; omega⟩
    | [] => exact .inr (.inr ⟨0, rfl, by omega, by simp at hlength; omega⟩)
    | a :: b :: rest =>
        refine .inr (.inr ⟨(a :: b :: rest).length, rfl, by simp, by omega⟩)
  · rw [hstop]
    exact .inr (.inl ⟨fault, rfl, hfault⟩)

variable {p : Program α} (hp : ∀ op ∈ operators p.tokens, op.isParen = false)
  {missing : MissingVariable} {bindings : Bindings α}
include hp

theorem length_operands_of_value {value : α} (h : p.evaluate missing bindings = .ok value) :
    (operands p.tokens).length = (operators p.tokens).length + 1 := by
  obtain ⟨-, -, hlength⟩ | ⟨fault, hfault, -⟩ | ⟨count, hleft, -⟩ :=
    evaluate_cases hp missing bindings
  · exact hlength
  · rw [h] at hfault
    contradiction
  · rw [h] at hleft
    contradiction

theorem fault_cases {fault : Fault} (h : p.evaluate missing bindings = .error fault) :
    Shortage missing fault ∨
      ∃ count, fault = .malformedExpression p.text (.leftoverOperands count) := by
  obtain ⟨value, hvalue, -⟩ | ⟨shortage, hstop, hshortage⟩ | ⟨count, hleft, -⟩ :=
    evaluate_cases hp missing bindings
  · rw [h] at hvalue
    contradiction
  · rw [h, Except.error.injEq] at hstop
    exact .inl (hstop ▸ hshortage)
  · rw [h, Except.error.injEq] at hleft
    exact .inr ⟨count, hleft⟩

end Program

end DropTable
