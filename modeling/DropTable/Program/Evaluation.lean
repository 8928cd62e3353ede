import DropTable.Bindings
import DropTable.Program
/-!
# Evaluation

Programs run on a stack of scalars, with the latest value first.
-/

namespace DropTable

/-- What a variable without a value means. -/
inductive MissingVariable where
  | zero
  | fail
deriving DecidableEq, Repr, Inhabited

namespace Program

variable {α : Type} [Scalar α] [Numeral α]

/-- The value of a variable. -/
def lookup (missing : MissingVariable) (bindings : Bindings α) (name : String) : Except Fault α :=
  match bindings[name]?, missing with
  | some value, _ => .ok value
  | none, .zero => .ok 0
  | none, .fail => .error (.variableNotDefined name)

/-- One token: an operand is pushed, an operator replaces the two latest values by its result. -/
def step (p : Program α) (missing : MissingVariable) (bindings : Bindings α) (stack : List α) :
    Token α → Except Fault (List α)
  | .number value => .ok (value :: stack)
  | .identifier name negated =>
    (lookup missing bindings name).map fun value => (if negated then -value else value) :: stack
  | .operator op =>
    match stack with
    | b :: a :: rest =>
      match op.result? a b with
      | some result => .ok (result :: rest)
      | none => .error (.malformedExpression p.text .strayParenthesis)
    | _ => .error (.notEnoughOperands op)

/-- The value of a program, which has to leave exactly one value. -/
def evaluate (p : Program α) (missing : MissingVariable) (bindings : Bindings α) :
    Except Fault α := do
  match ← p.tokens.foldlM (p.step missing bindings) [] with
  | [value] => .ok value
  | stack => .error (.malformedExpression p.text (.leftoverOperands stack.length))

end Program

end DropTable
