import DropTable.Scalar
/-!
# Operators

The symbols of a formula: five arithmetic operators and the two parentheses.
-/

namespace DropTable

inductive Operator where
  | add
  | subtract
  | multiply
  | divide
  | power
  | openParen
  | closeParen
deriving DecidableEq, Repr

namespace Operator

def ofChar? : Char → Option Operator
  | '+' => some .add
  | '-' => some .subtract
  | '*' => some .multiply
  | '/' => some .divide
  | '^' => some .power
  | '(' => some .openParen
  | ')' => some .closeParen
  | _ => none

def symbol : Operator → Char
  | .add => '+'
  | .subtract => '-'
  | .multiply => '*'
  | .divide => '/'
  | .power => '^'
  | .openParen => '('
  | .closeParen => ')'

/-- How tightly an operator binds. Parentheses do not bind. -/
def precedence? : Operator → Option Nat
  | .add | .subtract => some 1
  | .multiply | .divide => some 2
  | .power => some 3
  | .openParen | .closeParen => none

def isParen (op : Operator) : Bool :=
  op.precedence?.isNone

/-- The value of an arithmetic operator at two operands. -/
def result? {α : Type} [Scalar α] (op : Operator) (a b : α) : Option α :=
  match op with
  | .add => some (a + b)
  | .subtract => some (a - b)
  | .multiply => some (a * b)
  | .divide => some (a / b)
  | .power => some (Scalar.pow a b)
  | .openParen | .closeParen => none

theorem ofChar?_symbol (op : Operator) : ofChar? op.symbol = some op := by
  cases op <;> rfl

theorem eq_symbol_of_ofChar? {c : Char} {op : Operator} (h : ofChar? c = some op) :
    c = op.symbol := by
  unfold ofChar? at h
  split at h <;> cases h <;> rfl

end Operator

end DropTable
