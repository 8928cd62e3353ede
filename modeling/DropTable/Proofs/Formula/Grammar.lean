import DropTable.Bindings
import DropTable.Formula
/-!
# The grammar of formulas

What a formula in infix order means is an expression tree.  The grammar below reads token lists as
such trees: sums of products of powers, every operator grouping to the left, with parentheses that
only group.  It knows nothing of the check, of the stack of waiting operators or of postfix order,
so that these can be compared with it.
-/

namespace DropTable

/-- An operator that has a value: any but the two parentheses. -/
abbrev BinaryOperator := { op : Operator // op.isParen = false }

namespace Operator

theorem isSome_result? {α : Type} [Scalar α] {op : Operator} (hop : op.isParen = false) (a b : α) :
    (op.result? a b).isSome := by
  cases op <;> first | rfl | contradiction

end Operator

/-- The value of a binary operator at two operands. -/
def BinaryOperator.apply {α : Type} [Scalar α] (op : BinaryOperator) (a b : α) : α :=
  (op.val.result? a b).get (Operator.isSome_result? op.property a b)

@[simp] theorem BinaryOperator.result?_val {α : Type} [Scalar α] (op : BinaryOperator) (a b : α) :
    op.val.result? a b = some (op.apply a b) := by
  simp [apply]

/-- Expression trees.  A variable may carry a minus of its own. -/
inductive Expression (α : Type) where
  | number (value : α)
  | identifier (name : String) (negated : Bool)
  | operation (op : BinaryOperator) (left right : Expression α)

namespace Expression

variable {α : Type}

/-- Operands before their operator, the left one first. -/
def postorder : Expression α → List (Token α)
  | .number value => [.number value]
  | .identifier name negated => [.identifier name negated]
  | .operation op left right => left.postorder ++ right.postorder ++ [.operator op.val]

/-- The variables of an expression. -/
def names : Expression α → List String
  | .number _ => []
  | .identifier name _ => [name]
  | .operation _ left right => left.names ++ right.names

/-- The value of an expression, in which a variable without a value counts as zero. -/
def value [Scalar α] (bindings : Bindings α) : Expression α → α
  | .number value => value
  | .identifier name negated =>
    let value := bindings.getD name 0
    if negated then -value else value
  | .operation op left right => op.apply (left.value bindings) (right.value bindings)

end Expression

/-- The four kinds of phrases of a formula. -/
inductive Phrase where
  | sum
  | product
  | power
  | atom

/-- Derivations of phrases, one constructor for each production of the grammar. -/
inductive Derivation (α : Type) : Phrase → Type where
  | ofProduct (inner : Derivation α .product) : Derivation α .sum
  | add (left : Derivation α .sum) (right : Derivation α .product) : Derivation α .sum
  | subtract (left : Derivation α .sum) (right : Derivation α .product) : Derivation α .sum
  | ofPower (inner : Derivation α .power) : Derivation α .product
  | multiply (left : Derivation α .product) (right : Derivation α .power) : Derivation α .product
  | divide (left : Derivation α .product) (right : Derivation α .power) : Derivation α .product
  | ofAtom (inner : Derivation α .atom) : Derivation α .power
  | power (left : Derivation α .power) (right : Derivation α .atom) : Derivation α .power
  | number (value : α) : Derivation α .atom
  | identifier (name : String) (negated : Bool) (valid : Formula.isName name = true) :
      Derivation α .atom
  | group (inner : Derivation α .sum) : Derivation α .atom

namespace Derivation

variable {α : Type}

/-- The text that a derivation derives. -/
def tokens {phrase : Phrase} : Derivation α phrase → List (Token α)
  | .ofProduct inner => inner.tokens
  | .add left right => left.tokens ++ .operator .add :: right.tokens
  | .subtract left right => left.tokens ++ .operator .subtract :: right.tokens
  | .ofPower inner => inner.tokens
  | .multiply left right => left.tokens ++ .operator .multiply :: right.tokens
  | .divide left right => left.tokens ++ .operator .divide :: right.tokens
  | .ofAtom inner => inner.tokens
  | .power left right => left.tokens ++ .operator .power :: right.tokens
  | .number value => [.number value]
  | .identifier name negated _ => [.identifier name negated]
  | .group inner => .operator .openParen :: (inner.tokens ++ [.operator .closeParen])

/-- The expression that a derivation reads.  A group reads what stands inside it. -/
def expression {phrase : Phrase} : Derivation α phrase → Expression α
  | .ofProduct inner => inner.expression
  | .add left right => .operation ⟨.add, rfl⟩ left.expression right.expression
  | .subtract left right => .operation ⟨.subtract, rfl⟩ left.expression right.expression
  | .ofPower inner => inner.expression
  | .multiply left right => .operation ⟨.multiply, rfl⟩ left.expression right.expression
  | .divide left right => .operation ⟨.divide, rfl⟩ left.expression right.expression
  | .ofAtom inner => inner.expression
  | .power left right => .operation ⟨.power, rfl⟩ left.expression right.expression
  | .number value => .number value
  | .identifier name negated _ => .identifier name negated
  | .group inner => inner.expression

end Derivation

end DropTable
