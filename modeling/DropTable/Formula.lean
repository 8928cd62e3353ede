import DropTable.Fault
import DropTable.Token
/-!
# Formulas

A formula is a list of tokens in infix order. The check below looks at single tokens, at neighbours
and at the balance of the parentheses, and reports everything it finds. What it accepts need not be
an expression: two operands side by side pass it, and are found when the program is evaluated.
-/

namespace DropTable.Formula

variable {α : Type}

/-- A variable name: an ASCII letter or an underscore, then ASCII letters, digits and
underscores. -/
def isName (name : String) : Bool :=
  match name.toList with
  | [] => false
  | c :: rest => (c.isAlpha || c == '_') && rest.all fun c => c.isAlphanum || c == '_'

/-- How many tokens are a given operator. -/
def count (op : Operator) (tokens : List (Token α)) : Nat :=
  tokens.countP fun t => t.operator? == some op

/-- What is wrong with a token, given the parentheses opened and closed before it and the operator
right before it. -/
def malformationsAt (opens closes : Nat) (previous : Option Operator) :
    Token α → List Malformation
  | .operator .openParen => []
  | .operator .closeParen => if opens ≤ closes then [.unmatchedClose] else []
  | .operator _ => if previous.any (· ≠ .closeParen) then [.consecutiveOperators] else []
  | .identifier name _ => if isName name then [] else [.invalidIdentifier name]
  | .number _ => []

/-- What is wrong within a formula, from left to right. -/
def malformationsWithin (opens closes : Nat) (previous : Option Operator) :
    List (Token α) → List Malformation
  | [] => []
  | t :: rest =>
    malformationsAt opens closes previous t ++
      malformationsWithin (opens + count .openParen [t]) (closes + count .closeParen [t])
        t.operator? rest

/-- A formula begins with an operand or an opening parenthesis. -/
def leading (tokens : List (Token α)) : List Malformation :=
  if (tokens.head?.bind Token.operator?).any (· ≠ .openParen) then [.leadingOperator] else []

/-- A formula ends with an operand or a closing parenthesis. -/
def trailing (tokens : List (Token α)) : List Malformation :=
  if (tokens.getLast?.bind Token.operator?).any (· ≠ .closeParen) then [.trailingOperator] else []

/-- As many parentheses are opened as are closed. -/
def balance (tokens : List (Token α)) : List Malformation :=
  let opens := count .openParen tokens
  let closes := count .closeParen tokens
  if opens = closes then [] else [.unbalancedParentheses opens closes]

def malformations (tokens : List (Token α)) : List Malformation :=
  leading tokens ++ malformationsWithin 0 0 none tokens ++ trailing tokens ++ balance tokens

/-- Accepts a formula unchanged, or reports all that is wrong with it. -/
def check [Numeral α] (tokens : List (Token α)) : Except FaultList (List (Token α)) :=
  if tokens.isEmpty then .error ⟨.emptyExpression, []⟩
  else
    FaultList.check
      ((malformations tokens).map (.malformedExpression (Token.listText tokens))) tokens

end DropTable.Formula
