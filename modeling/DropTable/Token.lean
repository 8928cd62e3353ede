import DropTable.Operator
import DropTable.Numeral
/-!
# Tokens

The words of a formula and of the program it becomes.
-/

namespace DropTable

/-- A number, an operator, or a variable that may carry a minus of its own. -/
inductive Token (α : Type) where
  | number (value : α)
  | operator (op : Operator)
  | identifier (name : String) (negated : Bool)
deriving DecidableEq, Repr

namespace Token

variable {α : Type}

def operator? : Token α → Option Operator
  | .operator op => some op
  | _ => none

def isOperator (t : Token α) : Bool :=
  t.operator?.isSome

/-- The variable that a token refers to. -/
def name? : Token α → Option String
  | .identifier name _ => some name
  | _ => none

def text [Numeral α] : Token α → String
  | .number value => Numeral.text value
  | .operator op => op.symbol.toString
  | .identifier name negated => if negated then "-" ++ name else name

/-- The texts of tokens with one space between neighbours. -/
def listText [Numeral α] (tokens : List (Token α)) : String :=
  " ".intercalate (tokens.map text)

end Token

end DropTable
