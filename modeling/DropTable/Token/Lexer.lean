import DropTable.Token
import DropTable.Scalar
import DropTable.Text.Alphanumeric
import DropTable.Text.Blank
/-!
# Reading tokens

A formula text is read without its blanks. Operators stand alone; what stands between them is a
fragment, read as a number or else as a variable. One character on each side decides what a minus
is: behind an operand it subtracts, and elsewhere it belongs to a fragment that begins next.
-/

namespace DropTable.Token

variable {α : Type} [Scalar α] [Numeral α]

/-- Reads a fragment that is not empty. A minus in front negates it. What begins like a number but
is none is a variable, whose name may well be refused later. -/
def ofFragment (fragment : List Char) : Token α :=
  let (negated, body) := match fragment with
    | '-' :: rest => (true, rest)
    | _ => (false, fragment)
  let numeric := match body with
    | c :: _ => c.isDigit || c == '.'
    | [] => false
  match if numeric then Decimal.read? body else none with
  | some d =>
    let value : α := Numeral.ofDecimal d
    .number (if negated then -value else value)
  | none => .identifier (String.ofList body) negated

/-- The token of a pending fragment, if there is one, whose latest character comes first. -/
def ofPending : List Char → List (Token α)
  | [] => []
  | pending => [ofFragment pending.reverse]

/-- A minus subtracts behind a character that can end an operand. -/
def endsOperand (c : Char) : Bool :=
  Text.isAlphanumeric c || c == '_' || c == ')'

/-- The characters that can begin an operand without a sign. -/
def beginsLiteral (c : Char) : Bool :=
  Text.isAlphanumeric c || c == '_' || c == '.'

/-- Reads text without blanks, given the character before it and the fragment that is pending, with
its latest character first. -/
def scan (previous : Option Char) (pending : List Char) : List Char → List (Token α)
  | [] => ofPending pending
  | c :: rest =>
    if c = '-' then
      if previous.any endsOperand || !rest.head?.any beginsLiteral then
        ofPending pending ++ .operator .subtract :: scan (some c) [] rest
      else
        ofPending pending ++ scan (some c) [c] rest
    else
      match Operator.ofChar? c with
      | some op => ofPending pending ++ .operator op :: scan (some c) [] rest
      | none => scan (some c) (c :: pending) rest

def ofText (text : String) : List (Token α) :=
  scan none [] (text.toList.filter fun c => !Text.isBlank c)

end DropTable.Token
