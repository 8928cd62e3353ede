import Std.Data.ExtTreeSet
import DropTable.Formula
import DropTable.Token.Lexer
/-!
# Programs

A program is a formula in postfix order: operands stand before their operator, and parentheses are
gone. A formula is rearranged with a stack of the operators that still wait for their right operand.
-/

namespace DropTable

structure Program (α : Type) where
  tokens : List (Token α)
deriving DecidableEq, Repr

namespace Program

variable {α : Type}

/-- The program that yields one number. -/
def constant (value : α) : Program α :=
  ⟨[.number value]⟩

/-- The variables that a program refers to, in ascending order of their code points. -/
def variableNames (p : Program α) : Std.ExtTreeSet String :=
  .ofList (p.tokens.filterMap Token.name?)

def references (p : Program α) (name : String) : Bool :=
  p.variableNames.contains name

def hasVariables (p : Program α) : Bool :=
  !p.variableNames.isEmpty

def text [Numeral α] (p : Program α) : String :=
  Token.listText p.tokens

/-- Whether an operator that waits on the stack is applied before one that comes next, which is so
when it binds at least as tightly. A parenthesis stays. -/
def yieldsTo (next waiting : Operator) : Bool :=
  match waiting.precedence? with
  | some p => next.precedence?.getD 0 ≤ p
  | none => false

/-- Rearranges a formula, given the waiting operators with the latest first. A closing parenthesis
releases the operators of its group, and the end of the formula all that are left. -/
def rearrange (waiting : List Operator) : List (Token α) → List (Token α)
  | [] => waiting.map .operator
  | .operator .openParen :: rest => rearrange (.openParen :: waiting) rest
  | .operator .closeParen :: rest =>
    (waiting.takeWhile (· ≠ .openParen)).map .operator ++
      rearrange ((waiting.dropWhile (· ≠ .openParen)).drop 1) rest
  | .operator op :: rest =>
    (waiting.takeWhile (yieldsTo op)).map .operator ++
      rearrange (op :: waiting.dropWhile (yieldsTo op)) rest
  | operand :: rest => operand :: rearrange waiting rest

def ofFormula (tokens : List (Token α)) : Program α :=
  ⟨rearrange [] tokens⟩

/-- Reads, checks and rearranges the text of a formula. -/
def compile [Scalar α] [Numeral α] (text : String) : Except FaultList (Program α) :=
  (Formula.check (Token.ofText text)).map ofFormula

end Program

end DropTable
