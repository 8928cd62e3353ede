import DropTable.EntryId
import DropTable.Operator
/-!
# Faults

What can be wrong with a formula, a program under evaluation, or a list of definitions. Whatever
checks its input reports all faults at once, as a list that is not empty.
-/

namespace DropTable

/-- What is wrong with a formula, or with a program that does not come from a formula. -/
inductive Malformation where
  | leadingOperator
  | trailingOperator
  | unmatchedClose
  | consecutiveOperators
  | unbalancedParentheses (opens closes : Nat)
  | invalidIdentifier (name : String)
  | strayParenthesis
  | leftoverOperands (count : Nat)
deriving DecidableEq, Repr

def Malformation.message : Malformation → String
  | .leadingOperator => "an expression cannot begin with an operator"
  | .trailingOperator => "an expression cannot end with an operator"
  | .unmatchedClose => "closing parenthesis used before a matching opening parenthesis"
  | .consecutiveOperators => "consecutive operators are not allowed"
  | .unbalancedParentheses opens closes =>
    "mismatched parentheses (" ++ opens.repr ++ " opening, " ++ closes.repr ++ " closing)"
  | .invalidIdentifier name => "'" ++ name ++ "' is not a number or a valid variable name"
  | .strayParenthesis => "parenthesis left in a compiled program"
  | .leftoverOperands count =>
    "evaluation left " ++ count.repr ++ " values on the stack instead of 1"

inductive Fault where
  | emptyExpression
  | malformedExpression (expression : String) (reason : Malformation)
  | emptyTable
  | emptyEntryId
  | notEnoughOperands (op : Operator)
  | variableNotDefined (name : String)
  | inEntry (entry : EntryId) (fault : Fault)
deriving DecidableEq, Repr

/-- The kinds by which faults are counted. -/
inductive FaultKind where
  | emptyExpression
  | malformedExpression
  | emptyTable
  | emptyEntryId
  | notEnoughOperands
  | variableNotDefined
deriving DecidableEq, Repr

namespace Fault

def message : Fault → String
  | .emptyExpression => "An expression cannot be empty"
  | .malformedExpression expression reason =>
    "Malformed expression '" ++ expression ++ "': " ++ reason.message
  | .emptyTable => "Cannot create a loot table with zero entries"
  | .emptyEntryId => "An entry id cannot be empty"
  | .notEnoughOperands op => "Not enough operands for operator '" ++ op.symbol.toString ++ "'"
  | .variableNotDefined name => "Variable '" ++ name ++ "' is not defined"
  | .inEntry entry fault => "Entry '" ++ entry.label ++ "': " ++ fault.message

/-- The kind of the cause, whatever entries it lies in. -/
def kind : Fault → FaultKind
  | .emptyExpression => .emptyExpression
  | .malformedExpression _ _ => .malformedExpression
  | .emptyTable => .emptyTable
  | .emptyEntryId => .emptyEntryId
  | .notEnoughOperands _ => .notEnoughOperands
  | .variableNotDefined _ => .variableNotDefined
  | .inEntry _ fault => fault.kind

/-- The outermost entry in which the fault lies. -/
def entry? : Fault → Option EntryId
  | .inEntry entry _ => some entry
  | _ => none

end Fault

/-- One or more faults, in the order in which they were found. -/
structure FaultList where
  first : Fault
  others : List Fault
deriving DecidableEq, Repr

namespace FaultList

def ofList? : List Fault → Option FaultList
  | [] => none
  | first :: others => some ⟨first, others⟩

def toList (faults : FaultList) : List Fault :=
  faults.first :: faults.others

def message (faults : FaultList) : String :=
  "; ".intercalate (faults.toList.map Fault.message)

/-- How many faults are of a kind. -/
def count (faults : FaultList) (kind : FaultKind) : Nat :=
  faults.toList.countP fun fault => fault.kind == kind

@[simp]
theorem ofList?_eq_none_iff {faults : List Fault} : ofList? faults = none ↔ faults = [] := by
  cases faults <;> simp [ofList?]

theorem toList_of_ofList? {faults : List Fault} {nonempty : FaultList}
    (h : ofList? faults = some nonempty) : nonempty.toList = faults := by
  cases faults with
  | nil => simp [ofList?] at h
  | cons first others =>
      simp only [ofList?, Option.some.injEq] at h
      subst h
      rfl

/-- Succeeds when there is nothing to report. -/
def check {β : Type} (faults : List Fault) (value : β) : Except FaultList β :=
  match ofList? faults with
  | some faults => .error faults
  | none => .ok value

end FaultList

end DropTable
