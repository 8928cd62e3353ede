import DropTable.Config
import DropTable.EntryId
import DropTable.Json.Document
import DropTable.Json.Quoted
import DropTable.Json.Shape
/-!
# Exchange

Configurations, bindings, tokens and identifiers as JSON texts.
-/

namespace DropTable

/-! ## Choices -/

/-- The choice among several that has a name. -/
def choose? {β : Type} (choices : List β) (name : β → String) (v : Json.Value) : Option β :=
  v.name?.bind fun text => choices.find? fun choice => name choice == text

namespace Operator

def name : Operator → String
  | .add => "Add"
  | .subtract => "Subtract"
  | .multiply => "Multiply"
  | .divide => "Divide"
  | .power => "Exponentiate"
  | .openParen => "OpenParen"
  | .closeParen => "CloseParen"

def ofJson? : Json.Value → Option Operator :=
  choose? [.add, .subtract, .multiply, .divide, .power, .openParen, .closeParen] name

def json (op : Operator) : String :=
  Json.quoted op.name

end Operator

namespace Strategy

def ofJson? : Json.Value → Option Strategy :=
  choose? [.cumulative, .fenwick, .aliasBuckets] name

def json (s : Strategy) : String :=
  Json.quoted s.name

end Strategy

namespace MissingVariable

def name : MissingVariable → String
  | .zero => "zero"
  | .fail => "fail"

def ofJson? : Json.Value → Option MissingVariable :=
  choose? [.zero, .fail] name

def json (m : MissingVariable) : String :=
  Json.quoted m.name

end MissingVariable

/-! ## Records -/

namespace EntryId

def ofJson? (v : Json.Value) : Option EntryId :=
  v.text?.map EntryId.mk

def json (id : EntryId) : String :=
  Json.quoted id.text

end EntryId

namespace Token

variable {α : Type} [Scalar α] [Numeral α]

/-- An identifier has to give both its name and its sign. -/
def identifierOfJson? (v : Json.Value) : Option (Token α) := do
  match ← v.fields? ["name", "negated"] with
  | [some name, some negated] => return .identifier (← name.text?) (← negated.bool?)
  | _ => none

def ofJson? (v : Json.Value) : Option (Token α) := do
  match ← v.choice? with
  | ("Number", payload) => return .number (← payload.scalar?)
  | ("Operator", payload) => return .operator (← Operator.ofJson? payload)
  | ("Identifier", payload) => identifierOfJson? payload
  | _ => none

/-- The name of the choice that a token is. -/
def kindName : Token α → String
  | .number _ => "Number"
  | .operator _ => "Operator"
  | .identifier _ _ => "Identifier"

end Token

namespace Bindings

variable {α : Type} [Scalar α] [Numeral α]

/-- Bindings are an object of numbers. Of several values of a name the last one counts. -/
def ofJson? (v : Json.Value) : Option (Bindings α) := do
  let values ← (← v.members?).mapM fun (name, value) => value.scalar?.map (name, ·)
  return ofList values

end Bindings

namespace Config

/-- A field that is missing has its default. -/
def orDefault {β : Type} [Inhabited β] (read? : Json.Value → Option β) :
    Option Json.Value → Option β
  | some v => read? v
  | none => some default

def ofJson? (v : Json.Value) : Option Config := do
  match ← v.fields? ["strategy", "on_missing_variable", "nested"] with
  | [strategy, onMissingVariable, nested] =>
    return {
      strategy := ← orDefault Strategy.ofJson? strategy
      onMissingVariable := ← orDefault MissingVariable.ofJson? onMissingVariable
      nested := ← orDefault Json.Value.bool? nested }
  | _ => none

def json (c : Config) : String :=
  "\x7b\"strategy\":" ++ c.strategy.json ++ ",\"on_missing_variable\":" ++
    c.onMissingVariable.json ++ ",\"nested\":" ++ (if c.nested then "true" else "false") ++ "\x7d"

end Config

end DropTable
