import DropTable.Json.Lexeme
/-!
# JSON documents

The value of a list of lexemes. What stands around a value is kept as a stack of frames, the
innermost container first.
-/

namespace DropTable.Json

/-- A container that is still open, with its latest part first. An object waits for the value of a
key. -/
inductive Frame where
  | items (done : List Value)
  | members (done : List (List Piece × Value)) (key : List Piece)

mutual

/-- Expects a value. -/
def readValue? (frames : List Frame) : List Lexeme → Option Value
  | .atom v :: rest => afterValue? v frames rest
  | .openBracket :: .closeBracket :: rest => afterValue? (.array []) frames rest
  | .openBracket :: rest => readValue? (.items [] :: frames) rest
  | .openBrace :: .closeBrace :: rest => afterValue? (.object []) frames rest
  | .openBrace :: .atom (.string key) :: .colon :: rest =>
    readValue? (.members [] key :: frames) rest
  | _ => none

/-- Expects what may follow a value in the innermost container, or the end. -/
def afterValue? (v : Value) : List Frame → List Lexeme → Option Value
  | [], [] => some v
  | .items done :: frames, .comma :: rest => readValue? (.items (v :: done) :: frames) rest
  | .items done :: frames, .closeBracket :: rest =>
    afterValue? (.array (v :: done).reverse) frames rest
  | .members done key :: frames, .comma :: .atom (.string next) :: .colon :: rest =>
    readValue? (.members ((key, v) :: done) next :: frames) rest
  | .members done key :: frames, .closeBrace :: rest =>
    afterValue? (.object ((key, v) :: done).reverse) frames rest
  | _, _ => none

end

/-- The value of a text that holds one JSON value and nothing else. -/
def parse? (text : String) : Option Value :=
  (lexemes? text.toList).bind (readValue? [])

end DropTable.Json
