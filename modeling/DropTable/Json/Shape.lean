import DropTable.Json
import DropTable.Numeral
import DropTable.Scalar
/-!
# Shapes of JSON values

How numbers, names, records and choices are read from JSON values.
-/

namespace DropTable.Json

variable {α : Type}

/-! ## Numbers -/

namespace Number

/-- Appends digits to a significand while it fits into 64 bits. The digits that do not fit are
returned. -/
def absorb (significand : Nat) : List Char → Nat × List Char
  | [] => (significand, [])
  | d :: rest =>
    let next := 10 * significand + (d.toNat - '0'.toNat)
    if next < UInt64.size then absorb next rest else (significand, d :: rest)

/-- The number without its sign, as a significand of 64 bits. Whole digits that do not fit count as
places, and a fraction is cut off where it does not fit. -/
def magnitude (n : Number) : Decimal :=
  let (significand, dropped) := absorb 0 n.whole
  let (significand, ignored) := absorb significand n.fraction
  let places : Int := dropped.length - (n.fraction.length - ignored.length : Nat)
  let exponent : Int := Decimal.digitsValue n.exponent
  ⟨significand, places + if n.exponentNegative then -exponent else exponent⟩

/-- Scales a scalar that is not negative by a power of ten, at most 308 places at a time. Each step
is rounded by itself. There is no result when the scalar is too large. -/
def scale? [Scalar α] [Numeral α] (x : α) (exponent : Int) : Option α :=
  let power (n : Nat) : α := Numeral.ofDecimal ⟨1, n⟩
  if exponent.natAbs ≤ 308 then
    if 0 ≤ exponent then
      let scaled := x * power exponent.natAbs
      if Scalar.isFinite scaled then some scaled else none
    else some (x / power exponent.natAbs)
  else if 0 < x then
    if 0 ≤ exponent then none else scale? (x / power 308) (exponent + 308)
  else some x
termination_by exponent.natAbs

def scalar? [Scalar α] [Numeral α] (n : Number) : Option α :=
  let ⟨significand, exponent⟩ := n.magnitude
  (scale? (Scalar.ofNat significand) exponent).map fun x => if n.negative then -x else x

end Number

/-! ## Values -/

namespace Value

def bool? : Value → Option Bool
  | .bool b => some b
  | _ => none

def text? : Value → Option String
  | .string pieces => Json.text? pieces
  | _ => none

def scalar? [Scalar α] [Numeral α] : Value → Option α
  | .number n => n.scalar?
  | _ => none

/-- The members of an object, in the order of the document. -/
def members? : Value → Option (List (String × Value))
  | .object members => members.mapM fun (key, v) => (Json.text? key).map (·, v)
  | _ => none

/-- A choice that carries a value: an object with the name of the choice as its only key. -/
def choice? (v : Value) : Option (String × Value) :=
  match v with
  | .object [(key, payload)] => (Json.text? key).map (·, payload)
  | _ => none

/-- A choice that carries nothing: its name, or an object that gives null to that name. -/
def name? (v : Value) : Option String :=
  match v with
  | .object [(key, .null)] => Json.text? key
  | _ => v.text?

/-- The value of a name, which must not occur twice. -/
def field? (members : List (String × Value)) (name : String) : Option (Option Value) :=
  match members.filter fun member => member.1 == name with
  | [] => some none
  | [(_, v)] => some (some v)
  | _ => none

/-- The fields of a record, which is written as an object or as an array of the values in the order
of the names. Other members of an object are passed over, and an array may end early. -/
def fields? (names : List String) (v : Value) : Option (List (Option Value)) :=
  match v with
  | .array items =>
    if items.length ≤ names.length then
      some (items.map some ++ List.replicate (names.length - items.length) none)
    else none
  | _ => v.members?.bind fun members => names.mapM (field? members)

end Value

end DropTable.Json
