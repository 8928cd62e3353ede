/-!
# Decimals

A decimal is a significand times a power of ten. This module reads unsigned decimal text and lays a
decimal out without an exponent.
-/

namespace DropTable

/-- The number `significand * 10 ^ exponent`. -/
structure Decimal where
  significand : Nat
  exponent : Int
deriving DecidableEq, Repr

namespace Decimal

/-- The value of a list of ASCII digits. -/
def digitsValue (digits : List Char) : Nat :=
  digits.foldl (fun value d => 10 * value + (d.toNat - '0'.toNat)) 0

/-- Reads one or more digits to the end of the text. -/
def readNatural? (cs : List Char) : Option Nat :=
  if cs ≠ [] ∧ cs.all Char.isDigit then some (digitsValue cs) else none

/-- Reads what follows the digits: nothing, or `e`, an optional sign and digits. -/
def readExponent? : List Char → Option Int
  | [] => some 0
  | mark :: rest =>
    if mark = 'e' ∨ mark = 'E' then
      match rest with
      | '+' :: digits => (readNatural? digits).map fun n => (n : Int)
      | '-' :: digits => (readNatural? digits).map fun n => -(n : Int)
      | digits => (readNatural? digits).map fun n => (n : Int)
    else none

/-- Splits off a point and the digits behind it. -/
def splitFraction : List Char → List Char × List Char
  | '.' :: rest => (rest.takeWhile Char.isDigit, rest.dropWhile Char.isDigit)
  | rest => ([], rest)

/-- Reads digits with at most one point among them and an optional exponent. At least one digit has
to stand before or behind the point. -/
def read? (cs : List Char) : Option Decimal :=
  let whole := cs.takeWhile Char.isDigit
  let (fraction, rest) := splitFraction (cs.dropWhile Char.isDigit)
  if whole ++ fraction = [] then none
  else
    (readExponent? rest).map fun exponent =>
      { significand := digitsValue (whole ++ fraction)
        exponent := exponent - fraction.length }

/-- Writes a decimal with digits and at most one point, and at least one digit before the point. -/
def positional (d : Decimal) : String :=
  let digits := d.significand.repr.toList
  match d.exponent with
  | .ofNat zeros => String.ofList (digits ++ List.replicate zeros '0')
  | .negSucc n =>
    let places := n + 1
    let padded := List.replicate (places + 1 - digits.length) '0' ++ digits
    let whole := padded.length - places
    String.ofList (padded.take whole ++ '.' :: padded.drop whole)

end Decimal

end DropTable
