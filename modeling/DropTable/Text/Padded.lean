/-!
# Padded text

Text that is cut to a number of characters and then filled up with spaces.
-/

namespace DropTable.Text

inductive Alignment where
  | left
  | right
  | center
deriving DecidableEq, Repr

/-- Keeps at most `limit` characters, if a limit is given, and adds spaces up to `width` characters.
Of an odd number of spaces around centred text the larger part stands behind it. -/
def padded (width : Nat) (limit : Option Nat) (alignment : Alignment) (text : String) : String :=
  let kept := match limit with
    | some n => text.toList.take n
    | none => text.toList
  let missing := width - kept.length
  let before := match alignment with
    | .left => 0
    | .right => missing
    | .center => missing / 2
  String.ofList (List.replicate before ' ' ++ kept ++ List.replicate (missing - before) ' ')

end DropTable.Text
