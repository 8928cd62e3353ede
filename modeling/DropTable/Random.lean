/-!
# Random words

A source of 64-bit words, and unbiased numbers below a bound drawn from it.
-/

namespace DropTable

/-- The words still to come, with zeros for ever after them, and how many were taken. -/
structure Words where
  upcoming : List UInt64
  taken : Nat
deriving DecidableEq, Repr

namespace Words

def ofList (words : List UInt64) : Words :=
  ⟨words, 0⟩

/-- The largest low half that is accepted for a bound: the low halves up to it are the image of
equally many words for each result. -/
def zone (bound : Nat) : Nat :=
  bound <<< (63 - bound.log2) - 1

/-- The number below a bound that a word stands for, unless the word is rejected: the high half of
the product of both. -/
def accept? (bound : Nat) (word : UInt64) : Option Nat :=
  let product := word.toNat * bound
  if product % UInt64.size ≤ zone bound then some (product / UInt64.size) else none

/-- Takes words up to the first that is accepted. The zeros at the end are accepted as zero. -/
def below (bound : Nat) (words : Words) : Nat × Words :=
  go words.taken words.upcoming
where
  go (taken : Nat) : List UInt64 → Nat × Words
    | [] => (0, ⟨[], taken + 1⟩)
    | word :: rest =>
      match accept? bound word with
      | some n => (n, ⟨rest, taken + 1⟩)
      | none => go (taken + 1) rest

end Words

end DropTable
