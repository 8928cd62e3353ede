import DropTable.Text.Padded
/-!
# Entry identifiers

The stable name of an entry. The empty identifier is reserved for the placeholder that stands for
"nothing dropped".
-/

namespace DropTable

structure EntryId where
  text : String
deriving DecidableEq, Repr

namespace EntryId

/-- The identifier of the placeholder. -/
def none : EntryId :=
  ⟨""⟩

def isNone (id : EntryId) : Bool :=
  id.text == ""

/-- What is shown for an identifier. -/
def label (id : EntryId) : String :=
  if id.isNone then "<none>" else id.text

/-- The label cut and padded. -/
def paddedLabel (id : EntryId) (width : Nat) (limit : Option Nat) (alignment : Text.Alignment) :
    String :=
  Text.padded width limit alignment id.label

/-- Identifiers are ordered by the code points of their texts. -/
instance : Ord EntryId where
  compare a b := compare a.text b.text

end EntryId

end DropTable
