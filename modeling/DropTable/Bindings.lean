import Std.Data.ExtTreeMap
import DropTable.Scalar
/-!
# Bindings

The current values of variables, in ascending order of the code points of their names. Two bindings
with the same values are the same, in whatever order the values were set.
-/

namespace DropTable

abbrev Bindings (α : Type) :=
  Std.ExtTreeMap String α

namespace Bindings

variable {α : Type}

/-- Sets variables one after the other, so that the last value of a name stays. -/
def ofList (values : List (String × α)) : Bindings α :=
  values.foldl (fun bindings (name, value) => bindings.insert name value) ∅

/-- Whether the same names are bound to numerically equal values. -/
def agree [Scalar α] (a b : Bindings α) : Bool :=
  a.size == b.size &&
    a.toList.all fun (name, value) => b[name]?.any (Scalar.numericallyEqual value)

end Bindings

end DropTable
