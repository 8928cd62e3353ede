import Std.Data.ExtTreeMap
import DropTable.Program
/-!
# References

Which programs of a list refer to a variable, so that a change of the variable re-evaluates only
those.
-/

namespace DropTable

/-- For each variable the positions of the programs that refer to it, in ascending order. -/
structure References where
  positions : Std.ExtTreeMap String (List Nat)

namespace References

variable {α : Type}

/-- Records that the program at a position, which is behind all recorded ones, refers to a
variable. -/
def addReference (position : Nat) (r : References) (name : String) : References :=
  ⟨r.positions.insert name (r.positions.getD name [] ++ [position])⟩

def addProgram (r : References) (p : Program α) (position : Nat) : References :=
  p.variableNames.toList.foldl (addReference position) r

def ofPrograms (programs : List (Program α)) : References :=
  programs.zipIdx.foldl (fun r (p, position) => r.addProgram p position) ⟨∅⟩

/-- The positions of the programs that refer to a variable. -/
def dependents (r : References) (name : String) : List Nat :=
  r.positions.getD name []

def contains (r : References) (name : String) : Bool :=
  r.positions.contains name

/-- All variables that some program refers to, in ascending order of their code points. -/
def variableNames (r : References) : List String :=
  r.positions.keys

def size (r : References) : Nat :=
  r.positions.size

def isEmpty (r : References) : Bool :=
  r.positions.isEmpty

end References

end DropTable
