import DropTable.Program.Evaluation
import DropTable.Sampler
/-!
# Table configuration
-/

namespace DropTable

structure Config where
  strategy : Strategy
  onMissingVariable : MissingVariable
  /-- Whether a drop goes on into the nested table of the entry it selects. -/
  nested : Bool
deriving DecidableEq, Repr

instance : Inhabited Config :=
  ⟨{ strategy := default, onMissingVariable := default, nested := false }⟩

end DropTable
