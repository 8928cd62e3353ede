import DropTable.Exchange
import DropTable.Proofs.Formula.Violations
import DropTable.Proofs.Program.Compilation
import DropTable.Proofs.Program.FirstStop
import DropTable.Proofs.Program.Groups
import DropTable.Proofs.Program.Malformed
import DropTable.Proofs.References.Graph
import DropTable.Proofs.Sampler.Apportionment
import DropTable.Proofs.Sampler.DrawOrder
import DropTable.Proofs.Sampler.PairingHistory
import DropTable.Proofs.Sampler.WeightedBuckets
import DropTable.Proofs.Sampler.WordLoops
import DropTable.Proofs.Table.ExactDrops
import DropTable.Proofs.Table.Flattening
import DropTable.Proofs.Table.Rebuild
import DropTable.Proofs.Table.Refusals
import DropTable.Proofs.Table.Repetition
import DropTable.Proofs.Table.Reports
import DropTable.Proofs.Table.Visits
import DropTable.Proofs.Table.Wordless
import DropTable.Proofs.Token.Numbers
import DropTable.Proofs.Token.Seams
