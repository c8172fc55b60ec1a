import Backpatch.Command.Directory
import Backpatch.Main
import Backpatch.Proofs.Code.Order
import Backpatch.Proofs.Json.RoundTrip
import Backpatch.Proofs.Machine.Expressions
import Backpatch.Proofs.Machine.Ranges
import Backpatch.Proofs.Output.Divisions
import Backpatch.Proofs.Output.Dominance
import Backpatch.Proofs.Output.Loops
import Backpatch.Proofs.Output.Parameters
import Backpatch.Proofs.Revision.Outcome
import Backpatch.Proofs.Rewriting.Output
import Backpatch.Proofs.Session.Postorder
import Backpatch.Proofs.Static.Storage
