import Compiscript.Main
import Compiscript.Page
import Compiscript.Proofs.Check.Accepted
import Compiscript.Proofs.Check.Jumps
import Compiscript.Proofs.Check.Returns
import Compiscript.Proofs.Codegen.Chains
import Compiscript.Proofs.Codegen.Closure
import Compiscript.Proofs.Codegen.Listing
import Compiscript.Proofs.Codegen.Names
import Compiscript.Proofs.Command.Verdict
import Compiscript.Proofs.Core.Assigned
import Compiscript.Proofs.Core.Connectives
import Compiscript.Proofs.Core.Once
import Compiscript.Proofs.Frame
import Compiscript.Proofs.Mips.Loads
import Compiscript.Proofs.Mips.Marks
import Compiscript.Proofs.Mips.Reads
import Compiscript.Proofs.Mips.Simulation
import Compiscript.Proofs.Mips.Strings
import Compiscript.Proofs.Parse.Complete
import Compiscript.Proofs.Tac.Pool
import Compiscript.Proofs.Tree.Picture
import Compiscript.Proofs.Ty
import Compiscript.Tree.Events
import Compiscript.Workload
