import NwScript.Build.Script
import NwScript.Wire.Stream
import NwScript.Proofs.Meaning.Body
import NwScript.Proofs.Shape.Verified
import NwScript.Proofs.Program.Addresses
import NwScript.Proofs.Program.Jumps
import NwScript.Proofs.Program.Constants
import NwScript.Proofs.Program.Failures
import NwScript.Proofs.Program.Snapshots
import NwScript.Proofs.Program.Start
import NwScript.Proofs.Wire.RoundTrip
import NwScript.Proofs.Program.Interleaving
import NwScript.Proofs.Coupling
import NwScript.Proofs.Script.Renaming
import NwScript.Proofs.Recast.Basic
import NwScript.Proofs.Recast.Expr
import NwScript.Proofs.Recast.Stmt
import NwScript.Proofs.Recast.Session
import NwScript.Proofs.Program.Relocation
import NwScript.Proofs.Program.Renaming
import NwScript.Proofs.Include.Rounds
import NwScript.Proofs.Storage.Viewpoint
import NwScript.Proofs.Storage.Members
import NwScript.Proofs.Recast.Raised
import NwScript.Proofs.Program.Defaults
import NwScript.Proofs.Codegen.Targets
import NwScript.Proofs.Machine.Paths
import NwScript.Proofs.Program.Handover
import NwScript.Proofs.Codegen.Temporaries
import NwScript.Proofs.Machine.Editing
import NwScript.Proofs.Program.Undone
import NwScript.Proofs.Wire.Truncation
import NwScript.Proofs.Machine.Listed
import NwScript.Proofs.Storage.Leaving
import NwScript.Proofs.Storage.Locals
import NwScript.Proofs.Storage.Nesting
