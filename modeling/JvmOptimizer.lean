import JvmOptimizer.Main
import JvmOptimizer.Pool.Literal
import JvmOptimizer.Proofs.Machine.Basic
import JvmOptimizer.Proofs.Machine.Behaviour
import JvmOptimizer.Proofs.CodeStream.Edit
import JvmOptimizer.Proofs.CodeStream.Thinning
import JvmOptimizer.Proofs.CodeStream.Method
import JvmOptimizer.Proofs.Machine.Program
import JvmOptimizer.Proofs.Fold.Steps
import JvmOptimizer.Proofs.Fold.Locals
import JvmOptimizer.Proofs.Fold.Run
import JvmOptimizer.Proofs.Fold.History
import JvmOptimizer.Proofs.Fold.Account
import JvmOptimizer.Proofs.Fold.Advance
import JvmOptimizer.Proofs.Fold.Known
import JvmOptimizer.Proofs.Fold.Simulation
import JvmOptimizer.Proofs.DeadStore.Agreement
import JvmOptimizer.Proofs.DeadStore.Edit
import JvmOptimizer.Proofs.DeadStore.Reentry
import JvmOptimizer.Proofs.DeadStore.Rounds
import JvmOptimizer.Proofs.Verifier.Basic
import JvmOptimizer.Proofs.DeadStore.Shapes
import JvmOptimizer.Proofs.Sizing
import JvmOptimizer.Proofs.Verifier.Depth
import JvmOptimizer.Proofs.Fold.Progress
import JvmOptimizer.Proofs.Fold.Shapes
import JvmOptimizer.Proofs.Verifier.Optimize
import JvmOptimizer.Proofs.CodeStream.Exchange
import JvmOptimizer.Proofs.CodeStream.Renaming
import JvmOptimizer.Proofs.Fold.Counters
import JvmOptimizer.Proofs.DeadStore.Counters
import JvmOptimizer.Proofs.DeadStore.Quiet
import JvmOptimizer.Proofs.Optimize.Edits
import JvmOptimizer.Proofs.Optimize.Repeat
import JvmOptimizer.Proofs.Code.RoundTrip
import JvmOptimizer.Proofs.Code.Decoded
import JvmOptimizer.Proofs.Optimize.WellFormed
import JvmOptimizer.Proofs.ClassFile.CodeAttribute
import JvmOptimizer.Proofs.ClassFile.Pool
import JvmOptimizer.Proofs.ClassFile.Rewrite
import JvmOptimizer.Proofs.CodeStream.Reached
import JvmOptimizer.Proofs.CodeStream.Adjacent
import JvmOptimizer.Proofs.LinkedStream.Basic
import JvmOptimizer.Proofs.LinkedStream.Edits
import JvmOptimizer.Proofs.CodeStream.Flat
import JvmOptimizer.Proofs.ClassFile.ModifiedUtf8
import JvmOptimizer.Proofs.ClassFile.Constants
import JvmOptimizer.Proofs.ClassFile.RoundTrip
import JvmOptimizer.Proofs.ClassFile.Payload
import JvmOptimizer.Proofs.ClassFile.Delimited
import JvmOptimizer.Proofs.Code.Unresolved
import JvmOptimizer.Proofs.ClassFile.Version
import JvmOptimizer.Proofs.Code.NormalForm
import JvmOptimizer.Proofs.ClassFile.Frame
import JvmOptimizer.Proofs.ClassFile.Atomic
import JvmOptimizer.Proofs.FileSystem.Operations
import JvmOptimizer.Proofs.Batch.Tree
import JvmOptimizer.Proofs.Pool.Agreement
import JvmOptimizer.Proofs.Pool.Indices
import JvmOptimizer.Proofs.DeadStore.Convergence
import JvmOptimizer.Proofs.Fold.Failure
import JvmOptimizer.Proofs.Optimize.Refusal
import JvmOptimizer.Proofs.Descriptor
import JvmOptimizer.Proofs.Eval
import JvmOptimizer.Proofs.Code.Settled
import JvmOptimizer.Proofs.DeadStore.Containment
import JvmOptimizer.Proofs.Fold.Sites
import JvmOptimizer.Proofs.Fold.Heads
