import Resumable.Bytecode.Assembler
import Resumable.Bytecode.Listing
import Resumable.CommandLine
import Resumable.Debugger
import Resumable.Main
import Resumable.Proofs.Machine.StackBound
import Resumable.Proofs.Snapshot.Resumption
import Resumable.Proofs.Snapshot.RoundTrip
import Resumable.Proofs.Machine.Sessions
import Resumable.Proofs.Machine.Restraint
import Resumable.Proofs.Machine.Course
import Resumable.Proofs.Machine.Bracketing
import Resumable.Proofs.Machine.Moments
import Resumable.Proofs.Machine.Chains
import Resumable.Proofs.Machine.Metering
import Resumable.Proofs.Machine.Allowance
import Resumable.Proofs.Machine.Handlers
import Resumable.Proofs.Machine.Visits
import Resumable.Proofs.Frame.Jumps
import Resumable.Proofs.Frame.Landing
import Resumable.Proofs.Frame.StackOperations
import Resumable.Proofs.Machine.Attempts
import Resumable.Proofs.Snapshot.Refusals
import Resumable.Proofs.Machine.NewExceptions
import Resumable.Proofs.Machine.Tracebacks
import Resumable.Proofs.Machine.Detours
import Resumable.Proofs.Snapshot.Truncation
import Resumable.Proofs.Snapshot.Positions
import Resumable.Proofs.Machine.Coverage
import Resumable.Proofs.Bytecode.EmittedLines
import Resumable.Proofs.Bytecode.LineRanges
import Resumable.Proofs.Machine.Calls
import Resumable.Proofs.Machine.Underflow
import Resumable.Proofs.Operation.Order
import Resumable.Proofs.Operation.Arithmetic
import Resumable.Proofs.Operation.Range
import Resumable.Proofs.Operation.Sequence
