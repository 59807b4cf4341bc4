import Teal.CommandLine
import Teal.Debugger
import Teal.Main
import Teal.Proofs.Comparison
import Teal.Proofs.Comparison.Opcode
import Teal.Proofs.Comparison.Instruction
import Teal.Proofs.Optimizer.Alignment
import Teal.Proofs.Flow
import Teal.Proofs.Optimizer.Passes
import Teal.Proofs.Optimizer
import Teal.Proofs.Precision
import Teal.Proofs.Control
import Teal.Proofs.Machine
import Teal.Proofs.Machine.Command
import Teal.Proofs.Source.RoundTrip
import Teal.Proofs.Machine.Loop
import Teal.Proofs.Lint.Unreachable
import Teal.Proofs.Machine.Isolation
import Teal.Proofs.Session
import Teal.Proofs.Machine.Schedule
import Teal.Proofs.Optimizer.Pruning
import Teal.Proofs.Optimizer.Rounds
import Teal.Proofs.Machine.Offspring
import Teal.Proofs.Lint.Loop
import Teal.Proofs.Machine.History
import Teal.Proofs.Expr
import Teal.Proofs.Machine.Moment
import Teal.Proofs.Session.Breakpoints
import Teal.Proofs.Machine.Resumption
import Teal.Proofs.Lint.Removal
import Teal.Proofs.Source.Numbering
import Teal.Proofs.Machine.Reachable
import Teal.Proofs.Instruction.Checked
import Teal.Proofs.Machine.Bounds
import Teal.Proofs.Machine.Budget
import Teal.Proofs.Instruction.Faults
import Teal.Proofs.Lint.Faults
import Teal.Proofs.Machine.Allowance
import Teal.Proofs.Optimizer.Redundant
import Teal.Proofs.Optimizer.Nops
import Teal.Proofs.Lint.DeadCode
import Teal.Proofs.Session.Stepping
import Teal.Proofs.Session.Finished
import Teal.Proofs.Machine.Fairness
import Teal.Proofs.Machine.Trace
import Teal.Proofs.Instruction.Values
import Teal.Proofs.Machine.Values
import Teal.Proofs.Lint.Canonical
import Teal.Proofs.Source.Scan
import Teal.Proofs.Source.Literal
import Teal.Proofs.Source.Comment
import Teal.Proofs.Lint.Span
import Teal.Proofs.Instruction.Shuffle
import Teal.Proofs.Instruction.Conversion
import Teal.Proofs.Source.Integer
import Teal.Proofs.Value
import Teal.Proofs.Machine.Path
