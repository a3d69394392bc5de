import ShaderIR.Ty
import ShaderIR.Text.Quoted
import ShaderIR.Text.Segments
import ShaderIR.Decimal.Layout
import ShaderIR.Instr
import ShaderIR.Function.Builder
import ShaderIR.Function.Cursor
import ShaderIR.Function.Printer
import ShaderIR.Metadata
import ShaderIR.Function.Validity
import ShaderIR.Machine.Error
import ShaderIR.Preserve.Redirect
import ShaderIR.Machine.Run
import ShaderIR.Error
import ShaderIR.Proofs.Function.Consistent
import ShaderIR.Proofs.Function.Made
import ShaderIR.Proofs.Function.Layout
import ShaderIR.Proofs.Function.Extension
import ShaderIR.Proofs.Preserve.Code
import ShaderIR.Proofs.Preserve.Store
import ShaderIR.Proofs.Preserve.Weaving
import ShaderIR.Proofs.Preserve.Redirected
import ShaderIR.Proofs.Machine.State
import ShaderIR.Proofs.Machine.Line
import ShaderIR.Proofs.Machine.Arith
import ShaderIR.Proofs.Preserve.Execution
import ShaderIR.Proofs.Machine.Outputs
import ShaderIR.Proofs.Preserve.Once
import ShaderIR.Proofs.Preserve.Epilogues
import ShaderIR.Proofs.Function.Valid
import ShaderIR.Proofs.Preserve.Validity
import ShaderIR.Proofs.Machine.Shift
import ShaderIR.Proofs.Machine.Origin
import ShaderIR.Proofs.Preserve.Simulation
import ShaderIR.Proofs.Preserve.Semantics
import ShaderIR.Proofs.Machine.Trace
import ShaderIR.Proofs.Preserve.Recognition
import ShaderIR.Proofs.Preserve.Lifetime
import ShaderIR.Proofs.Intrinsic
import ShaderIR.Proofs.Preserve.Declared
import ShaderIR.Proofs.Pass.Independence
import ShaderIR.Proofs.Preserve.Success
import ShaderIR.Proofs.Preserve.Failure
import ShaderIR.Proofs.Preserve.Breakoff
import ShaderIR.Proofs.Preserve.Frame
import ShaderIR.Proofs.Preserve.Access
import ShaderIR.Proofs.Preserve.Promotion
import ShaderIR.Proofs.Preserve.Addressing
import ShaderIR.Proofs.Preserve.Verdict
import ShaderIR.Proofs.Preserve.Rerun
import ShaderIR.Proofs.Preserve.Repetition
import ShaderIR.Proofs.Pass.Sequence
import ShaderIR.Proofs.Function.History
import ShaderIR.Proofs.Function.Insertion
import ShaderIR.Proofs.Function.WellFormed
import ShaderIR.Proofs.Machine.Dominance
import ShaderIR.Proofs.Preserve.Size
import ShaderIR.Proofs.Machine.Word
import ShaderIR.Proofs.Machine.Address
import ShaderIR.Proofs.Text.Reading
import ShaderIR.Proofs.Function.Legible
import ShaderIR.Proofs.Function.Parameters
import ShaderIR.Proofs.Machine.Soundness
import ShaderIR.Proofs.Text.Division
import ShaderIR.Proofs.Pass.Schedule
import ShaderIR.Proofs.Module
import ShaderIR.Proofs.Function.Construction
import ShaderIR.Proofs.Function.Placement
