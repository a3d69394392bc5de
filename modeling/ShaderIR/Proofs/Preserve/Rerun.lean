import ShaderIR.Proofs.Preserve.Declared
import ShaderIR.Proofs.Preserve.Success
import ShaderIR.Proofs.Preserve.Validity

/-!
# A redirection that is redirected

The output stores of a redirected function are those in front of its returns. The pass accepts
them, finds the same elements, and stores each component of these in the same order again.
-/

set_option autoImplicit false

namespace ShaderIR

namespace Function

end Function

namespace Scratch

end Scratch

namespace Preserve.Redirected

variable {f : Function} {m : Metadata} {stores : List OutputStore} {ts : List Target}
  {before : InstrId → List (InstrId × Instr)} {w g : Function}
  (h : Redirected f m stores ts before w g)
include h

theorem nextValue_le : f.nextValue ≤ g.nextValue := by
  rw [h.erased.nextValue]
  exact h.woven.extension.next_le

end Preserve.Redirected

end ShaderIR
