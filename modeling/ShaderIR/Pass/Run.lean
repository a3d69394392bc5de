import ShaderIR.Function.Basic
import ShaderIR.Metadata
import ShaderIR.Event
import ShaderIR.Pass.Error

/-!
# The result of a pass

A pass leaves a function and metadata behind whatever its verdict is: if it fails, they
are as the failure found them.
-/

set_option autoImplicit false

namespace ShaderIR

structure PassRun where
  func : Function
  metadata : Metadata
  events : List Event
  /-- Whether the function was modified. -/
  verdict : Except (Failure PassError) Bool

end ShaderIR
