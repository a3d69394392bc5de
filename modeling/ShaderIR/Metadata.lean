import ShaderIR.Signature
import ShaderIR.Intrinsic

/-!
# Shader metadata

The signatures of a shader's outputs and patch constants, and its intrinsics. An output store
names an element of one of the two signatures by its opcode. Which operation stores to an
element is another matter: it is said by the kind of the element, and a signature of any kind
can stand in either place.
-/

set_option autoImplicit false

namespace ShaderIR

/-- The operation that stores to the elements of a kind. -/
def SignatureKind.opcode : SignatureKind → OpCode
  | input | output => .storeOutput
  | patchConstant => .storePatchConstant

structure Metadata where
  outputs : Signature
  patchConstants : Signature
  ops : OpTable

namespace Metadata

def empty : Metadata := ⟨.empty .output, .empty .patchConstant, .empty⟩

def signature (m : Metadata) : OpCode → Signature
  | .storeOutput => m.outputs
  | .storePatchConstant => m.patchConstants

def declare (m : Metadata) (i : Intrinsic) : Metadata := { m with ops := m.ops.declare i }

/-- The intrinsic as the table has it, declared if need be. -/
def request (m : Metadata) (i : Intrinsic) : Intrinsic × Metadata :=
  ((m.ops.request i).1, { m with ops := (m.ops.request i).2 })

@[simp] theorem signature_declare (m : Metadata) (i : Intrinsic) (op : OpCode) :
    (m.declare i).signature op = m.signature op := by
  cases op <;> rfl

end Metadata

end ShaderIR
