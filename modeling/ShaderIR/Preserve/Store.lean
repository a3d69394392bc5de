import ShaderIR.Function.Basic
import ShaderIR.Intrinsic
import ShaderIR.Pass.Error

/-!
# Output stores

An output store is a call of an intrinsic whose first operand is the constant of one of
the two store opcodes. Its other operands are the signature element, which must be a
constant too, the row, the column and the value.
-/

set_option autoImplicit false

namespace ShaderIR

namespace Function

def isCallTo (f : Function) (op : OpCode) : Instr → Bool
  | .call _ callee args _ =>
    isIntrinsicName callee &&
      (args.head?.bind f.constInt?).any fun n => n == Int64.ofNat op.value
  | _ => false

def storeOpcode? (f : Function) (ins : Instr) : Option OpCode :=
  if f.isCallTo .storeOutput ins then some .storeOutput
  else if f.isCallTo .storePatchConstant ins then some .storePatchConstant
  else none

end Function

structure OutputStore where
  call : InstrId
  opcode : OpCode
  /-- The number of the signature element. -/
  id : Nat
  row : ValueId
  column : ValueId
  value : ValueId

namespace OutputStore

def ofCall (f : Function) (call : InstrId) (op : OpCode) :
    List ValueId → Except PassError OutputStore
  | _ :: id :: row :: column :: value :: _ =>
    match f.constInt? id with
    | none => .error (.unsupportedShader f.name (.variableId op))
    | some n =>
      match elementId? n with
      | none => .error (.unsupportedShader f.name (.idOutOfRange op n))
      | some id => .ok ⟨call, op, id, row, column, value⟩
  | args => .error (.unsupportedShader f.name (.operandCount op args.length))

def collect (f : Function) : List (InstrId × Instr) → Except PassError (List OutputStore)
  | [] => .ok []
  | (i, ins) :: rest =>
    match f.storeOpcode? ins with
    | none => collect f rest
    | some op => do
      let s ← ofCall f i op ins.operands
      let ss ← collect f rest
      .ok (s :: ss)

/-- All output stores of a function, block by block. -/
def all (f : Function) : Except PassError (List OutputStore) := collect f f.instrs

end OutputStore

end ShaderIR
