import ShaderIR.Instr
import ShaderIR.Machine.Value

/-!
# Errors of a run

Why a run of a function stops before a return.
-/

set_option autoImplicit false

namespace ShaderIR

inductive PointerFault where
  | notPointer (v : ValueId) (value : Value)
  | outOfBounds (slot offset : Nat)
  | baseType (ty : Ty)
  | negativeIndex (v : ValueId)
  | notArray (ty : Ty)
  | stated (reason : String)

def PointerFault.text : PointerFault → String
  | notPointer v value => v.text ++ " is not a pointer: " ++ value.text
  | outOfBounds slot offset => (Value.pointer slot offset).text ++ " is out of bounds"
  | baseType ty => "getelementptr over non-pointer type " ++ ty.text
  | negativeIndex v => "negative getelementptr index " ++ v.text
  | notArray ty => "getelementptr indexes into non-array type " ++ ty.text
  | stated reason => reason

inductive ValueFault where
  | notInteger (v : ValueId) (value : Value)
  | integerType (ty : Ty)
  | floatType (ty : Ty)
  | binary (op : BinaryOp) (lhs rhs : Value)
  | cast (op : CastOp) (value : Value) (source target : Ty)
  | condition (value : Value)
  | operandCount (op : OpCode) (count : Nat)
  | idOutOfRange (op : OpCode)
  | stated (reason : String)

def ValueFault.text : ValueFault → String
  | notInteger v value => v.text ++ " must be an integer, got " ++ value.text
  | integerType ty => "expected an integer type, got " ++ ty.text
  | floatType ty => "ConstFloat with type " ++ ty.text
  | binary op lhs rhs =>
    "unsupported binop " ++ op.text ++ " on " ++ lhs.text ++ " and " ++ rhs.text
  | cast op value source target =>
    "cannot " ++ op.text ++ " " ++ value.text ++ " from " ++ source.text ++ " to " ++ target.text
  | condition value => "CondBr condition must be an integer, got " ++ value.text
  | operandCount op n => op.className ++ " call with " ++ toString n ++ " operands"
  | idOutOfRange op => op.className ++ " signature id out of range"
  | stated reason => reason

inductive Limitation where
  | stepLimit
  | missingBlock (b : BlockId)
  | noTerminator (b : BlockId)
  | call (callee : String)
  | stated (reason : String)

def Limitation.text : Limitation → String
  | stepLimit => "exceeded step limit (infinite loop?)"
  | missingBlock b => "branch to missing block " ++ b.text
  | noTerminator b => "block " ++ b.text ++ " has no terminator"
  | call callee => "call to '" ++ callee ++ "'"
  | stated reason => reason

inductive RunError where
  | undefinedValue (id : ValueId)
  | invalidPointer (fault : PointerFault)
  | typeError (fault : ValueFault)
  | unsupported (limitation : Limitation)

namespace RunError

def message : RunError → String
  | undefinedValue v => "internal error: undefined value " ++ v.text
  | invalidPointer fault => "invalid pointer access: " ++ fault.text
  | typeError fault => "type error: " ++ fault.text
  | unsupported limitation => "not supported by the interpreter: " ++ limitation.text

end RunError

end ShaderIR
