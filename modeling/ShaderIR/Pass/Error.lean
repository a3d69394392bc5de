import ShaderIR.Instr
import ShaderIR.Intrinsic

/-!
# Errors of passes

What a pass reports about the function or the pipeline that it was given. The reason is
part of the error, and the wording stands in one place.
-/

set_option autoImplicit false

namespace ShaderIR

inductive Refusal where
  | operandCount (op : OpCode) (count : Nat)
  | variableId (op : OpCode)
  | idOutOfRange (op : OpCode) (id : Int64)
  | sharedId (first second : OpCode) (id : Nat)
  | rowNotInteger (row : ValueId) (element : String)
  | columnNotInteger (column : ValueId) (element : String)
  | tooManyColumns (element : String)
  | stated (reason : String)

def Refusal.text : Refusal → String
  | operandCount op n =>
    op.className ++ " call has " ++ toString n ++ " operands, expected 5"
  | variableId op => op.className ++ " with a non-constant signature id"
  | idOutOfRange op id => op.className ++ " with signature id " ++ toString id.toInt
  | sharedId a b id =>
    a.className ++ " and " ++ b.className ++ " both write signature id " ++ toString id
  | rowNotInteger v e => "row index " ++ v.text ++ " of '" ++ e ++ "' is not an integer"
  | columnNotInteger v e => "column index " ++ v.text ++ " of '" ++ e ++ "' is not an integer"
  | tooManyColumns e => "'" ++ e ++ "' has more than 256 columns"
  | stated reason => reason

/-- An instruction that should be in a function is not. -/
inductive Absence where
  | store (call : InstrId)
  | ret (ret : InstrId)
  | stated (reason : String)

def Absence.text : Absence → String
  | store i => "output store " ++ i.description ++ " is no longer in the function"
  | ret i => "return " ++ i.description ++ " is no longer in the function"
  | stated reason => reason

/-- How an instruction disagrees with the types of its operands. -/
inductive TypeFault where
  | store (valueTy : Ty) (value : ValueId) (ptrTy : Ty) (ptr : ValueId)
  | load (ty ptrTy : Ty) (ptr : ValueId)
  | binary (op : BinaryOp) (lhsTy : Ty) (lhs : ValueId) (rhsTy : Ty) (rhs : ValueId) (ty : Ty)
  | base (base : ValueId)
  | index (index : ValueId)
  | stated (reason : String)

def TypeFault.text : TypeFault → String
  | store valueTy value ptrTy ptr =>
    "store of " ++ valueTy.text ++ " " ++ value.text ++ " through " ++ ptrTy.text ++ " " ++
      ptr.text
  | load ty ptrTy ptr => "load of " ++ ty.text ++ " through " ++ ptrTy.text ++ " " ++ ptr.text
  | binary op lhsTy lhs rhsTy rhs ty =>
    op.text ++ " " ++ lhsTy.text ++ " " ++ lhs.text ++ ", " ++ rhsTy.text ++ " " ++ rhs.text ++
      " yields " ++ ty.text
  | base v => "getelementptr base " ++ v.text ++ " is not a pointer"
  | index v => "getelementptr index " ++ v.text ++ " is not an integer"
  | stated reason => reason

inductive PassError where
  | unsupportedShader (func : String) (reason : Refusal)
  | unknownSignatureElement (func signature : String) (id : Nat)
  | missingOutputElement (func : String) (id : Nat)
  | internal (func : String) (reason : Absence)
  | indexWidthMismatch (func : String) (width : Nat)
  | useBeforeDef (func value : String)
  | multipleDefinition (func value : String)
  | typeError (func : String) (fault : TypeFault)
  | missingTerminator (func block : String)
  | unknownPass (arg : String)
  | duplicateRegistration (arg : String)
  | passScheduledTwice (pass : String)

namespace PassError

def message : PassError → String
  | unsupportedShader f reason => "unsupported shader in function '" ++ f ++ "': " ++ reason.text
  | unknownSignatureElement f s id =>
    "in function '" ++ f ++ "': " ++ s ++ " signature has no element with id " ++ toString id
  | missingOutputElement f id =>
    "internal error in function '" ++ f ++ "': no output element for signature id " ++
      toString id
  | internal f reason => "internal error in function '" ++ f ++ "': " ++ reason.text
  | indexWidthMismatch f width =>
    "in function '" ++ f ++ "': output row index is " ++ toString width ++
      "-bit but the scratch index is 32-bit"
  | useBeforeDef f v =>
    "in function '" ++ f ++ "': value '" ++ v ++ "' is used before it has been defined"
  | multipleDefinition f v =>
    "in function '" ++ f ++ "': value '" ++ v ++ "' is defined more than once"
  | typeError f fault => "type error in function '" ++ f ++ "': " ++ fault.text
  | missingTerminator f b =>
    "in function '" ++ f ++ "': block '" ++ b ++ "' does not end with exactly one terminator"
  | unknownPass arg => "no pass is registered under '" ++ arg ++ "'"
  | duplicateRegistration arg => "a pass is already registered under '" ++ arg ++ "'"
  | passScheduledTwice pass => "pass '" ++ pass ++ "' must not run more than once in a pipeline"

def code : PassError → String
  | unsupportedShader .. => "E0200"
  | unknownSignatureElement .. => "E0201"
  | missingOutputElement .. => "E0202"
  | indexWidthMismatch .. => "E0203"
  | internal .. => "E0204"
  | useBeforeDef .. => "E0210"
  | multipleDefinition .. => "E0211"
  | typeError .. => "E0212"
  | missingTerminator .. => "E0213"
  | unknownPass .. => "E0220"
  | duplicateRegistration .. => "E0221"
  | passScheduledTwice .. => "E0222"

end PassError

end ShaderIR
