import ShaderIR.Ty
import ShaderIR.Text.Segments
import ShaderIR.Decimal.Layout

/-!
# Instructions

An instruction in static single assignment form: its result, if it has one, is a value
that nothing else defines. Block parameters take the place of phi instructions, so a
branch carries arguments. The three terminators end a block.
-/

set_option autoImplicit false

namespace ShaderIR

inductive BinaryOp where
  | add | sub | mul | udiv | urem | and | or | xor
  | fadd | fsub | fmul
  | eq | ne | ult | slt
deriving DecidableEq

namespace BinaryOp

/-- A comparison yields an `i1`, whatever it compares. -/
def isCompare : BinaryOp → Bool
  | eq | ne | ult | slt => true
  | _ => false

def text : BinaryOp → String
  | add => "add"
  | sub => "sub"
  | mul => "mul"
  | udiv => "udiv"
  | urem => "urem"
  | and => "and"
  | or => "or"
  | xor => "xor"
  | fadd => "fadd"
  | fsub => "fsub"
  | fmul => "fmul"
  | eq => "icmp.eq"
  | ne => "icmp.ne"
  | ult => "icmp.ult"
  | slt => "icmp.slt"

end BinaryOp

inductive CastOp where
  | trunc | zext | sext | fptrunc | fpext | sitofp | fptosi
deriving DecidableEq

def CastOp.text : CastOp → String
  | trunc => "trunc"
  | zext => "zext"
  | sext => "sext"
  | fptrunc => "fptrunc"
  | fpext => "fpext"
  | sitofp => "sitofp"
  | fptosi => "fptosi"

inductive Instr where
  | constInt (result : ValueId) (value : Int64) (ty : Ty)
  | constFloat (result : ValueId) (value : Float) (ty : Ty)
  | undef (result : ValueId) (ty : Ty)
  | binary (result : ValueId) (op : BinaryOp) (lhs rhs : ValueId) (ty : Ty)
  | cast (result : ValueId) (op : CastOp) (operand : ValueId) (ty : Ty)
  /-- A slot of the function's stack; the result points to it. -/
  | alloca (result : ValueId) (allocated : Ty) (name : Option String)
  /-- An address inside an aggregate: the first index steps over the base, each further
  one selects in an array. -/
  | gep (result base : ValueId) (indices : List ValueId) (inbounds : Bool) (ty : Ty)
  | load (result ptr : ValueId) (ty : Ty)
  | store (ptr value : ValueId)
  | call (result : Option ValueId) (callee : String) (args : List ValueId) (ty : Option Ty)
  | br (target : BlockId) (args : List ValueId)
  | condbr (cond : ValueId) (thenTo : BlockId) (thenArgs : List ValueId)
      (elseTo : BlockId) (elseArgs : List ValueId)
  | ret (values : List ValueId)

namespace Instr

def result? : Instr → Option ValueId
  | constInt r .. | constFloat r .. | undef r .. | binary r .. | cast r .. => some r
  | alloca r .. | gep r .. | load r .. => some r
  | call r .. => r
  | store .. | br .. | condbr .. | ret .. => none

def operands : Instr → List ValueId
  | constInt .. | constFloat .. | undef .. | alloca .. => []
  | binary _ _ lhs rhs _ => [lhs, rhs]
  | cast _ _ v _ => [v]
  | gep _ base indices _ _ => base :: indices
  | load _ ptr _ => [ptr]
  | store ptr value => [ptr, value]
  | call _ _ args _ => args
  | br _ args => args
  | condbr cond _ thenArgs _ elseArgs => cond :: (thenArgs ++ elseArgs)
  | ret values => values

def isTerminator : Instr → Bool
  | br .. | condbr .. | ret .. => true
  | _ => false

def isReturn : Instr → Bool
  | ret .. => true
  | _ => false

def callee? : Instr → Option String
  | call _ callee _ _ => some callee
  | _ => none

def successors : Instr → List BlockId
  | br target _ => [target]
  | condbr _ thenTo _ elseTo _ => [thenTo, elseTo]
  | _ => []

theorem isTerminator_of_isReturn {i : Instr} (h : i.isReturn = true) :
    i.isTerminator = true := by
  cases i <;> simp_all [isReturn, isTerminator]

theorem result?_of_isTerminator {i : Instr} (h : i.isTerminator = true) :
    i.result? = none := by
  cases i <;> simp_all [isTerminator, result?]

def valueList (vs : List ValueId) : String := Text.commaList (vs.map ValueId.text)

/-- The text of an instruction. A cast names the type it converts from, which its
operand's function records. -/
def text (typeOf : ValueId → Option Ty) : Instr → String
  | constInt r value ty => r.text ++ " = const " ++ ty.text ++ " " ++ toString value.toInt
  | constFloat r value ty =>
    r.text ++ " = const " ++ ty.text ++ " " ++ Decimal.realText value
  | undef r ty => r.text ++ " = undef " ++ ty.text
  | binary r op lhs rhs ty =>
    r.text ++ " = " ++ op.text ++ " " ++ ty.text ++ " " ++ lhs.text ++ ", " ++ rhs.text
  | cast r op v ty =>
    r.text ++ " = " ++ op.text ++ " " ++ ((typeOf v).map Ty.text).getD "?" ++ " " ++ v.text ++
      " to " ++ ty.text
  | alloca r ty name =>
    r.text ++ " = alloca " ++ ty.text ++
      (match name with
      | some n => ", name \"" ++ n ++ "\""
      | none => "")
  | gep r base indices inbounds ty =>
    r.text ++ " = " ++ (if inbounds then "getelementptr inbounds " else "getelementptr ") ++
      valueList (base :: indices) ++ " : " ++ ty.text
  | load r ptr ty => r.text ++ " = load " ++ ty.text ++ ", " ++ ptr.text
  | store ptr value => "store " ++ value.text ++ ", " ++ ptr.text
  | call r callee args ty =>
    (match r with
    | some v => v.text ++ " = "
    | none => "") ++ "call " ++ (ty.getD .void).text ++ " @" ++ callee ++
      "(" ++ valueList args ++ ")"
  | br target args => "br " ++ target.text ++ "(" ++ valueList args ++ ")"
  | condbr cond thenTo thenArgs elseTo elseArgs =>
    "condbr " ++ cond.text ++ ", " ++ thenTo.text ++ "(" ++ valueList thenArgs ++ "), " ++
      elseTo.text ++ "(" ++ valueList elseArgs ++ ")"
  | ret values => if values.isEmpty then "ret" else "ret " ++ valueList values

end Instr

end ShaderIR
