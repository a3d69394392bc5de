import ShaderIR.Intrinsic
import ShaderIR.Decimal.Layout

/-!
# Values at run time

An integer is kept zero-extended to the width of its type. A pointer is a slot of the
stack and a cell of the slot. Output intrinsics are recorded instead of executed.
-/

set_option autoImplicit false

namespace ShaderIR

inductive Value where
  | int (n : Int64)
  | float (x : Float)
  | undef
  | pointer (slot offset : Nat)

namespace Value

def text : Value → String
  | int n => toString n.toInt
  | float x => Decimal.realText x
  | undef => "undef"
  | pointer slot offset => "&slot" ++ toString slot ++ "[" ++ toString offset ++ "]"

end Value

structure OutputRecord where
  opcode : OpCode
  id : Nat
  row : Int64
  column : Int64
  value : Value

def OutputRecord.text (r : OutputRecord) : String :=
  r.opcode.className ++ ": sig " ++ toString r.id ++ " [" ++ toString r.row.toInt ++ "][" ++
    toString r.column.toInt ++ "] = " ++ r.value.text

end ShaderIR
