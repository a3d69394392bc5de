import ShaderIR.Machine.Error

/-!
# Arithmetic at run time

Integers of every width are held in 64 bits. Operations wrap, and their results are cut
to the width. An undefined operand makes the result undefined, and so does a division by
zero.
-/

set_option autoImplicit false

namespace ShaderIR.Arith

/-- The low `width` bits, zero-extended. -/
def low (width : Nat) (n : Int64) : Int64 :=
  Int64.ofBitVec ((n.toBitVec.setWidth width).setWidth 64)

/-- The low `width` bits, sign-extended. -/
def signed (width : Nat) (n : Int64) : Int64 :=
  Int64.ofBitVec ((n.toBitVec.setWidth width).signExtend 64)

def flag (b : Bool) : Value := .int (if b then 1 else 0)

/-- Integer operations; the others have no integer meaning. -/
def intBinary (op : BinaryOp) (width : Nat) (a b : Int64) : Option Value :=
  match op with
  | .add => some (.int (low width (a + b)))
  | .sub => some (.int (low width (a - b)))
  | .mul => some (.int (low width (a * b)))
  | .udiv =>
    some (if b = 0 then .undef else .int (low width (a.toUInt64 / b.toUInt64).toInt64))
  | .urem =>
    some (if b = 0 then .undef else .int (low width (a.toUInt64 % b.toUInt64).toInt64))
  | .and => some (.int (low width (a &&& b)))
  | .or => some (.int (low width (a ||| b)))
  | .xor => some (.int (low width (a ^^^ b)))
  | .eq => some (flag (a == b))
  | .ne => some (flag (a != b))
  | .ult => some (flag (a.toUInt64 < b.toUInt64))
  | .slt => some (flag (signed width a < signed width b))
  | .fadd | .fsub | .fmul => none

def floatBinary (op : BinaryOp) (x y : Float) : Option Value :=
  match op with
  | .fadd => some (.float (x + y))
  | .fsub => some (.float (x - y))
  | .fmul => some (.float (x * y))
  | _ => none

def binary? (op : BinaryOp) (width : Nat) : Value → Value → Option Value
  | .undef, _ => some .undef
  | _, .undef => some .undef
  | .int a, .int b => intBinary op width a b
  | .float x, .float y => floatBinary op x y
  | _, _ => none

def binary (op : BinaryOp) (width : Nat) (a b : Value) : Except RunError Value :=
  match binary? op width a b with
  | some v => .ok v
  | none => .error (.typeError (.binary op a b))

def intWidth (t : Ty) : Except RunError Nat :=
  match t.intWidth? with
  | some w => .ok w
  | none => .error (.typeError (.integerType t))

/-- Rounds to 32 bits, to even at half. -/
def toSingle (x : Float) : Float := x.toFloat32.toFloat

/-- A floating-point constant: 16-bit floats are treated as 32-bit ones. -/
def floatConst (x : Float) (t : Ty) : Except RunError Value :=
  match t with
  | .scalar .f16 | .scalar .f32 => .ok (.float (toSingle x))
  | .scalar .f64 => .ok (.float x)
  | _ => .error (.typeError (.floatType t))

/-- A conversion. A float becomes the integer next to it towards zero that is in range,
and not-a-number becomes zero. -/
def cast (op : CastOp) (source target : Ty) (v : Value) : Except RunError Value :=
  match op, v with
  | _, .undef => .ok .undef
  | .trunc, .int n => do
    let w ← intWidth target
    .ok (.int (low w n))
  | .zext, .int n => do
    let w ← intWidth target
    .ok (.int (low w n))
  | .sext, .int n => do
    let w ← intWidth source
    let w' ← intWidth target
    .ok (.int (low w' (signed w n)))
  | .sitofp, .int n => do
    let w ← intWidth source
    .ok (.float (signed w n).toFloat)
  | .fptosi, .float x => do
    let w ← intWidth target
    .ok (.int (low w x.toInt64))
  | .fptrunc, .float x => .ok (.float (toSingle x))
  | .fpext, .float x => .ok (.float x)
  | op, v => .error (.typeError (.cast op v source target))

end ShaderIR.Arith
