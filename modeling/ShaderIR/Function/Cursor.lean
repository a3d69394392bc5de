import ShaderIR.Function.Edit
import ShaderIR.Violation

/-!
# Editing at a point

A cursor stands before an instruction of a function, or at the end of a block. Every new
instruction is placed at the point, which then moves past it, so the results of a list
of commands come out in its order.
-/

set_option autoImplicit false

namespace ShaderIR

structure Cursor where
  func : Function
  block : BlockId
  index : Nat

namespace Cursor

inductive Command where
  | constInt (ty : Ty) (value : Int64)
  | undef (ty : Ty)
  | binary (op : BinaryOp) (lhs rhs : ValueId)
  | cast (op : CastOp) (operand : ValueId) (ty : Ty)
  | alloca (ty : Ty) (name : Option String)
  | gep (base : ValueId) (indices : List ValueId)
  | load (ptr : ValueId)
  | store (value ptr : ValueId)
  | call (callee : String) (args : List ValueId) (ty : Option Ty)
  | insert (instr : Instr) (ty : Option Ty)
  | move (instr : InstrId)

def atBlockStart (f : Function) (b : BlockId) : Cursor := ⟨f, b, 0⟩

def atEntry (f : Function) : Cursor := atBlockStart f .entry

def before? (f : Function) (i : InstrId) : Option Cursor :=
  (f.position? i).map fun p => ⟨f, p.1, p.2⟩

/-- Places an instruction and steps over it. -/
def insert (c : Cursor) (d : Draft) : Except Violation (InstrId × Cursor) :=
  match c.func.block? c.block with
  | none => .error .outOfBounds
  | some blk =>
    if c.index ≤ blk.body.length then
      .ok (c.func.nextHandle,
        { c with func := c.func.splice c.block c.index [d], index := c.index + 1 })
    else .error .outOfBounds

def define (c : Cursor) (make : ValueId → Draft) : Except Violation (ValueId × Cursor) :=
  if c.func.nextValue + 1 < idLimit then do
    let (_, d) ← insert { c with func := c.func.reserve 1 } (make c.func.freshValue)
    .ok (c.func.freshValue, d)
  else .error .overflow

/-- The instruction that a command places, for the commands whose result is a fresh value.
A binary operation has the type of its left operand, or `i1`, and a load that of what its
pointer points to. -/
def draft? (f : Function) : Command → Option (ValueId → Draft)
  | .constInt ty n => some fun r => .constInt r n ty
  | .undef ty => some fun r => .undef r ty
  | .binary op lhs rhs =>
    some fun r => .binary r op lhs rhs (if op.isCompare then .i1 else f.typeOf lhs)
  | .cast op v ty => some fun r => .cast r op v ty
  | .alloca ty name => some fun r => .alloca r ty name
  | .gep base indices =>
    some fun r => .gep r base indices (Ty.address (f.typeOf? base) indices.length)
  | .load ptr => some fun r => .load r ptr (((f.typeOf? ptr).bind Ty.pointee?).getD .void)
  | .call callee args (some ty) => some fun r => .call (some r) callee args (some ty)
  | _ => none

def step (c : Cursor) (cmd : Command) : Except Violation (Reply × Cursor) :=
  match draft? c.func cmd with
  | some make => do
    let (v, c) ← c.define make
    .ok (.value v, c)
  | none =>
    match cmd with
    | .store value ptr => do
      let (i, c) ← c.insert (.store value ptr)
      .ok (.instr i, c)
    | .call callee args _ => do
      let (_, c) ← c.insert (.call none callee args none)
      .ok (.done, c)
    | .insert ins ty => do
      let (i, c) ← c.insert ⟨ins, ty⟩
      .ok (.instr i, c)
    | .move i =>
      match before? c.func i with
      | some d => .ok (.flag true, d)
      | none => .ok (.flag false, c)
    | _ => .ok (.done, c)

def run (c : Cursor) : List Command → List Reply × Except Violation Cursor
  | [] => ([], .ok c)
  | cmd :: cmds =>
    match c.step cmd with
    | .error v => ([], .error v)
    | .ok (r, c) =>
      let (rs, e) := c.run cmds
      (r :: rs, e)

end Cursor

end ShaderIR
