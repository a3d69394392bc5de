import ShaderIR.Function.Basic
import ShaderIR.Machine.Arith
import ShaderIR.Machine.State

/-!
# Effects of instructions

An instruction is first evaluated: its effect is found from the state, or the reason
why there is none. Only then is the state changed.
-/

set_option autoImplicit false

namespace ShaderIR

inductive Effect where
  | assign (v : ValueId) (x : Value)
  | allocate (v : ValueId) (cells : Nat)
  | write (slot offset : Nat) (x : Value)
  | record (r : OutputRecord)
  | jump (target : BlockId) (bindings : List (ValueId × Value))
  | ret (values : List Value)

namespace Machine

def apply (m : Machine) : Effect → Machine
  | .assign v x => m.bind v x
  | .allocate v cells => m.allocate v cells
  | .write slot offset x => m.write slot offset x
  | .record r => m.record r
  | .jump _ bindings => m.bindAll bindings
  | .ret _ => m

def index (m : Machine) (v : ValueId) : Except Stop Nat := do
  let n ← m.int v
  if 0 ≤ n.toInt then .ok n.toInt.toNat
  else .error (.error (.invalidPointer (.negativeIndex v)))

def advance (offset n : Nat) (t : Ty) : Except Stop Nat :=
  match (t.cells?.bind (mulWord? n)).bind (addWord? offset) with
  | some o => .ok o
  | none => .error (.violation .overflow)

def select (m : Machine) : Ty → Nat → List ValueId → Except Stop Nat
  | _, offset, [] => .ok offset
  | t, offset, v :: vs => do
    let n ← m.index v
    match t with
    | .array elem _ => do
      let offset ← advance offset n elem
      m.select elem offset vs
    | other => .error (.error (.invalidPointer (.notArray other)))

/-- The offset of an address over a base of a given type. -/
def offset (m : Machine) (base : Ty) (offset : Nat) (indices : List ValueId) :
    Except Stop Nat :=
  match base.pointee? with
  | none => .error (.error (.invalidPointer (.baseType base)))
  | some t =>
    match indices with
    | [] => .ok offset
    | v :: vs => do
      let n ← m.index v
      let offset ← advance offset n t
      m.select t offset vs

/-- The store opcode of a call, if its callee is an intrinsic and its first operand is one. -/
def callOpcode? (m : Machine) (callee : String) (args : List ValueId) :
    Except Stop (Option OpCode) :=
  match isIntrinsicName callee, args with
  | true, v :: _ => do
    let n ← m.int v
    .ok (OpCode.ofValue? n)
  | _, _ => .ok none

def outputRecord (m : Machine) (op : OpCode) : List ValueId → Except Stop OutputRecord
  | _ :: id :: row :: column :: value :: _ => do
    let n ← m.int id
    match elementId? n with
    | none => .error (.error (.typeError (.idOutOfRange op)))
    | some id => do
      let r ← m.int row
      let c ← m.int column
      let x ← m.get value
      .ok ⟨op, id, r, c, x⟩
  | args => .error (.error (.typeError (.operandCount op args.length)))

def call (m : Machine) (callee : String) (args : List ValueId) : Except Stop Effect := do
  match ← m.callOpcode? callee args with
  | none => .error (.error (.unsupported (.call callee)))
  | some op => do
    let r ← m.outputRecord op args
    .ok (.record r)

def jump (m : Machine) (f : Function) (target : BlockId) (args : List ValueId) :
    Except Stop Effect :=
  match f.block? target with
  | none => .error (.error (.unsupported (.missingBlock target)))
  | some blk => do
    let xs ← m.getAll args
    .ok (.jump target (blk.paramIds.zip xs))

def lift {α : Type} : Except RunError α → Except Stop α
  | .ok a => .ok a
  | .error e => .error (.error e)

def effect (f : Function) (m : Machine) : Instr → Except Stop Effect
  | .constInt r n ty => do
    let w ← lift (Arith.intWidth ty)
    .ok (.assign r (.int (Arith.low w n)))
  | .constFloat r x ty => do
    let v ← lift (Arith.floatConst x ty)
    .ok (.assign r v)
  | .undef r _ => .ok (.assign r .undef)
  | .binary r op lhs rhs _ => do
    let a ← m.get lhs
    let b ← m.get rhs
    let v ← lift (Arith.binary op (((f.typeOf? lhs).bind Ty.intWidth?).getD 64) a b)
    .ok (.assign r v)
  | .cast r op operand ty => do
    let a ← m.get operand
    let v ← lift (Arith.cast op (f.typeOf operand) ty a)
    .ok (.assign r v)
  | .alloca r ty _ =>
    match ty.cells? with
    | some n => .ok (.allocate r n)
    | none => .error (.violation .overflow)
  | .gep r base indices _ _ => do
    let (slot, o) ← m.pointer base
    let o ← m.offset (f.typeOf base) o indices
    .ok (.assign r (.pointer slot o))
  | .load r ptr _ => do
    let (slot, o) ← m.pointer ptr
    let x ← m.cell slot o
    .ok (.assign r x)
  | .store ptr value => do
    let (slot, o) ← m.pointer ptr
    let x ← m.get value
    let _ ← m.cell slot o
    .ok (.write slot o x)
  | .call _ callee args _ => m.call callee args
  | .br target args => m.jump f target args
  | .condbr cond thenTo thenArgs elseTo elseArgs => do
    match ← m.get cond with
    | .int n => if n = 0 then m.jump f elseTo elseArgs else m.jump f thenTo thenArgs
    | x => .error (.error (.typeError (.condition x)))
  | .ret values => do
    let xs ← m.getAll values
    .ok (.ret xs)

end Machine

end ShaderIR
