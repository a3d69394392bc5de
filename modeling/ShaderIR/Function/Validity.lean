import Std.Data.TreeSet.Lemmas
import ShaderIR.Function.Basic
import ShaderIR.Pass.Error

/-!
# Validity of functions

A function is valid if, reading its blocks in order, every value is defined once and
before its uses, every block ends with its only terminator, and memory and arithmetic
instructions agree with the types recorded for their operands. The first fault met on the
way is reported.
-/

set_option autoImplicit false

namespace ShaderIR

abbrev Defined : Type := Std.TreeSet ValueId

namespace Function

def typeFault? (f : Function) : Instr → Option TypeFault
  | .store ptr value =>
    if (f.typeOf ptr).pointee? = some (f.typeOf value) then none
    else some (.store (f.typeOf value) value (f.typeOf ptr) ptr)
  | .load _ ptr ty =>
    if (f.typeOf ptr).pointee? = some ty then none
    else some (.load ty (f.typeOf ptr) ptr)
  | .binary _ op lhs rhs ty =>
    if f.typeOf lhs = f.typeOf rhs ∧ (op.isCompare = true ∨ f.typeOf lhs = ty) then none
    else some (.binary op (f.typeOf lhs) lhs (f.typeOf rhs) rhs ty)
  | .gep _ base indices _ _ =>
    if (f.typeOf base).pointee?.isNone then some (.base base)
    else (indices.find? fun v => !(f.typeOf v).isInt).map .index
  | _ => none

def define (f : Function) (d : Defined) (v : ValueId) : Except PassError Defined :=
  if d.contains v then .error (.multipleDefinition f.name v.text) else .ok (d.insert v)

def defineAll (f : Function) (d : Defined) : List ValueId → Except PassError Defined
  | [] => .ok d
  | v :: vs => do
    let d ← f.define d v
    f.defineAll d vs

/-- One instruction; `isLast` says whether it is the last of its block. -/
def checkInstr (f : Function) (label : String) (isLast : Bool) (d : Defined) (ins : Instr) :
    Except PassError Defined :=
  if ins.isTerminator != isLast then .error (.missingTerminator f.name label)
  else match ins.operands.find? fun v => !d.contains v with
    | some v => .error (.useBeforeDef f.name v.text)
    | none =>
      match f.typeFault? ins with
      | some fault => .error (.typeError f.name fault)
      | none => f.defineAll d ins.result?.toList

def checkInstrs (f : Function) (label : String) (d : Defined) :
    List Instr → Except PassError Defined
  | [] => .ok d
  | ins :: rest => do
    let d ← f.checkInstr label rest.isEmpty d ins
    f.checkInstrs label d rest

def checkBlock (f : Function) (d : Defined) (blk : Block) : Except PassError Defined := do
  let d ← f.defineAll d blk.paramIds
  let is := (f.resolve blk.body).map Prod.snd
  if is.isEmpty then .error (.missingTerminator f.name blk.label)
  else f.checkInstrs blk.label d is

def checkBlocks (f : Function) (d : Defined) : List Block → Except PassError Defined
  | [] => .ok d
  | blk :: rest => do
    let d ← f.checkBlock d blk
    f.checkBlocks d rest

def validate (f : Function) : Except PassError Unit := do
  let _ ← f.checkBlocks ∅ f.blocks
  .ok ()

end Function

end ShaderIR
