import ShaderIR.Instr

/-!
# Functions

The instructions of a function live in an arena, where an erased one leaves a hole; its
blocks list their handles in program order. An edit therefore touches the lists only, and
a handle keeps naming the same instruction. Beside them the function records where each
value is defined and which type it has. Nothing here ties the records to the
instructions: a function is a plain value, and the operations keep it consistent.
-/

set_option autoImplicit false

namespace ShaderIR

structure BlockParam where
  id : ValueId
  ty : Ty
  name : Option String

structure Block where
  id : BlockId
  params : List BlockParam
  /-- The instructions in program order. -/
  body : List InstrId
  name : Option String

namespace Block

/-- The block's name, or its number if it has none. -/
def label (b : Block) : String := b.name.getD b.id.text

def indexOf? (b : Block) (i : InstrId) : Option Nat := b.body.idxOf? i

def paramIds (b : Block) : List ValueId := b.params.map BlockParam.id

end Block

inductive Definition where
  | param (block : BlockId)
  | result (instr : InstrId)
deriving DecidableEq

structure Param where
  name : String
  ty : Ty

structure Function where
  id : FunctionId
  name : String
  params : List Param
  returnTy : Ty
  blocks : List Block
  arena : Array (Option Instr)
  defs : ValueMap Definition
  types : ValueMap Ty
  /-- The number of the next fresh value. -/
  nextValue : Nat

namespace Function

def empty (name : String) (params : List Param) (returnTy : Ty) : Function where
  id := ⟨0⟩
  name := name
  params := params
  returnTy := returnTy
  blocks := []
  arena := #[]
  defs := ∅
  types := ∅
  nextValue := 0

def block? (f : Function) (b : BlockId) : Option Block := f.blocks[b.index]?

def instr? (f : Function) (i : InstrId) : Option Instr := f.arena[i.index]?.join

def resolve (f : Function) (is : List InstrId) : List (InstrId × Instr) :=
  is.filterMap fun i => (f.instr? i).map fun ins => (i, ins)

def blockInstrs (f : Function) (b : BlockId) : List (InstrId × Instr) :=
  match f.block? b with
  | some blk => f.resolve blk.body
  | none => []

/-- All live instructions, block by block. -/
def instrs (f : Function) : List (InstrId × Instr) :=
  f.blocks.flatMap fun blk => f.resolve blk.body

def terminator? (f : Function) (b : BlockId) : Option Instr :=
  (((f.block? b).bind fun blk => blk.body.getLast?).bind f.instr?).filter Instr.isTerminator

def isSealed (f : Function) (b : BlockId) : Bool := (f.terminator? b).isSome

/-- The block of a live instruction and its index there. -/
def position? (f : Function) (i : InstrId) : Option (BlockId × Nat) :=
  if (f.instr? i).isSome then
    f.blocks.findSome? fun blk => (blk.indexOf? i).map fun k => (blk.id, k)
  else none

def typeOf? (f : Function) (v : ValueId) : Option Ty := f.types[v]?

/-- The recorded type; a value without one counts as void. -/
def typeOf (f : Function) (v : ValueId) : Ty := (f.typeOf? v).getD .void

def definition? (f : Function) (v : ValueId) : Option Definition := f.defs[v]?

/-- The instruction whose result is recorded as the value. -/
def definer? (f : Function) (v : ValueId) : Option Instr :=
  match f.definition? v with
  | some (.result i) => f.instr? i
  | _ => none

def constInt? (f : Function) (v : ValueId) : Option Int64 :=
  match f.definer? v with
  | some (.constInt _ n _) => some n
  | _ => none

def returns (f : Function) : List InstrId :=
  (f.instrs.filter fun p => p.2.isReturn).map Prod.fst

/-- The handle of the next instruction. Handles are 32-bit words, and an arena is taken to have
fewer than `idLimit` entries. -/
def nextHandle (f : Function) : InstrId := ⟨f.arena.size⟩

def freshValue (f : Function) : ValueId := ⟨f.nextValue⟩

variable (f : Function)

@[simp] theorem resolve_nil : f.resolve [] = [] := rfl

theorem resolve_append (is js : List InstrId) :
    f.resolve (is ++ js) = f.resolve is ++ f.resolve js :=
  List.filterMap_append

theorem mem_resolve {is : List InstrId} {p : InstrId × Instr} :
    p ∈ f.resolve is ↔ p.1 ∈ is ∧ f.instr? p.1 = some p.2 := by
  obtain ⟨i, ins⟩ := p
  simp only [resolve, List.mem_filterMap, Option.map_eq_some_iff, Prod.mk.injEq]
  constructor
  · rintro ⟨j, hj, k, hk, rfl, rfl⟩
    exact ⟨hj, hk⟩
  · rintro ⟨hi, h⟩
    exact ⟨i, hi, ins, h, rfl, rfl⟩

theorem isSealed_iff {b : BlockId} :
    f.isSealed b = true ↔ ∃ ins, f.terminator? b = some ins := by
  rw [isSealed, Option.isSome_iff_exists]

end Function

end ShaderIR
