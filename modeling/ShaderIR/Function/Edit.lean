import ShaderIR.Function.Basic

/-!
# Editing functions

The total edits from which builders, cursors and passes are made: new instructions enter
the arena and then, as one run of handles, a block; an instruction is erased from both.
-/

set_option autoImplicit false

namespace ShaderIR

/-- An instruction to be placed, with the type to record for its result. -/
structure Draft where
  instr : Instr
  ty : Option Ty

namespace Draft

def constInt (r : ValueId) (n : Int64) (ty : Ty) : Draft := ⟨.constInt r n ty, some ty⟩

def undef (r : ValueId) (ty : Ty) : Draft := ⟨.undef r ty, some ty⟩

def binary (r : ValueId) (op : BinaryOp) (lhs rhs : ValueId) (ty : Ty) : Draft :=
  ⟨.binary r op lhs rhs ty, some ty⟩

def cast (r : ValueId) (op : CastOp) (v : ValueId) (ty : Ty) : Draft :=
  ⟨.cast r op v ty, some ty⟩

def alloca (r : ValueId) (ty : Ty) (name : Option String) : Draft :=
  ⟨.alloca r ty name, some (.pointer ty)⟩

/-- An address inside an aggregate, without a step out of it. -/
def gep (r base : ValueId) (indices : List ValueId) (ty : Ty) : Draft :=
  ⟨.gep r base indices true ty, some ty⟩

def load (r ptr : ValueId) (ty : Ty) : Draft := ⟨.load r ptr ty, some ty⟩

def store (value ptr : ValueId) : Draft := ⟨.store ptr value, none⟩

def call (r : Option ValueId) (callee : String) (args : List ValueId) (ty : Option Ty) : Draft :=
  ⟨.call r callee args ty, ty⟩

end Draft

def handles (start count : Nat) : List InstrId := (List.range' start count).map InstrId.mk

namespace Function

/-- Puts an instruction into the arena, and records its result if a type is given for it. -/
def allocate (f : Function) (d : Draft) : Function :=
  match d.instr.result?, d.ty with
  | some r, some t =>
    let i := f.nextHandle
    { f with
      arena := f.arena.push (some d.instr)
      defs := f.defs.insert r (.result i)
      types := f.types.insert r t }
  | _, _ => { f with arena := f.arena.push (some d.instr) }

def editBody (f : Function) (b : BlockId) (g : List InstrId → List InstrId) : Function :=
  { f with blocks := f.blocks.modify b.index fun blk => { blk with body := g blk.body } }

/-- Places instructions, in order, before the instruction at index `k` of a block. -/
def splice (f : Function) (b : BlockId) (k : Nat) (ds : List Draft) : Function :=
  let hs := handles f.arena.size ds.length
  (ds.foldl allocate f).editBody b fun is => is.take k ++ hs ++ is.drop k

def reserve (f : Function) (n : Nat) : Function := { f with nextValue := f.nextValue + n }

def forget (f : Function) (v : Option ValueId) : Function :=
  match v with
  | some v => { f with defs := f.defs.erase v, types := f.types.erase v }
  | none => f

/-- Erases an instruction that stands in a block, together with the records of its result. -/
def erase (f : Function) (i : InstrId) : Option (Instr × Function) :=
  match f.instr? i, f.position? i with
  | some ins, some (b, k) =>
    let g := f.editBody b fun is => is.eraseIdx k
    some (ins, { g with arena := g.arena.setIfInBounds i.index none }.forget ins.result?)
  | _, _ => none

theorem arena_allocate (f : Function) (d : Draft) :
    (f.allocate d).arena = f.arena.push (some d.instr) := by
  unfold allocate
  split <;> rfl

theorem blocks_allocate (f : Function) (d : Draft) : (f.allocate d).blocks = f.blocks := by
  unfold allocate
  split <;> rfl

theorem arena_foldl_allocate (f : Function) (ds : List Draft) :
    (ds.foldl allocate f).arena = f.arena ++ (ds.map fun d => some d.instr).toArray := by
  induction ds generalizing f with
  | nil => simp
  | cons d ds ih =>
    rw [List.foldl_cons, ih, arena_allocate]
    apply Array.toList_inj.mp
    simp

theorem blocks_foldl_allocate (f : Function) (ds : List Draft) :
    (ds.foldl allocate f).blocks = f.blocks := by
  induction ds generalizing f with
  | nil => rfl
  | cons d ds ih => rw [List.foldl_cons, ih, blocks_allocate]

theorem arena_splice (f : Function) (b : BlockId) (k : Nat) (ds : List Draft) :
    (f.splice b k ds).arena = f.arena ++ (ds.map fun d => some d.instr).toArray :=
  arena_foldl_allocate f ds

theorem blocks_splice (f : Function) (b : BlockId) (k : Nat) (ds : List Draft) :
    (f.splice b k ds).blocks = f.blocks.modify b.index fun blk =>
      { blk with body :=
          blk.body.take k ++ handles f.arena.size ds.length ++ blk.body.drop k } := by
  rw [splice, editBody, blocks_foldl_allocate]

theorem instr?_splice_of_some {f : Function} {i : InstrId} {ins : Instr}
    (h : f.instr? i = some ins) (b : BlockId) (k : Nat) (ds : List Draft) :
    (f.splice b k ds).instr? i = some ins := by
  rw [instr?, Option.join_eq_some_iff] at h ⊢
  rw [arena_splice, Array.getElem?_append_left, h]
  exact (Array.getElem?_eq_some_iff.mp h).1

end Function

inductive Reply where
  | done
  | value (v : ValueId)
  | instr (i : InstrId)
  | block (b : BlockId)
  | flag (b : Bool)

end ShaderIR
