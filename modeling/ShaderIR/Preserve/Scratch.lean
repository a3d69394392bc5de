import ShaderIR.Preserve.Target
import ShaderIR.Function.Edit

/-!
# Scratch slots

Every written element gets a slot on the stack: a scalar for an element with a single
component, and otherwise an array that holds the rows one after another. This module gives
the code that addresses a slot and the code that stores to it. Code is a list of
instructions to be placed, together with the next fresh value after it.
-/

set_option autoImplicit false

namespace ShaderIR

/-- Code that computes a value. -/
structure Computed where
  code : List Draft
  value : ValueId
  next : Nat

/-- Code without a value; where it could not be completed, it says why. -/
structure Lowered where
  code : List Draft
  next : Nat
  fault : Option PassError

/-- A written element and the pointer to its slot. -/
structure Scratch where
  target : Target
  slot : ValueId

namespace Scratch

def element (s : Scratch) : Element := s.target.element

def ty (s : Scratch) : Ty := s.element.component.ty

def slotTy (s : Scratch) : Ty :=
  if s.element.isSingle then s.ty else .array s.ty (s.element.rows * s.element.cols)

/-- The slots of some targets; their pointers are consecutive fresh values. -/
def allot (next : Nat) : List Target → List Scratch
  | [] => []
  | t :: ts => ⟨t, ⟨next⟩⟩ :: allot (next + 1) ts

theorem map_target_allot (next : Nat) (ts : List Target) :
    (allot next ts).map Scratch.target = ts := by
  induction ts generalizing next with
  | nil => rfl
  | cons t ts ih => simp [allot, ih]

theorem getElem?_allot (next i : Nat) (ts : List Target) :
    (allot next ts)[i]? = ts[i]?.map fun t => ⟨t, ⟨next + i⟩⟩ := by
  induction ts generalizing next i with
  | nil => rfl
  | cons t ts ih =>
    cases i with
    | zero => rfl
    | succ i => simp [allot, ih, Nat.add_assoc, Nat.add_comm 1 i]

def alloca (s : Scratch) : Draft := .alloca s.slot s.slotTy (some s.element.name)

/-- A column of any integer width as an `i32`. -/
def toI32 (v : ValueId) (width next : Nat) : Computed :=
  if 32 < width then ⟨[.cast ⟨next⟩ .trunc v .i32], ⟨next⟩, next + 1⟩
  else if width < 32 then ⟨[.cast ⟨next⟩ .zext v .i32], ⟨next⟩, next + 1⟩
  else ⟨[], v, next⟩

/-- The index of the first component of a row. -/
def rowOffset (s : Scratch) (row : ValueId) (next : Nat) : Computed :=
  ⟨[.constInt ⟨next⟩ (Int64.ofNat s.element.cols) .i32, .binary ⟨next + 1⟩ .mul row ⟨next⟩ .i32],
    ⟨next + 1⟩, next + 2⟩

/-- The address of a component; the column has an integer type of the given width. -/
def address (s : Scratch) (row column : ValueId) (width next : Nat) : Computed :=
  if s.element.isSingle then ⟨[], s.slot, next⟩
  else
    let offset := s.rowOffset row next
    let column := toI32 column width offset.next
    let index : ValueId := ⟨column.next⟩
    let zero : ValueId := ⟨column.next + 1⟩
    let ptr : ValueId := ⟨column.next + 2⟩
    ⟨offset.code ++ column.code ++
      [.binary index .add offset.value column.value .i32, .constInt zero 0 .i32,
        .gep ptr s.slot [zero, index] (.pointer s.ty)],
      ptr, column.next + 3⟩

/-- The type of a column once the offset of its row has been computed: that code may have
defined the very value which the store names. -/
def columnTy? (f : Function) (column : ValueId) (next : Nat) : Option Ty :=
  if column.index = next ∨ column.index = next + 1 then some .i32 else f.typeOf? column

/-- The code that stores to the slot what an output store writes. The row must be an `i32`,
and the column an integer, which is only found out after the offset of the row. -/
def lowerStore (s : Scratch) (f : Function) (o : OutputStore) : Lowered :=
  let next := f.nextValue
  if s.element.isSingle then ⟨[.store o.value s.slot], next, none⟩
  else match (f.typeOf? o.row).bind Ty.intWidth? with
    | none =>
      ⟨[], next, some (.unsupportedShader f.name (.rowNotInteger o.row s.element.name))⟩
    | some width =>
      if width = 32 then
        match (columnTy? f o.column next).bind Ty.intWidth? with
        | none =>
          let offset := s.rowOffset o.row next
          ⟨offset.code, offset.next,
            some (.unsupportedShader f.name (.columnNotInteger o.column s.element.name))⟩
        | some columnWidth =>
          let a := s.address o.row o.column columnWidth next
          ⟨a.code ++ [.store o.value a.value], a.next, none⟩
      else ⟨[], next, some (.indexWidthMismatch f.name width)⟩

end Scratch

/-- Places code, and sets its fresh values aside. -/
def Function.emit (f : Function) (b : BlockId) (k : Nat) (code : List Draft) (next : Nat) :
    Function :=
  { f with nextValue := next }.splice b k code

/-- Puts the lowered form of every output store in front of it. -/
def lowerStores (slots : List Scratch) :
    List OutputStore → Function → Function × Option PassError
  | [], f => (f, none)
  | o :: rest, f =>
    match slots.find? fun s => s.target.id == o.id with
    | none => (f, some (.missingOutputElement f.name o.id))
    | some s =>
      match f.position? o.call with
      | none => (f, some (.internal f.name (.store o.call)))
      | some (b, k) =>
        let l := s.lowerStore f o
        let f := f.emit b k l.code l.next
        match l.fault with
        | some e => (f, some e)
        | none => lowerStores slots rest f

end ShaderIR
