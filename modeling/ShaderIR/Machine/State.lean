import ShaderIR.Machine.Error
import ShaderIR.Violation

/-!
# The state of a run

The values bound so far, the slots of the stack, and the output stores executed so far.
A slot is a row of cells, and a cell that was never written is undefined.
-/

set_option autoImplicit false

namespace ShaderIR

/-- Why a run ends without a return. -/
abbrev Stop : Type := Failure RunError

structure Machine where
  values : ValueMap Value
  slots : Array (Array Value)
  outputs : Array OutputRecord

namespace Machine

def initial : Machine := ⟨∅, #[], #[]⟩

def get (m : Machine) (v : ValueId) : Except Stop Value :=
  match m.values[v]? with
  | some x => .ok x
  | none => .error (.error (.undefinedValue v))

def getAll (m : Machine) : List ValueId → Except Stop (List Value)
  | [] => .ok []
  | v :: vs => do
    let x ← m.get v
    let xs ← m.getAll vs
    .ok (x :: xs)

def int (m : Machine) (v : ValueId) : Except Stop Int64 := do
  match ← m.get v with
  | .int n => .ok n
  | x => .error (.error (.typeError (.notInteger v x)))

def pointer (m : Machine) (v : ValueId) : Except Stop (Nat × Nat) := do
  match ← m.get v with
  | .pointer slot offset => .ok (slot, offset)
  | x => .error (.error (.invalidPointer (.notPointer v x)))

def cell? (m : Machine) (slot offset : Nat) : Option Value :=
  m.slots[slot]?.bind fun cells => cells[offset]?

def cell (m : Machine) (slot offset : Nat) : Except Stop Value :=
  match m.cell? slot offset with
  | some x => .ok x
  | none => .error (.error (.invalidPointer (.outOfBounds slot offset)))

def bind (m : Machine) (v : ValueId) (x : Value) : Machine :=
  { m with values := m.values.insert v x }

def bindAll (m : Machine) : List (ValueId × Value) → Machine
  | [] => m
  | (v, x) :: rest => (m.bind v x).bindAll rest

/-- A new slot of undefined cells, bound as a pointer to its first cell. -/
def allocate (m : Machine) (v : ValueId) (cells : Nat) : Machine :=
  let slot := m.slots.size
  { m with slots := m.slots.push (Array.replicate cells .undef) }.bind v (.pointer slot 0)

def write (m : Machine) (slot offset : Nat) (x : Value) : Machine :=
  { m with slots := m.slots.modify slot fun cells => cells.setIfInBounds offset x }

def record (m : Machine) (r : OutputRecord) : Machine :=
  { m with outputs := m.outputs.push r }

theorem cell?_write (m : Machine) (slot offset s o : Nat) (x : Value) :
    (m.write slot offset x).cell? s o =
      if s = slot ∧ o = offset then (m.cell? slot offset).map fun _ => x else m.cell? s o := by
  simp only [cell?, write, Array.getElem?_modify]
  by_cases hs : slot = s
  · subst hs
    by_cases ho : offset = o
    · subst ho
      cases h : m.slots[slot]? with
      | none => simp
      | some cells =>
        by_cases hb : offset < cells.size <;> simp [hb]
    · cases h : m.slots[slot]? <;> simp [ho, Ne.symm ho]
  · simp [hs, Ne.symm hs]

end Machine

end ShaderIR
