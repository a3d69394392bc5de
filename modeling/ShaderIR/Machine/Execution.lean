import Std.Data.TreeMap.Lemmas
import ShaderIR.Machine.Value

/-!
# Executions

What a finished run shows: its output stores in order, and the values that it returned.
A component of an output is a cell, and cells are ordered by opcode, signature element,
row and column.
-/

set_option autoImplicit false

namespace ShaderIR

structure OutputCell where
  opcode : OpCode
  id : Nat
  row : Int64
  column : Int64
deriving DecidableEq

namespace OutputCell

def order : OutputCell → OutputCell → Ordering :=
  compareLex (compareOn fun c => c.opcode.value)
    (compareLex (compareOn OutputCell.id)
      (compareLex (compareOn fun c => c.row.toInt) (compareOn fun c => c.column.toInt)))

instance : Ord OutputCell := ⟨order⟩

instance : Std.TransOrd OutputCell := inferInstanceAs (Std.TransCmp (compareLex _ _))

end OutputCell

def OutputRecord.cell (r : OutputRecord) : OutputCell := ⟨r.opcode, r.id, r.row, r.column⟩

structure Execution where
  outputs : List OutputRecord
  returned : List Value

namespace Execution

/-- The last value written to each cell. -/
def finalWrites (e : Execution) : Std.TreeMap OutputCell Value :=
  e.outputs.foldl (fun t r => t.insert r.cell r.value) ∅

/-- How often each cell was written. -/
def writeCounts (e : Execution) : Std.TreeMap OutputCell Nat :=
  e.outputs.foldl (fun t r => t.insert r.cell ((t[r.cell]?).getD 0 + 1)) ∅

end Execution

end ShaderIR
