import Mathlib.Data.List.Induction
import ShaderIR.Machine.Execution

/-!
# What an execution wrote

The tables of an execution, looked up cell by cell. A cell is in a table exactly if it was
written. A place is a cell whatever its opcode: what was stored last to a place is in the table
if all stores to its element had one opcode.
-/

set_option autoImplicit false

namespace ShaderIR

theorem OpCode.value_injective {a b : OpCode} (h : a.value = b.value) : a = b := by
  cases a <;> cases b <;> simp_all [OpCode.value]

instance : Std.LawfulEqOrd OutputCell where
  eq_of_compare {a b} h := by
    obtain ⟨h₁, h⟩ := compareLex_eq_eq.mp h
    obtain ⟨h₂, h⟩ := compareLex_eq_eq.mp h
    obtain ⟨h₃, h₄⟩ := compareLex_eq_eq.mp h
    have hop := OpCode.value_injective (Std.LawfulEqCmp.eq_of_compare h₁)
    have hrow := Int64.toInt.inj (Std.LawfulEqCmp.eq_of_compare h₃)
    have hcolumn := Int64.toInt.inj (Std.LawfulEqCmp.eq_of_compare h₄)
    obtain ⟨op, id, row, column⟩ := a
    obtain ⟨op', id', row', column'⟩ := b
    cases hop
    cases hrow
    cases hcolumn
    cases (Std.LawfulEqCmp.eq_of_compare h₂ : id = id')
    rfl

/-- The component of an element that a cell stands for. -/
def OutputCell.place (c : OutputCell) : Nat × Int64 × Int64 := (c.id, c.row, c.column)

namespace Execution

variable (os : List OutputRecord) (xs : List Value)

theorem finalWrites_append (r : OutputRecord) :
    finalWrites ⟨os ++ [r], xs⟩ = (finalWrites ⟨os, xs⟩).insert r.cell r.value := by
  simp [finalWrites]

theorem getElem?_finalWrites_append (r : OutputRecord) (c : OutputCell) :
    (finalWrites ⟨os ++ [r], xs⟩)[c]? =
      if r.cell = c then some r.value else (finalWrites ⟨os, xs⟩)[c]? := by
  rw [finalWrites_append, Std.TreeMap.getElem?_insert]
  simp

/-- The last value written to a cell; what was never written is undefined. -/
def lastWritten (e : Execution) (c : OutputCell) : Value := (e.finalWrites[c]?).getD .undef

theorem lastWritten_append (r : OutputRecord) (c : OutputCell) :
    lastWritten ⟨os ++ [r], xs⟩ c = if r.cell = c then r.value else lastWritten ⟨os, xs⟩ c := by
  rw [lastWritten, getElem?_finalWrites_append]
  split <;> rfl

/-- The last value stored to a place by any operation. -/
def lastStored (e : Execution) (place : Nat × Int64 × Int64) : Value :=
  e.outputs.foldl (fun x r => if r.cell.place = place then r.value else x) .undef

theorem lastStored_append (r : OutputRecord) (place : Nat × Int64 × Int64) :
    lastStored ⟨os ++ [r], xs⟩ place =
      if r.cell.place = place then r.value else lastStored ⟨os, xs⟩ place := by
  rw [lastStored, List.foldl_append]
  rfl

theorem lastStored_eq_lastWritten {c : OutputCell}
    (h : ∀ r ∈ os, r.id = c.id → r.opcode = c.opcode) :
    lastStored ⟨os, xs⟩ c.place = lastWritten ⟨os, xs⟩ c := by
  induction os using List.reverseRecOn with
  | nil => rfl
  | append_singleton os r ih =>
    obtain ⟨hos, hr⟩ := List.forall_mem_append.mp h
    have hplace : r.cell.place = c.place ↔ r.cell = c := by
      constructor
      · intro heq
        obtain ⟨hid, hindices⟩ := Prod.mk.inj heq
        obtain ⟨hrow, hcolumn⟩ := Prod.mk.inj hindices
        have hop := hr r (List.mem_singleton.mpr rfl) hid
        obtain ⟨op, id, row, column, x⟩ := r
        cases hop
        cases hid
        cases hrow
        cases hcolumn
        rfl
      · rintro rfl
        rfl
    rw [lastStored_append, lastWritten_append, ih hos]
    by_cases heq : r.cell = c
    · rw [if_pos heq, if_pos (hplace.mpr heq)]
    · rw [if_neg heq, if_neg (mt hplace.mp heq)]

theorem writeCounts_append (r : OutputRecord) :
    writeCounts ⟨os ++ [r], xs⟩ =
      (writeCounts ⟨os, xs⟩).insert r.cell (((writeCounts ⟨os, xs⟩)[r.cell]?).getD 0 + 1) := by
  simp [writeCounts]

theorem getElem?_writeCounts (c : OutputCell) :
    (writeCounts ⟨os, xs⟩)[c]? =
      if c ∈ os.map OutputRecord.cell then some ((os.map OutputRecord.cell).count c) else none := by
  induction os using List.reverseRecOn with
  | nil => simp [writeCounts]
  | append_singleton os r ih =>
    have hcells : (os ++ [r]).map OutputRecord.cell = os.map OutputRecord.cell ++ [r.cell] := by
      simp
    rw [writeCounts_append, Std.TreeMap.getElem?_insert, hcells]
    by_cases hr : r.cell = c
    · subst hr
      by_cases hmem : r.cell ∈ os.map OutputRecord.cell
      · rw [ih, if_pos hmem]
        simp
      · rw [ih, if_neg hmem]
        simp [List.count_eq_zero.mpr hmem]
    · rw [ih]
      simp [hr, Ne.symm hr]

end Execution

end ShaderIR
