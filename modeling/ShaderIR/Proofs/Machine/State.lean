import ShaderIR.Machine.Effect
import ShaderIR.Proofs.Outcome

/-!
# Reading the state of a run

When a state answers a question, and what its changes leave alone.
-/

set_option autoImplicit false

namespace ShaderIR.Machine

variable {m : Machine}

theorem get_eq_ok {v : ValueId} {x : Value} : m.get v = .ok x ↔ m.values[v]? = some x := by
  unfold get
  cases m.values[v]? <;> simp

theorem int_eq_ok {v : ValueId} {n : Int64} : m.int v = .ok n ↔ m.values[v]? = some (.int n) := by
  unfold int
  rw [bind_eq_ok]
  constructor
  · rintro ⟨x, hx, h⟩
    split at h
    · cases h
      exact get_eq_ok.mp hx
    · cases h
  · intro h
    exact ⟨_, get_eq_ok.mpr h, rfl⟩

theorem pointer_eq_ok {v : ValueId} {p : Nat × Nat} :
    m.pointer v = .ok p ↔ m.values[v]? = some (.pointer p.1 p.2) := by
  unfold pointer
  rw [bind_eq_ok]
  constructor
  · rintro ⟨x, hx, h⟩
    split at h
    · cases h
      exact get_eq_ok.mp hx
    · cases h
  · intro h
    exact ⟨_, get_eq_ok.mpr h, rfl⟩

theorem cell_eq_ok {slot offset : Nat} {x : Value} :
    m.cell slot offset = .ok x ↔ m.cell? slot offset = some x := by
  unfold cell
  cases m.cell? slot offset <;> simp

theorem lift_eq_ok {α : Type} {x : Except RunError α} {a : α} : lift x = .ok a ↔ x = .ok a := by
  cases x <;> simp [lift]

@[simp] theorem values_bind (v w : ValueId) (x : Value) :
    (m.bind v x).values[w]? = if v = w then some x else m.values[w]? :=
  ValueMap.getElem?_insert_eq m.values v w x

@[simp] theorem slots_bind (v : ValueId) (x : Value) : (m.bind v x).slots = m.slots := rfl

@[simp] theorem outputs_bind (v : ValueId) (x : Value) : (m.bind v x).outputs = m.outputs := rfl

@[simp] theorem values_write (slot offset : Nat) (x : Value) :
    (m.write slot offset x).values = m.values := rfl

@[simp] theorem outputs_write (slot offset : Nat) (x : Value) :
    (m.write slot offset x).outputs = m.outputs := rfl

@[simp] theorem values_allocate (v w : ValueId) (cells : Nat) :
    (m.allocate v cells).values[w]? =
      if v = w then some (.pointer m.slots.size 0) else m.values[w]? :=
  ValueMap.getElem?_insert_eq m.values v w _

@[simp] theorem slots_allocate (v : ValueId) (cells : Nat) :
    (m.allocate v cells).slots = m.slots.push (Array.replicate cells .undef) := rfl

@[simp] theorem outputs_allocate (v : ValueId) (cells : Nat) :
    (m.allocate v cells).outputs = m.outputs := rfl

@[simp] theorem values_record (r : OutputRecord) : (m.record r).values = m.values := rfl

@[simp] theorem slots_record (r : OutputRecord) : (m.record r).slots = m.slots := rfl

@[simp] theorem outputs_record (r : OutputRecord) : (m.record r).outputs = m.outputs.push r := rfl

theorem cell?_congr {m u : Machine} (h : u.slots = m.slots) (slot offset : Nat) :
    u.cell? slot offset = m.cell? slot offset := by
  rw [cell?, cell?, h]

theorem slots_bindAll (m : Machine) (bs : List (ValueId × Value)) :
    (m.bindAll bs).slots = m.slots := by
  induction bs generalizing m with
  | nil => rfl
  | cons b bs ih => exact ih (m.bind b.1 b.2)

theorem outputs_bindAll (m : Machine) (bs : List (ValueId × Value)) :
    (m.bindAll bs).outputs = m.outputs := by
  induction bs generalizing m with
  | nil => rfl
  | cons b bs ih => exact ih (m.bind b.1 b.2)

theorem values_bindAll (m : Machine) (bs : List (ValueId × Value)) (v : ValueId) :
    (m.bindAll bs).values[v]? = m.values[v]? ∧ v ∉ bs.map Prod.fst ∨
      ∃ x, (v, x) ∈ bs ∧ (m.bindAll bs).values[v]? = some x := by
  induction bs generalizing m with
  | nil => exact Or.inl ⟨rfl, List.not_mem_nil⟩
  | cons b bs ih =>
    obtain ⟨w, x⟩ := b
    rcases ih (m.bind w x) with ⟨h, hnot⟩ | ⟨y, hy, h⟩
    · rw [values_bind] at h
      by_cases hw : w = v
      · subst hw
        exact Or.inr ⟨x, List.mem_cons_self, by rw [bindAll, h, if_pos rfl]⟩
      · refine Or.inl ⟨by rw [bindAll, h, if_neg hw], ?_⟩
        simp only [List.map_cons, List.mem_cons, not_or]
        exact ⟨Ne.symm hw, hnot⟩
    · exact Or.inr ⟨y, List.mem_cons_of_mem _ hy, h⟩

theorem call_eq_ok {callee : String} {args : List ValueId} {e : Effect} :
    m.call callee args = .ok e ↔ ∃ v n op r, isIntrinsicName callee = true ∧
      args.head? = some v ∧ m.values[v]? = some (.int n) ∧ OpCode.ofValue? n = some op ∧
      m.outputRecord op args = .ok r ∧ e = .record r := by
  unfold call
  rw [bind_eq_ok]
  constructor
  · rintro ⟨op?, hop, h⟩
    cases op? with
    | none => cases h
    | some op =>
      obtain ⟨r, hr, h⟩ := bind_eq_ok.mp h
      cases h
      unfold callOpcode? at hop
      split at hop
      · next v _ hname =>
        obtain ⟨n, hn, hop⟩ := bind_eq_ok.mp hop
        exact ⟨v, n, op, r, hname, rfl, int_eq_ok.mp hn, Except.ok.inj hop, hr, rfl⟩
      · cases hop
  · rintro ⟨v, n, op, r, hname, hv, hn, hop, hr, rfl⟩
    obtain ⟨rest, rfl⟩ := List.head?_eq_some_iff.mp hv
    refine ⟨some op, ?_, bind_eq_ok.mpr ⟨r, hr, rfl⟩⟩
    simp only [callOpcode?, hname]
    exact bind_eq_ok.mpr ⟨n, int_eq_ok.mpr hn, congrArg Except.ok hop⟩

theorem outputRecord_eq_ok {op : OpCode} {args : List ValueId} {r : OutputRecord} :
    m.outputRecord op args = .ok r ↔ ∃ v id row column value rest n,
      args = v :: id :: row :: column :: value :: rest ∧
      m.values[id]? = some (.int n) ∧ elementId? n = some r.id ∧ r.opcode = op ∧
      m.values[row]? = some (.int r.row) ∧ m.values[column]? = some (.int r.column) ∧
      m.values[value]? = some r.value := by
  constructor
  · intro h
    unfold outputRecord at h
    split at h
    · obtain ⟨n, hn, h⟩ := bind_eq_ok.mp h
      split at h
      · cases h
      · next k hk =>
        obtain ⟨i, hi, h⟩ := bind_eq_ok.mp h
        obtain ⟨j, hj, h⟩ := bind_eq_ok.mp h
        obtain ⟨x, hx, h⟩ := bind_eq_ok.mp h
        cases h
        exact ⟨_, _, _, _, _, _, n, rfl, int_eq_ok.mp hn, hk, rfl, int_eq_ok.mp hi,
          int_eq_ok.mp hj, get_eq_ok.mp hx⟩
    · cases h
  · rintro ⟨v, id, row, column, value, rest, n, rfl, hn, hk, rfl, hi, hj, hx⟩
    refine bind_eq_ok.mpr ⟨n, int_eq_ok.mpr hn, ?_⟩
    simp only [hk]
    exact bind_eq_ok.mpr ⟨r.row, int_eq_ok.mpr hi, bind_eq_ok.mpr ⟨r.column, int_eq_ok.mpr hj,
      bind_eq_ok.mpr ⟨r.value, get_eq_ok.mpr hx, rfl⟩⟩⟩

end ShaderIR.Machine
