import ShaderIR.Proofs.Machine.Origin
import ShaderIR.Proofs.Machine.Outputs
import ShaderIR.Proofs.Machine.Shift
import ShaderIR.Proofs.Preserve.Execution
import ShaderIR.Proofs.Preserve.Redirected

/-!
# Runs of a function and of its redirection

The two runs are compared state by state. The slots of the written elements come first in the
redirected run. Every cell of these slots holds what the other run has stored to the output
last, and nothing is stored to an output before the return.
-/

set_option autoImplicit false

namespace ShaderIR

/-- The component that a record stores to is one of an element. -/
def OutputRecord.Within (r : OutputRecord) (e : Element) : Prop :=
  0 ≤ r.row.toInt ∧ r.row.toInt < e.rows ∧ 0 ≤ r.column.toInt ∧ r.column.toInt < e.cols

theorem OutputRecord.Within.exists_position {r : OutputRecord} {e : Element} (h : r.Within e) :
    ∃ p ∈ e.positions, Int64.ofNat p.1 = r.row ∧ Int64.ofNat p.2 = r.column := by
  obtain ⟨hr0, hr1, hc0, hc1⟩ := h
  exact Element.Has.exists_position ⟨⟨hr0, hr1⟩, hc0, hc1⟩

/-- What is executed as an output store is one, and stores what its operands are bound to. -/
theorem OutputStore.Reads.effect {f : Function} (hc : f.Consistent) (hf : f.Valid)
    {p : InstrId × Instr} {o : OutputStore} (hr : Reads f p o)
    (hfixed : ∀ v ∈ p.2.operands.take 2, ∃ n, f.Fixed v n) {s : Machine} (hs : s.Sourced f)
    {e : Effect} (he : s.effect f p.2 = .ok e) :
    ∃ n c x, e = .record ⟨o.opcode, o.id, n, c, x⟩ ∧ s.values[o.row]? = some (.int n) ∧
      s.values[o.column]? = some (.int c) ∧ s.values[o.value]? = some x := by
  obtain ⟨opv, idv, k, rest, hops, hk, hid⟩ := hr.operands
  cases hins : p.2 with
  | call r callee args ty =>
    rw [hins] at he hops hfixed
    have hargs : args = opv :: idv :: o.row :: o.column :: o.value :: rest := hops
    subst hargs
    obtain ⟨v, n, op, record, hname, hv, hn, hop, hrecord, rfl⟩ := Machine.call_eq_ok.mp he
    cases hv
    obtain ⟨v', id', row', column', value', rest', n', hsame, hn', hid', hop', hrow, hcolumn,
      hvalue⟩ := Machine.outputRecord_eq_ok.mp hrecord
    cases hsame
    obtain ⟨a, ha⟩ := hfixed opv (by simp [Instr.operands])
    obtain ⟨b, hb⟩ := hfixed idv (by simp [Instr.operands])
    cases (hs _ _ hn).eq_of_fixed hc hf ha
    cases (hs _ _ hn').eq_of_fixed hc hf hb
    cases hb.constInt?.symm.trans hk
    have hopcode := hr.opcode
    rw [hins, OutputStore.storeOpcode?_call hname rfl ha.constInt?, hop] at hopcode
    obtain ⟨recordOp, recordId, row, column, value⟩ := record
    cases hopcode
    cases hop'
    cases hid.symm.trans hid'
    exact ⟨row, column, value, rfl, hrow, hcolumn, hvalue⟩
  | _ =>
    have hopcode := hr.opcode
    rw [hins, OutputStore.storeOpcode?_of_callee?_none rfl] at hopcode
    cases hopcode

theorem OutputStore.callee?_eq_none_of_effect {f : Function} (hc : f.Consistent) (hf : f.Valid)
    {ins : Instr} (hop : f.storeOpcode? ins = none)
    (hfixed : ins.callsIntrinsic = true → ∀ v ∈ ins.operands.take 2, ∃ n, f.Fixed v n)
    {s : Machine} (hs : s.Sourced f) {e : Effect} (he : s.effect f ins = .ok e) :
    ins.callee? = none := by
  cases ins with
  | call r callee args ty =>
    obtain ⟨v, n, op, record, hname, hv, hn, hop', -, rfl⟩ := Machine.call_eq_ok.mp he
    obtain ⟨rest, rfl⟩ := List.head?_eq_some_iff.mp hv
    obtain ⟨a, ha⟩ := hfixed hname v (by simp [Instr.operands])
    cases (hs _ _ hn).eq_of_fixed hc hf ha
    rw [OutputStore.storeOpcode?_call hname hv ha.constInt?, hop'] at hop
    cases hop
  | _ => rfl

namespace Preserve

/-- The state `s` of a run, and the state `u` of the redirected run at the same place. -/
structure Simulates (f : Function) (slots : List Scratch) (s u : Machine) : Prop where
  shifted : Machine.Shifted slots.length f.nextValue s u
  pointers : ∀ (i : Nat) (t : Scratch), slots[i]? = some t → u.values[t.slot]? = some (.pointer i 0)
  cells : ∀ (i : Nat) (t : Scratch), slots[i]? = some t → ∀ p ∈ t.element.positions,
    u.cell? i (t.index p) =
      some ((Execution.lastStored ⟨s.outputs.toList, []⟩ (t.target.cell p).place).shift
        slots.length)
  outputs : u.outputs = #[]

namespace Redirected

variable {f : Function} {m : Metadata} {stores : List OutputStore} {ts : List Target}
  {before : InstrId → List (InstrId × Instr)} {w g : Function}
  (h : Redirected f m stores ts before w g)
include h

theorem size_lt {t : Scratch} (ht : t ∈ Scratch.allot f.nextValue ts) :
    t.element.rows * t.element.cols < idLimit :=
  Scratch.size_lt_of_fits (h.fits _ (Scratch.target_mem_of_mem_allot ht))

omit h in
theorem slot_index {t : Scratch} (ht : t ∈ Scratch.allot f.nextValue ts) :
    f.nextValue ≤ t.slot.index ∧ t.slot.index < f.nextValue + ts.length := by
  have hmem : t.slot ∈ results ((Scratch.allot f.nextValue ts).map Scratch.alloca) := by
    rw [Scratch.results_alloca]
    exact List.mem_map_of_mem ht
  exact (Scratch.fresh_alloca f.nextValue ts).mem_iff.mp hmem

theorem place_eq_iff {i j : Nat} {t t' : Scratch} {p q : Nat × Nat}
    (ht : (Scratch.allot f.nextValue ts)[i]? = some t)
    (ht' : (Scratch.allot f.nextValue ts)[j]? = some t')
    (hp : p ∈ t.element.positions) (hq : q ∈ t'.element.positions) :
    (t.target.cell p).place = (t'.target.cell q).place ↔ j = i ∧ t'.index q = t.index p := by
  constructor
  · intro heq
    have hids : (ts.map Target.id).Nodup :=
      List.pairwise_map.mpr ((Target.pairwise_collect List.Pairwise.nil h.targets).imp Nat.ne_of_lt)
    rw [← Scratch.map_target_allot f.nextValue ts, List.map_map] at hids
    have hlt : j < ((Scratch.allot f.nextValue ts).map (Target.id ∘ Scratch.target)).length := by
      rw [List.length_map]
      exact (List.getElem?_eq_some_iff.mp ht').1
    obtain ⟨hid, hindices⟩ := Prod.mk.inj heq
    obtain ⟨hrow, hcolumn⟩ := Prod.mk.inj hindices
    have hij : j = i := by
      apply (List.getElem?_inj hlt hids).mp
      rw [List.getElem?_map, List.getElem?_map, ht, ht', Option.map_some, Option.map_some]
      exact congrArg some hid.symm
    subst hij
    cases ht.symm.trans ht'
    have hsize := h.size_lt (List.mem_of_getElem? ht)
    obtain ⟨hr, hc, -⟩ := Scratch.lt_of_mem_positions hp hsize
    obtain ⟨hr', hc', -⟩ := Scratch.lt_of_mem_positions hq hsize
    refine ⟨rfl, ?_⟩
    rw [Scratch.index, Scratch.index, Int64.ofNat_injOn hr hr' hrow,
      Int64.ofNat_injOn hc hc' hcolumn]
  · rintro ⟨rfl, hindex⟩
    cases ht.symm.trans ht'
    rw [Scratch.index_inj hq hp hindex]

theorem typeOf?_of_origin (hf : f.Valid) {v : ValueId} {x : Value} (ho : Origin f v x) :
    g.typeOf? v = f.typeOf? v := by
  apply h.typeOf?_old (ho.index_lt h.numbered)
  intro p hp o hr hv
  have hop := hr.opcode
  rw [OutputStore.storeOpcode?_of_callee?_none (ho.callee?_eq_none hf hp hv)] at hop
  cases hop

theorem effect_shift (hf : f.Valid) {p : InstrId × Instr} (hp : p ∈ f.instrs) {s u : Machine}
    (hs : s.Sourced f) (hsim : Simulates f (Scratch.allot f.nextValue ts) s u) {e : Effect}
    (he : s.effect f p.2 = .ok e) :
    u.effect g p.2 = .ok (e.shift (Scratch.allot f.nextValue ts).length) :=
  hsim.shifted.effect (Function.paramIds_of_blocks h.blocks) (h.numbered.operand p hp)
    (fun v _ x hx => h.typeOf?_of_origin hf (hs v x hx)) he

theorem step (hf : f.Valid) {p : InstrId × Instr} (hp : p ∈ f.instrs) {s u : Machine}
    (hs : s.Sourced f) (hsim : Simulates f (Scratch.allot f.nextValue ts) s u)
    (hcall : p.2.callee? = none) {e : Effect} (he : s.effect f p.2 = .ok e) :
    u.effect g p.2 = .ok (e.shift (Scratch.allot f.nextValue ts).length) ∧
      Simulates f (Scratch.allot f.nextValue ts) (s.apply e)
        (u.apply (e.shift (Scratch.allot f.nextValue ts).length)) := by
  have heffect := h.effect_shift hf hp hs hsim he
  refine ⟨heffect, hsim.shifted.apply e, fun i t ht => ?_, fun i t ht q hq => ?_, ?_⟩
  · -- what the instruction binds has an origin in the function, the slots have none
    have hunbound : (s.apply e).values[t.slot]? = none := by
      cases hx : (s.apply e).values[t.slot]? with
      | none => rfl
      | some x =>
        have hlt := (hs.apply hp he _ x hx).index_lt h.numbered
        have hle := (slot_index (List.mem_of_getElem? ht)).1
        omega
    rw [Machine.Shifted.values_apply e hunbound]
    exact hsim.pointers i t ht
  · have hi : i < (Scratch.allot f.nextValue ts).length := (List.getElem?_eq_some_iff.mp ht).1
    rw [hsim.shifted.cell?_apply hi, Machine.outputs_apply_of_callee?_none he hcall]
    exact hsim.cells i t ht q hq
  · rw [Machine.outputs_apply_of_callee?_none heffect hcall]
    exact hsim.outputs

/-- What is stored to the slot of an element is what the cells of that slot stand for. -/
theorem simulates_write {s u v : Machine} (hsim : Simulates f (Scratch.allot f.nextValue ts) s u)
    {i : Nat} {t : Scratch} {p : Nat × Nat} (hi : (Scratch.allot f.nextValue ts)[i]? = some t)
    (hp : p ∈ t.element.positions) {r : OutputRecord}
    (hplace : r.cell.place = (t.target.cell p).place)
    (hvalues : ∀ x : ValueId, x.index < f.nextValue + ts.length → v.values[x]? = u.values[x]?)
    (hslots : v.slots = u.slots) (houtputs : v.outputs = u.outputs) :
    Simulates f (Scratch.allot f.nextValue ts) (s.record r) (v.write i (t.index p)
      (r.value.shift (Scratch.allot f.nextValue ts).length)) := by
  have hlt : i < (Scratch.allot f.nextValue ts).length := (List.getElem?_eq_some_iff.mp hi).1
  have hcells := Machine.cell?_congr hslots
  refine ⟨⟨fun x hx => ?_, fun j => ?_, ?_⟩, fun j t' ht' => ?_, fun j t' ht' q hq => ?_, ?_⟩
  · exact (hvalues x (by omega)).trans (hsim.shifted.values x hx)
  · rw [Machine.write, Array.getElem?_modify, if_neg (by omega), hslots]
    exact hsim.shifted.slots j
  · rw [Machine.write, Array.size_modify, hslots]
    exact hsim.shifted.size
  · obtain ⟨-, hlt'⟩ := slot_index (List.mem_of_getElem? ht')
    exact (hvalues _ hlt').trans (hsim.pointers j t' ht')
  · -- the cell that is written, and all others
    have hold := hsim.cells i t hi p hp
    have hother := hsim.cells j t' ht' q hq
    rw [Machine.cell?_write, hcells, hcells, hold, hother, Machine.outputs_record,
      Array.toList_push, Execution.lastStored_append, hplace]
    by_cases hsame : (t.target.cell p).place = (t'.target.cell q).place
    · rw [if_pos hsame, if_pos ((h.place_eq_iff hi ht' hp hq).mp hsame)]
      rfl
    · rw [if_neg hsame, if_neg fun heq => hsame ((h.place_eq_iff hi ht' hp hq).mpr heq)]
  · rw [Machine.outputs_write, houtputs]
    exact hsim.outputs

theorem step_storing {s u : Machine} (hsim : Simulates f (Scratch.allot f.nextValue ts) s u)
    (hf : f.Valid) (hs : s.Sourced f) {o : OutputStore} {t : Scratch} {width next : Nat}
    (ho : o ∈ stores) (ht : t ∈ Scratch.allot f.nextValue ts) (hid : t.target.id = o.id)
    (hindexed : t.Indexed f o width) (hnext : f.nextValue + ts.length ≤ next)
    (htyped : g.Typed (t.storing o width next)) {r : OutputRecord} (hrid : r.id = o.id)
    (hrow : s.values[o.row]? = some (.int r.row))
    (hcolumn : s.values[o.column]? = some (.int r.column))
    (hvalue : s.values[o.value]? = some r.value) (hrange : r.Within t.element) :
    ∃ u', g.line u ((t.storing o width next).map Draft.instr) = .ok u' ∧
      Simulates f (Scratch.allot f.nextValue ts) (s.record r) u' := by
  obtain ⟨hrowlt, hcollt, hvaluelt⟩ := OutputStore.index_lt h.read h.consistent h.numbered ho
  obtain ⟨p, hp, hn, hc⟩ := hrange.exists_position
  have hplace : r.cell.place = (t.target.cell p).place := by
    rw [OutputCell.place, OutputCell.place, OutputRecord.cell, Target.cell, hrid, hid, hn, hc]
  obtain ⟨i, hi⟩ := List.mem_iff_getElem?.mp ht
  have hslotlt := (slot_index ht).2
  have hrowTy : t.element.isSingle = true ∨ g.typeOf? o.row = some .i32 := by
    rcases hindexed with hs' | ⟨hty, -⟩
    · exact Or.inl hs'
    · rw [h.typeOf?_of_origin hf (hs _ _ hrow)]
      exact Or.inr hty
  rw [← hn] at hrow
  rw [← hc] at hcolumn
  -- the code computes the place of that component, and changes nothing on the way
  obtain ⟨u₁, hu₁⟩ := Scratch.yields_index (m := u) hp (h.size_lt ht)
    (htyped.mono fun d hd => List.mem_append_left _ hd) (hsim.pointers i t hi) (h.typeOf?_slot ht)
    ((hsim.shifted.values _ hrowlt).trans (by rw [hrow]; rfl)) hrowTy
    ((hsim.shifted.values _ hcollt).trans (by rw [hcolumn]; rfl))
    ⟨Nat.lt_of_lt_of_le hslotlt hnext, by omega, by omega⟩
  have hkeep : ∀ v : ValueId, v.index < next → u₁.values[v]? = u.values[v]? := fun v hv =>
    (t.fresh_address o.row o.column width next).values_line hu₁.line hv
  have hx : u₁.values[o.value]? = some (r.value.shift (Scratch.allot f.nextValue ts).length) := by
    rw [hkeep _ (by omega), hsim.shifted.values _ hvaluelt, hvalue]
    rfl
  have hold := (Machine.cell?_congr hu₁.slots _ _).trans (hsim.cells i t hi p hp)
  have hstore := Machine.effect_store (f := g) hu₁.value hx hold
  refine ⟨_, ?_, h.simulates_write hsim hi hp hplace
    (fun v hv => hkeep v (Nat.lt_of_lt_of_le hv hnext)) hu₁.slots
    (Scratch.outputs_of_address hu₁.line)⟩
  rw [Scratch.storing, List.map_append]
  exact Function.line_append_eq_ok.mpr ⟨u₁, hu₁.line,
    Function.line_cons_eq_ok.mpr ⟨_, hstore, rfl⟩⟩

theorem simulates_start {bs : List (ValueId × Value)} (hbs : ∀ b ∈ bs, b.2.isPointer = false) :
    ∃ u, g.line (Machine.initial.bindAll bs)
        (((Scratch.allot f.nextValue ts).map Scratch.alloca).map Draft.instr) = .ok u ∧
      Simulates f (Scratch.allot f.nextValue ts) (Machine.initial.bindAll bs) u := by
  have hlen := length_allot f.nextValue ts
  obtain ⟨u, hline, houtputs, hslots, hvalues⟩ := Scratch.line_alloca (f := g)
    (Machine.initial.bindAll bs) f.nextValue fun t ht => Scratch.size_lt_of_fits (h.fits t ht)
  have hnone : (Machine.initial.bindAll bs).slots = #[] := Machine.slots_bindAll _ _
  have hempty : (Machine.initial.bindAll bs).outputs = #[] := Machine.outputs_bindAll _ _
  rw [hnone, Array.empty_append] at hslots
  have hsize : u.slots.size = (Scratch.allot f.nextValue ts).length := by
    rw [hslots, List.size_toArray, List.length_map, hlen]
  refine ⟨u, hline, ⟨fun v hv => ?_, fun j => ?_, ?_⟩, fun i t ht => ?_, fun i t ht p hp => ?_, ?_⟩
  · rw [(Scratch.fresh_alloca f.nextValue ts).values_line hline hv]
    rcases Machine.values_bindAll Machine.initial bs v with ⟨hsame, -⟩ | ⟨x, hx, hbound⟩
    · rw [hsame]
      simp [Machine.initial]
    · rw [hbound, Option.map_some, Value.shift_eq_self _ (hbs _ hx)]
  · rw [hnone, Array.getElem?_eq_none (by omega), Array.getElem?_eq_none (Nat.zero_le j)]
    rfl
  · rw [hsize, hnone]
    rfl
  · have hpointer := hvalues i t ht
    rw [hnone, Array.size_empty, Nat.zero_add] at hpointer
    exact hpointer
  · rw [Scratch.getElem?_allot, Option.map_eq_some_iff] at ht
    obtain ⟨target, htarget, rfl⟩ := ht
    have hcell : u.cell? i (Scratch.index ⟨target, ⟨f.nextValue + i⟩⟩ p) = some .undef := by
      rw [Machine.cell?, hslots, List.getElem?_toArray, List.getElem?_map, htarget, Option.map_some,
        Option.bind_some, Array.getElem?_replicate]
      exact if_pos (Scratch.index_lt hp)
    rw [hcell, hempty]
    simp [Execution.lastStored, Value.shift]
  · rw [houtputs, hempty]

end Redirected

end Preserve

end ShaderIR
