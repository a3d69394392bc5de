import ShaderIR.Preserve.Redirect
import ShaderIR.Proofs.Machine.Address
import ShaderIR.Proofs.Machine.Arith
import ShaderIR.Proofs.Machine.Line
import ShaderIR.Proofs.Preserve.Code
import ShaderIR.Proofs.Preserve.Store

/-!
# Executing the code of the redirection

What the code that addresses a component computes, and what the code around it does to the
slots and to the outputs.
-/

set_option autoImplicit false

namespace ShaderIR

namespace Machine

variable {f : Function} {m : Machine}

theorem effect_constInt {r : ValueId} {n : Int64} {ty : Ty} {width : Nat}
    (h : ty.intWidth? = some width) :
    m.effect f (.constInt r n ty) = .ok (.assign r (.int (Arith.low width n))) := by
  simp only [effect, Arith.intWidth, h]
  rfl

theorem effect_binary {r lhs rhs : ValueId} {op : BinaryOp} {ty t : Ty} {width : Nat}
    {a b : Int64} {x : Value} (ha : m.values[lhs]? = some (.int a))
    (hb : m.values[rhs]? = some (.int b)) (ht : f.typeOf? lhs = some t)
    (hw : t.intWidth? = some width) (hx : Arith.intBinary op width a b = some x) :
    m.effect f (.binary r op lhs rhs ty) = .ok (.assign r x) := by
  refine bind_eq_ok.mpr ⟨_, get_eq_ok.mpr ha, bind_eq_ok.mpr ⟨_, get_eq_ok.mpr hb,
    bind_eq_ok.mpr ⟨x, lift_eq_ok.mpr ?_, rfl⟩⟩⟩
  simp only [Arith.binary, Arith.binary?, ht, Option.bind_some, hw, Option.getD_some, hx]

theorem effect_resize {r v : ValueId} {op : CastOp} {ty : Ty} {width : Nat} {a : Int64}
    (hop : op = .trunc ∨ op = .zext) (ha : m.values[v]? = some (.int a))
    (hw : ty.intWidth? = some width) :
    m.effect f (.cast r op v ty) = .ok (.assign r (.int (Arith.low width a))) := by
  refine bind_eq_ok.mpr ⟨_, get_eq_ok.mpr ha, bind_eq_ok.mpr ⟨.int (Arith.low width a),
    lift_eq_ok.mpr ?_, rfl⟩⟩
  rcases hop with rfl | rfl <;>
    exact bind_eq_ok.mpr ⟨width, by rw [Arith.intWidth, hw], rfl⟩

theorem effect_load {r ptr : ValueId} {ty : Ty} {slot offset : Nat} {x : Value}
    (hp : m.values[ptr]? = some (.pointer slot offset)) (hc : m.cell? slot offset = some x) :
    m.effect f (.load r ptr ty) = .ok (.assign r x) :=
  bind_eq_ok.mpr ⟨(slot, offset), pointer_eq_ok.mpr hp,
    bind_eq_ok.mpr ⟨x, cell_eq_ok.mpr hc, rfl⟩⟩

theorem effect_store {ptr value : ValueId} {slot offset : Nat} {x old : Value}
    (hp : m.values[ptr]? = some (.pointer slot offset)) (hx : m.values[value]? = some x)
    (hc : m.cell? slot offset = some old) :
    m.effect f (.store ptr value) = .ok (.write slot offset x) :=
  bind_eq_ok.mpr ⟨(slot, offset), pointer_eq_ok.mpr hp, bind_eq_ok.mpr ⟨x, get_eq_ok.mpr hx,
    bind_eq_ok.mpr ⟨old, cell_eq_ok.mpr hc, rfl⟩⟩⟩

theorem advance_array {s : Scalar} {len : Nat} (hlen : len < wordLimit) :
    advance 0 0 (.array (.scalar s) len) = .ok 0 := by
  have hcells : (Ty.array (.scalar s) len).cells? = some len := by
    simp [Ty.cells?, mulWord?, hlen]
  have h := advance_eq_ok 0 0 hcells (by rw [wordLimit]; omega)
  rwa [Nat.zero_mul] at h

theorem offset_array {zero i : ValueId} {s : Scalar} {len : Nat} {n : Int64}
    (hz : m.values[zero]? = some (.int 0)) (hi : m.values[i]? = some (.int n))
    (h0 : 0 ≤ n.toInt) (hlen : len < wordLimit) :
    m.offset (.pointer (.array (.scalar s) len)) 0 [zero, i] = .ok n.toInt.toNat := by
  have hn := n.toInt_lt
  have hlast : advance 0 n.toInt.toNat (.scalar s) = .ok n.toInt.toNat := by
    have h := advance_eq_ok 0 n.toInt.toNat (t := .scalar s) rfl
      (by rw [wordLimit]; omega)
    rwa [Nat.mul_one, Nat.zero_add] at h
  refine bind_eq_ok.mpr ⟨0, index_eq_ok hz (by decide), bind_eq_ok.mpr ⟨0, advance_array hlen, ?_⟩⟩
  refine bind_eq_ok.mpr ⟨_, index_eq_ok hi h0, bind_eq_ok.mpr ⟨_, hlast, rfl⟩⟩

theorem effect_gep {r base : ValueId} {indices : List ValueId} {ty t : Ty} {slot o o' : Nat}
    {inbounds : Bool} (hb : m.values[base]? = some (.pointer slot o))
    (ht : f.typeOf? base = some t) (ho : m.offset t o indices = .ok o') :
    m.effect f (.gep r base indices inbounds ty) = .ok (.assign r (.pointer slot o')) := by
  refine bind_eq_ok.mpr ⟨(slot, o), pointer_eq_ok.mpr hb, bind_eq_ok.mpr ⟨o', ?_, rfl⟩⟩
  rw [Function.typeOf, ht]
  exact ho

end Machine

/-- Code that computes a value and leaves the slots alone. -/
structure Computed.Yields (c : Computed) (f : Function) (m : Machine) (x : Value) (m' : Machine) :
    Prop where
  line : f.line m (c.code.map Draft.instr) = .ok m'
  value : m'.values[c.value]? = some x
  slots : m'.slots = m.slots

namespace Fresh

variable {a b : Nat} {code : List Draft}

theorem straight_instrs (h : Fresh a code b) : Function.Straight (code.map Draft.instr) := by
  intro ins hi
  obtain ⟨d, hd, rfl⟩ := List.mem_map.mp hi
  exact h.straight d hd

theorem values_line_of_notMem (h : Fresh a code b) {f : Function} {m m' : Machine}
    (hl : f.line m (code.map Draft.instr) = .ok m') {v : ValueId} (hv : v ∉ ShaderIR.results code) :
    m'.values[v]? = m.values[v]? := by
  refine Function.line_values h.straight_instrs hl fun ins hi hr => hv ?_
  obtain ⟨d, hd, rfl⟩ := List.mem_map.mp hi
  exact mem_results.mpr ⟨d, hd, hr⟩

theorem values_line (h : Fresh a code b) {f : Function} {m m' : Machine}
    (hl : f.line m (code.map Draft.instr) = .ok m') {v : ValueId} (hv : v.index < a) :
    m'.values[v]? = m.values[v]? :=
  h.values_line_of_notMem hl (h.notMem_of_lt hv)

theorem outputs_line (h : Fresh a code b) {f : Function} {m m' : Machine}
    (hl : f.line m (code.map Draft.instr) = .ok m') (hc : ∀ d ∈ code, d.instr.callee? = none) :
    m'.outputs = m.outputs :=
  Function.line_outputs h.straight_instrs hl (List.forall_mem_map.mpr hc)

end Fresh

namespace Scratch

/-- The cell that an address selects in a slot with several cells. -/
def linear (s : Scratch) (row column : Int64) : Nat :=
  ((row.toInt * s.element.cols + column.toInt) % 4294967296).toNat

theorem slotTy_of_not_single {s : Scratch} (hs : s.element.isSingle = false) :
    s.slotTy = .array (.scalar s.element.component.base) (s.element.rows * s.element.cols) := by
  rw [slotTy, if_neg (by simp [hs])]
  rfl

/-- The end of an address: the sum of the offset of the row and the column selects a cell. -/
def selecting (s : Scratch) (offset low : ValueId) (j : Nat) : Computed :=
  ⟨[.binary ⟨j⟩ .add offset low .i32, .constInt ⟨j + 1⟩ 0 .i32,
    .gep ⟨j + 2⟩ s.slot [⟨j + 1⟩, ⟨j⟩] (.pointer s.ty)], ⟨j + 2⟩, j + 3⟩

theorem address_eq_selecting {s : Scratch} (hs : s.element.isSingle = false)
    (row column : ValueId) (width next : Nat) :
    s.address row column width next =
      let c := toI32 column width (next + 2)
      ⟨(s.rowOffset row next).code ++ c.code ++ (s.selecting ⟨next + 1⟩ c.value c.next).code,
        (s.selecting ⟨next + 1⟩ c.value c.next).value,
        (s.selecting ⟨next + 1⟩ c.value c.next).next⟩ :=
  address_of_not_single hs row column width next

theorem results_rowOffset (s : Scratch) (row : ValueId) (next : Nat) :
    results (s.rowOffset row next).code = [⟨next⟩, ⟨next + 1⟩] := rfl

theorem results_selecting (s : Scratch) (offset low : ValueId) (j : Nat) :
    results (s.selecting offset low j).code = [⟨j⟩, ⟨j + 1⟩, ⟨j + 2⟩] := rfl

section Address

variable {f : Function} {m : Machine} {s : Scratch} {row column : ValueId} {n c : Int64}

theorem yields_rowOffset {next : Nat} (hcols : s.element.cols < idLimit)
    (hrow : m.values[row]? = some (.int n)) (hty : f.typeOf? row = some .i32)
    (hnew : row ∉ results (s.rowOffset row next).code) :
    ∃ q m', (s.rowOffset row next).Yields f m (.int q) m' ∧
      q.toInt = n.toInt * s.element.cols % 4294967296 := by
  rw [results_rowOffset] at hnew
  have hne := List.ne_of_not_mem_cons hnew
  have hconst : (Int64.ofNat s.element.cols).toInt = s.element.cols :=
    Int64.toInt_ofNat_of_lt (Nat.lt_trans hcols (by decide))
  refine ⟨Arith.low 32 (n * Int64.ofNat s.element.cols),
    (m.bind ⟨next⟩ (.int (Int64.ofNat s.element.cols))).bind ⟨next + 1⟩
      (.int (Arith.low 32 (n * Int64.ofNat s.element.cols))), ⟨?_, ?_, ?_⟩, ?_⟩
  · refine Function.line_cons_eq_ok.mpr ⟨_, Machine.effect_constInt rfl, ?_⟩
    rw [Arith.low_ofNat (by decide) hcols]
    refine Function.line_cons_eq_ok.mpr ⟨_, Machine.effect_binary (a := n)
      (b := Int64.ofNat s.element.cols) ?_ ?_ hty rfl rfl, rfl⟩
    · rw [Machine.apply, Machine.values_bind, if_neg hne.symm, hrow]
    · rw [Machine.apply, Machine.values_bind, if_pos rfl]
  · exact (Machine.values_bind ..).trans (if_pos rfl)
  · rfl
  · rw [Arith.toInt_low_mul (by decide), hconst]
    rfl

theorem yields_toI32 (width next : Nat) (hcol : m.values[column]? = some (.int c)) :
    ∃ q m', (toI32 column width next).Yields f m (.int q) m' ∧
      q.toInt % 4294967296 = c.toInt % 4294967296 := by
  have hcut : (Arith.low 32 c).toInt % 4294967296 = c.toInt % 4294967296 := by
    rw [Arith.toInt_low (by decide)]
    exact Int.emod_emod_of_dvd _ (by decide)
  unfold toI32
  split
  · exact ⟨_, m.bind ⟨next⟩ (.int (Arith.low 32 c)), ⟨Function.line_cons_eq_ok.mpr
      ⟨_, Machine.effect_resize (.inl rfl) hcol rfl, rfl⟩,
      (Machine.values_bind ..).trans (if_pos rfl), rfl⟩, hcut⟩
  · split
    · exact ⟨_, m.bind ⟨next⟩ (.int (Arith.low 32 c)), ⟨Function.line_cons_eq_ok.mpr
        ⟨_, Machine.effect_resize (.inr rfl) hcol rfl, rfl⟩,
        (Machine.values_bind ..).trans (if_pos rfl), rfl⟩, hcut⟩
    · exact ⟨c, m, ⟨rfl, hcol, rfl⟩, rfl⟩

theorem yields_selecting {offset low : ValueId} {q r : Int64} {k j : Nat}
    (hs : s.element.isSingle = false) (hsize : s.element.rows * s.element.cols < idLimit)
    (hslot : m.values[s.slot]? = some (.pointer k 0))
    (hslotTy : f.typeOf? s.slot = some (.pointer s.slotTy))
    (hoffset : m.values[offset]? = some (.int q)) (hoffsetTy : f.typeOf? offset = some .i32)
    (hlow : m.values[low]? = some (.int r))
    (hnew : s.slot ∉ results (s.selecting offset low j).code) :
    ∃ m', (s.selecting offset low j).Yields f m
      (.pointer k (Arith.low 32 (q + r)).toInt.toNat) m' := by
  simp only [results_selecting, List.mem_cons, List.not_mem_nil, or_false, not_or] at hnew
  obtain ⟨hne, hne', -⟩ := hnew
  rw [slotTy_of_not_single hs] at hslotTy
  have hsum : 0 ≤ (Arith.low 32 (q + r)).toInt := by
    rw [Arith.toInt_low_add (by decide)]
    exact Int.emod_nonneg _ (by decide)
  have hpointer : ((m.bind ⟨j⟩ (.int (Arith.low 32 (q + r)))).bind ⟨j + 1⟩
      (.int 0)).values[s.slot]? = some (.pointer k 0) := by
    rw [Machine.values_bind, Machine.values_bind, if_neg (Ne.symm hne'), if_neg (Ne.symm hne),
      hslot]
  have hoff : ((m.bind ⟨j⟩ (.int (Arith.low 32 (q + r)))).bind ⟨j + 1⟩ (.int 0)).offset
      (.pointer (.array (.scalar s.element.component.base) (s.element.rows * s.element.cols))) 0
      [⟨j + 1⟩, ⟨j⟩] = .ok (Arith.low 32 (q + r)).toInt.toNat :=
    Machine.offset_array (by simp) (by simp) hsum (Nat.lt_trans hsize (by decide))
  refine ⟨((m.bind ⟨j⟩ (.int (Arith.low 32 (q + r)))).bind ⟨j + 1⟩ (.int 0)).bind ⟨j + 2⟩
    (.pointer k (Arith.low 32 (q + r)).toInt.toNat), ?_, ?_, rfl⟩
  · refine Function.line_cons_eq_ok.mpr ⟨_, Machine.effect_binary (a := q) (b := r) hoffset
      hlow hoffsetTy rfl rfl, ?_⟩
    refine Function.line_cons_eq_ok.mpr ⟨_, Machine.effect_constInt rfl, ?_⟩
    exact Function.line_cons_eq_ok.mpr ⟨_, Machine.effect_gep hpointer hslotTy hoff, rfl⟩
  · exact (Machine.values_bind ..).trans (if_pos rfl)

theorem yields_address {width next k : Nat} (hs : s.element.isSingle = false)
    (hcols : s.element.cols < idLimit) (hsize : s.element.rows * s.element.cols < idLimit)
    (htyped : f.Typed (s.address row column width next).code)
    (hslot : m.values[s.slot]? = some (.pointer k 0))
    (hslotTy : f.typeOf? s.slot = some (.pointer s.slotTy))
    (hrow : m.values[row]? = some (.int n)) (hrowTy : f.typeOf? row = some .i32)
    (hcol : m.values[column]? = some (.int c))
    (hnew : ∀ v ∈ [s.slot, row, column], v ∉ results (s.address row column width next).code) :
    ∃ m', (s.address row column width next).Yields f m (.pointer k (s.linear n c)) m' := by
  rw [address_eq_selecting hs] at htyped hnew ⊢
  dsimp only at htyped hnew ⊢
  simp only [results_append, List.mem_append, not_or, List.forall_mem_cons] at hnew
  obtain ⟨⟨⟨hslot₁, hslot₂⟩, hslot₃⟩, ⟨⟨hrow₁, -⟩, -⟩, ⟨⟨hcol₁, -⟩, -⟩, -⟩ := hnew
  obtain ⟨q₁, m₁, h₁, hq₁⟩ := yields_rowOffset hcols hrow hrowTy hrow₁
  have hkeep₁ : ∀ v ∉ results (s.rowOffset row next).code, m₁.values[v]? = m.values[v]? :=
    fun v hv => (s.fresh_rowOffset row next).values_line_of_notMem h₁.line hv
  obtain ⟨q₂, m₂, h₂, hq₂⟩ := yields_toI32 (f := f) width (next + 2)
    ((hkeep₁ column hcol₁).trans hcol)
  have hfresh := fresh_toI32 column width (next + 2)
  have hoffset : m₂.values[(s.rowOffset row next).value]? = some (.int q₁) :=
    (hfresh.values_line h₂.line (v := ⟨next + 1⟩) (Nat.lt_succ_self _)).trans h₁.value
  have hbase : m₂.values[s.slot]? = some (.pointer k 0) := by
    rw [hfresh.values_line_of_notMem h₂.line hslot₂, hkeep₁ s.slot hslot₁, hslot]
  have hindex : (Arith.low 32 (q₁ + q₂)).toInt.toNat = s.linear n c := by
    rw [linear, Arith.toInt_low_add (by decide)]
    omega
  have hoffsetTy : f.typeOf? (s.rowOffset row next).value = some .i32 :=
    htyped (.binary ⟨next + 1⟩ .mul row ⟨next⟩ .i32) (by simp [rowOffset]) ⟨next + 1⟩ rfl
  obtain ⟨m', h₃⟩ := yields_selecting hs hsize hbase hslotTy hoffset hoffsetTy h₂.value hslot₃
  rw [hindex] at h₃
  refine ⟨m', ?_, h₃.value, h₃.slots.trans (h₂.slots.trans h₁.slots)⟩
  rw [List.map_append, List.map_append]
  exact Function.line_append_eq_ok.mpr ⟨m₂, Function.line_append_eq_ok.mpr
    ⟨m₁, h₁.line, h₂.line⟩, h₃.line⟩

end Address

end Scratch

theorem Int64.ofNat_injOn {a b : Nat} (ha : a < idLimit) (hb : b < idLimit)
    (h : Int64.ofNat a = Int64.ofNat b) : a = b := by
  have hint := congrArg Int64.toInt h
  rw [Int64.toInt_ofNat_of_lt (Nat.lt_trans ha (by decide)),
    Int64.toInt_ofNat_of_lt (Nat.lt_trans hb (by decide))] at hint
  exact_mod_cast hint

theorem Int64.ofNat_toNat_toInt {n : Int64} (h : 0 ≤ n.toInt) : Int64.ofNat n.toInt.toNat = n := by
  have hlt := n.toInt_lt
  apply Int64.toInt.inj
  rw [Int64.toInt_ofNat_of_lt (by omega)]
  exact Int.toNat_of_nonneg h

/-- The words `n` and `c` are the row and the column of a component. -/
def Element.Has (e : Element) (n c : Int64) : Prop :=
  (0 ≤ n.toInt ∧ n.toInt < e.rows) ∧ 0 ≤ c.toInt ∧ c.toInt < e.cols

theorem Element.Has.exists_position {e : Element} {n c : Int64} (h : e.Has n c) :
    ∃ p ∈ e.positions, Int64.ofNat p.1 = n ∧ Int64.ofNat p.2 = c := by
  obtain ⟨⟨hn0, hn1⟩, hc0, hc1⟩ := h
  refine ⟨(n.toInt.toNat, c.toInt.toNat), Element.mem_positions.mpr ⟨?_, ?_⟩,
    Int64.ofNat_toNat_toInt hn0, Int64.ofNat_toNat_toInt hc0⟩
  · omega
  · omega

namespace Target

def cell (t : Target) (p : Nat × Nat) : OutputCell :=
  ⟨t.opcode, t.id, Int64.ofNat p.1, Int64.ofNat p.2⟩

def record (t : Target) (p : Nat × Nat) (x : Value) : OutputRecord :=
  ⟨t.opcode, t.id, Int64.ofNat p.1, Int64.ofNat p.2, x⟩

theorem cell_record (t : Target) (p : Nat × Nat) (x : Value) : (t.record p x).cell = t.cell p := rfl

theorem effect_call {f : Function} {m : Machine} {t : Target} {p : Nat × Nat}
    {op id r c v : ValueId} {x : Value} (hid : t.id < idLimit)
    (hop : m.values[op]? = some (.int (Int64.ofNat t.opcode.value)))
    (hidv : m.values[id]? = some (.int (Int64.ofNat t.id)))
    (hr : m.values[r]? = some (.int (Int64.ofNat p.1)))
    (hc : m.values[c]? = some (.int (Int64.ofNat p.2))) (hv : m.values[v]? = some x) :
    m.effect f (.call none t.intrinsic.name [op, id, r, c, v] none) =
      .ok (.record (t.record p x)) :=
  Machine.call_eq_ok.mpr ⟨op, _, t.opcode, t.record p x, isIntrinsicName_name _, rfl, hop,
    t.opcode.ofValue?_value,
    Machine.outputRecord_eq_ok.mpr ⟨op, id, r, c, v, [], _, rfl, hidv, elementId?_ofNat hid, rfl,
      hr, hc, hv⟩, rfl⟩

end Target

namespace Scratch

def withConstants (s : Scratch) (p : Nat × Nat) (next : Nat) (m : Machine) : Machine :=
  (((m.bind ⟨next⟩ (.int (Int64.ofNat s.target.opcode.value))).bind ⟨next + 1⟩
    (.int (Int64.ofNat s.target.id))).bind ⟨next + 2⟩ (.int (Int64.ofNat p.1))).bind ⟨next + 3⟩
      (.int (Int64.ofNat p.2))

section Component

variable {f : Function} {m : Machine} {s : Scratch} {p : Nat × Nat} {next : Nat}

theorem line_constants (hid : s.target.id < idLimit) (hrow : p.1 < idLimit)
    (hcol : p.2 < Element.columnLimit) :
    f.line m ((s.constants p next).map Draft.instr) = .ok (s.withConstants p next m) := by
  have hop : s.target.opcode.value < idLimit := by cases s.target.opcode <;> decide
  refine Function.line_cons_eq_ok.mpr ⟨_, Machine.effect_constInt rfl, Function.line_cons_eq_ok.mpr
    ⟨_, Machine.effect_constInt rfl, Function.line_cons_eq_ok.mpr ⟨_, Machine.effect_constInt rfl,
    Function.line_cons_eq_ok.mpr ⟨_, Machine.effect_constInt rfl, ?_⟩⟩⟩⟩
  simp only [Scalar.width]
  rw [Arith.low_ofNat (by decide) hop, Arith.low_ofNat (by decide) hid,
    Arith.low_ofNat (by decide) hrow, Arith.low_ofNat (by decide) hcol]
  rfl

theorem line_component {u : Machine} {x : Value} (hid : s.target.id < idLimit)
    (hrow : p.1 < idLimit) (hcol : p.2 < Element.columnLimit)
    (ha : f.line (s.withConstants p next m) ((s.source next).code.map Draft.instr) = .ok u)
    (hload : u.effect f (.load ⟨(s.source next).next⟩ (s.source next).value s.ty) =
      .ok (.assign ⟨(s.source next).next⟩ x)) :
    f.line m ((s.emission p next).code.map Draft.instr) =
      .ok ((u.bind ⟨(s.source next).next⟩ x).record (s.target.record p x)) := by
  have hfresh := s.fresh_source next
  have hle := hfresh.le
  have hkeep : ∀ v : ValueId, v.index < next + 4 →
      (u.bind ⟨(s.source next).next⟩ x).values[v]? = (s.withConstants p next m).values[v]? := by
    intro v hv
    rw [Machine.values_bind, if_neg, hfresh.values_line ha hv]
    rintro rfl
    simp only at hv
    omega
  rw [code_emission, List.map_append, List.map_append]
  refine Function.line_append_eq_ok.mpr ⟨u, Function.line_append_eq_ok.mpr
    ⟨_, line_constants hid hrow hcol, ha⟩, ?_⟩
  refine Function.line_cons_eq_ok.mpr ⟨_, hload, Function.line_cons_eq_ok.mpr
    ⟨.record (s.target.record p x), ?_, rfl⟩⟩
  refine Target.effect_call hid ?_ ?_ ?_ ?_ ?_
  · exact (hkeep ⟨next⟩ (by simp)).trans (by simp [withConstants])
  · exact (hkeep ⟨next + 1⟩ (by simp)).trans (by simp [withConstants])
  · exact (hkeep ⟨next + 2⟩ (by simp)).trans (by simp [withConstants])
  · exact (hkeep ⟨next + 3⟩ (by simp)).trans (by simp [withConstants])
  · exact (Machine.values_bind ..).trans (if_pos rfl)

theorem record_of_line_component {m' : Machine} (hid : s.target.id < idLimit)
    (hrow : p.1 < idLimit) (hcol : p.2 < Element.columnLimit)
    (h : f.line m ((s.emission p next).code.map Draft.instr) = .ok m') :
    ∃ x, m'.outputs = m.outputs.push (s.target.record p x) := by
  have hsplit := h
  rw [code_emission, List.map_append, List.map_append] at hsplit
  obtain ⟨u, hu, htail⟩ := Function.line_append_eq_ok.mp hsplit
  obtain ⟨u₀, hu₀, ha⟩ := Function.line_append_eq_ok.mp hu
  cases (line_constants hid hrow hcol).symm.trans hu₀
  obtain ⟨e, he, -⟩ := Function.line_cons_eq_ok.mp htail
  obtain ⟨q, -, hx⟩ := bind_eq_ok.mp he
  obtain ⟨x, -, hx⟩ := bind_eq_ok.mp hx
  cases hx
  cases h.symm.trans (line_component hid hrow hcol ha he)
  have houtputs : u.outputs = (s.withConstants p next m).outputs :=
    (s.fresh_source next).outputs_line ha (s.callee?_address _ _ 8 (next + 4))
  refine ⟨x, ?_⟩
  rw [Machine.outputs_record, Machine.outputs_bind, houtputs]
  rfl

end Component

/-- What is said of every component that is stored to the output: its numbers fit their types. -/
structure Storable (s : Scratch) (p : Nat × Nat) : Prop where
  id : s.target.id < idLimit
  row : p.1 < idLimit
  column : p.2 < Element.columnLimit

theorem size_lt_of_fits {t : Target} (h : Preserve.fits t = true) :
    t.element.rows * t.element.cols < idLimit := by
  rw [Preserve.fits, Bool.or_eq_true] at h
  rcases h with h | h
  · rw [Element.isSingle, Bool.and_eq_true, beq_iff_eq, beq_iff_eq] at h
    rw [h.1, h.2]
    decide
  · unfold Element.size at h
    split at h
    · next hlt => exact hlt
    · cases h

theorem Storable.of_fits {s : Scratch} (hid : s.target.id < idLimit)
    (hfits : Preserve.fits s.target = true) (hcols : s.element.cols ≤ Element.columnLimit)
    {p : Nat × Nat} (hp : p ∈ s.element.positions) : s.Storable p := by
  obtain ⟨r, c⟩ := p
  obtain ⟨hr, hc⟩ := Element.mem_positions.mp hp
  refine ⟨hid, ?_, Nat.lt_of_lt_of_le hc hcols⟩
  have hle : r < s.element.rows * s.element.cols :=
    Nat.lt_of_lt_of_le hr (Nat.le_mul_of_pos_right _ (Nat.zero_lt_of_lt hc))
  exact Nat.lt_trans hle (size_lt_of_fits hfits)

theorem cells_of_line_flush {f : Function} {cs : List (Scratch × Nat × Nat)} {m m' : Machine}
    {next : Nat} (hcs : ∀ c ∈ cs, c.1.Storable c.2)
    (h : f.line m ((flush cs next).1.map Draft.instr) = .ok m') :
    m'.outputs.toList.map OutputRecord.cell =
      m.outputs.toList.map OutputRecord.cell ++ cs.map fun c => c.1.target.cell c.2 := by
  induction cs generalizing m next with
  | nil =>
    cases h
    simp
  | cons c cs ih =>
    obtain ⟨s, r, c⟩ := c
    have hc := hcs _ List.mem_cons_self
    rw [flush, List.map_append] at h
    obtain ⟨u, hu, h⟩ := Function.line_append_eq_ok.mp h
    obtain ⟨x, hx⟩ := record_of_line_component (p := (r, c)) hc.id hc.row hc.column hu
    rw [ih (fun c' hc' => hcs c' (List.mem_cons_of_mem _ hc')) h, hx]
    simp [Target.cell_record]

def index (s : Scratch) (p : Nat × Nat) : Nat := p.1 * s.element.cols + p.2

section Index

variable {s : Scratch} {p : Nat × Nat} (hp : p ∈ s.element.positions)
include hp

theorem index_lt : s.index p < s.element.rows * s.element.cols := by
  obtain ⟨hr, hc⟩ := Element.mem_positions.mp hp
  calc p.1 * s.element.cols + p.2 < p.1 * s.element.cols + s.element.cols :=
        Nat.add_lt_add_left hc _
    _ = (p.1 + 1) * s.element.cols := (Nat.succ_mul _ _).symm
    _ ≤ s.element.rows * s.element.cols := Nat.mul_le_mul_right _ hr

theorem index_inj {q : Nat × Nat} (hq : q ∈ s.element.positions) (h : s.index p = s.index q) :
    p = q := by
  obtain ⟨-, hc⟩ := Element.mem_positions.mp hp
  obtain ⟨-, hc'⟩ := Element.mem_positions.mp hq
  have hpos := Nat.zero_lt_of_lt hc
  have hdiv := congrArg (· / s.element.cols) h
  have hmod := congrArg (· % s.element.cols) h
  simp only [index, Nat.mul_comm _ s.element.cols, Nat.mul_add_div hpos, Nat.mul_add_mod,
    Nat.div_eq_of_lt hc, Nat.div_eq_of_lt hc', Nat.mod_eq_of_lt hc,
    Nat.mod_eq_of_lt hc'] at hdiv hmod
  exact Prod.ext hdiv hmod

theorem index_of_isSingle (hs : s.element.isSingle = true) : s.index p = 0 := by
  obtain ⟨hr, hc⟩ := Element.mem_positions.mp hp
  rw [Element.isSingle, Bool.and_eq_true, beq_iff_eq, beq_iff_eq] at hs
  rw [hs.1] at hr
  rw [hs.2] at hc
  rw [index, hs.2]
  omega

variable (hsize : s.element.rows * s.element.cols < idLimit)
include hsize

theorem lt_of_mem_positions : p.1 < idLimit ∧ p.2 < idLimit ∧ s.element.cols < idLimit := by
  obtain ⟨hr, hc⟩ := Element.mem_positions.mp hp
  have hrows := Nat.le_mul_of_pos_right s.element.rows (Nat.zero_lt_of_lt hc)
  have hcols := Nat.le_mul_of_pos_left s.element.cols (Nat.zero_lt_of_lt hr)
  omega

theorem linear_ofNat : s.linear (Int64.ofNat p.1) (Int64.ofNat p.2) = s.index p := by
  obtain ⟨hr, hc, -⟩ := lt_of_mem_positions hp hsize
  have hlt := index_lt hp
  have hrow : (Int64.ofNat p.1).toInt = p.1 :=
    Int64.toInt_ofNat_of_lt (Nat.lt_trans hr (by decide))
  have hcolumn : (Int64.ofNat p.2).toInt = p.2 :=
    Int64.toInt_ofNat_of_lt (Nat.lt_trans hc (by decide))
  have hindex : (p.1 : Int) * s.element.cols + p.2 = (s.index p : Nat) := by
    rw [index]
    push_cast
    rfl
  have hlimit : idLimit = 4294967296 := rfl
  rw [linear, hrow, hcolumn, hindex]
  omega

theorem yields_index {f : Function} {m : Machine} {row column : ValueId} {width next k : Nat}
    (htyped : f.Typed (s.address row column width next).code)
    (hslot : m.values[s.slot]? = some (.pointer k 0))
    (hslotTy : f.typeOf? s.slot = some (.pointer s.slotTy))
    (hrow : m.values[row]? = some (.int (Int64.ofNat p.1)))
    (hrowTy : s.element.isSingle = true ∨ f.typeOf? row = some .i32)
    (hcol : m.values[column]? = some (.int (Int64.ofNat p.2)))
    (hlt : s.slot.index < next ∧ row.index < next ∧ column.index < next) :
    ∃ m', (s.address row column width next).Yields f m (.pointer k (s.index p)) m' := by
  cases hs : s.element.isSingle with
  | true =>
    rw [index_of_isSingle hp hs, address, if_pos hs]
    exact ⟨m, rfl, hslot, rfl⟩
  | false =>
    rw [hs] at hrowTy
    rw [← linear_ofNat hp hsize]
    obtain ⟨hslotlt, hrowlt, hcollt⟩ := hlt
    refine yields_address hs (lt_of_mem_positions hp hsize).2.2 hsize htyped hslot hslotTy hrow
      (hrowTy.resolve_left Bool.false_ne_true) hcol fun v hv => ?_
    apply (s.fresh_address row column width next).notMem_of_lt
    simp only [List.mem_cons, List.not_mem_nil, or_false] at hv
    rcases hv with rfl | rfl | rfl <;> assumption

end Index

theorem outputs_of_address {f : Function} {m m' : Machine} {s : Scratch} {row column : ValueId}
    {width next : Nat}
    (h : f.line m ((s.address row column width next).code.map Draft.instr) = .ok m') :
    m'.outputs = m.outputs :=
  (s.fresh_address row column width next).outputs_line h (s.callee?_address row column width next)

/-- What must be known of a slot to flush a component that holds `x`. -/
structure Loaded (f : Function) (m : Machine) (next : Nat) (s : Scratch) (p : Nat × Nat)
    (x : Value) : Prop where
  mem : p ∈ s.element.positions
  size : s.element.rows * s.element.cols < idLimit
  storable : s.Storable p
  slotTy : f.typeOf? s.slot = some (.pointer s.slotTy)
  lt : s.slot.index < next
  cell : ∃ k, m.values[s.slot]? = some (.pointer k 0) ∧ m.cell? k (s.index p) = some x

theorem Loaded.congr {f : Function} {m m' : Machine} {next next' : Nat} {s : Scratch}
    {p : Nat × Nat} {x : Value} (h : s.Loaded f m next p x) (hle : next ≤ next')
    (hvalues : ∀ v : ValueId, v.index < next → m'.values[v]? = m.values[v]?)
    (hslots : m'.slots = m.slots) : s.Loaded f m' next' p x where
  mem := h.mem
  size := h.size
  storable := h.storable
  slotTy := h.slotTy
  lt := Nat.lt_of_lt_of_le h.lt hle
  cell := by
    obtain ⟨k, hk, hx⟩ := h.cell
    exact ⟨k, (hvalues _ h.lt).trans hk, (Machine.cell?_congr hslots _ _).trans hx⟩

theorem Loaded.line {f : Function} {m : Machine} {next : Nat} {s : Scratch} {p : Nat × Nat}
    {x : Value} (h : s.Loaded f m next p x) (htyped : f.Typed (s.emission p next).code) :
    ∃ m', f.line m ((s.emission p next).code.map Draft.instr) = .ok m' ∧
      m'.slots = m.slots ∧ m'.outputs = m.outputs.push (s.target.record p x) := by
  obtain ⟨k, hk, hx⟩ := h.cell
  have hne : ∀ i, s.slot ≠ ⟨next + i⟩ := by
    intro i heq
    have hlt := h.lt
    rw [heq] at hlt
    simp only at hlt
    omega
  rw [code_emission] at htyped
  have hrowTy : f.typeOf? ⟨next + 2⟩ = some .i32 :=
    htyped (.constInt ⟨next + 2⟩ (Int64.ofNat p.1) .i32) (by simp [constants]) _ rfl
  have hne₀ : s.slot ≠ ⟨next⟩ := hne 0
  have hslot : (s.withConstants p next m).values[s.slot]? = some (.pointer k 0) := by
    simp only [withConstants, Machine.values_bind, if_neg (Ne.symm hne₀),
      if_neg (Ne.symm (hne 1)), if_neg (Ne.symm (hne 2)), if_neg (Ne.symm (hne 3)), hk]
  obtain ⟨u, hu⟩ : ∃ u, (s.source next).Yields f (s.withConstants p next m)
      (.pointer k (s.index p)) u := yields_index h.mem h.size
    (htyped.mono fun d hd => List.mem_append_left _ (List.mem_append_right _ hd)) hslot h.slotTy
    (by simp [withConstants]) (Or.inr hrowTy) (by simp [withConstants])
    ⟨by have := h.lt; omega, by simp, by simp⟩
  have hload : u.effect f (.load ⟨(s.source next).next⟩ (s.source next).value s.ty) =
      .ok (.assign ⟨(s.source next).next⟩ x) :=
    Machine.effect_load hu.value ((Machine.cell?_congr hu.slots _ _).trans hx)
  refine ⟨_, line_component h.storable.id h.storable.row h.storable.column hu.line hload, ?_, ?_⟩
  · exact hu.slots
  · rw [Machine.outputs_record, Machine.outputs_bind, outputs_of_address hu.line]
    rfl

theorem line_flush {f : Function} {cs : List (Scratch × Nat × Nat)} {m : Machine} {next : Nat}
    {x : Scratch × Nat × Nat → Value} (hcs : ∀ c ∈ cs, c.1.Loaded f m next c.2 (x c))
    (htyped : f.Typed (flush cs next).1) :
    ∃ m', f.line m ((flush cs next).1.map Draft.instr) = .ok m' ∧ m'.slots = m.slots ∧
      m'.outputs.toList = m.outputs.toList ++ cs.map fun c => c.1.target.record c.2 (x c) := by
  induction cs generalizing m next with
  | nil => exact ⟨m, rfl, rfl, by simp⟩
  | cons c cs ih =>
    obtain ⟨s, p⟩ := c
    obtain ⟨u, hline, hslots, houtputs⟩ := (hcs _ List.mem_cons_self).line
      (htyped.mono fun d hd => List.mem_append_left _ hd)
    have hfresh := s.fresh_emission p next
    have hloaded : ∀ c ∈ cs, c.1.Loaded f u (s.emission p next).next c.2 (x c) :=
      fun c hc => (hcs c (List.mem_cons_of_mem _ hc)).congr hfresh.le
        (fun v hv => hfresh.values_line hline hv) hslots
    obtain ⟨m', hrest, hslots', hm'⟩ := ih hloaded
      (htyped.mono fun d hd => List.mem_append_right _ hd)
    refine ⟨m', ?_, hslots'.trans hslots, ?_⟩
    · rw [flush, List.map_append]
      exact Function.line_append_eq_ok.mpr ⟨u, hline, hrest⟩
    · rw [hm', houtputs]
      simp

theorem cells?_slotTy {s : Scratch} (hsize : s.element.rows * s.element.cols < idLimit) :
    s.slotTy.cells? = some (s.element.rows * s.element.cols) := by
  unfold slotTy
  split
  · next hs =>
    rw [Element.isSingle, Bool.and_eq_true, beq_iff_eq, beq_iff_eq] at hs
    rw [hs.1, hs.2]
    rfl
  · have hword : s.element.rows * s.element.cols < wordLimit := Nat.lt_trans hsize (by decide)
    simp [Ty.cells?, ty, Component.ty, mulWord?, hword]

theorem line_alloca {f : Function} (m : Machine) (next : Nat) {ts : List Target}
    (hsize : ∀ t ∈ ts, t.element.rows * t.element.cols < idLimit) :
    ∃ m', f.line m (((allot next ts).map alloca).map Draft.instr) = .ok m' ∧
      m'.outputs = m.outputs ∧ m'.slots = m.slots ++
        (ts.map fun t => Array.replicate (t.element.rows * t.element.cols) Value.undef).toArray ∧
      ∀ (i : Nat) (s : Scratch), (allot next ts)[i]? = some s →
        m'.values[s.slot]? = some (.pointer (m.slots.size + i) 0) := by
  induction ts generalizing m next with
  | nil => exact ⟨m, rfl, rfl, by simp, fun i s hs => by simp [allot] at hs⟩
  | cons t ts ih =>
    have heffect : m.effect f (.alloca ⟨next⟩ (slotTy ⟨t, ⟨next⟩⟩) (some t.element.name)) =
        .ok (.allocate ⟨next⟩ (t.element.rows * t.element.cols)) := by
      rw [Machine.effect, cells?_slotTy (s := ⟨t, ⟨next⟩⟩) (hsize t List.mem_cons_self)]
      rfl
    obtain ⟨m', hline, houtputs, hslots, hvalues⟩ := ih
      (m.allocate ⟨next⟩ (t.element.rows * t.element.cols)) (next + 1)
      fun u hu => hsize u (List.mem_cons_of_mem t hu)
    refine ⟨m', Function.line_cons_eq_ok.mpr ⟨_, heffect, hline⟩, houtputs, ?_, fun i s hs => ?_⟩
    · rw [hslots, Machine.slots_allocate]
      simp
    · cases i with
      | zero =>
        cases hs
        rw [(fresh_alloca (next + 1) ts).values_line hline (Nat.lt_succ_self next)]
        simp
      | succ i =>
        rw [hvalues i s hs, Machine.slots_allocate, Array.size_push, Nat.add_right_comm,
          Nat.add_assoc]

end Scratch

end ShaderIR
