import ShaderIR.Proofs.Preserve.Execution
import ShaderIR.Proofs.Preserve.Growth
import ShaderIR.Proofs.Preserve.Redirected

/-!
# Addresses at run time

The code of a store to a slot with several cells numbers the cells row by row, in 32 bits. Here it
is executed on any integers, and also on undefined operands: it stores to the cell of that number if
the slot has one, and otherwise it ends the run before any cell has changed. The epilogue loads from
the cells of the same numbers.
-/

set_option autoImplicit false

namespace ShaderIR

namespace Function

/-- A run gets through the code, and goes on in the state `m'`. -/
structure Passes (f : Function) (m : Machine) (code : List Instr) (m' : Machine) : Prop where
  line : f.line m code = .ok m'
  exec : ∀ fuel b rest,
    f.exec (code.length + fuel) ⟨b, code ++ rest, m⟩ = f.exec fuel ⟨b, rest, m'⟩

theorem passes_of_line {f : Function} {m m' : Machine} {code : List Instr} (hs : Straight code)
    (h : f.line m code = .ok m') : f.Passes m code m' :=
  ⟨h, exec_line hs h⟩

/-- One of the instructions has no effect, and up to it the slots are as they were before. -/
def Stops (f : Function) (m : Machine) (code : List Instr) (e : Stop) : Prop :=
  ∃ pre ins post u, code = pre ++ ins :: post ∧ f.line m pre = .ok u ∧ u.slots = m.slots ∧
    u.effect f ins = .error e

/-- A run ends on the code. It has changed no slot there, and shows what was stored to the outputs
before. -/
structure Breaks (f : Function) (m : Machine) (code : List Instr) (e : Stop) : Prop where
  stops : f.Stops m code e
  exec : ∀ fuel b rest,
    f.exec (code.length + fuel) ⟨b, code ++ rest, m⟩ = ⟨m.outputs.toList, .error e⟩

namespace Stops

variable {f : Function} {m u : Machine} {code rest : List Instr} {ins : Instr} {e : Stop}

theorem head (h : m.effect f ins = .error e) : f.Stops m (ins :: rest) e :=
  ⟨[], ins, rest, m, rfl, rfl, rfl, h⟩

theorem append (h : f.Stops m code e) : f.Stops m (code ++ rest) e := by
  obtain ⟨pre, ins, post, u, rfl, hline, hslots, heffect⟩ := h
  exact ⟨pre, ins, post ++ rest, u, by simp, hline, hslots, heffect⟩

theorem after (pre : List Instr) (hline : f.line m pre = .ok u) (hslots : u.slots = m.slots)
    (h : f.Stops u code e) : f.Stops m (pre ++ code) e := by
  obtain ⟨mid, ins, post, v, rfl, hmid, hv, heffect⟩ := h
  exact ⟨pre ++ mid, ins, post, v, by simp, line_append_eq_ok.mpr ⟨u, hline, hmid⟩,
    hv.trans hslots, heffect⟩

theorem breaks (h : f.Stops m code e) (hs : Straight code) (hc : ∀ ins ∈ code, ins.callee? = none) :
    f.Breaks m code e := by
  refine ⟨h, fun fuel b rest => ?_⟩
  obtain ⟨pre, ins, post, u, rfl, hline, -, heffect⟩ := h
  have hpre : Straight pre := fun i hi => hs i (List.mem_append_left _ hi)
  have hlength : (pre ++ ins :: post).length + fuel = pre.length + (post.length + fuel + 1) := by
    rw [List.length_append, List.length_cons]
    omega
  rw [hlength, List.append_assoc, exec_line hpre hline, List.cons_append, exec, heffect,
    line_outputs hpre hline fun i hi => hc i (List.mem_append_left _ hi)]

end Stops

end Function

namespace Machine

variable {f : Function} {m : Machine}

theorem effect_binary_cases (r : ValueId) (op : BinaryOp) (ty : Ty) {lhs rhs : ValueId}
    {a b : Value} (ha : m.values[lhs]? = some a) (hb : m.values[rhs]? = some b) :
    (∃ x, m.effect f (.binary r op lhs rhs ty) = .ok (.assign r x) ∧
      (a = .undef ∨ b = .undef → x = .undef)) ∨
    ∃ fault, m.effect f (.binary r op lhs rhs ty) = .error (.error (.typeError fault)) := by
  cases hx : Arith.binary? op (((f.typeOf? lhs).bind Ty.intWidth?).getD 64) a b with
  | none =>
    refine Or.inr ⟨.binary op a b, bind_eq_error.mpr (Or.inr ⟨a, get_eq_ok.mpr ha,
      bind_eq_error.mpr (Or.inr ⟨b, get_eq_ok.mpr hb, bind_eq_error.mpr (Or.inl ?_)⟩)⟩)⟩
    rw [Arith.binary, hx]
    rfl
  | some x =>
    refine Or.inl ⟨x, bind_eq_ok.mpr ⟨a, get_eq_ok.mpr ha, bind_eq_ok.mpr ⟨b, get_eq_ok.mpr hb,
      bind_eq_ok.mpr ⟨x, lift_eq_ok.mpr ?_, rfl⟩⟩⟩, ?_⟩
    · rw [Arith.binary, hx]
    · rintro (rfl | rfl)
      · exact (Option.some.inj hx).symm
      · cases a <;> exact (Option.some.inj hx).symm

theorem effect_resize_cases {r v : ValueId} {op : CastOp} {a : Value}
    (hop : op = .trunc ∨ op = .zext) (ha : m.values[v]? = some a) :
    (∃ x, m.effect f (.cast r op v .i32) = .ok (.assign r x) ∧ (a = .undef → x = .undef)) ∨
    ∃ fault, m.effect f (.cast r op v .i32) = .error (.error (.typeError fault)) := by
  have hget : m.get v = .ok a := get_eq_ok.mpr ha
  cases a with
  | undef => exact Or.inl ⟨.undef, bind_eq_ok.mpr ⟨_, hget, rfl⟩, fun _ => rfl⟩
  | int n => exact Or.inl ⟨_, effect_resize hop ha rfl, fun h => Value.noConfusion h⟩
  | float x =>
    refine Or.inr ⟨.cast op (.float x) (f.typeOf v) .i32, bind_eq_error.mpr (Or.inr ⟨_, hget, ?_⟩)⟩
    rcases hop with rfl | rfl <;> rfl
  | pointer slot offset =>
    refine Or.inr ⟨.cast op (.pointer slot offset) (f.typeOf v) .i32,
      bind_eq_error.mpr (Or.inr ⟨_, hget, ?_⟩)⟩
    rcases hop with rfl | rfl <;> rfl

theorem offset_undef {zero i : ValueId} {s : Scalar} {len : Nat}
    (hz : m.values[zero]? = some (.int 0)) (hi : m.values[i]? = some .undef)
    (hlen : len < wordLimit) :
    m.offset (.pointer (.array (.scalar s) len)) 0 [zero, i] =
      .error (.error (.typeError (.notInteger i .undef))) := by
  have hint : m.int i = .error (.error (.typeError (.notInteger i .undef))) :=
    bind_eq_error.mpr (Or.inr ⟨.undef, get_eq_ok.mpr hi, rfl⟩)
  exact bind_eq_error.mpr (Or.inr ⟨0, index_eq_ok hz (by decide), bind_eq_error.mpr (Or.inr
    ⟨0, advance_array hlen, bind_eq_error.mpr (Or.inl (bind_eq_error.mpr (Or.inl hint)))⟩)⟩)

theorem effect_gep_error {r base : ValueId} {indices : List ValueId} {ty t : Ty} {slot o : Nat}
    {inbounds : Bool} {e : Stop} (hb : m.values[base]? = some (.pointer slot o))
    (ht : f.typeOf? base = some t) (ho : m.offset t o indices = .error e) :
    m.effect f (.gep r base indices inbounds ty) = .error e := by
  refine bind_eq_error.mpr (Or.inr ⟨(slot, o), pointer_eq_ok.mpr hb, bind_eq_error.mpr
    (Or.inl ?_)⟩)
  rw [Function.typeOf, ht]
  exact ho

theorem effect_store_outOfBounds {ptr value : ValueId} {slot offset : Nat} {x : Value}
    (hp : m.values[ptr]? = some (.pointer slot offset)) (hx : m.values[value]? = some x)
    (hc : m.cell? slot offset = none) :
    m.effect f (.store ptr value) =
      .error (.error (.invalidPointer (.outOfBounds slot offset))) := by
  refine bind_eq_error.mpr (Or.inr ⟨(slot, offset), pointer_eq_ok.mpr hp,
    bind_eq_error.mpr (Or.inr ⟨x, get_eq_ok.mpr hx, bind_eq_error.mpr (Or.inl ?_)⟩)⟩)
  rw [cell, hc]

end Machine

namespace Scratch

section Undefined

variable {f : Function} {m : Machine} {s : Scratch}

/-- Code that computes a value with a property, or else stops on a value of a wrong type. -/
def Attempts (c : Computed) (f : Function) (m : Machine) (p : Value → Prop) : Prop :=
  (∃ x m', c.Yields f m x m' ∧ p x) ∨
    ∃ fault, f.Stops m (c.code.map Draft.instr) (.error (.typeError fault))

theorem attempts_rowOffset {row : ValueId} {next : Nat} {v : Value}
    (hrow : m.values[row]? = some v) (hnew : row ∉ results (s.rowOffset row next).code) :
    Attempts (s.rowOffset row next) f m fun x => v = .undef → x = .undef := by
  rw [results_rowOffset] at hnew
  have hne := List.ne_of_not_mem_cons hnew
  have hconst : m.effect f (.constInt ⟨next⟩ (Int64.ofNat s.element.cols) .i32) =
      .ok (.assign ⟨next⟩ (.int (Arith.low 32 (Int64.ofNat s.element.cols)))) :=
    Machine.effect_constInt rfl
  have hkept : (m.bind ⟨next⟩ (.int (Arith.low 32 (Int64.ofNat s.element.cols)))).values[row]? =
      some v := by
    rw [Machine.values_bind, if_neg hne.symm, hrow]
  rcases Machine.effect_binary_cases (f := f) ⟨next + 1⟩ .mul .i32 hkept
    ((Machine.values_bind ..).trans (if_pos rfl)) with ⟨x, hx, hundef⟩ | ⟨fault, hfault⟩
  · refine Or.inl ⟨x, _, ⟨Function.line_cons_eq_ok.mpr ⟨_, hconst,
      Function.line_cons_eq_ok.mpr ⟨_, hx, rfl⟩⟩, (Machine.values_bind ..).trans (if_pos rfl), rfl⟩,
      fun hv => hundef (Or.inl hv)⟩
  · exact Or.inr ⟨fault, .after [_] (Function.line_cons_eq_ok.mpr ⟨_, hconst, rfl⟩) rfl
      (.head hfault)⟩

theorem attempts_toI32 {column : ValueId} (width next : Nat) {w : Value}
    (hcol : m.values[column]? = some w) :
    Attempts (toI32 column width next) f m fun x => w = .undef → x = .undef := by
  have hcast : ∀ op, op = .trunc ∨ op = .zext →
      Attempts ⟨[.cast ⟨next⟩ op column .i32], ⟨next⟩, next + 1⟩ f m
        fun x => w = .undef → x = .undef := by
    intro op hop
    rcases Machine.effect_resize_cases (f := f) (r := ⟨next⟩) hop hcol with
      ⟨x, hx, hundef⟩ | ⟨fault, hfault⟩
    · exact Or.inl ⟨x, _, ⟨Function.line_cons_eq_ok.mpr ⟨_, hx, rfl⟩,
        (Machine.values_bind ..).trans (if_pos rfl), rfl⟩, hundef⟩
    · exact Or.inr ⟨fault, .head hfault⟩
  unfold toI32
  split
  · exact hcast .trunc (Or.inl rfl)
  · split
    · exact hcast .zext (Or.inr rfl)
    · exact Or.inl ⟨w, m, ⟨rfl, hcol, rfl⟩, id⟩

theorem stops_selecting {offset low : ValueId} {j k : Nat} {a b : Value}
    (hs : s.element.isSingle = false) (hsize : s.element.rows * s.element.cols < idLimit)
    (hslot : m.values[s.slot]? = some (.pointer k 0))
    (hslotTy : f.typeOf? s.slot = some (.pointer s.slotTy))
    (hoffset : m.values[offset]? = some a) (hlow : m.values[low]? = some b)
    (hundef : a = .undef ∨ b = .undef)
    (hnew : s.slot ∉ results (s.selecting offset low j).code) :
    ∃ fault, f.Stops m ((s.selecting offset low j).code.map Draft.instr)
      (.error (.typeError fault)) := by
  simp only [results_selecting, List.mem_cons, List.not_mem_nil, or_false, not_or] at hnew
  obtain ⟨hne, hne', -⟩ := hnew
  rw [slotTy_of_not_single hs] at hslotTy
  rcases Machine.effect_binary_cases (f := f) ⟨j⟩ .add .i32 hoffset hlow with
    ⟨x, hx, hcarry⟩ | ⟨fault, hfault⟩
  · rw [hcarry hundef] at hx
    have hpointer : ((m.bind ⟨j⟩ .undef).bind ⟨j + 1⟩ (.int 0)).values[s.slot]? =
        some (.pointer k 0) := by
      rw [Machine.values_bind, Machine.values_bind, if_neg (Ne.symm hne'), if_neg (Ne.symm hne),
        hslot]
    have hindex : ((m.bind ⟨j⟩ .undef).bind ⟨j + 1⟩ (.int 0)).offset
        (.pointer (.array (.scalar s.element.component.base) (s.element.rows * s.element.cols))) 0
        [⟨j + 1⟩, ⟨j⟩] = .error (.error (.typeError (.notInteger ⟨j⟩ .undef))) :=
      Machine.offset_undef (by simp) (by simp) (Nat.lt_trans hsize (by decide))
    exact ⟨_, .after [_, _] (Function.line_cons_eq_ok.mpr ⟨_, hx,
      Function.line_cons_eq_ok.mpr ⟨_, Machine.effect_constInt rfl, rfl⟩⟩) rfl
      (.head (Machine.effect_gep_error hpointer hslotTy hindex))⟩
  · exact ⟨fault, .head hfault⟩

/-- An address is not computed if its row or its column is undefined. -/
theorem stops_address {row column : ValueId} {width next k : Nat} {v w : Value}
    (hs : s.element.isSingle = false) (hsize : s.element.rows * s.element.cols < idLimit)
    (hslot : m.values[s.slot]? = some (.pointer k 0))
    (hslotTy : f.typeOf? s.slot = some (.pointer s.slotTy))
    (hrow : m.values[row]? = some v) (hcol : m.values[column]? = some w)
    (hundef : v = .undef ∨ w = .undef)
    (hnew : ∀ v ∈ [s.slot, row, column], v ∉ results (s.address row column width next).code) :
    ∃ fault, f.Stops m ((s.address row column width next).code.map Draft.instr)
      (.error (.typeError fault)) := by
  rw [address_eq_selecting hs] at hnew ⊢
  dsimp only at hnew ⊢
  simp only [results_append, List.mem_append, not_or, List.forall_mem_cons] at hnew
  obtain ⟨⟨⟨hslot₁, hslot₂⟩, hslot₃⟩, ⟨⟨hrow₁, -⟩, -⟩, ⟨⟨hcol₁, -⟩, -⟩, -⟩ := hnew
  simp only [List.map_append]
  rcases attempts_rowOffset (f := f) hrow hrow₁ with ⟨a, m₁, h₁, ha⟩ | ⟨fault, hstop⟩
  · have hfresh₁ := s.fresh_rowOffset row next
    have hcol' := (hfresh₁.values_line_of_notMem h₁.line hcol₁).trans hcol
    rcases attempts_toI32 (f := f) width (next + 2) hcol' with ⟨b, m₂, h₂, hb⟩ | ⟨fault, hstop⟩
    · have hfresh₂ := fresh_toI32 column width (next + 2)
      obtain ⟨fault, hstop⟩ := stops_selecting hs hsize
        (by rw [hfresh₂.values_line_of_notMem h₂.line hslot₂,
          hfresh₁.values_line_of_notMem h₁.line hslot₁, hslot]) hslotTy
        ((hfresh₂.values_line h₂.line (v := ⟨next + 1⟩) (Nat.lt_succ_self _)).trans h₁.value)
        h₂.value (hundef.imp ha hb) hslot₃
      exact ⟨fault, .after _ (Function.line_append_eq_ok.mpr ⟨m₁, h₁.line, h₂.line⟩)
        (h₂.slots.trans h₁.slots) hstop⟩
    · exact ⟨fault, (Function.Stops.after _ h₁.line h₁.slots hstop).append⟩
  · exact ⟨fault, hstop.append.append⟩

end Undefined

section Number

variable {s : Scratch} {n c : Int64} (hsize : s.element.rows * s.element.cols < idLimit)
  (h : s.element.Has n c)
include hsize h

theorem linear_of_has : s.linear n c < s.element.rows * s.element.cols ∧
    (s.linear n c : Int) = n.toInt * s.element.cols + c.toInt := by
  obtain ⟨p, hp, rfl, rfl⟩ := h.exists_position
  obtain ⟨hr, hc, -⟩ := lt_of_mem_positions hp hsize
  rw [linear_ofNat hp hsize, Int64.toInt_ofNat_of_lt (Nat.lt_trans hr (by decide)),
    Int64.toInt_ofNat_of_lt (Nat.lt_trans hc (by decide))]
  exact ⟨index_lt hp, by rw [index]; push_cast; rfl⟩

theorem linear_inj {n' c' : Int64} (h' : s.element.Has n' c')
    (heq : s.linear n c = s.linear n' c') : n = n' ∧ c = c' := by
  obtain ⟨p, hp, rfl, rfl⟩ := h.exists_position
  obtain ⟨q, hq, rfl, rfl⟩ := h'.exists_position
  rw [linear_ofNat hp hsize, linear_ofNat hq hsize] at heq
  rw [index_inj hp hq heq]
  exact ⟨rfl, rfl⟩

end Number

/-- A store of `x` to the slot number `k`, which has a cell for each of several components. The row
is recorded as an `i32` and the column as an integer of any width, and nothing that is read is
defined anew by the code of the store. -/
structure Pending (s : Scratch) (f : Function) (o : OutputStore) (m : Machine) (k : Nat)
    (x : Value) : Prop where
  several : s.element.isSingle = false
  id : s.target.id < idLimit
  cols : s.element.cols < idLimit
  size : s.element.rows * s.element.cols < idLimit
  slotTy : f.typeOf? s.slot = some (.pointer s.slotTy)
  rowTy : f.typeOf? o.row = some .i32
  columnTy : ∃ ty, f.typeOf? o.column = some ty ∧ ty.isInt = true
  new : ∀ v ∈ [s.slot, o.row, o.column, o.value], v ∉ results (s.lowerStore f o).code
  slot : m.values[s.slot]? = some (.pointer k 0)
  cells : ∀ i, (m.cell? k i).isSome = true ↔ i < s.element.rows * s.element.cols
  value : m.values[o.value]? = some x

/-- What the code of a store relies on in a function that it stands in. -/
structure Records (s : Scratch) (g : Function) (o : OutputStore) (code : List Draft) : Prop where
  typed : g.Typed code
  slot : g.typeOf? s.slot = some (.pointer s.slotTy)
  row : g.typeOf? o.row = some .i32

/-- How a run gets through the code of a store of `x` to the slot number `k`, or ends on it. -/
structure Stores (s : Scratch) (g : Function) (o : OutputStore) (code : List Draft) (m : Machine)
    (k : Nat) (x : Value) : Prop where
  inside : ∀ n c, m.values[o.row]? = some (.int n) → m.values[o.column]? = some (.int c) →
    s.linear n c < s.element.rows * s.element.cols →
    ∃ m', g.Passes m (code.map Draft.instr) m' ∧
      ∀ j i, m'.cell? j i = if j = k ∧ i = s.linear n c then some x else m.cell? j i
  outside : ∀ n c, m.values[o.row]? = some (.int n) → m.values[o.column]? = some (.int c) →
    s.element.rows * s.element.cols ≤ s.linear n c →
    g.Breaks m (code.map Draft.instr) (.error (.invalidPointer (.outOfBounds k (s.linear n c))))
  undefined : ∀ v w, m.values[o.row]? = some v → m.values[o.column]? = some w →
    v = .undef ∨ w = .undef →
    ∃ fault, g.Breaks m (code.map Draft.instr) (.error (.typeError fault))

/-- How a run gets through the epilogue of the slot number `k`: each component is loaded from the
cell of its number. -/
def Reloads (s : Scratch) (k : Nat) : Prop :=
  ∀ (g : Function) (func : String) (next : Nat) (m : Machine),
    (s.epilogue s.target.intrinsic.name func next).fault = none →
    g.Typed (s.epilogue s.target.intrinsic.name func next).code →
    g.typeOf? s.slot = some (.pointer s.slotTy) → s.slot.index < next →
    m.values[s.slot]? = some (.pointer k 0) →
    (∀ i < s.element.rows * s.element.cols, (m.cell? k i).isSome = true) →
    ∃ m', g.Passes m ((s.epilogue s.target.intrinsic.name func next).code.map Draft.instr) m' ∧
      m'.slots = m.slots ∧
      m'.outputs.toList = m.outputs.toList ++ s.element.positions.map fun p =>
        s.target.record p ((m.cell? k (s.linear (Int64.ofNat p.1) (Int64.ofNat p.2))).getD .undef)

namespace Pending

variable {s : Scratch} {f : Function} {o : OutputStore} {m : Machine} {k : Nat} {x : Value}

theorem exists_storing (h : s.Pending f o m k x) : ∃ width, s.lowerStore f o =
    ⟨s.storing o width f.nextValue, (s.address o.row o.column width f.nextValue).next, none⟩ := by
  obtain ⟨width, hwidth⟩ :
      ∃ width, (columnTy? f o.column f.nextValue).bind Ty.intWidth? = some width := by
    unfold columnTy?
    split
    · exact ⟨32, rfl⟩
    · obtain ⟨ty, hty, hint⟩ := h.columnTy
      rw [hty]
      exact Option.isSome_iff_exists.mp hint
  have hrow : (some Ty.i32).bind Ty.intWidth? = some 32 := rfl
  refine ⟨width, ?_⟩
  rw [lowerStore]
  simp only [h.several, h.rowTy, hrow, hwidth, Bool.false_eq_true, if_false, if_true]
  rfl

section Runs

variable {g : Function} {width next : Nat} (h : s.Pending f o m k x)
  (hnew : ∀ v ∈ [s.slot, o.row, o.column, o.value],
    v ∉ results (s.address o.row o.column width next).code)
  (hrecords : s.Records g o (s.storing o width next))
include h hnew hrecords

theorem yields {n c : Int64} (hrow : m.values[o.row]? = some (.int n))
    (hcol : m.values[o.column]? = some (.int c)) :
    ∃ u, (s.address o.row o.column width next).Yields g m (.pointer k (s.linear n c)) u ∧
      u.values[o.value]? = some x := by
  obtain ⟨u, hu⟩ := yields_address h.several h.cols h.size
    (hrecords.typed.mono fun d hd => List.mem_append_left _ hd) h.slot hrecords.slot hrow
    hrecords.row hcol fun v hv => hnew v (List.mem_append_left [o.value] hv)
  have hfresh := s.fresh_address o.row o.column width next
  exact ⟨u, hu, (hfresh.values_line_of_notMem hu.line (hnew _ (by simp))).trans h.value⟩

theorem stores : s.Stores g o (s.storing o width next) m k x := by
  have hstraight := (s.fresh_storing o width next).straight_instrs
  have hcallee : ∀ ins ∈ (s.storing o width next).map Draft.instr, ins.callee? = none :=
    List.forall_mem_map.mpr (s.callee?_storing o width next)
  refine ⟨fun n c hrow hcol hlt => ?_,
    fun n c hrow hcol hle => Function.Stops.breaks ?_ hstraight hcallee,
    fun v w hrow hcol hundef => ?_⟩
  · obtain ⟨u, hu, hx⟩ := h.yields hnew hrecords hrow hcol
    have hcells := Machine.cell?_congr hu.slots
    obtain ⟨old, hold⟩ := Option.isSome_iff_exists.mp ((h.cells _).mpr hlt)
    have hstore := Machine.effect_store (f := g) hu.value hx ((hcells _ _).trans hold)
    refine ⟨u.write k (s.linear n c) x, Function.passes_of_line hstraight ?_, fun j i => ?_⟩
    · rw [storing, List.map_append]
      exact Function.line_append_eq_ok.mpr ⟨u, hu.line,
        Function.line_cons_eq_ok.mpr ⟨_, hstore, rfl⟩⟩
    · rw [Machine.cell?_write, hcells, hcells, hold]
      rfl
  · obtain ⟨u, hu, hx⟩ := h.yields hnew hrecords hrow hcol
    have hnone : u.cell? k (s.linear n c) = none := by
      rw [Machine.cell?_congr hu.slots]
      exact Option.not_isSome_iff_eq_none.mp fun hsome =>
        Nat.not_lt.mpr hle ((h.cells _).mp hsome)
    rw [storing, List.map_append]
    exact .after _ hu.line hu.slots (.head (Machine.effect_store_outOfBounds hu.value hx hnone))
  · obtain ⟨fault, hstop⟩ := stops_address (f := g) h.several h.size h.slot hrecords.slot hrow hcol
      hundef fun v hv => hnew v (List.mem_append_left [o.value] hv)
    refine ⟨fault, Function.Stops.breaks ?_ hstraight hcallee⟩
    rw [storing, List.map_append]
    exact hstop.append

end Runs

end Pending

theorem reloads {s : Scratch} (hid : s.target.id < idLimit)
    (hsize : s.element.rows * s.element.cols < idLimit) (k : Nat) : s.Reloads k := by
  intro g func next m hfault htyped hslotTy hlt hslot hcells
  obtain ⟨hcols, hcode, -⟩ := epilogue_eq hfault
  rw [hcode] at htyped ⊢
  have hloaded : ∀ c ∈ s.element.positions.map fun p => (s, p),
      c.1.Loaded g m next c.2 ((m.cell? k (s.index c.2)).getD .undef) := by
    intro c hc
    obtain ⟨p, hp, rfl⟩ := List.mem_map.mp hc
    obtain ⟨y, hy⟩ := Option.isSome_iff_exists.mp (hcells _ (index_lt hp))
    obtain ⟨hr, hc, -⟩ := lt_of_mem_positions hp hsize
    refine ⟨hp, hsize, ⟨hid, hr, ?_⟩, hslotTy, hlt, k, hslot, by rw [hy]; rfl⟩
    exact Nat.lt_of_lt_of_le (Element.mem_positions.mp hp).2 hcols
  obtain ⟨m', hline, hslots, houtputs⟩ := line_flush hloaded htyped
  refine ⟨m', Function.passes_of_line (fresh_flush _ next).straight_instrs hline, hslots, ?_⟩
  rw [houtputs, List.map_map]
  congr 1
  refine List.map_congr_left fun p hp => ?_
  rw [linear_ofNat hp hsize]
  rfl

/-- A store to a slot with several cells is executed as a store to the cell of its row and its
column. -/
theorem stores_of_pending {s : Scratch} {f : Function} {o : OutputStore} {m : Machine} {k : Nat}
    {x : Value} (h : s.Pending f o m k x) :
    ∃ code next, s.lowerStore f o = ⟨code, next, none⟩ ∧
      (∀ b p, s.Records (f.emit b p code next) o code) ∧
      (∀ g, s.Records g o code → s.Stores g o code m k x) ∧
      (∀ n c, s.element.Has n c → s.linear n c < s.element.rows * s.element.cols ∧
        (s.linear n c : Int) = n.toInt * s.element.cols + c.toInt) ∧
      (∀ n c n' c', s.element.Has n c → s.element.Has n' c' → s.linear n c = s.linear n' c' →
        n = n' ∧ c = c') ∧
      s.Reloads k := by
  obtain ⟨width, hlower⟩ := h.exists_storing
  have hnew := h.new
  rw [hlower] at hnew
  have hfresh := s.fresh_storing o width f.nextValue
  have haddress : ∀ v ∈ [s.slot, o.row, o.column, o.value],
      v ∉ results (s.address o.row o.column width f.nextValue).code := fun v hv hmem =>
    hnew v hv (by rw [storing, results_append]; exact List.mem_append_left _ hmem)
  refine ⟨_, _, hlower, fun b p => ⟨Function.typed_emit hfresh b p, ?_, ?_⟩,
    fun g hg => h.stores haddress hg, fun n c hc => linear_of_has h.size hc,
    fun n c n' c' hc hc' => linear_inj h.size hc hc', reloads h.id h.size k⟩
  · exact (Function.typeOf?_emit_of_notMem (hnew _ (by simp)) b p _).trans h.slotTy
  · exact (Function.typeOf?_emit_of_notMem (hnew _ (by simp)) b p _).trans h.rowTy

end Scratch

namespace Preserve

def sparseSlot : Scratch := ⟨⟨0, .output, ⟨"A", 1, 2, .i32⟩⟩, ⟨5⟩⟩

def sparseStored : OutputStore := ⟨⟨5⟩, .storeOutput, 0, ⟨2⟩, ⟨3⟩, ⟨4⟩⟩

/-- A state in which neither the row nor the column is one of the element. -/
def astray : Machine :=
  (Machine.initial.allocate ⟨5⟩ 2).bindAll [(⟨2⟩, .int (-1)), (⟨3⟩, .int 3), (⟨4⟩, .int 7)]

theorem pending_astray :
    sparseSlot.Pending (allocateSlots sparse [sparseSlot]) sparseStored astray 0 (.int 7) where
  several := rfl
  id := by decide
  cols := by decide
  size := by decide
  slotTy := rfl
  rowTy := rfl
  columnTy := ⟨.i8, rfl, rfl⟩
  new := by decide
  slot := rfl
  cells i := by
    have hcell : astray.cell? 0 i = (Array.replicate 2 Value.undef)[i]? := rfl
    rw [hcell, Array.getElem?_replicate, Option.isSome_ite]
    rfl
  value := rfl

/-- The cell of row `-1` and column `3` is the second one of two. -/
theorem astray_stores :
    let l := sparseSlot.lowerStore (allocateSlots sparse [sparseSlot]) sparseStored
    ∃ m', ((allocateSlots sparse [sparseSlot]).emit .entry 6 l.code l.next).Passes astray
        (l.code.map Draft.instr) m' ∧
      m'.cell? 0 0 = some .undef ∧ m'.cell? 0 1 = some (.int 7) := by
  intro l
  obtain ⟨code, next, hlower, hrecords, hstores, -⟩ := Scratch.stores_of_pending pending_astray
  have hlinear : sparseSlot.linear (-1) 3 = 1 := by decide
  obtain ⟨m', hpasses, hcells⟩ := (hstores _ (hrecords .entry 6)).inside (-1) 3 rfl rfl
    (by rw [hlinear]; decide)
  rw [hlinear] at hcells
  have hl : l = ⟨code, next, none⟩ := hlower
  rw [hl]
  exact ⟨m', hpasses, hcells 0 0, hcells 0 1⟩

end Preserve

end ShaderIR
