import ShaderIR.Proofs.Machine.Line

/-!
# Shifted slots

Two states may hold the same values but for the slots that pointers name: in one of them
some more slots come first. What an instruction does in one state, it does in the other, with
its pointers shifted.
-/

set_option autoImplicit false

namespace ShaderIR

namespace Value

/-- The value if `k` more slots come first. -/
def shift (k : Nat) : Value → Value
  | pointer slot offset => pointer (k + slot) offset
  | x => x

def isPointer : Value → Bool
  | pointer .. => true
  | _ => false

theorem shift_eq_self (k : Nat) {x : Value} (h : x.isPointer = false) : x.shift k = x := by
  cases x with
  | pointer slot offset => cases h
  | _ => rfl

end Value

def OutputRecord.shift (k : Nat) (r : OutputRecord) : OutputRecord :=
  { r with value := r.value.shift k }

def Effect.shift (k : Nat) : Effect → Effect
  | assign v x => assign v (x.shift k)
  | allocate v cells => allocate v cells
  | write slot offset x => write (k + slot) offset (x.shift k)
  | record r => record (r.shift k)
  | jump target bindings => jump target (bindings.map fun b => (b.1, b.2.shift k))
  | ret xs => ret (xs.map (Value.shift k))

namespace Arith

theorem isPointer_intBinary {op : BinaryOp} {width : Nat} {a b : Int64} {x : Value}
    (h : intBinary op width a b = some x) : x.isPointer = false := by
  cases op with
  | fadd => cases h
  | fsub => cases h
  | fmul => cases h
  | udiv =>
    cases h
    split <;> rfl
  | urem =>
    cases h
    split <;> rfl
  | _ =>
    cases h
    rfl

theorem isPointer_floatBinary {op : BinaryOp} {a b : Float} {x : Value}
    (h : floatBinary op a b = some x) : x.isPointer = false := by
  cases op with
  | fadd => cases h; rfl
  | fsub => cases h; rfl
  | fmul => cases h; rfl
  | _ => cases h

theorem binary?_shift (k : Nat) (op : BinaryOp) (width : Nat) (a b : Value) :
    binary? op width (a.shift k) (b.shift k) = binary? op width a b := by
  cases a <;> cases b <;> rfl

theorem isPointer_binary? {op : BinaryOp} {width : Nat} {a b x : Value}
    (h : binary? op width a b = some x) : x.isPointer = false := by
  unfold binary? at h
  split at h
  · cases h
    rfl
  · cases h
    rfl
  · exact isPointer_intBinary h
  · exact isPointer_floatBinary h
  · cases h

theorem binary_shift (k : Nat) {op : BinaryOp} {width : Nat} {a b x : Value}
    (h : binary op width a b = .ok x) :
    binary op width (a.shift k) (b.shift k) = .ok (x.shift k) := by
  unfold binary at h ⊢
  rw [binary?_shift]
  split at h
  · next y hy =>
    cases h
    rw [Value.shift_eq_self k (isPointer_binary? hy)]
  · cases h

theorem isPointer_cast {op : CastOp} {source target : Ty} {v x : Value}
    (h : cast op source target v = .ok x) : v.isPointer = false ∧ x.isPointer = false := by
  unfold cast at h
  split at h
  · cases h
    exact ⟨rfl, rfl⟩
  · obtain ⟨w, -, h⟩ := bind_eq_ok.mp h
    cases h
    exact ⟨rfl, rfl⟩
  · obtain ⟨w, -, h⟩ := bind_eq_ok.mp h
    cases h
    exact ⟨rfl, rfl⟩
  · obtain ⟨w, -, h⟩ := bind_eq_ok.mp h
    obtain ⟨w', -, h⟩ := bind_eq_ok.mp h
    cases h
    exact ⟨rfl, rfl⟩
  · obtain ⟨w, -, h⟩ := bind_eq_ok.mp h
    cases h
    exact ⟨rfl, rfl⟩
  · obtain ⟨w, -, h⟩ := bind_eq_ok.mp h
    cases h
    exact ⟨rfl, rfl⟩
  · cases h
    exact ⟨rfl, rfl⟩
  · cases h
    exact ⟨rfl, rfl⟩
  · cases h

theorem cast_shift (k : Nat) {op : CastOp} {source target : Ty} {v x : Value}
    (h : cast op source target v = .ok x) :
    cast op source target (v.shift k) = .ok (x.shift k) := by
  obtain ⟨hv, hx⟩ := isPointer_cast h
  rw [Value.shift_eq_self k hv, Value.shift_eq_self k hx, h]

theorem isPointer_floatConst {x : Float} {t : Ty} {v : Value} (h : floatConst x t = .ok v) :
    v.isPointer = false := by
  unfold floatConst at h
  split at h
  · cases h
    rfl
  · cases h
    rfl
  · cases h
    rfl
  · cases h

end Arith

namespace Machine

/-- The values below a bound are the same in `u` as in `s`, but `k` slots come first. -/
structure Shifted (k bound : Nat) (s u : Machine) : Prop where
  values : ∀ v : ValueId, v.index < bound → u.values[v]? = (s.values[v]?).map (Value.shift k)
  slots : ∀ j, u.slots[k + j]? = (s.slots[j]?).map (Array.map (Value.shift k))
  size : u.slots.size = k + s.slots.size

namespace Shifted

variable {k bound : Nat} {s u : Machine} (h : Shifted k bound s u)
include h

theorem get {v : ValueId} {x : Value} (hv : v.index < bound) (hx : s.get v = .ok x) :
    u.get v = .ok (x.shift k) := by
  rw [get_eq_ok] at hx ⊢
  rw [h.values v hv, hx]
  rfl

theorem int {v : ValueId} {n : Int64} (hv : v.index < bound) (hn : s.int v = .ok n) :
    u.int v = .ok n := by
  rw [int_eq_ok] at hn ⊢
  rw [h.values v hv, hn]
  rfl

theorem pointer {v : ValueId} {p : Nat × Nat} (hv : v.index < bound) (hp : s.pointer v = .ok p) :
    u.pointer v = .ok (k + p.1, p.2) := by
  rw [pointer_eq_ok] at hp ⊢
  rw [h.values v hv, hp]
  rfl

theorem cell? (slot offset : Nat) :
    u.cell? (k + slot) offset = (s.cell? slot offset).map (Value.shift k) := by
  rw [Machine.cell?, Machine.cell?, h.slots]
  cases s.slots[slot]? with
  | none => rfl
  | some cells => simp

theorem cell {slot offset : Nat} {x : Value} (hx : s.cell slot offset = .ok x) :
    u.cell (k + slot) offset = .ok (x.shift k) := by
  rw [cell_eq_ok] at hx ⊢
  rw [h.cell?, hx]
  rfl

theorem getAll {vs : List ValueId} {xs : List Value} (hv : ∀ v ∈ vs, v.index < bound)
    (hxs : s.getAll vs = .ok xs) : u.getAll vs = .ok (xs.map (Value.shift k)) := by
  induction vs generalizing xs with
  | nil =>
    cases hxs
    rfl
  | cons v vs ih =>
    obtain ⟨x, hx, hxs⟩ := bind_eq_ok.mp hxs
    obtain ⟨ys, hys, hxs⟩ := bind_eq_ok.mp hxs
    cases hxs
    exact bind_eq_ok.mpr ⟨_, h.get (hv v List.mem_cons_self) hx,
      bind_eq_ok.mpr ⟨_, ih (fun w hw => hv w (List.mem_cons_of_mem v hw)) hys, rfl⟩⟩

theorem index {v : ValueId} {n : Nat} (hv : v.index < bound) (hn : s.index v = .ok n) :
    u.index v = .ok n := by
  obtain ⟨i, hi, hn⟩ := bind_eq_ok.mp hn
  exact bind_eq_ok.mpr ⟨i, h.int hv hi, hn⟩

theorem select {t : Ty} {o o' : Nat} {vs : List ValueId} (hv : ∀ v ∈ vs, v.index < bound)
    (ho : s.select t o vs = .ok o') : u.select t o vs = .ok o' := by
  induction vs generalizing t o with
  | nil =>
    rw [Machine.select] at ho ⊢
    exact ho
  | cons v vs ih =>
    rw [Machine.select] at ho ⊢
    obtain ⟨n, hn, ho⟩ := bind_eq_ok.mp ho
    refine bind_eq_ok.mpr ⟨n, h.index (hv v List.mem_cons_self) hn, ?_⟩
    cases t with
    | array elem len =>
      obtain ⟨o₁, ho₁, ho⟩ := bind_eq_ok.mp ho
      exact bind_eq_ok.mpr ⟨o₁, ho₁, ih (fun w hw => hv w (List.mem_cons_of_mem v hw)) ho⟩
    | _ => cases ho

theorem offset {t : Ty} {o o' : Nat} {vs : List ValueId} (hv : ∀ v ∈ vs, v.index < bound)
    (ho : s.offset t o vs = .ok o') : u.offset t o vs = .ok o' := by
  unfold Machine.offset at ho ⊢
  split at ho
  · cases ho
  · cases vs with
    | nil => exact ho
    | cons v vs =>
      obtain ⟨n, hn, ho⟩ := bind_eq_ok.mp ho
      obtain ⟨o₁, ho₁, ho⟩ := bind_eq_ok.mp ho
      exact bind_eq_ok.mpr ⟨n, h.index (hv v List.mem_cons_self) hn, bind_eq_ok.mpr
        ⟨o₁, ho₁, h.select (fun w hw => hv w (List.mem_cons_of_mem v hw)) ho⟩⟩

theorem jump {f g : Function}
    (hblocks : ∀ b, (g.block? b).map Block.paramIds = (f.block? b).map Block.paramIds)
    {target : BlockId} {args : List ValueId} (hv : ∀ v ∈ args, v.index < bound) {e : Effect}
    (he : s.jump f target args = .ok e) : u.jump g target args = .ok (e.shift k) := by
  obtain ⟨blk, xs, hblk, hxs, rfl⟩ := jump_eq_ok.mp he
  have hparams := hblocks target
  rw [hblk, Option.map_some, Option.map_eq_some_iff] at hparams
  obtain ⟨blk', hblk', hids⟩ := hparams
  refine jump_eq_ok.mpr ⟨blk', _, hblk', h.getAll hv hxs, ?_⟩
  rw [hids, Effect.shift, List.zip_map_right]
  rfl

theorem call {callee : String} {args : List ValueId} (hv : ∀ v ∈ args, v.index < bound)
    {e : Effect} (he : s.call callee args = .ok e) : u.call callee args = .ok (e.shift k) := by
  obtain ⟨v, n, op, r, hname, hhead, hn, hop, hr, rfl⟩ := call_eq_ok.mp he
  obtain ⟨v', id, row, column, value, rest, n', rfl, hn', hid, hrop, hrow, hcolumn, hvalue⟩ :=
    outputRecord_eq_ok.mp hr
  have hint : ∀ w ∈ v' :: id :: row :: column :: value :: rest, ∀ a : Int64,
      s.values[w]? = some (.int a) → u.values[w]? = some (.int a) := by
    intro w hw a ha
    rw [h.values w (hv w hw), ha]
    rfl
  cases hhead
  refine call_eq_ok.mpr ⟨v, n, op, r.shift k, hname, rfl, hint v (by simp) n hn, hop,
    outputRecord_eq_ok.mpr ⟨v, id, row, column, value, rest, n', rfl, hint id (by simp) n' hn',
      hid, hrop, hint row (by simp) _ hrow, hint column (by simp) _ hcolumn, ?_⟩, rfl⟩
  rw [h.values value (hv value (by simp)), hvalue]
  rfl

theorem effect {f g : Function}
    (hblocks : ∀ b, (g.block? b).map Block.paramIds = (f.block? b).map Block.paramIds)
    {ins : Instr} (hops : ∀ v ∈ ins.operands, v.index < bound)
    (htypes : ∀ v ∈ ins.operands, ∀ x, s.values[v]? = some x → g.typeOf? v = f.typeOf? v)
    {e : Effect} (he : s.effect f ins = .ok e) : u.effect g ins = .ok (e.shift k) := by
  cases ins with
  | constInt r n ty =>
    obtain ⟨w, hw, he⟩ := bind_eq_ok.mp he
    cases he
    exact bind_eq_ok.mpr ⟨w, hw, rfl⟩
  | constFloat r x ty =>
    obtain ⟨y, hy, he⟩ := bind_eq_ok.mp he
    cases he
    refine bind_eq_ok.mpr ⟨y, hy, ?_⟩
    rw [Effect.shift, Value.shift_eq_self k (Arith.isPointer_floatConst (lift_eq_ok.mp hy))]
  | undef r ty =>
    cases he
    rfl
  | binary r op lhs rhs ty =>
    obtain ⟨a, ha, he⟩ := bind_eq_ok.mp he
    obtain ⟨b, hb, he⟩ := bind_eq_ok.mp he
    obtain ⟨x, hx, he⟩ := bind_eq_ok.mp he
    cases he
    have hl : lhs ∈ Instr.operands (.binary r op lhs rhs ty) := List.mem_cons_self
    have hr : rhs ∈ Instr.operands (.binary r op lhs rhs ty) :=
      List.mem_cons_of_mem _ List.mem_cons_self
    rw [← htypes lhs hl a (get_eq_ok.mp ha)] at hx
    exact bind_eq_ok.mpr ⟨_, h.get (hops lhs hl) ha, bind_eq_ok.mpr ⟨_, h.get (hops rhs hr) hb,
      bind_eq_ok.mpr ⟨_, lift_eq_ok.mpr (Arith.binary_shift k (lift_eq_ok.mp hx)), rfl⟩⟩⟩
  | cast r op v ty =>
    obtain ⟨a, ha, he⟩ := bind_eq_ok.mp he
    obtain ⟨x, hx, he⟩ := bind_eq_ok.mp he
    cases he
    have hv : v ∈ Instr.operands (.cast r op v ty) := List.mem_cons_self
    rw [Function.typeOf, ← htypes v hv a (get_eq_ok.mp ha)] at hx
    exact bind_eq_ok.mpr ⟨_, h.get (hops v hv) ha,
      bind_eq_ok.mpr ⟨_, lift_eq_ok.mpr (Arith.cast_shift k (lift_eq_ok.mp hx)), rfl⟩⟩
  | alloca r ty name =>
    simp only [Machine.effect] at he ⊢
    split at he
    · next n hn =>
      cases he
      rfl
    · cases he
  | gep r base indices inbounds ty =>
    obtain ⟨⟨slot, o⟩, hp, he⟩ := bind_eq_ok.mp he
    obtain ⟨o', ho, he⟩ := bind_eq_ok.mp he
    cases he
    have hb : base ∈ Instr.operands (.gep r base indices inbounds ty) := List.mem_cons_self
    rw [Function.typeOf, ← htypes base hb _ (pointer_eq_ok.mp hp)] at ho
    exact bind_eq_ok.mpr ⟨_, h.pointer (hops base hb) hp,
      bind_eq_ok.mpr ⟨_, h.offset (fun v hv => hops v (List.mem_cons_of_mem _ hv)) ho, rfl⟩⟩
  | load r ptr ty =>
    obtain ⟨⟨slot, o⟩, hp, he⟩ := bind_eq_ok.mp he
    obtain ⟨x, hx, he⟩ := bind_eq_ok.mp he
    cases he
    exact bind_eq_ok.mpr ⟨_, h.pointer (hops ptr List.mem_cons_self) hp,
      bind_eq_ok.mpr ⟨_, h.cell hx, rfl⟩⟩
  | store ptr value =>
    obtain ⟨⟨slot, o⟩, hp, he⟩ := bind_eq_ok.mp he
    obtain ⟨x, hx, he⟩ := bind_eq_ok.mp he
    obtain ⟨old, hold, he⟩ := bind_eq_ok.mp he
    cases he
    exact bind_eq_ok.mpr ⟨_, h.pointer (hops ptr List.mem_cons_self) hp, bind_eq_ok.mpr
      ⟨_, h.get (hops value (List.mem_cons_of_mem _ List.mem_cons_self)) hx,
        bind_eq_ok.mpr ⟨_, h.cell hold, rfl⟩⟩⟩
  | call r callee args ty => exact h.call hops he
  | br target args => exact h.jump hblocks hops he
  | condbr cond thenTo thenArgs elseTo elseArgs =>
    obtain ⟨x, hx, he⟩ := bind_eq_ok.mp he
    refine bind_eq_ok.mpr ⟨_, h.get (hops cond List.mem_cons_self) hx, ?_⟩
    have hargs : ∀ v ∈ thenArgs ++ elseArgs, v.index < bound := fun v hv =>
      hops v (List.mem_cons_of_mem _ hv)
    cases x with
    | int n =>
      dsimp only [Value.shift] at he ⊢
      split at he
      · next hn =>
        rw [if_pos hn]
        exact h.jump hblocks (fun v hv => hargs v (List.mem_append_right _ hv)) he
      · next hn =>
        rw [if_neg hn]
        exact h.jump hblocks (fun v hv => hargs v (List.mem_append_left _ hv)) he
    | _ => cases he
  | ret values =>
    obtain ⟨xs, hxs, he⟩ := bind_eq_ok.mp he
    cases he
    exact bind_eq_ok.mpr ⟨_, h.getAll hops hxs, rfl⟩

theorem bind (v : ValueId) (x : Value) : Shifted k bound (s.bind v x) (u.bind v (x.shift k)) where
  values w hw := by
    rw [values_bind, values_bind]
    split
    · rfl
    · exact h.values w hw
  slots := h.slots
  size := h.size

theorem bindAll (bs : List (ValueId × Value)) :
    Shifted k bound (s.bindAll bs) (u.bindAll (bs.map fun b => (b.1, b.2.shift k))) := by
  induction bs generalizing s u with
  | nil => exact h
  | cons b bs ih => exact ih (h.bind b.1 b.2)

theorem allocate (v : ValueId) (cells : Nat) :
    Shifted k bound (s.allocate v cells) (u.allocate v cells) where
  values w hw := by
    rw [values_allocate, values_allocate]
    split
    · rw [h.size]
      rfl
    · exact h.values w hw
  slots j := by
    rw [slots_allocate, slots_allocate, Array.getElem?_push, Array.getElem?_push, h.size]
    by_cases hj : j = s.slots.size
    · rw [if_pos (by omega), if_pos hj, Option.map_some, Array.map_replicate]
      rfl
    · rw [if_neg (by omega), if_neg hj]
      exact h.slots j
  size := by
    rw [slots_allocate, slots_allocate, Array.size_push, Array.size_push, h.size, Nat.add_assoc]

theorem write (slot offset : Nat) (x : Value) :
    Shifted k bound (s.write slot offset x) (u.write (k + slot) offset (x.shift k)) where
  values := h.values
  slots j := by
    rw [Machine.write, Machine.write, Array.getElem?_modify, Array.getElem?_modify]
    by_cases hj : slot = j
    · rw [if_pos (by omega), if_pos hj, h.slots]
      cases s.slots[j]? with
      | none => rfl
      | some cells => simp [Array.map_setIfInBounds]
    · rw [if_neg (by omega), if_neg hj]
      exact h.slots j
  size := by
    rw [Machine.write, Machine.write, Array.size_modify, Array.size_modify]
    exact h.size

theorem apply (e : Effect) : Shifted k bound (s.apply e) (u.apply (e.shift k)) := by
  cases e with
  | assign v x => exact h.bind v x
  | allocate v cells => exact h.allocate v cells
  | write slot offset x => exact h.write slot offset x
  | record r => exact ⟨h.values, h.slots, h.size⟩
  | jump target bindings => exact h.bindAll bindings
  | ret xs => exact h

omit h in
theorem values_apply (e : Effect) {v : ValueId} (hv : (s.apply e).values[v]? = none) :
    (u.apply (e.shift k)).values[v]? = u.values[v]? := by
  cases e with
  | assign r x =>
    have hne : r ≠ v := by
      rintro rfl
      rw [Machine.apply, values_bind, if_pos rfl] at hv
      cases hv
    show (u.bind r (x.shift k)).values[v]? = _
    rw [values_bind, if_neg hne]
  | allocate r cells =>
    have hne : r ≠ v := by
      rintro rfl
      rw [Machine.apply, values_allocate, if_pos rfl] at hv
      cases hv
    show (u.allocate r cells).values[v]? = _
    rw [values_allocate, if_neg hne]
  | jump target bs =>
    show (u.bindAll (bs.map fun b => (b.1, b.2.shift k))).values[v]? = _
    rcases values_bindAll u (bs.map fun b => (b.1, b.2.shift k)) v with ⟨hsame, -⟩ | ⟨x, hx, -⟩
    · exact hsame
    · obtain ⟨b, hb, heq⟩ := List.mem_map.mp hx
      cases heq
      have hmem : b.1 ∈ bs.map Prod.fst := List.mem_map_of_mem hb
      rcases values_bindAll s bs b.1 with ⟨-, hnot⟩ | ⟨y, -, hy⟩
      · exact absurd hmem hnot
      · cases hv.symm.trans hy
  | _ => rfl

theorem cell?_apply {i : Nat} (hi : i < k) (e : Effect) (o : Nat) :
    (u.apply (e.shift k)).cell? i o = u.cell? i o := by
  cases e with
  | assign v x => rfl
  | allocate v cells =>
    have hne : i ≠ u.slots.size := by
      rw [h.size]
      omega
    show ((u.allocate v cells).slots[i]?).bind _ = _
    rw [slots_allocate, Array.getElem?_push, if_neg hne]
    rfl
  | write slot offset x =>
    show (u.write (k + slot) offset (x.shift k)).cell? i o = _
    rw [cell?_write, if_neg]
    omega
  | record r => rfl
  | jump target bindings =>
    show ((u.bindAll _).slots[i]?).bind _ = _
    rw [slots_bindAll]
    rfl
  | ret xs => rfl

end Shifted

end Machine

end ShaderIR
