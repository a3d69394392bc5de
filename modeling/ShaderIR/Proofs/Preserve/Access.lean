import ShaderIR.Proofs.Preserve.Lifetime

/-!
# How code accesses a slot

The lowered form of an output store and a component of an epilogue have the same shape: code
that computes an address, and one instruction that loads or stores through it. Neither the slot
nor the address is named by anything else there.
-/

set_option autoImplicit false

namespace ShaderIR

/-- The uses of a value among some instructions: each instruction that names it, with the number of
the operand at which it does. -/
def usesIn (v : ValueId) (is : List (InstrId × Instr)) : List ((InstrId × Instr) × Nat) :=
  is.flatMap fun q => (q.2.operands.idxsOf v).map fun k => (q, k)

def Function.uses (g : Function) (v : ValueId) : List ((InstrId × Instr) × Nat) := usesIn v g.instrs

section Uses

variable {v : ValueId} {is js : List (InstrId × Instr)}

theorem mem_usesIn {u : (InstrId × Instr) × Nat} :
    u ∈ usesIn v is ↔ u.1 ∈ is ∧ u.1.2.operands[u.2]? = some v := by
  obtain ⟨q, k⟩ := u
  simp only [usesIn, List.mem_flatMap, List.mem_map, List.mem_idxsOf_iff_exists_getElem_pos,
    beq_iff_eq, Prod.mk.injEq, List.getElem?_eq_some_iff]
  constructor
  · rintro ⟨q', hq', k', hk', rfl, rfl⟩
    exact ⟨hq', hk'⟩
  · rintro ⟨hq, hk⟩
    exact ⟨q, hq, k, hk, rfl, rfl⟩

theorem usesIn_append : usesIn v (is ++ js) = usesIn v is ++ usesIn v js :=
  List.flatMap_append

theorem usesIn_eq_nil (h : ∀ q ∈ is, v ∉ q.2.operands) : usesIn v is = [] := by
  refine List.eq_nil_iff_forall_not_mem.mpr fun u hu => ?_
  obtain ⟨hmem, hop⟩ := mem_usesIn.mp hu
  exact h u.1 hmem (List.mem_of_getElem? hop)

theorem usesIn_placed_eq_nil {start : Nat} {code : List Draft}
    (h : ∀ d ∈ code, v ∉ d.instr.operands) : usesIn v (placed start code) = [] := by
  refine usesIn_eq_nil fun q hq => ?_
  obtain ⟨d, hd, heq⟩ := exists_draft hq
  rw [← heq]
  exact h d hd

theorem usesIn_singleton {q : InstrId × Instr} {rest : List ValueId}
    (h : q.2.operands = v :: rest) (hv : v ∉ rest) : usesIn v [q] = [(q, 0)] := by
  have hrest : rest.idxsOf v 1 = [] :=
    List.idxsOf_eq_nil_iff.mpr fun y hy => beq_eq_false_iff_ne.mpr (ne_of_mem_of_not_mem hy hv)
  simp [usesIn, h, List.idxsOf_cons, hrest]

end Uses

namespace Instr

def allocates : Instr → Bool
  | alloca .. => true
  | _ => false

theorem allocates_of_computes {ins : Instr} (h : ins.computes = true) : ins.allocates = false := by
  cases ins <;> simp_all [computes, allocates]

end Instr

namespace Scratch

/-- An address in a slot with several cells: the code for it ends with a step from the slot, by a
constant zero and an index, and does not name the slot, or the address, before that. -/
structure Ends (s : Scratch) (inputs : List ValueId) (next : Nat) (a : Computed)
    (init : List Draft) (zero index : ValueId) : Prop where
  code : a.code = init ++ [.gep a.value s.slot [zero, index] (.pointer s.ty)]
  const : .constInt zero 0 .i32 ∈ init
  add : ∃ lhs rhs, .binary index .add lhs rhs .i32 ∈ init
  steps : ∀ v ∈ [zero, index], next ≤ v.index ∧ v.index < a.value.index
  init : ∀ d ∈ init, ∀ v ∈ d.instr.operands,
    v ∈ inputs ∨ next ≤ v.index ∧ v.index < a.value.index
  next : a.next = a.value.index + 1

theorem operands_toI32 (v : ValueId) (width next : Nat) : next ≤ (toI32 v width next).next ∧
    ((toI32 v width next).value = v ∨ next ≤ (toI32 v width next).value.index ∧
      (toI32 v width next).value.index < (toI32 v width next).next) ∧
    ∀ d ∈ (toI32 v width next).code, ∀ u ∈ d.instr.operands, u = v := by
  unfold toI32
  split
  · simp [Draft.cast, Instr.operands]
  · split <;> simp [Draft.cast, Instr.operands]

theorem exists_ends {s : Scratch} (hs : s.element.isSingle = false) (row column : ValueId)
    (width next : Nat) : ∃ init zero index,
      s.Ends [row, column] next (s.address row column width next) init zero index := by
  obtain ⟨hle, hvalue, hoperands⟩ := operands_toI32 column width (next + 2)
  rw [address_of_not_single hs]
  generalize toI32 column width (next + 2) = c at hle hvalue hoperands
  refine ⟨(s.rowOffset row next).code ++ c.code ++
    [.binary ⟨c.next⟩ .add ⟨next + 1⟩ c.value .i32, .constInt ⟨c.next + 1⟩ 0 .i32],
    ⟨c.next + 1⟩, ⟨c.next⟩, by simp, by simp, ⟨⟨next + 1⟩, c.value, by simp⟩, ?_, ?_, rfl⟩
  · simp only [List.mem_cons, List.not_mem_nil, or_false, forall_eq_or_imp, forall_eq]
    omega
  · intro d hd v hv
    simp only [rowOffset, List.mem_append, List.mem_cons, List.not_mem_nil, or_false] at hd
    rcases hd with ((rfl | rfl) | hd) | rfl | rfl
    · cases hv
    · simp only [Draft.binary, Instr.operands, List.mem_cons, List.not_mem_nil, or_false] at hv
      rcases hv with rfl | rfl
      · exact Or.inl List.mem_cons_self
      · exact Or.inr ⟨Nat.le_refl _, by simp only; omega⟩
    · exact Or.inl (by simp [hoperands d hd v hv])
    · simp only [Draft.binary, Instr.operands, List.mem_cons, List.not_mem_nil, or_false] at hv
      rcases hv with rfl | rfl
      · exact Or.inr ⟨by simp only; omega, by simp only; omega⟩
      · rcases hvalue with heq | ⟨hge, hlt⟩
        · exact Or.inl (by simp [heq])
        · exact Or.inr ⟨by omega, by simp only; omega⟩
    · cases hv

theorem address_of_single {s : Scratch} (hs : s.element.isSingle = true) (row column : ValueId)
    (width next : Nat) : (s.address row column width next).code = [] ∧
      (s.address row column width next).value = s.slot := by
  rw [address, if_pos hs]
  exact ⟨rfl, rfl⟩

theorem value_address (s : Scratch) (row column : ValueId) (width next : Nat) :
    (s.address row column width next).value = s.slot ∨
      next ≤ (s.address row column width next).value.index ∧
        (s.address row column width next).value.index < (s.address row column width next).next := by
  cases hs : s.element.isSingle with
  | true => exact Or.inl (address_of_single hs row column width next).2
  | false =>
    obtain ⟨init, zero, index, hends⟩ := exists_ends hs row column width next
    have hstep := hends.steps zero List.mem_cons_self
    have hnext := hends.next
    exact Or.inr (by omega)

/-- The value is neither one of the slots, which are the values from `low` up to `base`, nor a
certain address. -/
def Apart (low base : Nat) (address v : ValueId) : Prop :=
  (v.index < low ∨ base ≤ v.index) ∧ v ≠ address

/-- Code that accesses a component of a slot: it computes the address from some inputs, and one
instruction names it, to load or to store through it. Nothing else names a slot or the address. -/
structure Accessing (s : Scratch) (low base : Nat) (inputs : List ValueId) (next : Nat)
    (a : Computed) (pre : List Draft) (access : Draft) (post : List Draft) : Prop where
  slot : low ≤ s.slot.index ∧ s.slot.index < base
  le : base ≤ next
  apart : ∀ v ∈ inputs, v.index < next ∧ (v.index < low ∨ base ≤ v.index)
  value : a.value = s.slot ∨ next ≤ a.value.index ∧ a.value.index < a.next
  single : s.element.isSingle = true → a.code = [] ∧ a.value = s.slot
  array : s.element.isSingle = false → ∃ init zero index, s.Ends inputs next a init zero index
  accessed : access.instr.accessed? = some a.value
  named : ∃ rest, access.instr.operands = a.value :: rest ∧ ∀ v ∈ rest, Apart low base a.value v
  others : ∀ d ∈ pre ++ post, ∀ v ∈ d.instr.operands, Apart low base a.value v

namespace Accessing

variable {s : Scratch} {low base next : Nat} {inputs : List ValueId} {a : Computed}
  {pre post : List Draft} {access : Draft}
  (h : s.Accessing low base inputs next a pre access post)
include h

theorem apart_init {init : List Draft} {zero index : ValueId}
    (hends : s.Ends inputs next a init zero index) {d : Draft} (hd : d ∈ init) {v : ValueId}
    (hv : v ∈ d.instr.operands) : Apart low base a.value v := by
  have hle := h.le
  have hlt := hends.steps zero List.mem_cons_self
  rcases hends.init d hd v hv with hmem | hrange
  · obtain ⟨hnext, hapart⟩ := h.apart v hmem
    exact ⟨hapart, fun heq => by rw [heq] at hnext; omega⟩
  · exact ⟨by omega, fun heq => by rw [heq] at hrange; omega⟩

theorem code_range {d : Draft} (hd : d ∈ a.code) {v : ValueId} (hv : v ∈ d.instr.operands)
    (hbase : base ≤ v.index) : v ∈ inputs ∨ next ≤ v.index ∧ v.index < a.next := by
  cases hs : s.element.isSingle with
  | true =>
    rw [(h.single hs).1] at hd
    cases hd
  | false =>
    obtain ⟨init, zero, index, hends⟩ := h.array hs
    have hnext := hends.next
    rw [hends.code] at hd
    rcases List.mem_append.mp hd with hd | hd
    · refine (hends.init d hd v hv).imp_right fun hrange => ?_
      omega
    · cases List.mem_singleton.mp hd
      rcases List.mem_cons.mp hv with rfl | hv
      · exact absurd h.slot.2 (Nat.not_lt.mpr hbase)
      · have hstep := hends.steps v hv
        exact Or.inr (by omega)

theorem value_ne_slot (hs : s.element.isSingle = false) : a.value ≠ s.slot := by
  obtain ⟨init, zero, index, hends⟩ := h.array hs
  have hstep := hends.steps zero List.mem_cons_self
  have hslot := h.slot
  have hle := h.le
  intro heq
  rw [heq] at hstep
  omega

theorem notMem_code (hs : s.element.isSingle = false) {d : Draft} (hd : d ∈ a.code) :
    a.value ∉ d.instr.operands := by
  obtain ⟨init, zero, index, hends⟩ := h.array hs
  intro hmem
  rw [hends.code] at hd
  rcases List.mem_append.mp hd with hd | hd
  · exact (h.apart_init hends hd hmem).2 rfl
  · cases List.mem_singleton.mp hd
    have hslot := h.slot.2
    have hle := h.le
    have hzero := hends.steps zero List.mem_cons_self
    rcases List.mem_cons.mp hmem with heq | hstep
    · rw [heq] at hzero
      omega
    · exact Nat.lt_irrefl _ (hends.steps a.value hstep).2

theorem usesIn_value (hs : s.element.isSingle = false) (start : Nat) : ∃ i,
    (i, access.instr) ∈ placed start (pre ++ a.code ++ access :: post) ∧
      usesIn a.value (placed start (pre ++ a.code ++ access :: post)) =
        [((i, access.instr), 0)] := by
  obtain ⟨rest, hops, hrest⟩ := h.named
  have hothers : ∀ d ∈ pre ++ post, a.value ∉ d.instr.operands :=
    fun d hd hmem => (h.others d hd _ hmem).2 rfl
  have hbefore : ∀ d ∈ pre ++ a.code, a.value ∉ d.instr.operands := by
    intro d hd
    rcases List.mem_append.mp hd with hd | hd
    · exact hothers d (List.mem_append_left _ hd)
    · exact h.notMem_code hs hd
  rw [placed_append, placed_cons]
  refine ⟨_, List.mem_append_right _ List.mem_cons_self, ?_⟩
  rw [usesIn_append, usesIn_placed_eq_nil hbefore, List.nil_append, ← List.singleton_append,
    usesIn_append, usesIn_singleton hops fun hmem => (hrest _ hmem).2 rfl, usesIn_placed_eq_nil,
    List.append_nil]
  exact fun d hd => hothers d (List.mem_append_right _ hd)

/-- A slot is named by the access, if it has a single component, and by the step at the end of the
code for the address otherwise. -/
theorem eq_of_operand {v : ValueId} (hv : low ≤ v.index ∧ v.index < base) {d : Draft}
    (hd : d ∈ pre ++ a.code ++ access :: post) {k : Nat} (hk : d.instr.operands[k]? = some v) :
    v = s.slot ∧ k = 0 ∧ (s.element.isSingle = true ∧ d = access ∨
      s.element.isSingle = false ∧ ∃ zero index,
        d = .gep a.value s.slot [zero, index] (.pointer s.ty) ∧
        .constInt zero 0 .i32 ∈ a.code ∧ ∃ lhs rhs, .binary index .add lhs rhs .i32 ∈ a.code) := by
  have hmem := List.mem_of_getElem? hk
  have hnot : ¬Apart low base a.value v := fun hapart => by
    have := hapart.1
    omega
  rcases List.mem_append.mp hd with hd | hd
  · rcases List.mem_append.mp hd with hd | hd
    · exact absurd (h.others d (List.mem_append_left _ hd) v hmem) hnot
    · cases hs : s.element.isSingle with
      | true =>
        rw [(h.single hs).1] at hd
        cases hd
      | false =>
        obtain ⟨init, zero, index, hends⟩ := h.array hs
        rw [hends.code] at hd
        rcases List.mem_append.mp hd with hd | hd
        · exact absurd (h.apart_init hends hd hmem) hnot
        · cases List.mem_singleton.mp hd
          have hcode : ∀ d ∈ init, d ∈ a.code := fun d hd =>
            hends.code ▸ List.mem_append_left _ hd
          obtain ⟨lhs, rhs, hadd⟩ := hends.add
          cases k with
          | zero =>
            exact ⟨(Option.some.inj hk).symm, rfl, Or.inr ⟨rfl, zero, index, rfl,
              hcode _ hends.const, lhs, rhs, hcode _ hadd⟩⟩
          | succ k =>
            have hstep := hends.steps v (List.mem_of_getElem? hk)
            have hle := h.le
            omega
  · rcases List.mem_cons.mp hd with rfl | hd
    · obtain ⟨rest, hops, hrest⟩ := h.named
      rw [hops] at hk
      cases k with
      | zero =>
        obtain rfl : a.value = v := Option.some.inj hk
        cases hs : s.element.isSingle with
        | true => exact ⟨(h.single hs).2, rfl, Or.inl ⟨rfl, rfl⟩⟩
        | false =>
          obtain ⟨init, zero, index, hends⟩ := h.array hs
          have hstep := hends.steps zero List.mem_cons_self
          have hle := h.le
          omega
      | succ k => exact absurd (hrest v (List.mem_of_getElem? hk)) hnot
    · exact absurd (h.others d (List.mem_append_right _ hd) v hmem) hnot

end Accessing

theorem operands_constants (s : Scratch) (p : Nat × Nat) (next : Nat) :
    ∀ d ∈ s.constants p next, d.instr.operands = [] := by
  simp [constants, Draft.constInt, Instr.operands]

theorem allocates_storing (s : Scratch) (o : OutputStore) (width next : Nat) :
    ∀ d ∈ s.storing o width next, d.instr.allocates = false := by
  intro d hd
  rcases List.mem_append.mp hd with hd | hd
  · exact Instr.allocates_of_computes (s.computes_address _ _ _ _ d hd)
  · cases List.mem_singleton.mp hd
    rfl

theorem allocates_component (s : Scratch) (p : Nat × Nat) (next : Nat) :
    ∀ d ∈ (s.emission p next).code, d.instr.allocates = false := by
  intro d hd
  rw [code_emission] at hd
  rcases List.mem_append.mp hd with hd | hd
  · rcases List.mem_append.mp hd with hd | hd
    · exact Instr.allocates_of_computes (s.computes_constants p next d hd)
    · exact Instr.allocates_of_computes (s.computes_address ⟨next + 2⟩ ⟨next + 3⟩ 8 (next + 4) d hd)
  · simp only [List.mem_cons, List.not_mem_nil, or_false] at hd
    rcases hd with rfl | rfl <;> rfl

section Code

variable {s : Scratch} {low base : Nat} (hslot : low ≤ s.slot.index ∧ s.slot.index < base)
include hslot

theorem accessing_storing {o : OutputStore} (hrow : o.row.index < low)
    (hcolumn : o.column.index < low) (hvalue : o.value.index < low) (width : Nat) {next : Nat}
    (hnext : base ≤ next) :
    s.Accessing low base [o.row, o.column] next (s.address o.row o.column width next) []
      (.store o.value (s.address o.row o.column width next).value) [] := by
  have haddress := s.value_address o.row o.column width next
  refine ⟨hslot, hnext, ?_, haddress, (address_of_single · _ _ _ _), (exists_ends · _ _ _ _), rfl,
    ⟨[o.value], rfl, ?_⟩, by simp⟩
  · simp only [List.mem_cons, List.not_mem_nil, or_false, forall_eq_or_imp, forall_eq]
    omega
  · intro v hv
    cases List.mem_singleton.mp hv
    refine ⟨Or.inl hvalue, fun heq => ?_⟩
    rw [heq] at hvalue
    rcases haddress with heq | hrange
    · rw [heq] at hvalue
      omega
    · omega

theorem accessing_component (p : Nat × Nat) {next : Nat} (hnext : base ≤ next) :
    s.Accessing low base [⟨next + 2⟩, ⟨next + 3⟩] (next + 4) (s.source next) (s.constants p next)
      (.load ⟨(s.source next).next⟩ (s.source next).value s.ty) [s.storeCall next] := by
  have haddress := s.value_address ⟨next + 2⟩ ⟨next + 3⟩ 8 (next + 4)
  rw [← source] at haddress
  refine ⟨hslot, by omega, ?_, haddress, (address_of_single · _ _ _ _), (exists_ends · _ _ _ _),
    rfl, ⟨[], rfl, by simp⟩, ?_⟩
  · simp only [List.mem_cons, List.not_mem_nil, or_false, forall_eq_or_imp, forall_eq]
    omega
  · intro d hd v hv
    rcases List.mem_append.mp hd with hd | hd
    · rw [s.operands_constants p next d hd] at hv
      cases hv
    · cases List.mem_singleton.mp hd
      have hle := (s.fresh_source next).le
      have hrange : next ≤ v.index ∧ (v.index < next + 4 ∨ v.index = (s.source next).next) := by
        simp only [storeCall, Draft.call, Instr.operands, List.mem_cons, List.not_mem_nil,
          or_false] at hv
        rcases hv with rfl | rfl | rfl | rfl | rfl <;> simp only [or_true, and_true] <;> omega
      refine ⟨Or.inr (by omega), fun heq => ?_⟩
      rw [heq] at hrange
      rcases haddress with heq | hin
      · rw [heq] at hrange
        omega
      · omega

end Code

/-- A use of a pointer, by a new instruction, to load or to store through it. -/
structure Accesses (f : Function) (ptr : ValueId) (u : (InstrId × Instr) × Nat) : Prop where
  new : f.arena.size ≤ u.1.1.index
  operand : u.2 = 0
  accessed : u.1.2.accessed? = some ptr

/-- A use of a slot, by a new instruction, to step to one of its cells. -/
structure Steps (f g : Function) (s : Scratch) (address : ValueId) (u : (InstrId × Instr) × Nat) :
    Prop where
  new : f.arena.size ≤ u.1.1.index
  operand : u.2 = 0
  step : ∃ zero index, u.1.2 = .gep address s.slot [zero, index] true (.pointer s.ty) ∧
    g.IsConst zero 0 .i32 ∧ g.typeOf? index = some .i32

end Scratch

end ShaderIR
