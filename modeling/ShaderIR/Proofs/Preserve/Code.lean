import ShaderIR.Preserve.Epilogue
import ShaderIR.Proofs.Function.Extension
import ShaderIR.Proofs.Intrinsic

/-!
# The code of the redirection

The redirection of output stores places code of two kinds: in place of an output store it
stores to a slot, and before a return it loads the components of the slots and stores them
to the output. Both define fresh values only.
-/

set_option autoImplicit false

namespace ShaderIR

namespace Instr

/-- Whether an instruction only computes a value: a constant, or from its operands. -/
def computes : Instr → Bool
  | constInt .. | binary .. | cast .. | gep .. => true
  | _ => false

theorem callee?_of_computes {ins : Instr} (h : ins.computes = true) : ins.callee? = none := by
  cases ins <;> simp_all [computes, callee?]

theorem result?_of_computes {ins : Instr} (h : ins.computes = true) :
    ins.result?.isSome = true := by
  cases ins <;> simp_all [computes, result?]

end Instr

namespace Scratch

theorem fresh_alloca (next : Nat) (ts : List Target) :
    Fresh next ((allot next ts).map alloca) (next + ts.length) := by
  induction ts generalizing next with
  | nil => exact Fresh.nil next
  | cons t ts ih =>
    have h := ih (next + 1)
    rw [Nat.add_right_comm] at h
    exact h.cons rfl rfl rfl

theorem results_alloca (slots : List Scratch) : results (slots.map alloca) = slots.map slot := by
  induction slots with
  | nil => rfl
  | cons s slots ih =>
    rw [List.map_cons, results_cons, ih]
    rfl

theorem fresh_toI32 (v : ValueId) (width next : Nat) :
    Fresh next (toI32 v width next).code (toI32 v width next).next := by
  unfold toI32
  split
  · exact (Fresh.nil (next + 1)).cons rfl rfl rfl
  · split
    · exact (Fresh.nil (next + 1)).cons rfl rfl rfl
    · exact Fresh.nil next

theorem address_of_not_single {s : Scratch} (hs : s.element.isSingle = false)
    (row column : ValueId) (width next : Nat) :
    s.address row column width next =
      let j := (toI32 column width (next + 2)).next
      ⟨(s.rowOffset row next).code ++ (toI32 column width (next + 2)).code ++
        [.binary ⟨j⟩ .add ⟨next + 1⟩ (toI32 column width (next + 2)).value .i32,
          .constInt ⟨j + 1⟩ 0 .i32, .gep ⟨j + 2⟩ s.slot [⟨j + 1⟩, ⟨j⟩] (.pointer s.ty)],
        ⟨j + 2⟩, j + 3⟩ := by
  rw [address, if_neg (by simp [hs])]
  rfl

theorem fresh_rowOffset (s : Scratch) (row : ValueId) (next : Nat) :
    Fresh next (s.rowOffset row next).code (next + 2) :=
  ((Fresh.nil (next + 2)).cons rfl rfl rfl).cons rfl rfl rfl

theorem fresh_address (s : Scratch) (row column : ValueId) (width next : Nat) :
    Fresh next (s.address row column width next).code (s.address row column width next).next := by
  unfold address
  split
  · exact Fresh.nil next
  · have hcolumn := fresh_toI32 column width (next + 2)
    refine ((s.fresh_rowOffset row next).append hcolumn).append ?_
    exact (((Fresh.nil _).cons rfl rfl rfl).cons rfl rfl rfl).cons rfl rfl rfl

theorem computes_address (s : Scratch) (row column : ValueId) (width next : Nat) :
    ∀ d ∈ (s.address row column width next).code, d.instr.computes = true := by
  have htoI32 : ∀ d ∈ (toI32 column width (next + 2)).code, d.instr.computes = true := by
    unfold toI32
    split
    · simp [Draft.cast, Instr.computes]
    · split <;> simp [Draft.cast, Instr.computes]
  cases hs : s.element.isSingle with
  | true => simp [address, hs]
  | false =>
    rw [address_of_not_single hs]
    simp only [List.mem_append]
    rintro d ((hd | hd) | hd)
    · revert d
      simp [rowOffset, Draft.constInt, Draft.binary, Instr.computes]
    · exact htoI32 d hd
    · revert d
      simp [Draft.constInt, Draft.binary, Draft.gep, Instr.computes]

theorem callee?_address (s : Scratch) (row column : ValueId) (width next : Nat) :
    ∀ d ∈ (s.address row column width next).code, d.instr.callee? = none :=
  fun d hd => Instr.callee?_of_computes (s.computes_address row column width next d hd)

/-- The code that stands in place of an output store whose column has a given width. -/
def storing (s : Scratch) (o : OutputStore) (width next : Nat) : List Draft :=
  let a := s.address o.row o.column width next
  a.code ++ [.store o.value a.value]

theorem fresh_storing (s : Scratch) (o : OutputStore) (width next : Nat) :
    Fresh next (s.storing o width next) (s.address o.row o.column width next).next :=
  (s.fresh_address o.row o.column width next).append ((Fresh.nil _).cons_silent rfl rfl)

theorem callee?_storing (s : Scratch) (o : OutputStore) (width next : Nat) :
    ∀ d ∈ s.storing o width next, d.instr.callee? = none := by
  intro d hd
  rcases List.mem_append.mp hd with hd | hd
  · exact s.callee?_address _ _ _ _ d hd
  · cases List.mem_singleton.mp hd
    rfl

/-- What a function must have recorded for an output store to be lowered. -/
def Indexed (s : Scratch) (f : Function) (o : OutputStore) (width : Nat) : Prop :=
  s.element.isSingle = true ∨
    f.typeOf? o.row = some .i32 ∧ (f.typeOf? o.column).bind Ty.intWidth? = some width

theorem eq_i32_of_intWidth? {t : Ty} (h : t.intWidth? = some 32) : t = .i32 := by
  cases t with
  | scalar s => cases s <;> simp_all [Ty.intWidth?_scalar, Scalar.isInt, Scalar.width]
  | _ => simp [Ty.intWidth?, Ty.scalar?] at h

theorem lowerStore_eq {s : Scratch} {f : Function} {o : OutputStore}
    (hc : o.column.index < f.nextValue) (h : (s.lowerStore f o).fault = none) :
    ∃ width, s.Indexed f o width ∧ (s.lowerStore f o).code = s.storing o width f.nextValue ∧
      (s.lowerStore f o).next = (s.address o.row o.column width f.nextValue).next := by
  unfold lowerStore at h ⊢
  by_cases hs : s.element.isSingle = true
  · refine ⟨0, Or.inl hs, ?_, ?_⟩
    · simp [storing, address, hs]
    · simp [address, hs]
  · simp only [hs, Bool.false_eq_true, if_false] at h ⊢
    have hty : columnTy? f o.column f.nextValue = f.typeOf? o.column := by
      rw [columnTy?, if_neg (by omega)]
    cases hr : (f.typeOf? o.row).bind Ty.intWidth? with
    | none => simp [hr] at h
    | some width =>
      simp only [hr] at h ⊢
      split at h
      · next hw =>
        subst hw
        rw [hty] at h ⊢
        cases hcol : (f.typeOf? o.column).bind Ty.intWidth? with
        | none => simp [hcol] at h
        | some columnWidth =>
          obtain ⟨t, ht, hwidth⟩ := Option.bind_eq_some_iff.mp hr
          rw [eq_i32_of_intWidth? hwidth] at ht
          exact ⟨columnWidth, Or.inr ⟨ht, hcol⟩, rfl, rfl⟩
      · cases h

def constants (s : Scratch) (p : Nat × Nat) (next : Nat) : List Draft :=
  [.constInt ⟨next⟩ (Int64.ofNat s.target.opcode.value) .i32,
    .constInt ⟨next + 1⟩ (Int64.ofNat s.target.id) .i32,
    .constInt ⟨next + 2⟩ (Int64.ofNat p.1) .i32,
    .constInt ⟨next + 3⟩ (Int64.ofNat p.2) .i8]

theorem computes_constants (s : Scratch) (p : Nat × Nat) (next : Nat) :
    ∀ d ∈ s.constants p next, d.instr.computes = true := by
  simp [constants, Draft.constInt, Instr.computes]

def source (s : Scratch) (next : Nat) : Computed := s.address ⟨next + 2⟩ ⟨next + 3⟩ 8 (next + 4)

def emission (s : Scratch) (p : Nat × Nat) (next : Nat) : Lowered :=
  s.component s.target.intrinsic.name p.1 p.2 next

theorem code_emission (s : Scratch) (p : Nat × Nat) (next : Nat) :
    (s.emission p next).code = s.constants p next ++ (s.source next).code ++
      [.load ⟨(s.source next).next⟩ (s.source next).value s.ty,
        .call none s.target.intrinsic.name
          [⟨next⟩, ⟨next + 1⟩, ⟨next + 2⟩, ⟨next + 3⟩, ⟨(s.source next).next⟩] none] := rfl

theorem fresh_source (s : Scratch) (next : Nat) :
    Fresh (next + 4) (s.source next).code (s.source next).next :=
  s.fresh_address _ _ 8 (next + 4)

theorem fresh_emission (s : Scratch) (p : Nat × Nat) (next : Nat) :
    Fresh next (s.emission p next).code (s.emission p next).next := by
  have haddress := s.fresh_address ⟨next + 2⟩ ⟨next + 3⟩ 8 (next + 4)
  have hhead : Fresh next [.constInt ⟨next⟩ (Int64.ofNat s.target.opcode.value) .i32,
      .constInt ⟨next + 1⟩ (Int64.ofNat s.target.id) .i32,
      .constInt ⟨next + 2⟩ (Int64.ofNat p.1) .i32,
      .constInt ⟨next + 3⟩ (Int64.ofNat p.2) .i8] (next + 4) :=
    ((((Fresh.nil _).cons rfl rfl rfl).cons rfl rfl rfl).cons rfl rfl rfl).cons rfl rfl rfl
  exact (hhead.append haddress).append (((Fresh.nil _).cons_silent rfl rfl).cons rfl rfl rfl)

def cellsOf (slots : List Scratch) : List (Scratch × Nat × Nat) :=
  slots.flatMap fun s => s.element.positions.map fun p => (s, p)

/-- The code that stores some components to the output, and the next value after it. -/
def flush : List (Scratch × Nat × Nat) → Nat → List Draft × Nat
  | [], next => ([], next)
  | (s, p) :: rest, next =>
    let l := s.emission p next
    (l.code ++ (flush rest l.next).1, (flush rest l.next).2)

theorem flush_append (cs ds : List (Scratch × Nat × Nat)) (next : Nat) :
    flush (cs ++ ds) next =
      ((flush cs next).1 ++ (flush ds (flush cs next).2).1, (flush ds (flush cs next).2).2) := by
  induction cs generalizing next with
  | nil => rfl
  | cons c cs ih =>
    simp [flush, ih]

theorem fresh_flush (cs : List (Scratch × Nat × Nat)) (next : Nat) :
    Fresh next (flush cs next).1 (flush cs next).2 := by
  induction cs generalizing next with
  | nil => exact Fresh.nil next
  | cons c cs ih =>
    exact (c.1.fresh_emission c.2 next).append (ih _)

theorem components_eq_flush (s : Scratch) (ps : List (Nat × Nat)) (next : Nat) :
    s.components s.target.intrinsic.name ps next = flush (ps.map fun p => (s, p)) next := by
  induction ps generalizing next with
  | nil => rfl
  | cons p ps ih =>
    rw [List.map_cons, flush, ← ih]
    rfl

theorem epilogue_eq {s : Scratch} {func : String} {next : Nat}
    (h : (s.epilogue s.target.intrinsic.name func next).fault = none) :
    s.element.cols ≤ Element.columnLimit ∧
      (s.epilogue s.target.intrinsic.name func next).code =
        (flush (s.element.positions.map fun p => (s, p)) next).1 ∧
      (s.epilogue s.target.intrinsic.name func next).next =
        (flush (s.element.positions.map fun p => (s, p)) next).2 := by
  by_cases hle : s.element.cols ≤ Element.columnLimit
  · refine ⟨hle, ?_, ?_⟩ <;> rw [epilogue, if_pos hle, ← components_eq_flush]
  · simp [epilogue, hle] at h

end Scratch

/-- The intrinsic that the table hands out is the one of the element. -/
theorem emitEpilogue_cons (ret : InstrId) (s : Scratch) (rest : List Scratch) (f : Function)
    (m : Metadata) : emitEpilogue ret (s :: rest) f m =
      match f.position? ret with
      | none => (f, m, some (.internal f.name (.ret ret)))
      | some (b, k) =>
        let l := s.epilogue s.target.intrinsic.name f.name f.nextValue
        match l.fault with
        | some e => (f.emit b k l.code l.next, m.declare s.target.intrinsic, some e)
        | none => emitEpilogue ret rest (f.emit b k l.code l.next)
            (m.declare s.target.intrinsic) := by
  rewrite [emitEpilogue, Metadata.request_eq]
  rfl

end ShaderIR
