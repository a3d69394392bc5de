import ShaderIR.Proofs.Function.Parameters
import ShaderIR.Proofs.Function.WellFormed
import ShaderIR.Proofs.Machine.Address
import ShaderIR.Proofs.Machine.Shift
import ShaderIR.Proofs.Machine.Trace
import ShaderIR.Proofs.Machine.Word

/-!
# Soundness of types

The recorded type of a value says what a run may bind to it: an integer in the range of its
integer type, and a pointer to cells that hold what the type points to. The type that a slot was
allocated with says the same of its cells. An address may select in an aggregate and may even step
out of an inner array, but what is inside of all arrays does not change on the way. In a valid
function whose records agree with its instructions every step keeps to the types, so that integers
stay zero-extended.
-/

set_option autoImplicit false

namespace ShaderIR

namespace Ty

def element : Ty → Ty
  | array elem _ => elem.element
  | t => t

/-- The scalar inside of all arrays, and of all pointers as well if these count. -/
def innermost? (deep : Bool) : Ty → Option Scalar
  | void => none
  | scalar s => some s
  | array elem _ => elem.innermost? deep
  | pointer t => if deep then t.innermost? deep else none

/-- The integer fits the integer type that is inside of a type, if there is one. -/
def InRange (deep : Bool) (t : Ty) (n : Int64) : Prop :=
  ∀ s ∈ t.innermost? deep, s.isInt = true → Arith.Fits s.width n

variable {deep : Bool}

theorem scalar?_isSome {t : Ty} : t.scalar?.isSome = true ↔ ∃ s, t = scalar s := by
  cases t <;> simp [scalar?]

theorem innermost?_element (t : Ty) : t.element.innermost? deep = t.innermost? deep := by
  induction t with
  | array elem len ih => exact ih
  | _ => rfl

theorem element_descend {t u : Ty} {n : Nat} (h : t.descend n = some u) :
    u.element = t.element := by
  induction n generalizing t with
  | zero =>
    cases h
    rfl
  | succ n ih =>
    cases t with
    | array elem len => exact ih (t := elem) h
    | _ => cases h

theorem inRange_scalar {s : Scalar} (hs : s.isInt = true) {n : Int64} :
    (scalar s).InRange deep n ↔ Arith.Fits s.width n := by
  constructor
  · exact fun h => h s rfl hs
  · intro h s' hs' _
    cases hs'
    exact h

end Ty

namespace Value

/-- The value suits the type, where `σ` lists the types that the slots were allocated with: an
integer is in range, and a pointer leads to a slot of what its type points to, up to arrays. -/
def Suits (deep : Bool) (σ : List Ty) (t : Ty) : Value → Prop
  | int n => t.InRange deep n
  | pointer slot _ => ∀ u, t.element = .pointer u → ∃ ty ∈ σ[slot]?, ty.element = u.element
  | float _ => True
  | undef => True

variable {deep : Bool} {σ : List Ty} {t u : Ty} {x : Value}

theorem Suits.congr (h : x.Suits deep σ t) (heq : t.element = u.element) : x.Suits deep σ u := by
  cases x with
  | int n =>
    intro s hs
    rw [← Ty.innermost?_element, ← heq, Ty.innermost?_element] at hs
    exact h s hs
  | pointer slot offset =>
    intro w hw
    exact h w (heq.trans hw)
  | float y => trivial
  | undef => trivial

theorem Suits.append (h : x.Suits deep σ t) (τ : List Ty) : x.Suits deep (σ ++ τ) t := by
  cases x with
  | pointer slot offset =>
    intro u hu
    obtain ⟨ty, hty, heq⟩ := h u hu
    exact ⟨ty, List.getElem?_append_left (List.getElem?_eq_some_iff.mp hty).1 ▸ hty, heq⟩
  | _ => exact h

theorem suits_void (σ : List Ty) (x : Value) : x.Suits deep σ .void := by
  cases x with
  | int n => nofun
  | pointer slot offset => nofun
  | float y => trivial
  | undef => trivial

theorem suits_typeOf {f : Function} {v : ValueId} (hx : ∀ t ∈ f.typeOf? v, x.Suits deep σ t) :
    x.Suits deep σ (f.typeOf v) := by
  unfold Function.typeOf
  cases ht : f.typeOf? v with
  | none => exact suits_void σ x
  | some t => exact hx t ht

theorem suits_of_int (hx : x.isPointer = false) (h : ∀ n, x = .int n → t.InRange deep n) :
    x.Suits deep σ t := by
  cases x with
  | int n => exact h n rfl
  | pointer slot offset => cases hx
  | float y => trivial
  | undef => trivial

theorem Suits.descend {slot o o' n : Nat} (h : (pointer slot o).Suits deep σ (.pointer t))
    (hu : t.descend n = some u) : (pointer slot o').Suits deep σ (.pointer u) := by
  intro w hw
  cases hw
  obtain ⟨ty, hty, heq⟩ := h t rfl
  exact ⟨ty, hty, heq.trans (Ty.element_descend hu).symm⟩

end Value

namespace Arith

variable {deep : Bool}

theorem intWidth_eq_ok {t : Ty} {w : Nat} (h : intWidth t = .ok w) :
    ∃ s, t = .scalar s ∧ s.isInt = true ∧ w = s.width := by
  unfold intWidth at h
  split at h
  · next w' hw =>
    cases h
    obtain ⟨s, rfl, hs⟩ := Ty.isInt_iff.mp (by rw [Ty.isInt, hw]; rfl)
    rw [Ty.intWidth?_scalar, if_pos hs] at hw
    exact ⟨s, rfl, hs, (Option.some.inj hw).symm⟩
  · cases h

theorem inRange_low {t : Ty} {w : Nat} (h : intWidth t = .ok w) (n : Int64) :
    t.InRange deep (low w n) := by
  obtain ⟨s, rfl, hs, rfl⟩ := intWidth_eq_ok h
  exact (Ty.inRange_scalar hs).mpr (fits_low (width_le s) n)

theorem inRange_flag {b : Bool} {n : Int64} (h : flag b = .int n) : Ty.i1.InRange deep n := by
  refine (Ty.inRange_scalar rfl).mpr fun _ => ?_
  cases h
  cases b <;> decide

theorem intBinary_eq_int {op : BinaryOp} {width : Nat} {a b n : Int64}
    (h : intBinary op width a b = some (.int n)) :
    (op.isCompare = true ∧ ∃ c, flag c = .int n) ∨
      op.isCompare = false ∧ ∃ k, n = low width k := by
  cases op with
  | eq | ne | ult | slt => exact Or.inl ⟨rfl, _, Option.some.inj h⟩
  | udiv | urem =>
    have h := Option.some.inj h
    split at h
    · cases h
    · cases h
      exact Or.inr ⟨rfl, _, rfl⟩
  | fadd | fsub | fmul => cases h
  | _ =>
    cases h
    exact Or.inr ⟨rfl, _, rfl⟩

theorem binary?_eq_int {op : BinaryOp} {width : Nat} {x y : Value} {n : Int64}
    (h : binary? op width x y = some (.int n)) :
    (op.isCompare = true ∧ ∃ c, flag c = .int n) ∨
      op.isCompare = false ∧ ∃ k, n = low width k := by
  unfold binary? at h
  split at h
  · cases h
  · cases h
  · exact intBinary_eq_int h
  · unfold floatBinary at h
    split at h <;> cases h
  · cases h

theorem cast_eq_int {op : CastOp} {source target : Ty} {x : Value} {n : Int64}
    (h : cast op source target x = .ok (.int n)) :
    ∃ w k, intWidth target = .ok w ∧ n = low w k := by
  unfold cast at h
  split at h
  · cases h
  · obtain ⟨w, hw, h⟩ := bind_eq_ok.mp h
    cases h
    exact ⟨w, _, hw, rfl⟩
  · obtain ⟨w, hw, h⟩ := bind_eq_ok.mp h
    cases h
    exact ⟨w, _, hw, rfl⟩
  · obtain ⟨v, -, h⟩ := bind_eq_ok.mp h
    obtain ⟨w, hw, h⟩ := bind_eq_ok.mp h
    cases h
    exact ⟨w, _, hw, rfl⟩
  · obtain ⟨v, -, h⟩ := bind_eq_ok.mp h
    cases h
  · obtain ⟨w, hw, h⟩ := bind_eq_ok.mp h
    cases h
    exact ⟨w, _, hw, rfl⟩
  · cases h
  · cases h
  · cases h

theorem floatConst_ne_int {y : Float} {t : Ty} {n : Int64} : floatConst y t ≠ .ok (.int n) := by
  unfold floatConst
  split <;> simp

end Arith

def Instr.allocated? : Instr → Option Ty
  | .alloca _ ty _ => some ty
  | _ => none

theorem Instr.allocated?_of_isTerminator {ins : Instr} (h : ins.isTerminator = true) :
    ins.allocated? = none := by
  cases ins with
  | alloca => cases h
  | _ => rfl

def Instr.binaryOperands : Instr → List ValueId
  | .binary _ _ lhs rhs _ => [lhs, rhs]
  | _ => []

namespace Function

/-- The type that an instruction makes its result to be: a comparison is a single bit, and an
address points to what it selects. -/
def resultTy? (f : Function) : Instr → Option Ty
  | .binary _ op _ _ ty => some (if op.isCompare then .i1 else ty)
  | .gep _ base indices _ _ => some (Ty.address (f.typeOf? base) indices.length)
  | ins => ins.ty?

/-- The recorded types are those that the instructions make. Operations are on scalars, and
branches pass arguments of the types of the parameters. -/
structure SelfTyped (f : Function) : Prop where
  results : ∀ p ∈ f.instrs, ∀ r ∈ p.2.result?, ∀ t ∈ f.typeOf? r, f.resultTy? p.2 = some t
  scalars : ∀ p ∈ f.instrs, ∀ v ∈ p.2.binaryOperands, (f.typeOf v).scalar?.isSome = true
  branches : ∀ p ∈ f.instrs, ∀ b ∈ p.2.branches, ∀ blk ∈ f.block? b.1,
    b.2.map f.typeOf = blk.params.map BlockParam.ty

end Function

namespace Machine

theorem allocated?_of_assign {f : Function} {m : Machine} {ins : Instr} {r : ValueId} {x : Value}
    (h : m.effect f ins = .ok (.assign r x)) : ins.allocated? = none := by
  cases ins with
  | alloca r ty name =>
    simp only [effect] at h
    split at h <;> cases h
  | _ => rfl

/-- What is bound suits its recorded type, and every slot holds what suits the type that it was
allocated with. -/
structure Typed (deep : Bool) (f : Function) (σ : List Ty) (m : Machine) : Prop where
  slots : m.slots.size = σ.length
  values : ∀ (v : ValueId) (x : Value), m.values[v]? = some x → x.Suits deep σ (f.typeOf v)
  cells : ∀ (slot offset : Nat) (x : Value), m.cell? slot offset = some x →
    ∀ t ∈ σ[slot]?, x.Suits deep σ t

namespace Typed

variable {deep : Bool} {f : Function} {σ : List Ty} {m : Machine}

theorem initial (f : Function) : initial.Typed deep f [] where
  slots := rfl
  values v x hx := by simp [Machine.initial] at hx
  cells slot offset x hx := by simp [cell?, Machine.initial] at hx

variable (h : m.Typed deep f σ)
include h

theorem bind {v : ValueId} {x : Value} (hx : x.Suits deep σ (f.typeOf v)) :
    (m.bind v x).Typed deep f σ where
  slots := h.slots
  values w y hy := by
    rw [values_bind] at hy
    split at hy
    · next heq =>
      cases hy
      exact heq ▸ hx
    · exact h.values w y hy
  cells := h.cells

theorem bindParams (hf : f.Made) (hv : f.Valid) {blk : Block} (hblk : blk ∈ f.blocks)
    {xs : List Value} (hxs : ∀ b ∈ blk.params.zip xs, b.2.Suits deep σ b.1.ty) :
    (m.bindAll (blk.paramIds.zip xs)).Typed deep f σ := by
  have hslots := slots_bindAll m (blk.paramIds.zip xs)
  refine ⟨hslots ▸ h.slots, fun v x hx => ?_, fun slot offset x hx => ?_⟩
  · rcases values_bindAll m (blk.paramIds.zip xs) v with ⟨hsame, -⟩ | ⟨y, hy, hbound⟩
    · exact h.values v x (hsame ▸ hx)
    · cases hbound.symm.trans hx
      rw [Block.paramIds, List.zip_map_left] at hy
      obtain ⟨⟨p, y⟩, hmem, heq⟩ := List.mem_map.mp hy
      cases heq
      refine Value.suits_typeOf fun t ht => ?_
      rcases hf.typeOf?_param hv hblk (List.of_mem_zip hmem).1 with hnone | hty
      · cases hnone.symm.trans ht
      · cases hty.symm.trans ht
        exact hxs _ hmem
  · rw [cell?_congr hslots] at hx
    exact h.cells slot offset x hx

theorem allocate {r : ValueId} {ty : Ty} (n : Nat) (hr : ∀ t ∈ f.typeOf? r, t = .pointer ty) :
    (m.allocate r n).Typed deep f (σ ++ [ty]) where
  slots := by
    rw [slots_allocate, Array.size_push, List.length_append, h.slots]
    rfl
  values v x hx := by
    rw [values_allocate] at hx
    split at hx
    · next heq =>
      cases hx
      refine Value.suits_typeOf fun t ht => ?_
      rw [hr t (heq ▸ ht)]
      intro u hu
      cases hu
      refine ⟨ty, ?_, rfl⟩
      rw [h.slots, List.getElem?_concat_length]
      exact rfl
    · exact (h.values v x hx).append [ty]
  cells slot offset x hx t ht := by
    rw [cell?, slots_allocate, Array.getElem?_push] at hx
    split at hx
    · have hundef : x = .undef := by
        rw [Option.bind_some, Array.getElem?_replicate] at hx
        split at hx
        · exact (Option.some.inj hx).symm
        · cases hx
      rw [hundef]
      trivial
    · next hne =>
      refine (h.cells slot offset x hx t ?_).append [ty]
      obtain ⟨hlt, -⟩ := List.getElem?_eq_some_iff.mp ht
      rw [List.length_append, List.length_singleton, ← h.slots] at hlt
      rwa [List.getElem?_append_left (by rw [← h.slots]; omega)] at ht

theorem write {slot offset : Nat} {x : Value} (hx : ∀ t ∈ σ[slot]?, x.Suits deep σ t) :
    (m.write slot offset x).Typed deep f σ where
  slots := by
    rw [Machine.write, Array.size_modify]
    exact h.slots
  values := h.values
  cells s o y hy t ht := by
    rw [cell?_write] at hy
    split at hy
    · next heq =>
      obtain ⟨rfl, rfl⟩ := heq
      obtain ⟨z, -, rfl⟩ := Option.map_eq_some_iff.mp hy
      exact hx t ht
    · exact h.cells s o y hy t ht

theorem exists_slot {ptr : ValueId} {slot offset : Nat} {t : Ty}
    (hp : m.values[ptr]? = some (.pointer slot offset)) (ht : f.typeOf ptr = .pointer t) :
    ∃ ty ∈ σ[slot]?, ty.element = t.element := by
  have hsuits := h.values ptr _ hp
  rw [ht] at hsuits
  exact hsuits t rfl

theorem suits_result {ins : Instr} (hagrees : f.Agrees ins)
    (hscalars : ∀ v ∈ ins.binaryOperands, (f.typeOf v).scalar?.isSome = true) {r : ValueId}
    {x : Value} (he : m.effect f ins = .ok (.assign r x)) {t : Ty}
    (ht : f.resultTy? ins = some t) : x.Suits deep σ t := by
  cases ins with
  | constInt r n ty =>
    obtain ⟨w, hw, he⟩ := bind_eq_ok.mp he
    cases he
    cases ht
    exact Arith.inRange_low (lift_eq_ok.mp hw) n
  | constFloat r y ty =>
    obtain ⟨z, hz, he⟩ := bind_eq_ok.mp he
    cases he
    have hz := lift_eq_ok.mp hz
    exact Value.suits_of_int (Arith.isPointer_floatConst hz) fun n hn =>
      absurd (hn ▸ hz) Arith.floatConst_ne_int
  | undef r ty =>
    cases he
    trivial
  | binary r op lhs rhs ty =>
    obtain ⟨a, -, he⟩ := bind_eq_ok.mp he
    obtain ⟨b, -, he⟩ := bind_eq_ok.mp he
    obtain ⟨z, hz, he⟩ := bind_eq_ok.mp he
    cases he
    cases ht
    have hz := Arith.binary_eq_ok.mp (lift_eq_ok.mp hz)
    refine Value.suits_of_int (Arith.isPointer_binary? hz) fun n hn => ?_
    rcases Arith.binary?_eq_int (hn ▸ hz) with ⟨hop, c, hc⟩ | ⟨hop, k, rfl⟩
    · rw [if_pos hop]
      exact Arith.inRange_flag hc
    · rw [hop, if_neg Bool.false_ne_true, ← hagrees.2 hop]
      obtain ⟨s, hs⟩ := Ty.scalar?_isSome.mp (hscalars lhs List.mem_cons_self)
      rw [Function.typeOf?_of_typeOf hs nofun, hs, Option.bind_some, Ty.intWidth?_scalar]
      intro s' hs' hint
      cases hs'
      rw [if_pos hint]
      exact Arith.fits_low (Arith.width_le s) k
  | cast r op v ty =>
    obtain ⟨a, -, he⟩ := bind_eq_ok.mp he
    obtain ⟨z, hz, he⟩ := bind_eq_ok.mp he
    cases he
    cases ht
    have hz := lift_eq_ok.mp hz
    refine Value.suits_of_int (Arith.isPointer_cast hz).2 fun n hn => ?_
    obtain ⟨w, k, hw, rfl⟩ := Arith.cast_eq_int (hn ▸ hz)
    exact Arith.inRange_low hw k
  | gep r base indices inbounds ty =>
    obtain ⟨⟨slot, o⟩, hp, he⟩ := bind_eq_ok.mp he
    obtain ⟨o', ho, he⟩ := bind_eq_ok.mp he
    cases he
    cases ht
    obtain ⟨t, u, hbase, hu, haddress⟩ := address_of_offset ho
    have hsuits := h.values base _ (pointer_eq_ok.mp hp)
    rw [hbase] at hsuits haddress
    rw [Function.typeOf?_of_typeOf hbase nofun, haddress]
    exact hsuits.descend hu
  | load r ptr ty =>
    obtain ⟨⟨slot, o⟩, hp, he⟩ := bind_eq_ok.mp he
    obtain ⟨y, hy, he⟩ := bind_eq_ok.mp he
    cases he
    cases ht
    obtain ⟨ty', hty', heq⟩ := h.exists_slot (pointer_eq_ok.mp hp) hagrees
    exact (h.cells slot o x (cell_eq_ok.mp hy) ty' hty').congr heq
  | alloca r ty name => cases allocated?_of_assign he
  | store ptr value =>
    obtain ⟨p, -, he⟩ := bind_eq_ok.mp he
    obtain ⟨y, -, he⟩ := bind_eq_ok.mp he
    obtain ⟨z, -, he⟩ := bind_eq_ok.mp he
    cases he
  | call r callee args ty =>
    obtain ⟨v, n, op, o, -, -, -, -, -, heq⟩ := call_eq_ok.mp he
    cases heq
  | br | condbr | ret => cases ht

theorem suits_params {params : List BlockParam} {vs : List ValueId} {xs : List Value}
    (hxs : m.getAll vs = .ok xs) (hty : vs.map f.typeOf = params.map BlockParam.ty) :
    ∀ b ∈ params.zip xs, b.2.Suits deep σ b.1.ty := by
  induction vs generalizing params xs with
  | nil =>
    cases hxs
    rw [List.zip_nil_right]
    nofun
  | cons v vs ih =>
    obtain ⟨x, hx, hxs⟩ := bind_eq_ok.mp hxs
    obtain ⟨ys, hys, hxs⟩ := bind_eq_ok.mp hxs
    cases hxs
    cases params with
    | nil => cases hty
    | cons p params =>
      obtain ⟨hv, hvs⟩ := List.cons.inj hty
      intro b hb
      rcases List.mem_cons.mp hb with rfl | hb
      · exact hv ▸ h.values v x (get_eq_ok.mp hx)
      · exact ih hys hvs b hb

section Step

variable (hf : f.Made) (hv : f.Valid) (hs : f.SelfTyped)
include hf hv hs

theorem jump {p : InstrId × Instr} (hp : p ∈ f.instrs) {target : BlockId} {args : List ValueId}
    (hbranch : (target, args) ∈ p.2.branches) {e : Effect} (he : m.jump f target args = .ok e) :
    (m.apply e).Typed deep f σ := by
  obtain ⟨blk, xs, hblk, hxs, rfl⟩ := jump_eq_ok.mp he
  have hty := hs.branches p hp _ hbranch blk hblk
  exact h.bindParams hf hv (List.mem_of_getElem? hblk) (h.suits_params hxs hty)

/-- Every instruction keeps to the types, and lists the slot that it allocates. -/
theorem apply {p : InstrId × Instr} (hp : p ∈ f.instrs) {e : Effect}
    (he : m.effect f p.2 = .ok e) : (m.apply e).Typed deep f (σ ++ p.2.allocated?.toList) := by
  have hagrees : f.Agrees p.2 := Function.typeFault?_eq_none.mp (hv.typed p hp)
  have hsame : p.2.allocated? = none → σ ++ p.2.allocated?.toList = σ := by
    intro hnone
    rw [hnone, Option.toList_none, List.append_nil]
  cases ht : p.2.isTerminator with
  | false =>
    rcases effect_straight ht he with ⟨r, x, hr, -, rfl⟩ | ⟨r, ty, name, n, hins, -, rfl⟩ |
      ⟨ptr, w, slot, o, x, hins, hptr, hw, -, rfl⟩ | ⟨r, callee, args, ty, o, hins, -, rfl⟩
    · rw [hsame (allocated?_of_assign he)]
      exact h.bind (Value.suits_typeOf fun t ht =>
        h.suits_result hagrees (hs.scalars p hp) he (hs.results p hp r hr t ht))
    · have hresult := hs.results p hp r (by rw [hins]; exact rfl)
      rw [hins] at hresult ⊢
      exact h.allocate n fun t ht => (Option.some.inj (hresult t ht)).symm
    · rw [hsame (by rw [hins]; rfl)]
      rw [hins] at hagrees
      refine h.write fun t ht => ?_
      obtain ⟨ty, hty, heq⟩ := h.exists_slot hptr hagrees
      cases hty.symm.trans ht
      exact (h.values w x hw).congr heq.symm
    · rw [hsame (by rw [hins]; rfl)]
      exact ⟨h.slots, h.values, h.cells⟩
  | true =>
    rw [hsame (Instr.allocated?_of_isTerminator ht)]
    cases hr : p.2.isReturn with
    | false =>
      obtain ⟨target, args, hjump, hbranch⟩ := effect_branch ht hr he
      exact h.jump hf hv hs hp hbranch hjump
    | true =>
      obtain ⟨values, xs, -, -, rfl⟩ := effect_return hr he
      exact h

end Step

end Typed

end Machine

def allocations (cs : List Config) : List Ty :=
  cs.filterMap fun c => c.instr?.bind Instr.allocated?

theorem allocations_cons (c : Config) (cs : List Config) :
    allocations (c :: cs) = (c.instr?.bind Instr.allocated?).toList ++ allocations cs := by
  cases h : c.instr?.bind Instr.allocated? <;> simp [allocations, h]

namespace Function

variable {deep : Bool} {f : Function}

section Run

variable (hf : f.Made) (hv : f.Valid)
include hf hv

theorem typed_start {entry : Block} {rest : List Block} (hb : f.blocks = entry :: rest)
    {args : List Value} (hargs : ∀ b ∈ entry.params.zip args, b.2.Suits deep [] b.1.ty) :
    (f.start entry args).machine.Typed deep f [] :=
  (Machine.Typed.initial f).bindParams hf hv (hb ▸ List.mem_cons_self) hargs

theorem Trace.typed (hs : f.SelfTyped) {c d : Config} {cs : List Config} (h : f.Trace c cs d)
    {σ : List Ty} (hat : f.At c) (hc : c.machine.Typed deep f σ) :
    d.machine.Typed deep f (σ ++ allocations cs) := by
  induction h generalizing σ with
  | refl c => rwa [allocations, List.filterMap_nil, List.append_nil]
  | @step c d e cs head _ ih =>
    obtain ⟨ins, eff, hi, he, hd⟩ := effect_of_next? head
    obtain ⟨i, hp⟩ := hat.exists_mem hf.consistent hi
    rw [allocations_cons, hi, Option.bind_some, ← List.append_assoc]
    refine ih (hat.next? head) ?_
    rw [hd]
    exact hc.apply hf hv hs hp he

end Run

/-- Integers stay zero-extended. Let a run start with arguments that are no pointers and, if they
are integers, are in the range of the parameters' types. Then at every point of the run an integer
that is bound to a value of an integer type fits the type, and so does an integer in a cell of a
slot that was allocated with an integer type inside. This is so whether or not what pointers lead
to counts as inside of their types. -/
theorem fits_of_trace (deep : Bool) (hf : f.Made) (hv : f.validate = .ok ()) (hs : f.SelfTyped)
    {entry : Block} {rest : List Block} (hb : f.blocks = entry :: rest) {args : List Value}
    (hargs : ∀ p x, (p, x) ∈ entry.params.zip args → x.isPointer = false ∧ ∀ n s, x = .int n →
      p.ty.innermost? deep = some s → s.isInt = true → Arith.Fits s.width n)
    {cs : List Config} {d : Config} (h : f.Trace (f.start entry args) cs d) :
    (∀ v s n, f.typeOf? v = some (.scalar s) → s.isInt = true →
      d.machine.values[v]? = some (.int n) → Arith.Fits s.width n) ∧
    d.machine.slots.size = (allocations cs).length ∧
    ∀ slot offset t s n, (allocations cs)[slot]? = some t → t.innermost? deep = some s →
      s.isInt = true → d.machine.cell? slot offset = some (.int n) → Arith.Fits s.width n := by
  have hvalid := validate_eq_ok.mp hv
  have hstart : (f.start entry args).machine.Typed deep f [] := by
    refine typed_start hf hvalid hb fun b hmem => ?_
    obtain ⟨hx, hrange⟩ := hargs b.1 b.2 hmem
    exact Value.suits_of_int hx fun n hn s hs hint => hrange n s hn hs hint
  have htyped := h.typed hf hvalid hs (f.at_start entry args) hstart
  rw [List.nil_append] at htyped
  refine ⟨fun v s n hty hint hn => ?_, htyped.slots, fun slot offset t s n ht hts hint hn => ?_⟩
  · have hsuits := htyped.values v _ hn
    rw [typeOf, hty] at hsuits
    exact (Ty.inRange_scalar hint).mp hsuits
  · exact htyped.cells slot offset _ hn t ht s hts hint

/-- The sum of a byte with itself goes to the second element of an array. If it has wrapped around,
what the array holds is returned. -/
def doublingCommands : List Builder.Command :=
  [.createBlock none, .addParam ⟨0⟩ none .i8, .createBlock none, .addParam ⟨1⟩ none .i8,
    .setCurrent ⟨0⟩,
    .fresh, .push (.alloca ⟨2⟩ (.array .i8 2) none) (some (.pointer (.array .i8 2))),
    .constInt 0 .i32, .constInt 1 .i32,
    .fresh, .push (.gep ⟨5⟩ ⟨2⟩ [⟨3⟩, ⟨4⟩] true (.pointer .i8)) (some (.pointer .i8)),
    .fresh, .push (.binary ⟨6⟩ .add ⟨0⟩ ⟨0⟩ .i8) (some .i8), .push (.store ⟨5⟩ ⟨6⟩) none,
    .fresh, .push (.binary ⟨7⟩ .ult ⟨6⟩ ⟨0⟩ .i1) (some .i1),
    .fresh, .push (.load ⟨8⟩ ⟨5⟩ .i8) (some .i8),
    .push (.condbr ⟨7⟩ ⟨1⟩ [⟨8⟩] ⟨1⟩ [⟨0⟩]) none, .setCurrent ⟨1⟩, .ret [⟨1⟩]]

def doubling : Function :=
  match ((Builder.new "main" [] .i8).run doublingCommands).2 with
  | .ok s => s.func
  | .error _ => .empty "main" [] .i8

theorem made_doubling : doubling.Made := by
  have hrun : ((Builder.new "main" [] .i8).run doublingCommands).2 =
      .ok ⟨doubling, some ⟨1⟩⟩ := rfl
  exact .build (Prod.ext rfl hrun) rfl

def doublingEntry : Block :=
  ⟨.entry, [⟨⟨0⟩, .i8, none⟩], [⟨0⟩, ⟨1⟩, ⟨2⟩, ⟨3⟩, ⟨4⟩, ⟨5⟩, ⟨6⟩, ⟨7⟩, ⟨8⟩], none⟩

/-- Where the sum has been passed on, it is back in the range of a byte. -/
theorem doubling_fits : doubling.Made ∧ doubling.validate = .ok () ∧ doubling.SelfTyped ∧
    doubling.blocks = [doublingEntry, ⟨⟨1⟩, [⟨⟨1⟩, .i8, none⟩], [⟨9⟩], none⟩] ∧
    (∀ p x, (p, x) ∈ doublingEntry.params.zip [Value.int 200] → x.isPointer = false ∧ ∀ n s,
      x = .int n → p.ty.innermost? true = some s → s.isInt = true → Arith.Fits s.width n) ∧
    ∃ cs d, doubling.Trace (doubling.start doublingEntry [.int 200]) cs d ∧
      d.machine.values[(⟨1⟩ : ValueId)]? = some (.int 144) ∧
      allocations cs = [.array .i8 2] ∧ d.machine.cell? 0 1 = some (.int 144) ∧
      Arith.Fits 8 144 := by
  have hself : doubling.SelfTyped := ⟨by decide, by decide, by decide⟩
  have hargs : ∀ p x, (p, x) ∈ doublingEntry.params.zip [Value.int 200] → x.isPointer = false ∧
      ∀ n s, x = .int n → p.ty.innermost? true = some s → s.isInt = true →
        Arith.Fits s.width n := by
    intro p x hmem
    cases List.mem_singleton.mp hmem
    refine ⟨rfl, fun n s hn hs _ _ => ?_⟩
    cases hn
    cases hs
    decide
  have htrace := doubling.trace_walk 9 (doubling.start doublingEntry [.int 200])
  refine ⟨made_doubling, rfl, hself, rfl, hargs, _, _, htrace, rfl, rfl, rfl, ?_⟩
  exact (fits_of_trace true made_doubling rfl hself rfl hargs htrace).1 ⟨1⟩ .i8 144 rfl rfl rfl

end Function

end ShaderIR
