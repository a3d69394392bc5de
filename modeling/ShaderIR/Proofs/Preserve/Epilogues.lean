import Mathlib.Algebra.Ring.Nat
import ShaderIR.Proofs.Metadata
import ShaderIR.Proofs.Preserve.Redirected

/-!
# The epilogues of a redirected function

In front of every return stands code that stores each component of each written element to
the output, in their order, and nothing else in the function is an output store.
-/

set_option autoImplicit false

namespace ShaderIR

/-- The value is defined by an integer constant of a type. -/
def Function.IsConst (g : Function) (v : ValueId) (n : Nat) (ty : Ty) : Prop :=
  g.definer? v = some (.constInt v (Int64.ofNat n) ty)

theorem Function.IsConst.constInt? {g : Function} {v : ValueId} {n : Nat} {ty : Ty}
    (h : g.IsConst v n ty) : g.constInt? v = some (Int64.ofNat n) := by
  unfold Function.constInt?
  rw [h]

theorem forall₂_flatMap {α β γ : Type} {R : β → γ → Prop} {l : List α} {F : α → List β}
    {G : α → List γ} (h : ∀ a ∈ l, List.Forall₂ R (F a) (G a)) :
    List.Forall₂ R (l.flatMap F) (l.flatMap G) := by
  induction l with
  | nil => exact .nil
  | cons a l ih =>
    rw [List.flatMap_cons, List.flatMap_cons]
    exact List.rel_append (h a List.mem_cons_self)
      (ih fun b hb => h b (List.mem_cons_of_mem a hb))

theorem Function.flatMap_returns {α : Type} (f : Function) (F : InstrId → List α) :
    f.returns.flatMap F = f.instrs.flatMap fun p => if p.2.isReturn = true then F p.1 else [] := by
  rw [Function.returns]
  induction f.instrs with
  | nil => rfl
  | cons p ps ih =>
    rw [List.flatMap_cons, ← ih, List.filter_cons]
    split <;> rfl

namespace OutputStore

theorem callsOf_append (g : Function) (ps qs : List (InstrId × Instr)) :
    callsOf g (ps ++ qs) = callsOf g ps ++ callsOf g qs :=
  List.filter_append ..

theorem callsOf_flatMap {α : Type} (g : Function) (l : List α) (F : α → List (InstrId × Instr)) :
    callsOf g (l.flatMap F) = l.flatMap fun a => callsOf g (F a) :=
  List.filter_flatMap ..

theorem callsOf_singleton {g : Function} {p : InstrId × Instr} (h : g.storeOpcode? p.2 = none) :
    callsOf g [p] = [] :=
  List.filter_cons_of_neg (by simp [h])

theorem callsOf_placed {g : Function} {start : Nat} {code : List Draft}
    (h : ∀ d ∈ code, d.instr.callee? = none) : callsOf g (placed start code) = [] := by
  refine List.filter_eq_nil_iff.mpr fun q hq => ?_
  obtain ⟨d, hd, heq⟩ := exists_draft hq
  rw [← heq, storeOpcode?_of_callee?_none (h d hd)]
  exact Bool.false_ne_true

end OutputStore

namespace Scratch

/-- The pointer selects a component of a slot: the slot itself if there is only one, and
otherwise the cell of the slot at `row * cols + column`. -/
structure Selects (g : Function) (s : Scratch) (p : Nat × Nat) (ptr : ValueId) : Prop where
  single : s.element.isSingle = true → ptr = s.slot
  linear : s.element.isSingle = false → ∃ zero index offset wide row cols column,
    g.definer? ptr = some (.gep ptr s.slot [zero, index] true (.pointer s.ty)) ∧
    g.IsConst zero 0 .i32 ∧ g.definer? index = some (.binary index .add offset wide .i32) ∧
    g.definer? offset = some (.binary offset .mul row cols .i32) ∧
    g.definer? wide = some (.cast wide .zext column .i32) ∧
    g.IsConst row p.1 .i32 ∧ g.IsConst cols s.element.cols .i32 ∧ g.IsConst column p.2 .i8

theorem length_cellsOf (slots : List Scratch) :
    (cellsOf slots).length = (slots.map fun s => s.element.rows * s.element.cols).sum := by
  rw [cellsOf, List.length_flatMap]
  congr 1
  refine List.map_congr_left fun s _ => ?_
  rw [List.length_map, Element.length_positions]

theorem storeOpcode?_of_isConst {g : Function} {s : Scratch} {op : ValueId} (args : List ValueId)
    (hop : g.IsConst op s.target.opcode.value .i32) :
    g.storeOpcode? (.call none s.target.intrinsic.name (op :: args) none) =
      some s.target.opcode := by
  rw [OutputStore.storeOpcode?_call (isIntrinsicName_name _) rfl hop.constInt?]
  exact OpCode.ofValue?_value _

theorem reads_of_isConst {g : Function} {s : Scratch} {o : OutputStore} {op id : ValueId}
    (hlt : s.target.id < idLimit) (hoop : o.opcode = s.target.opcode) (hoid : o.id = s.target.id)
    (hop : g.IsConst op s.target.opcode.value .i32) (hid : g.IsConst id s.target.id .i32) :
    OutputStore.Reads g (o.call, .call none s.target.intrinsic.name
      [op, id, o.row, o.column, o.value] none) o := by
  refine ⟨rfl, ?_, op, id, _, [], rfl, hid.constInt?, ?_⟩
  · rw [hoop]
    exact storeOpcode?_of_isConst _ hop
  · rw [hoid]
    exact elementId?_ofNat hlt

/-- Code that loads some components from their slots, in this order, and stores each of them
to the output by the last instruction that belongs to it. -/
inductive Flushes (g : Function) :
    List (Scratch × Nat × Nat) → List (InstrId × Instr) → List OutputStore → Prop
  | nil : Flushes g [] [] []
  | cons {s : Scratch} {p : Nat × Nat} {cells : List (Scratch × Nat × Nat)}
      {init code : List (InstrId × Instr)} {o : OutputStore} {os : List OutputStore}
      {op id ptr : ValueId} :
      (∀ q ∈ init, q.2.callee? = none) → o.opcode = s.target.opcode → o.id = s.target.id →
      g.IsConst op s.target.opcode.value .i32 → g.IsConst id s.target.id .i32 →
      g.IsConst o.row p.1 .i32 → g.IsConst o.column p.2 .i8 →
      g.definer? o.value = some (.load o.value ptr s.ty) → Selects g s p ptr →
      Flushes g cells code os →
      Flushes g ((s, p) :: cells)
        (init ++ (o.call, .call none s.target.intrinsic.name [op, id, o.row, o.column, o.value]
          none) :: code) (o :: os)

namespace Flushes

variable {g : Function} {cells : List (Scratch × Nat × Nat)} {code : List (InstrId × Instr)}
  {os : List OutputStore}

theorem length_eq (h : Flushes g cells code os) : os.length = cells.length := by
  induction h with
  | nil => rfl
  | cons _ _ _ _ _ _ _ _ _ _ ih => rw [List.length_cons, List.length_cons, ih]

theorem getLast?_eq (h : Flushes g cells code os) :
    code.getLast?.map Prod.fst = os.getLast?.map OutputStore.call := by
  induction h with
  | nil => rfl
  | @cons s p cells init code o os op id ptr _ _ _ _ _ _ _ _ _ hrest ih =>
    rw [List.getLast?_append, List.getLast?_cons, List.getLast?_cons, Option.some_or]
    cases hc : code.getLast? <;> cases ho : os.getLast? <;> simp_all

theorem reads (h : Flushes g cells code os) (hid : ∀ c ∈ cells, c.1.target.id < idLimit) :
    List.Forall₂ (OutputStore.Reads g) (OutputStore.callsOf g code) os := by
  induction h with
  | nil => exact .nil
  | @cons s p cells init code o os op id ptr hinit hop hoid hopc hidc _ _ _ _ _ ih =>
    have hr := reads_of_isConst (hid _ List.mem_cons_self) hop hoid hopc hidc
    have hskip : OutputStore.callsOf g init = [] := by
      refine List.filter_eq_nil_iff.mpr fun q hq => ?_
      rw [OutputStore.storeOpcode?_of_callee?_none (hinit q hq)]
      exact Bool.false_ne_true
    rw [OutputStore.callsOf, List.filter_append, ← OutputStore.callsOf, hskip, List.nil_append,
      List.filter_cons_of_pos (by rw [hr.opcode]; rfl)]
    exact .cons hr (ih fun c hc => hid c (List.mem_cons_of_mem _ hc))

end Flushes

theorem selects_source {g : Function} {s : Scratch} {p : Nat × Nat} {next : Nat}
    (hc : g.Defines (s.constants p next)) (hs : g.Defines (s.source next).code) :
    Selects g s p (s.source next).value where
  single h := by
    rw [source, address, if_pos h]
  linear h := by
    have hwide : (toI32 (⟨next + 3⟩ : ValueId) 8 (next + 4 + 2)) =
        ⟨[.cast ⟨next + 6⟩ .zext ⟨next + 3⟩ .i32], ⟨next + 6⟩, next + 7⟩ := rfl
    rw [source, address_of_not_single h, hwide] at hs ⊢
    refine ⟨⟨next + 8⟩, ⟨next + 7⟩, ⟨next + 5⟩, ⟨next + 6⟩, ⟨next + 2⟩, ⟨next + 4⟩, ⟨next + 3⟩,
      ?_, ?_, ?_, ?_, ?_, ?_, ?_, ?_⟩
    · exact hs (.gep ⟨next + 9⟩ s.slot [⟨next + 8⟩, ⟨next + 7⟩] (.pointer s.ty)) (by simp) _ rfl
    · exact hs (.constInt ⟨next + 8⟩ 0 .i32) (by simp) _ rfl
    · exact hs (.binary ⟨next + 7⟩ .add ⟨next + 5⟩ ⟨next + 6⟩ .i32) (by simp) _ rfl
    · exact hs (.binary ⟨next + 5⟩ .mul ⟨next + 2⟩ ⟨next + 4⟩ .i32) (by simp [rowOffset]) _ rfl
    · exact hs (.cast ⟨next + 6⟩ .zext ⟨next + 3⟩ .i32) (by simp) _ rfl
    · exact hc (.constInt ⟨next + 2⟩ (Int64.ofNat p.1) .i32) (by simp [constants]) _ rfl
    · exact hs (.constInt ⟨next + 4⟩ (Int64.ofNat s.element.cols) .i32) (by simp [rowOffset]) _ rfl
    · exact hc (.constInt ⟨next + 3⟩ (Int64.ofNat p.2) .i8) (by simp [constants]) _ rfl

/-- What comes before the call that stores a component. -/
def loading (s : Scratch) (p : Nat × Nat) (next : Nat) : List Draft :=
  s.constants p next ++ (s.source next).code ++
    [.load ⟨(s.source next).next⟩ (s.source next).value s.ty]

def storeCall (s : Scratch) (next : Nat) : Draft :=
  .call none s.target.intrinsic.name
    [⟨next⟩, ⟨next + 1⟩, ⟨next + 2⟩, ⟨next + 3⟩, ⟨(s.source next).next⟩] none

theorem flush_cons (s : Scratch) (p : Nat × Nat) (cells : List (Scratch × Nat × Nat)) (next : Nat) :
    (flush ((s, p) :: cells) next).1 =
      s.loading p next ++ s.storeCall next :: (flush cells ((s.source next).next + 1)).1 := by
  show (s.emission p next).code ++ (flush cells (s.emission p next).next).1 = _
  rw [code_emission, loading]
  simp only [List.append_assoc, List.cons_append, List.nil_append]
  rfl

theorem callee?_loading (s : Scratch) (p : Nat × Nat) (next : Nat) :
    ∀ d ∈ s.loading p next, d.instr.callee? = none := by
  intro d hd
  rcases List.mem_append.mp hd with hd | hd
  · rcases List.mem_append.mp hd with hd | hd
    · exact Instr.callee?_of_computes (s.computes_constants p next d hd)
    · exact s.callee?_address _ _ 8 (next + 4) d hd
  · cases List.mem_singleton.mp hd
    rfl

theorem exists_flushes {g : Function} {cells : List (Scratch × Nat × Nat)} {next : Nat}
    (start : Nat) (h : g.Defines (flush cells next).1) :
    ∃ os, Flushes g cells (placed start (flush cells next).1) os := by
  induction cells generalizing next start with
  | nil => exact ⟨[], .nil⟩
  | cons c cells ih =>
    obtain ⟨s, p⟩ := c
    rw [flush_cons] at h ⊢
    have hload : g.Defines (s.loading p next) := h.mono fun d hd => List.mem_append_left _ hd
    have hconsts : g.Defines (s.constants p next) := hload.mono fun d hd =>
      List.mem_append_left _ (List.mem_append_left _ hd)
    have hsource : g.Defines (s.source next).code := hload.mono fun d hd =>
      List.mem_append_left _ (List.mem_append_right _ hd)
    obtain ⟨os, hos⟩ : ∃ os, Flushes g cells (placed (start + (s.loading p next).length + 1)
        (flush cells ((s.source next).next + 1)).1) os := ih _
      (h.mono fun d hd => List.mem_append_right _ (List.mem_cons_of_mem _ hd))
    have hplaced : placed start (s.loading p next ++ s.storeCall next ::
        (flush cells ((s.source next).next + 1)).1) =
        placed start (s.loading p next) ++
          (⟨start + (s.loading p next).length⟩, (s.storeCall next).instr) ::
            placed (start + (s.loading p next).length + 1)
              (flush cells ((s.source next).next + 1)).1 := by
      rw [placed_append, placed_cons]
    rw [hplaced]
    have hselects := selects_source hconsts hsource
    refine ⟨⟨⟨start + (s.loading p next).length⟩, s.target.opcode, s.target.id, ⟨next + 2⟩,
      ⟨next + 3⟩, ⟨(s.source next).next⟩⟩ :: os, ?_⟩
    refine Flushes.cons (g := g) (o := ⟨⟨start + (s.loading p next).length⟩, s.target.opcode,
      s.target.id, ⟨next + 2⟩, ⟨next + 3⟩, ⟨(s.source next).next⟩⟩) ?_ rfl rfl ?_ ?_ ?_ ?_ ?_
        hselects hos
    · intro q hq
      obtain ⟨d, hd, heq⟩ := exists_draft hq
      rw [← heq]
      exact s.callee?_loading p next d hd
    · exact hconsts (.constInt ⟨next⟩ (Int64.ofNat s.target.opcode.value) .i32)
        (by simp [constants]) _ rfl
    · exact hconsts (.constInt ⟨next + 1⟩ (Int64.ofNat s.target.id) .i32) (by simp [constants]) _
        rfl
    · exact hconsts (.constInt ⟨next + 2⟩ (Int64.ofNat p.1) .i32) (by simp [constants]) _ rfl
    · exact hconsts (.constInt ⟨next + 3⟩ (Int64.ofNat p.2) .i8) (by simp [constants]) _ rfl
    · exact hload (.load ⟨(s.source next).next⟩ (s.source next).value s.ty)
        (by simp [loading]) _ rfl

end Scratch

namespace Preserve.Redirected

variable {f : Function} {m : Metadata} {stores : List OutputStore} {ts : List Target}
  {before : InstrId → List (InstrId × Instr)} {w g : Function}
  (h : Redirected f m stores ts before w g)
include h

theorem instrs : g.instrs =
    placed f.arena.size ((Scratch.allot f.nextValue ts).map Scratch.alloca) ++
      f.instrs.flatMap fun p =>
        before p.1 ++ if p.1 ∈ stores.map OutputStore.call then [] else [p] := by
  have hids : g.blocks.map Block.id = f.blocks.map Block.id := by
    have hblocks := congrArg (List.map Block.id) h.blocks
    simpa only [List.map_map, Function.comp_def] using hblocks
  obtain ⟨blk, rest, hblocks, hid, hrest⟩ := h.exists_entry
  rw [h.erased.consistent.instrs_eq, h.consistent.instrs_eq, hids, hblocks, List.map_cons, hid,
    List.flatMap_cons, List.flatMap_cons, List.flatMap_append, h.blockInstrs, if_pos rfl,
    List.append_assoc]
  congr 2
  rw [List.flatMap_assoc]
  refine List.flatMap_congr fun b hb => ?_
  obtain ⟨blk', hmem, rfl⟩ := List.mem_map.mp hb
  rw [h.blockInstrs, if_neg (hrest blk' hmem)]
  rfl

theorem constInt?_eq_some {v : ValueId} {n : Int64} (hv : v.index < f.nextValue)
    (hn : g.constInt? v = some n) : f.constInt? v = some n := by
  unfold Function.constInt? Function.definer? at hn ⊢
  rcases h.erased.records v with ⟨-, hd⟩ | ⟨⟨-, hd⟩, -⟩
  · rw [hd, h.woven.extension.definition?_old v hv] at hn
    cases hdef : f.definition? v with
    | none =>
      rw [hdef] at hn
      cases hn
    | some d =>
      cases d with
      | param b =>
        rw [hdef] at hn
        cases hn
      | result i =>
        rw [hdef] at hn
        obtain ⟨ins, hins, -⟩ := h.consistent.recorded.result v i hdef
        have hw := h.woven.extension.instr?_of_some hins
        simp only [h.erased.instr?, hw, hins] at hn ⊢
        split at hn
        · next hsplit =>
          split at hsplit
          · cases hsplit
          · cases hsplit
            exact hn
        · cases hn
  · rw [hd] at hn
    cases hn

theorem storeOpcode?_eq_none {p : InstrId × Instr} (hp : p ∈ f.instrs)
    (hop : f.storeOpcode? p.2 = none) : g.storeOpcode? p.2 = none := by
  have hcall : ∀ op, g.isCallTo op p.2 = true → f.isCallTo op p.2 = true := by
    intro op hg
    have hops := h.numbered.operand p hp
    cases hins : p.2 with
    | call r callee args ty =>
      rw [hins] at hg hops
      simp only [Function.isCallTo, Bool.and_eq_true, Option.any_eq_true] at hg ⊢
      obtain ⟨hname, n, hn, heq⟩ := hg
      refine ⟨hname, n, ?_, heq⟩
      obtain ⟨v, hv, hconst⟩ := Option.bind_eq_some_iff.mp hn
      refine Option.bind_eq_some_iff.mpr ⟨v, hv, h.constInt?_eq_some ?_ hconst⟩
      exact hops v (List.mem_of_mem_head? hv)
    | _ => rw [hins] at hg; cases hg
  unfold Function.storeOpcode? at hop ⊢
  split at hop
  · cases hop
  · next h₁ =>
    split at hop
    · cases hop
    · next h₂ => rw [if_neg fun hg => h₁ (hcall _ hg), if_neg fun hg => h₂ (hcall _ hg)]

theorem exists_stored : ∃ stored : InstrId → List OutputStore, ∀ i ∈ f.returns,
    Scratch.Flushes g (Scratch.cellsOf (Scratch.allot f.nextValue ts)) (before i) (stored i) := by
  have hall : ∀ i, ∃ os, i ∈ f.returns →
      Scratch.Flushes g (Scratch.cellsOf (Scratch.allot f.nextValue ts)) (before i) os := by
    intro i
    by_cases hi : i ∈ f.returns
    · obtain ⟨ins, hins, -⟩ := h.consistent.mem_returns.mp hi
      obtain ⟨start, next, -, hb⟩ := h.flushing i hi
      obtain ⟨os, hos⟩ := Scratch.exists_flushes start (h.recorded_before hins hb).2
      exact ⟨os, fun _ => hb ▸ hos⟩
    · exact ⟨[], fun hi' => absurd hi' hi⟩
  choose stored hstored using hall
  exact ⟨stored, hstored⟩

theorem id_lt_of_mem_cells : ∀ c ∈ Scratch.cellsOf (Scratch.allot f.nextValue ts),
    c.1.target.id < idLimit := by
  intro c hc
  obtain ⟨s, hs, hc⟩ := List.mem_flatMap.mp hc
  obtain ⟨p, -, rfl⟩ := List.mem_map.mp hc
  exact h.id_lt (Scratch.target_mem_of_mem_allot hs)

theorem callsOf_instrs : OutputStore.callsOf g g.instrs =
    f.returns.flatMap fun i => OutputStore.callsOf g (before i) := by
  rw [h.instrs, f.flatMap_returns, OutputStore.callsOf_append, OutputStore.callsOf_placed,
    List.nil_append, OutputStore.callsOf_flatMap]
  · refine List.flatMap_congr fun p hp => ?_
    rw [OutputStore.callsOf_append]
    cases h.fate hp with
    | store o s width start next ho hreads hs hid hindexed hnext htyped hdefines hcode =>
      rw [if_pos (List.mem_map.mpr ⟨o, ho, hreads.call⟩), hreads.isReturn_eq_false, hcode,
        OutputStore.callsOf_placed (s.callee?_storing o width next)]
      rfl
    | ret start next hkept hret hcols hnext htyped hdefines hcode =>
      rw [if_neg hkept, OutputStore.callsOf_singleton (OutputStore.storeOpcode?_of_isReturn hret),
        List.append_nil, if_pos hret]
    | other hkept hret hop hcode =>
      rw [if_neg hkept, hcode, hret, OutputStore.callsOf_singleton (h.storeOpcode?_eq_none hp hop)]
      rfl
  · intro d hd
    obtain ⟨s, -, rfl⟩ := List.mem_map.mp hd
    rfl

theorem all_stored {stored : InstrId → List OutputStore}
    (hstored : ∀ i ∈ f.returns, Scratch.Flushes g
      (Scratch.cellsOf (Scratch.allot f.nextValue ts)) (before i) (stored i)) :
    OutputStore.all g = .ok (f.returns.flatMap stored) := by
  rw [OutputStore.all_eq_ok, h.callsOf_instrs]
  exact forall₂_flatMap fun i hi => (hstored i hi).reads h.id_lt_of_mem_cells

theorem returns_eq : g.returns = f.returns := by
  have hnew : ∀ start (code : List Draft), (∀ d ∈ code, d.instr.isTerminator = false) →
      (placed start code).filter (fun q => q.2.isReturn) = [] := by
    intro start code hcode
    refine List.filter_eq_nil_iff.mpr fun q hq hret => ?_
    obtain ⟨d, hd, heq⟩ := exists_draft hq
    rw [← heq] at hret
    have hterm := Instr.isTerminator_of_isReturn hret
    rw [hcode d hd] at hterm
    cases hterm
  rw [Function.returns, h.instrs, List.filter_append,
    hnew _ _ (Scratch.fresh_alloca f.nextValue ts).straight, List.nil_append, List.filter_flatMap,
    Function.returns]
  congr 1
  have hfilter : f.instrs.filter (fun p => p.2.isReturn) =
      f.instrs.flatMap fun p => if p.2.isReturn = true then [p] else [] := by
    induction f.instrs with
    | nil => rfl
    | cons p ps ih =>
      rw [List.filter_cons, List.flatMap_cons, ih]
      split <;> rfl
  rw [hfilter]
  refine List.flatMap_congr fun p hp => ?_
  cases h.fate hp with
  | store o s width start next ho hreads hs hid hindexed hnext htyped hdefines hcode =>
    rw [if_pos (List.mem_map.mpr ⟨o, ho, hreads.call⟩), List.append_nil, hcode,
      hnew _ _ (s.fresh_storing o width next).straight, hreads.isReturn_eq_false]
    rfl
  | ret start next hkept hret hcols hnext htyped hdefines hcode =>
    rw [if_neg hkept, List.filter_append, hcode, hnew _ _ (Scratch.fresh_flush _ next).straight,
      if_pos hret, List.nil_append]
    exact List.filter_cons_of_pos hret
  | other hkept hret hop hcode =>
    rw [if_neg hkept, hcode, List.nil_append, hret, List.filter_cons_of_neg (by simp [hret])]
    rfl

theorem exists_cell (hm : m.Built) {t : Target} (ht : t ∈ ts) :
    ∃ s, (s, 0, 0) ∈ Scratch.cellsOf (Scratch.allot f.nextValue ts) ∧ s.target = t := by
  obtain ⟨o, -, hnamed⟩ := Target.exists_named h.targets ht
  obtain ⟨hrows, hcols⟩ :=
    (hm.signature o.opcode).element_pos (OutputStore.target?_eq_some.mp hnamed).2.2
  rw [← Scratch.map_target_allot f.nextValue ts] at ht
  obtain ⟨s, hs, rfl⟩ := List.mem_map.mp ht
  exact ⟨s, List.mem_flatMap.mpr ⟨s, hs, List.mem_map.mpr
    ⟨(0, 0), Element.mem_positions.mpr ⟨hrows, hcols⟩, rfl⟩⟩, rfl⟩

theorem cells_pos (hm : m.Built) :
    0 < (Scratch.cellsOf (Scratch.allot f.nextValue ts)).length := by
  obtain ⟨o, ho⟩ := List.exists_mem_of_ne_nil stores h.nonempty
  obtain ⟨t, ht, -⟩ := (Target.exists_of_collect h.targets).2 o ho
  obtain ⟨s, hs, -⟩ := h.exists_cell hm ht
  exact List.length_pos_of_mem hs

theorem blockInstrs_return {i : InstrId} (hi : i ∈ f.returns) :
    ∃ b pre values post, g.blockInstrs b = pre ++ before i ++ (i, .ret values) :: post ∧
      ∀ q ∈ before i, f.instr? q.1 = none := by
  obtain ⟨ins, hins, hret⟩ := h.consistent.mem_returns.mp hi
  obtain ⟨b, hb⟩ := h.consistent.exists_mem_blockInstrs hins
  obtain ⟨l, r, hlr⟩ := List.append_of_mem hb
  have hkept : i ∉ stores.map OutputStore.call := by
    intro hmem
    obtain ⟨o, ho, heq⟩ := List.mem_map.mp hmem
    exact OutputStore.call_ne_return h.read h.consistent ho hi heq
  cases ins with
  | ret values =>
    have hblock := h.blockInstrs b
    rw [hlr, List.flatMap_append, List.flatMap_cons, if_neg hkept, ← List.append_assoc,
      List.append_assoc (before i), ← List.append_assoc _ (before i),
      List.singleton_append] at hblock
    refine ⟨b, _, values, _, hblock, fun q hq => ?_⟩
    · cases hold : f.instr? q.1 with
      | none => rfl
      | some old =>
        have := h.woven.before_new i q hq
        have := Function.index_lt_of_instr? hold
        omega
  | _ => cases hret

end Preserve.Redirected

namespace Preserve

/-- In the redirected function, every return has in front of it code that stores each component
of each written element to the output, in order and once, from the slot of the element, and
ends with the last of these stores. There are no other output stores, and those of the
original function are gone. Where the kinds of the signatures are right, every original store
named an element of these, by the operation that stores it now. -/
theorem epilogues_complete {f : Function} {m : Metadata} (hf : f.Made) (hv : f.Numbered)
    (hm : m.Built) (hrun : (run f m).verdict = .ok true) :
    ∃ slots stored, Target.Written f m (slots.map Scratch.target) ∧
      (m.Aligned → ∀ p ∈ f.instrs, ∀ o, OutputStore.Reads f p o →
        ∃ s ∈ slots, s.target.opcode = o.opcode ∧ o.target? m = some s.target) ∧
      (slots.map Scratch.slot).Nodup ∧ (∀ s ∈ slots, (run f m).func.definer? s.slot =
        some (.alloca s.slot s.slotTy (some s.element.name))) ∧
      (run f m).func.returns = f.returns ∧
      (∀ i ∈ (run f m).func.returns, ∃ b pre code values post o,
        (run f m).func.blockInstrs b = pre ++ code ++ (i, .ret values) :: post ∧
        (∀ q ∈ code, f.instr? q.1 = none) ∧
        Scratch.Flushes (run f m).func (Scratch.cellsOf slots) code (stored i) ∧
        (stored i).getLast? = some o ∧ code.getLast?.map Prod.fst = some o.call) ∧
      OutputStore.all (run f m).func = .ok ((run f m).func.returns.flatMap stored) ∧
      ((run f m).func.returns.flatMap stored).length = (run f m).func.returns.length *
        (slots.map fun s => s.element.rows * s.element.cols).sum ∧
      ∀ p ∈ f.instrs, (f.storeOpcode? p.2).isSome = true → (run f m).func.instr? p.1 = none := by
  obtain ⟨stores, ts, before, w, h⟩ := exists_redirected hf.consistent hv hrun
  obtain ⟨stored, hstored⟩ := h.exists_stored
  have hreturns := h.returns_eq
  refine ⟨Scratch.allot f.nextValue ts, stored, ?_, fun ha p hp o hr => ?_, ?_, fun s hs => ?_,
    hreturns, fun i hi => ?_, ?_, ?_, fun p hp hop => ?_⟩
  · rw [Scratch.map_target_allot]
    exact h.written
  · obtain ⟨t, ht, -, hop, hnamed⟩ := h.written.exists_of_reads ha hp hr
    rw [← Scratch.map_target_allot f.nextValue ts] at ht
    obtain ⟨s, hs, rfl⟩ := List.mem_map.mp ht
    exact ⟨s, hs, hop, hnamed⟩
  · rw [← Scratch.results_alloca]
    exact (Scratch.fresh_alloca f.nextValue ts).nodup
  · exact h.recorded_head.2 s.alloca (List.mem_map_of_mem hs) s.slot rfl
  · rw [hreturns] at hi
    obtain ⟨b, pre, values, post, hblock, hnew⟩ := h.blockInstrs_return hi
    have hlen := (hstored i hi).length_eq
    have hlast := (hstored i hi).getLast?_eq
    have hne : stored i ≠ [] := List.ne_nil_of_length_pos (hlen ▸ h.cells_pos hm)
    have ho := List.getLast?_eq_some_getLast hne
    rw [ho, Option.map_some] at hlast
    exact ⟨b, pre, before i, values, post, _, hblock, hnew, hstored i hi, ho, hlast⟩
  · rw [hreturns]
    exact h.all_stored hstored
  · rw [hreturns, List.length_flatMap, List.map_congr_left fun i hi => (hstored i hi).length_eq,
      List.map_const', List.sum_replicate_nat, Scratch.length_cellsOf]
  · obtain ⟨op, hop⟩ := Option.isSome_iff_exists.mp hop
    obtain ⟨o, ho, hr⟩ := OutputStore.exists_store h.read hp hop
    rw [h.erased.instr?, if_pos (List.mem_map.mpr ⟨o, ho, hr.call⟩)]

/-- The only store of a sparse function is replaced by two. -/
theorem sparse_epilogues_complete : ∃ slots stored,
    Target.Written sparse sparseMetadata (slots.map Scratch.target) ∧
      (∀ p ∈ sparse.instrs, ∀ o, OutputStore.Reads sparse p o →
        ∃ s ∈ slots, s.target.opcode = o.opcode ∧ o.target? sparseMetadata = some s.target) ∧
      (slots.map Scratch.slot).Nodup ∧
      (∀ s ∈ slots, (run sparse sparseMetadata).func.definer? s.slot =
        some (.alloca s.slot s.slotTy (some s.element.name))) ∧
      (run sparse sparseMetadata).func.returns = sparse.returns ∧
      (∀ i ∈ (run sparse sparseMetadata).func.returns, ∃ b pre code values post o,
        (run sparse sparseMetadata).func.blockInstrs b = pre ++ code ++ (i, .ret values) :: post ∧
        (∀ q ∈ code, sparse.instr? q.1 = none) ∧
        Scratch.Flushes (run sparse sparseMetadata).func (Scratch.cellsOf slots) code (stored i) ∧
        (stored i).getLast? = some o ∧ code.getLast?.map Prod.fst = some o.call) ∧
      OutputStore.all (run sparse sparseMetadata).func =
        .ok ((run sparse sparseMetadata).func.returns.flatMap stored) ∧
      ((run sparse sparseMetadata).func.returns.flatMap stored).length =
        (run sparse sparseMetadata).func.returns.length *
          (slots.map fun s => s.element.rows * s.element.cols).sum ∧
      ∀ p ∈ sparse.instrs, (sparse.storeOpcode? p.2).isSome = true →
        (run sparse sparseMetadata).func.instr? p.1 = none := by
  obtain ⟨slots, stored, hwritten, hnamed, hrest⟩ :=
    epilogues_complete made_sparse (by decide) made_sparseMetadata.built rfl
  exact ⟨slots, stored, hwritten, hnamed made_sparseMetadata.aligned, hrest⟩

end Preserve

end ShaderIR
