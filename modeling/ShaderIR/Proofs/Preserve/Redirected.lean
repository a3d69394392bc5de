import ShaderIR.Machine.Run
import ShaderIR.Proofs.Function.Made
import ShaderIR.Proofs.Metadata
import ShaderIR.Proofs.Preserve.Store
import ShaderIR.Proofs.Preserve.Weaving

/-!
# What a redirection leaves behind

A redirection that succeeds places one slot for each written element at the entry, in front
of each output store code that stores to a slot, and in front of each return code that
flushes all slots. Only then are the output stores erased.
-/

set_option autoImplicit false

namespace ShaderIR

namespace Scratch

/-- Code in front of an output store which stores to the slot of the element. -/
def Storing (slots : List Scratch) (f : Function) (base : Nat) (o : OutputStore)
    (site : List (InstrId × Instr)) : Prop :=
  ∃ s ∈ slots, s.target.id = o.id ∧ ∃ width start next,
    s.Indexed f o width ∧ base ≤ next ∧ site = placed start (s.storing o width next)

/-- Code in front of a return which flushes all slots. -/
def Flushing (slots : List Scratch) (base : Nat) (site : List (InstrId × Instr)) : Prop :=
  ∃ start next, base ≤ next ∧ site = placed start (flush (cellsOf slots) next).1

theorem target_mem_of_mem_allot {s : Scratch} {next : Nat} {ts : List Target}
    (hs : s ∈ allot next ts) : s.target ∈ ts := by
  rw [← map_target_allot next ts]
  exact List.mem_map_of_mem hs

theorem Indexed.congr {s : Scratch} {f g : Function} {o : OutputStore} {width : Nat}
    (h : s.Indexed g o width) (hr : g.typeOf? o.row = f.typeOf? o.row)
    (hc : g.typeOf? o.column = f.typeOf? o.column) : s.Indexed f o width := by
  unfold Indexed at h ⊢
  rwa [hr, hc] at h

end Scratch

namespace Function

section Steps

variable {f g : Function} {head : List (InstrId × Instr)}
  {before : InstrId → List (InstrId × Instr)}

theorem Woven.lowerStores {slots : List Scratch} {stores : List OutputStore} {base : Nat}
    {g' : Function} (h : Woven f g head before)
    (hlive : ∀ o ∈ stores, ∃ ins, f.instr? o.call = some ins)
    (hindex : ∀ o ∈ stores, o.row.index < f.nextValue ∧ o.column.index < f.nextValue)
    (hn : (stores.map OutputStore.call).Nodup) (hfree : ∀ o ∈ stores, before o.call = [])
    (hbase : base ≤ g.nextValue) (hl : lowerStores slots stores g = (g', none)) :
    ∃ before', Woven f g' head before' ∧ base ≤ g'.nextValue ∧
      (∀ i, (∀ o ∈ stores, o.call ≠ i) → before' i = before i) ∧
      ∀ o ∈ stores, Scratch.Storing slots f base o (before' o.call) := by
  induction stores generalizing g before with
  | nil =>
    cases hl
    exact ⟨before, h, hbase, fun _ _ => rfl, fun _ ho => absurd ho List.not_mem_nil⟩
  | cons o rest ih =>
    obtain ⟨ins, hins⟩ := hlive o List.mem_cons_self
    obtain ⟨hrow, hcol⟩ := hindex o List.mem_cons_self
    rw [List.map_cons, List.nodup_cons] at hn
    have hne : ∀ o' ∈ rest, o'.call ≠ o.call := fun o' ho' heq =>
      hn.1 (heq ▸ List.mem_map_of_mem ho')
    rw [ShaderIR.lowerStores] at hl
    split at hl
    · cases hl
    · next s hs =>
      split at hl
      · cases hl
      · next b k hp =>
        dsimp only at hl
        split at hl
        · cases hl
        · next hfault =>
          obtain ⟨width, hidx, hcode, hnext⟩ :=
            Scratch.lowerStore_eq (Nat.lt_of_lt_of_le hcol h.extension.next_le) hfault
          have hfresh := s.fresh_storing o width g.nextValue
          rw [← hcode, ← hnext] at hfresh
          have hle :
              base ≤ (g.emit b k (s.lowerStore g o).code (s.lowerStore g o).next).nextValue := by
            rw [nextValue_emit]
            exact Nat.le_trans hbase hfresh.le
          obtain ⟨before', hw, hbase', hsame, hstore⟩ := ih (h.emit hins hp hfresh)
            (fun o' ho' => hlive o' (List.mem_cons_of_mem o ho'))
            (fun o' ho' => hindex o' (List.mem_cons_of_mem o ho')) hn.2
            (fun o' ho' => by
              rw [addBefore_of_ne _ _ _ (hne o' ho')]
              exact hfree o' (List.mem_cons_of_mem o ho')) hle hl
          refine ⟨before', hw, hbase', fun i hi => ?_, fun o' ho' => ?_⟩
          · rw [hsame i fun o' ho' => hi o' (List.mem_cons_of_mem o ho'),
              addBefore_of_ne _ _ _ (Ne.symm (hi o List.mem_cons_self))]
          · rcases List.mem_cons.mp ho' with rfl | ho'
            · refine ⟨s, List.mem_of_find?_eq_some hs, by simpa using List.find?_some hs, width,
                g.arena.size, g.nextValue, ?_, hbase, ?_⟩
              · exact hidx.congr (h.extension.typeOf?_old _ hrow) (h.extension.typeOf?_old _ hcol)
              · rw [hsame _ hne, addBefore_self, hfree _ List.mem_cons_self, hcode]
                rfl
            · exact hstore o' ho'

theorem Woven.emitEpilogue {ret : InstrId} {ins : Instr} {slots : List Scratch} {m m' : Metadata}
    {g' : Function} (h : Woven f g head before) (hret : f.instr? ret = some ins)
    (he : emitEpilogue ret slots g m = (g', m', none)) :
    Woven f g' head (addBefore before ret
      (placed g.arena.size (Scratch.flush (Scratch.cellsOf slots) g.nextValue).1)) ∧
    g.nextValue ≤ g'.nextValue ∧ ∀ s ∈ slots, s.element.cols ≤ Element.columnLimit := by
  induction slots generalizing g before m with
  | nil =>
    cases he
    refine ⟨?_, Nat.le_refl _, fun _ hs => absurd hs List.not_mem_nil⟩
    have hnil : placed g'.arena.size (Scratch.flush (Scratch.cellsOf []) g'.nextValue).1 = [] := rfl
    rwa [hnil, addBefore_nil]
  | cons s rest ih =>
    rw [emitEpilogue_cons] at he
    split at he
    · cases he
    · next b k hp =>
      dsimp only at he
      split at he
      · cases he
      · next hfault =>
        obtain ⟨hcols, hcode, hnext⟩ := Scratch.epilogue_eq hfault
        have hfresh := Scratch.fresh_flush (s.element.positions.map fun p => (s, p)) g.nextValue
        rw [hcode, hnext] at he
        obtain ⟨hw, hle, hrest⟩ := ih (h.emit hret hp hfresh) he
        rw [nextValue_emit] at hle
        have hcells : Scratch.cellsOf (s :: rest) =
            (s.element.positions.map fun p => (s, p)) ++ Scratch.cellsOf rest :=
          List.flatMap_cons
        refine ⟨?_, Nat.le_trans hfresh.le hle, fun t ht => ?_⟩
        · rw [nextValue_emit, arena_size_emit, addBefore_addBefore] at hw
          rwa [hcells, Scratch.flush_append, placed_append]
        · rcases List.mem_cons.mp ht with rfl | ht
          · exact hcols
          · exact hrest t ht

theorem Woven.emitEpilogues {slots : List Scratch} {rets : List InstrId} {m m' : Metadata}
    {base : Nat} {g' : Function} (h : Woven f g head before)
    (hlive : ∀ i ∈ rets, ∃ ins, f.instr? i = some ins) (hn : rets.Nodup)
    (hfree : ∀ i ∈ rets, before i = []) (hbase : base ≤ g.nextValue)
    (he : emitEpilogues slots rets g m = (g', m', none)) :
    ∃ before', Woven f g' head before' ∧ (∀ i, i ∉ rets → before' i = before i) ∧
      (∀ i ∈ rets, Scratch.Flushing slots base (before' i)) ∧
      (rets ≠ [] → ∀ s ∈ slots, s.element.cols ≤ Element.columnLimit) := by
  induction rets generalizing g before m with
  | nil =>
    cases he
    exact ⟨before, h, fun _ _ => rfl, fun _ hi => absurd hi List.not_mem_nil,
      fun hne => absurd rfl hne⟩
  | cons ret rest ih =>
    obtain ⟨ins, hins⟩ := hlive ret List.mem_cons_self
    obtain ⟨hnot, hn⟩ := List.nodup_cons.mp hn
    rw [ShaderIR.emitEpilogues] at he
    split at he
    · cases he
    · next g₁ m₁ he₁ =>
      obtain ⟨hw, hle, hcols⟩ := h.emitEpilogue hins he₁
      have hfree' : ∀ i ∈ rest, addBefore before ret (placed g.arena.size
          (Scratch.flush (Scratch.cellsOf slots) g.nextValue).1) i = [] := by
        intro i hi
        rw [addBefore_of_ne _ _ _ (ne_of_mem_of_not_mem hi hnot)]
        exact hfree i (List.mem_cons_of_mem ret hi)
      obtain ⟨before', hw', hsame, hflush, -⟩ := ih hw
        (fun i hi => hlive i (List.mem_cons_of_mem ret hi)) hn hfree' (Nat.le_trans hbase hle) he
      refine ⟨before', hw', fun i hi => ?_, fun i hi => ?_, fun _ => hcols⟩
      · obtain ⟨hne, hi⟩ := not_or.mp (fun hor => hi (List.mem_cons.mpr hor))
        rw [hsame i hi, addBefore_of_ne _ _ _ hne]
      · rcases List.mem_cons.mp hi with rfl | hi
        · refine ⟨g.arena.size, g.nextValue, hbase, ?_⟩
          rw [hsame i hnot, addBefore_self, hfree i List.mem_cons_self]
          rfl
        · exact hflush i hi

end Steps

end Function

section Stores

variable {f : Function} {stores : List OutputStore} (h : OutputStore.all f = .ok stores)
include h

theorem OutputStore.live_call (hf : f.Consistent) {o : OutputStore} (ho : o ∈ stores) :
    ∃ ins, f.instr? o.call = some ins ∧ OutputStore.Reads f (o.call, ins) o := by
  obtain ⟨⟨i, ins⟩, hp, hr⟩ := OutputStore.exists_call h ho
  obtain rfl : o.call = i := hr.call
  exact ⟨ins, hf.mem_instrs.mp hp, hr⟩

theorem OutputStore.nodup_calls (hf : f.Consistent) : (stores.map OutputStore.call).Nodup := by
  rw [OutputStore.map_call_all h]
  have hsub : ((OutputStore.callsOf f f.instrs).map Prod.fst).Sublist (f.instrs.map Prod.fst) :=
    List.filter_sublist.map _
  rw [hf.map_fst_instrs] at hsub
  exact hf.nodup.sublist hsub

theorem OutputStore.call_ne_return (hf : f.Consistent) {o : OutputStore} (ho : o ∈ stores)
    {i : InstrId} (hi : i ∈ f.returns) : o.call ≠ i := by
  rintro rfl
  obtain ⟨ins, hins, hr⟩ := OutputStore.live_call h hf ho
  obtain ⟨ins', hins', hret⟩ := hf.mem_returns.mp hi
  cases hins.symm.trans hins'
  rw [hr.isReturn_eq_false] at hret
  cases hret

theorem OutputStore.index_lt (hf : f.Consistent) (hv : f.Numbered) {o : OutputStore}
    (ho : o ∈ stores) : o.row.index < f.nextValue ∧ o.column.index < f.nextValue ∧
      o.value.index < f.nextValue := by
  obtain ⟨ins, hins, hr⟩ := OutputStore.live_call h hf ho
  obtain ⟨op, id, n, rest, hops, -⟩ := hr.operands
  have hall := hv.operand _ (hf.mem_instrs.mpr hins)
  simp only [hops] at hall
  exact ⟨hall o.row (by simp), hall o.column (by simp), hall o.value (by simp)⟩

end Stores

namespace Preserve

/-- The redirection of the output stores of `f`, with the elements that they write: `w` is the
function before the stores are erased, and `g` the one after. -/
structure Redirected (f : Function) (m : Metadata) (stores : List OutputStore) (ts : List Target)
    (before : InstrId → List (InstrId × Instr)) (w g : Function) : Prop where
  consistent : f.Consistent
  numbered : f.Numbered
  read : OutputStore.all f = .ok stores
  nonempty : stores ≠ []
  targets : Target.collect f.name m [] stores = .ok ts
  fits : ∀ t ∈ ts, Preserve.fits t = true
  entry : ∃ blk, f.block? .entry = some blk
  woven : f.Woven w
    (placed f.arena.size ((Scratch.allot f.nextValue ts).map Scratch.alloca)) before
  storing : ∀ o ∈ stores,
    Scratch.Storing (Scratch.allot f.nextValue ts) f (f.nextValue + ts.length) o (before o.call)
  flushing : ∀ i ∈ f.returns,
    Scratch.Flushing (Scratch.allot f.nextValue ts) (f.nextValue + ts.length) (before i)
  columns : f.returns ≠ [] → ∀ t ∈ ts, t.element.cols ≤ Element.columnLimit
  other : ∀ i, i ∉ f.returns → (∀ o ∈ stores, o.call ≠ i) → before i = []
  ids : w.nextValue < idLimit
  erased : w.Erased g (stores.map OutputStore.call)

theorem length_allot (next : Nat) (ts : List Target) :
    (Scratch.allot next ts).length = ts.length := by
  rw [← congrArg List.length (Scratch.map_target_allot next ts), List.length_map]

section Collected

variable {f : Function} {m : Metadata} {stores : List OutputStore}
  (hall : OutputStore.all f = .ok stores) (hne : stores ≠ [])
include hall hne

theorem run_of_collect_error {e : PassError} (h : Target.collect f.name m [] stores = .error e) :
    run f m = ⟨f, m, [], .error (.error e)⟩ := by
  unfold run
  rw [hall]
  cases stores with
  | nil => exact absurd rfl hne
  | cons o rest => simp only [h]

theorem run_of_collect_ok {ts : List Target} (h : Target.collect f.name m [] stores = .ok ts) :
    run f m = redirect f m stores ts := by
  unfold run
  rw [hall]
  cases stores with
  | nil => exact absurd rfl hne
  | cons o rest => simp only [h]

end Collected

theorem run_eq_true {f : Function} {m : Metadata} (h : (run f m).verdict = .ok true) :
    ∃ stores ts, OutputStore.all f = .ok stores ∧ stores ≠ [] ∧
      Target.collect f.name m [] stores = .ok ts ∧ redirect f m stores ts = run f m := by
  unfold run at h ⊢
  split at h
  · cases h
  · cases h
  · next stores hne hall =>
    split at h
    · cases h
    · next ts hts => exact ⟨stores, ts, hall, hne, hts, rfl⟩

theorem redirect_eq_true {f : Function} {m : Metadata} {stores : List OutputStore}
    {ts : List Target} (h : (redirect f m stores ts).verdict = .ok true) :
    ∃ u w m', (∀ t ∈ ts, fits t = true) ∧
      lowerStores (Scratch.allot f.nextValue ts) stores
        (allocateSlots f (Scratch.allot f.nextValue ts)) = (u, none) ∧
      emitEpilogues (Scratch.allot f.nextValue ts) u.returns u m = (w, m', none) ∧
      (redirect f m stores ts).func = eraseStores stores w ∧
      (eraseStores stores w).nextValue < idLimit := by
  unfold redirect guardIds redirectStores at h ⊢
  dsimp only at h ⊢
  split at h
  · next hfits =>
    rcases hl : lowerStores (Scratch.allot f.nextValue ts) stores
        (allocateSlots f (Scratch.allot f.nextValue ts)) with ⟨u, _ | e⟩
    · rcases he : emitEpilogues (Scratch.allot f.nextValue ts) u.returns u m with ⟨w, m', _ | e⟩
      · simp only [hl, he] at h ⊢
        split at h
        · next hlt =>
          refine ⟨u, w, m', fun t ht => List.all_eq_true.mp hfits t ht, rfl, he, ?_, hlt⟩
          rw [if_pos hfits, if_pos hlt]
        · cases h
      · simp only [hl, he] at h
        split at h <;> cases h
    · simp only [hl] at h
      split at h <;> cases h
  · cases h

theorem exists_lowered {f : Function} (hf : f.Consistent) (hv : f.Numbered)
    {stores : List OutputStore} {ts : List Target} {u : Function}
    (hall : OutputStore.all f = .ok stores) (hne : stores ≠ [])
    (hl : lowerStores (Scratch.allot f.nextValue ts) stores
      (allocateSlots f (Scratch.allot f.nextValue ts)) = (u, none)) :
    ∃ before, f.Woven u
        (placed f.arena.size ((Scratch.allot f.nextValue ts).map Scratch.alloca)) before ∧
      f.nextValue + ts.length ≤ u.nextValue ∧
      (∀ i, (∀ o ∈ stores, o.call ≠ i) → before i = []) ∧
      ∀ o ∈ stores, Scratch.Storing (Scratch.allot f.nextValue ts) f (f.nextValue + ts.length) o
        (before o.call) := by
  obtain ⟨blk, hb⟩ := Function.exists_entry hall hne
  have hhead := hf.emit_entry hb (Scratch.fresh_alloca f.nextValue ts)
  rw [allocateSlots, length_allot] at hl
  exact hhead.lowerStores
    (fun o ho =>
      let ⟨ins, hins, _⟩ := OutputStore.live_call hall hf ho
      ⟨ins, hins⟩)
    (fun o ho => (OutputStore.index_lt hall hf hv ho).imp_right And.left)
    (OutputStore.nodup_calls hall hf) (fun _ _ => rfl)
    (Nat.le_of_eq (Function.nextValue_emit ..).symm) hl

theorem exists_redirected {f : Function} {m : Metadata} (hf : f.Consistent) (hv : f.Numbered)
    (h : (run f m).verdict = .ok true) :
    ∃ stores ts before w, Redirected f m stores ts before w (run f m).func := by
  obtain ⟨stores, ts, hall, hne, hts, heq⟩ := run_eq_true h
  rw [← heq] at h ⊢
  obtain ⟨u, w, m', hfits, hl, he, hg, hids⟩ := redirect_eq_true h
  obtain ⟨blk, hb⟩ := Function.exists_entry hall hne
  obtain ⟨before, hw, hbase, hsame, hstore⟩ := exists_lowered hf hv hall hne hl
  have hlive : ∀ o ∈ stores, ∃ ins, f.instr? o.call = some ins := fun o ho =>
    let ⟨ins, hins, _⟩ := OutputStore.live_call hall hf ho
    ⟨ins, hins⟩
  have hrets : ∀ i, i ∈ u.returns ↔ i ∈ f.returns := fun i => hw.mem_returns hf
  have hcalls : ∀ i ∈ f.returns, ∀ o ∈ stores, o.call ≠ i := fun i hi o ho =>
    OutputStore.call_ne_return hall hf ho hi
  obtain ⟨before', hw', hsame', hflush, hcols⟩ := hw.emitEpilogues
    (fun i hi => by
      obtain ⟨ins, hins, -⟩ := hf.mem_returns.mp ((hrets i).mp hi)
      exact ⟨ins, hins⟩)
    hw.consistent.nodup_returns
    (fun i hi => hsame i (hcalls i ((hrets i).mp hi))) hbase he
  have herased : w.Erased (eraseStores stores w) (stores.map OutputStore.call) := by
    refine Function.erased_eraseStores hw'.consistent (fun o ho => ?_)
      (OutputStore.nodup_calls hall hf)
    obtain ⟨ins, hins⟩ := hlive o ho
    exact ⟨ins, hw'.extension.instr?_of_some hins⟩
  refine ⟨stores, ts, before', w, ⟨hf, hv, hall, hne, hts, hfits, ⟨blk, hb⟩, hw', fun o ho => ?_,
    fun i hi => hflush i ((hrets i).mpr hi), fun hne' t ht => ?_, fun i hi ho => ?_, ?_, ?_⟩⟩
  · rw [hsame' _ fun hr => hcalls _ ((hrets _).mp hr) o ho rfl]
    exact hstore o ho
  · obtain ⟨i, hi⟩ := List.exists_mem_of_ne_nil _ hne'
    rw [← Scratch.map_target_allot f.nextValue ts] at ht
    obtain ⟨s, hs, rfl⟩ := List.mem_map.mp ht
    exact hcols (List.ne_nil_of_mem ((hrets i).mpr hi)) s hs
  · rw [hsame' i fun hr => hi ((hrets i).mp hr), hsame i ho]
  · rw [← herased.nextValue]
    exact hids
  · rw [hg]
    exact herased

/-- What becomes of an instruction: an output store is replaced by code that stores to a slot, a
return gets code in front of it that flushes all slots, and every other instruction stays
alone. The code is where the instruction was, or in front of it. -/
inductive Fate (f g : Function) (stores : List OutputStore) (ts : List Target)
    (p : InstrId × Instr) (code : List (InstrId × Instr)) : Prop
  | store (o : OutputStore) (s : Scratch) (width start next : Nat) (ho : o ∈ stores)
      (hreads : OutputStore.Reads f p o) (hs : s ∈ Scratch.allot f.nextValue ts)
      (hid : s.target.id = o.id) (hindexed : s.Indexed f o width)
      (hnext : f.nextValue + ts.length ≤ next) (htyped : g.Typed (s.storing o width next))
      (hdefines : g.Defines (s.storing o width next))
      (hcode : code = placed start (s.storing o width next))
  | ret (start next : Nat) (hkept : p.1 ∉ stores.map OutputStore.call)
      (hret : p.2.isReturn = true) (hcols : ∀ t ∈ ts, t.element.cols ≤ Element.columnLimit)
      (hnext : f.nextValue + ts.length ≤ next)
      (htyped : g.Typed (Scratch.flush (Scratch.cellsOf (Scratch.allot f.nextValue ts)) next).1)
      (hdefines : g.Defines (Scratch.flush (Scratch.cellsOf (Scratch.allot f.nextValue ts)) next).1)
      (hcode : code =
        placed start (Scratch.flush (Scratch.cellsOf (Scratch.allot f.nextValue ts)) next).1)
  | other (hkept : p.1 ∉ stores.map OutputStore.call) (hret : p.2.isReturn = false)
      (hop : f.storeOpcode? p.2 = none) (hcode : code = [])

namespace Redirected

variable {f : Function} {m : Metadata} {stores : List OutputStore} {ts : List Target}
  {before : InstrId → List (InstrId × Instr)} {w g : Function}
  (h : Redirected f m stores ts before w g)
include h

theorem call_lt {i : InstrId} (hi : i ∈ stores.map OutputStore.call) :
    i.index < f.arena.size := by
  obtain ⟨o, ho, rfl⟩ := List.mem_map.mp hi
  obtain ⟨ins, hins, -⟩ := OutputStore.live_call h.read h.consistent ho
  exact Function.index_lt_of_instr? hins

theorem written : Target.Written f m ts := Target.written_of_collect h.read h.targets

theorem id_lt {t : Target} (ht : t ∈ ts) : t.id < idLimit := by
  obtain ⟨o, ho, hnamed⟩ := Target.exists_named h.targets ht
  obtain ⟨ins, -, hr⟩ := OutputStore.live_call h.read h.consistent ho
  obtain ⟨-, -, n, -, -, -, hn⟩ := hr.operands
  rw [(OutputStore.target?_eq_some.mp hnamed).1]
  unfold elementId? at hn
  split at hn
  · next hrange =>
    have heq := Option.some.inj hn
    omega
  · cases hn

theorem blocks : g.blocks.map (fun blk => { blk with body := [] }) =
    f.blocks.map fun blk => { blk with body := [] } :=
  h.erased.blocks.trans h.woven.extension.blocks

theorem exists_entry : ∃ blk rest, f.blocks = blk :: rest ∧ blk.id = .entry ∧
    ∀ blk' ∈ rest, blk'.id ≠ .entry := by
  obtain ⟨blk, hb⟩ := h.entry
  obtain ⟨rest, hrest⟩ : ∃ rest, f.blocks = blk :: rest := by
    cases hblocks : f.blocks with
    | nil => simp [Function.block?, hblocks] at hb
    | cons first rest =>
      rw [Function.block?, hblocks] at hb
      cases hb
      exact ⟨rest, rfl⟩
  refine ⟨blk, rest, hrest, h.consistent.id_of_block? hb, fun blk' hmem => ?_⟩
  obtain ⟨n, hn⟩ := List.mem_iff_getElem?.mp hmem
  have hid := h.consistent.blockId (n + 1) blk' (by rw [hrest, List.getElem?_cons_succ, hn])
  rw [hid]
  rintro ⟨⟩

theorem blockInstrs (b : BlockId) : g.blockInstrs b =
    (if b = .entry then
      placed f.arena.size ((Scratch.allot f.nextValue ts).map Scratch.alloca) else []) ++
    (f.blockInstrs b).flatMap fun p =>
      before p.1 ++ if p.1 ∈ stores.map OutputStore.call then [] else [p] := by
  have hnew : ∀ l : List (InstrId × Instr), (∀ p ∈ l, f.arena.size ≤ p.1.index) →
      l.filter (fun p => decide (p.1 ∉ stores.map OutputStore.call)) = l := by
    intro l hl
    refine List.filter_eq_self.mpr fun p hp => decide_eq_true fun hmem => ?_
    exact absurd (h.call_lt hmem) (Nat.not_lt.mpr (hl p hp))
  have hhead : ∀ p ∈ (if b = .entry then
      placed f.arena.size ((Scratch.allot f.nextValue ts).map Scratch.alloca) else []),
      f.arena.size ≤ p.1.index := by
    intro p hp
    split at hp
    · exact h.woven.head_new p hp
    · cases hp
  rw [h.erased.blockInstrs, h.woven.blockInstrs, List.filter_append, hnew _ hhead,
    List.filter_flatMap]
  congr 1
  refine List.flatMap_congr fun p _ => ?_
  rw [List.filter_append, hnew _ (h.woven.before_new p.1)]
  congr 1
  split
  · next hp => exact List.filter_cons_of_neg fun hkeep => of_decide_eq_true hkeep hp
  · next hp => exact List.filter_cons_of_pos (decide_eq_true hp)

/-- The code in front of the instruction that an instruction of `f` was. -/
def site (before : InstrId → List (InstrId × Instr)) (stores : List OutputStore)
    (p : InstrId × Instr) : List Instr :=
  (before p.1).map Prod.snd ++ if p.1 ∈ stores.map OutputStore.call then [] else [p.2]

omit h in
theorem site_of_store {p : InstrId × Instr} {o : OutputStore} {start : Nat} {code : List Draft}
    (hr : OutputStore.Reads f p o) (ho : o ∈ stores) (hb : before p.1 = placed start code) :
    site before stores p = code.map Draft.instr := by
  rw [site, if_pos (List.mem_map.mpr ⟨o, ho, hr.call⟩), hb, map_snd_placed, List.append_nil]

omit h in
theorem site_of_kept {p : InstrId × Instr} {start : Nat} {code : List Draft}
    (hp : p.1 ∉ stores.map OutputStore.call) (hb : before p.1 = placed start code) :
    site before stores p = code.map Draft.instr ++ [p.2] := by
  rw [site, if_neg hp, hb, map_snd_placed]

omit h in
theorem site_of_other {p : InstrId × Instr} (hp : p.1 ∉ stores.map OutputStore.call)
    (hb : before p.1 = []) : site before stores p = [p.2] := by
  rw [site, if_neg hp, hb, List.map_nil, List.nil_append]

theorem code (b : BlockId) : g.code b =
    (if b = .entry then
      ((Scratch.allot f.nextValue ts).map Scratch.alloca).map Draft.instr else []) ++
    (f.blockInstrs b).flatMap (site before stores) := by
  rw [Function.code, h.blockInstrs, List.map_append, List.map_flatMap]
  congr 1
  · split
    · exact map_snd_placed _ _
    · rfl
  · refine List.flatMap_congr fun p _ => ?_
    rw [List.map_append, site]
    split <;> rfl

theorem records_kept {v : ValueId} (hv : f.nextValue ≤ v.index) :
    g.typeOf? v = w.typeOf? v ∧ g.definition? v = w.definition? v := by
  rcases h.erased.records v with hkept | ⟨-, i, hgone, old, hold, hres⟩
  · exact hkept
  · rw [h.woven.extension.instr?_old i (h.call_lt hgone)] at hold
    have := h.numbered.result _ (h.consistent.mem_instrs.mpr hold) v hres
    omega

theorem records_new {i : InstrId} {ins : Instr} {r : ValueId} (hle : f.arena.size ≤ i.index)
    (hi : w.instr? i = some ins) (hr : ins.result? = some r) :
    g.typeOf? r = ins.ty? ∧ g.definer? r = some ins := by
  obtain ⟨hge, -, hty, hdef⟩ := h.woven.extension.new i ins r hle hi hr
  obtain ⟨ht, hd⟩ := h.records_kept hge
  have hkept : g.instr? i = some ins := by
    rw [h.erased.instr?, if_neg, hi]
    intro hgone
    exact absurd (h.call_lt hgone) (Nat.not_lt.mpr hle)
  rw [ht, hty, Function.definer?, hd, hdef]
  exact ⟨rfl, hkept⟩

theorem recorded {start : Nat} {code : List Draft}
    (hcode : ∀ p ∈ placed start code, f.arena.size ≤ p.1.index ∧ w.instr? p.1 = some p.2) :
    g.Typed code ∧ g.Defines code := by
  have hall : ∀ d ∈ code, ∀ r, d.instr.result? = some r →
      g.typeOf? r = d.instr.ty? ∧ g.definer? r = some d.instr := by
    intro d hd r hr
    obtain ⟨p, hp, hpd⟩ := exists_placed start hd
    obtain ⟨hle, hi⟩ := hcode p hp
    rw [hpd] at hi
    exact h.records_new hle hi hr
  exact ⟨fun d hd r hr => (hall d hd r hr).1, fun d hd r hr => (hall d hd r hr).2⟩

theorem recorded_head : g.Typed ((Scratch.allot f.nextValue ts).map Scratch.alloca) ∧
    g.Defines ((Scratch.allot f.nextValue ts).map Scratch.alloca) :=
  h.recorded fun p hp => ⟨h.woven.head_new p hp, h.woven.instr?_head hp⟩

theorem typeOf?_slot {s : Scratch} (hs : s ∈ Scratch.allot f.nextValue ts) :
    g.typeOf? s.slot = some (.pointer s.slotTy) :=
  h.recorded_head.1 s.alloca (List.mem_map_of_mem hs) s.slot rfl

theorem recorded_before {i : InstrId} {ins : Instr} (hi : f.instr? i = some ins) {start : Nat}
    {code : List Draft} (hb : before i = placed start code) : g.Typed code ∧ g.Defines code := by
  refine h.recorded (?_ : ∀ p ∈ placed start code, _)
  intro p hp
  rw [← hb] at hp
  exact ⟨h.woven.before_new i p hp, h.woven.instr?_before h.consistent hi hp⟩

theorem records_old {v : ValueId} (hv : v.index < f.nextValue)
    (hkept : ∀ p ∈ f.instrs, ∀ o, OutputStore.Reads f p o → p.2.result? ≠ some v) :
    g.typeOf? v = f.typeOf? v ∧ g.definition? v = f.definition? v := by
  rw [← h.woven.extension.typeOf?_old v hv, ← h.woven.extension.definition?_old v hv]
  rcases h.erased.records v with hsame | ⟨-, i, hgone, ins, hins, hr⟩
  · exact hsame
  · obtain ⟨o, ho, rfl⟩ := List.mem_map.mp hgone
    obtain ⟨old, hold, hreads⟩ := OutputStore.live_call h.read h.consistent ho
    cases (h.woven.extension.instr?_of_some hold).symm.trans hins
    exact absurd hr (hkept (o.call, ins) (h.consistent.mem_instrs.mpr hold) o hreads)

theorem typeOf?_old {v : ValueId} (hv : v.index < f.nextValue)
    (hkept : ∀ p ∈ f.instrs, ∀ o, OutputStore.Reads f p o → p.2.result? ≠ some v) :
    g.typeOf? v = f.typeOf? v :=
  (h.records_old hv hkept).1

theorem fate {p : InstrId × Instr} (hp : p ∈ f.instrs) : Fate f g stores ts p (before p.1) := by
  have hi := h.consistent.mem_instrs.mp hp
  by_cases hcall : p.1 ∈ stores.map OutputStore.call
  · obtain ⟨o, ho, heq⟩ := List.mem_map.mp hcall
    obtain ⟨ins, hins, hr⟩ := OutputStore.live_call h.read h.consistent ho
    rw [heq, hi] at hins
    cases hins
    rw [heq] at hr
    obtain ⟨s, hs, hid, width, start, next, hidx, hle, hb⟩ := h.storing o ho
    rw [heq] at hb
    obtain ⟨htyped, hdefines⟩ := h.recorded_before hi hb
    exact .store o s width start next ho hr hs hid hidx hle htyped hdefines hb
  · cases hret : p.2.isReturn with
    | true =>
      have hrets : p.1 ∈ f.returns := h.consistent.mem_returns.mpr ⟨p.2, hi, hret⟩
      obtain ⟨start, next, hle, hb⟩ := h.flushing p.1 hrets
      obtain ⟨htyped, hdefines⟩ := h.recorded_before hi hb
      exact .ret start next hcall hret (h.columns (List.ne_nil_of_mem hrets)) hle htyped hdefines hb
    | false =>
      refine .other hcall hret ?_
        (h.other p.1 ?_ fun o ho heq => hcall (List.mem_map.mpr ⟨o, ho, heq⟩))
      · cases hop : f.storeOpcode? p.2 with
        | none => rfl
        | some op =>
          obtain ⟨o, ho, hr⟩ := OutputStore.exists_store h.read hp hop
          exact absurd (List.mem_map.mpr ⟨o, ho, hr.call⟩) hcall
      · intro hrets
        obtain ⟨ins, hins, hr⟩ := h.consistent.mem_returns.mp hrets
        cases hi.symm.trans hins
        rw [hret] at hr
        cases hr

end Redirected

/-- Stores the second of the two components of an output. -/
def sparseCommands : List Builder.Command :=
  [.createBlock none, .setCurrent ⟨0⟩, .constInt 5 .i32, .constInt 0 .i32, .constInt 0 .i32,
    .constInt 1 .i8, .constInt 7 .i32,
    .call "dx.op.storeOutput.i32" [⟨0⟩, ⟨1⟩, ⟨2⟩, ⟨3⟩, ⟨4⟩], .ret []]

def sparse : Function :=
  match ((Builder.new "main" [] .void).run sparseCommands).2 with
  | .ok s => s.func
  | .error _ => .empty "main" [] .void

def sparseMetadata : Metadata :=
  { Metadata.empty with outputs := ⟨.output, [⟨"A", 1, 2, .i32⟩]⟩ }

theorem made_sparseMetadata : sparseMetadata.Made :=
  .output (e := ⟨"A", 1, 2, .i32⟩) .empty rfl

/-- The same output, in a signature of the other kind. -/
def crossedMetadata : Metadata :=
  { Metadata.empty with outputs := ⟨.patchConstant, [⟨"A", 1, 2, .i32⟩]⟩ }

theorem made_sparse : sparse.Made := by
  have hrun : ((Builder.new "main" [] .void).run sparseCommands).2 = .ok ⟨sparse, some ⟨0⟩⟩ := rfl
  exact .build (Prod.ext rfl hrun) rfl

end Preserve

end ShaderIR
