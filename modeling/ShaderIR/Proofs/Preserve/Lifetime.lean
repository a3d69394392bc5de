import ShaderIR.Proofs.Machine.Trace
import ShaderIR.Proofs.Preserve.Simulation
import ShaderIR.Proofs.Preserve.Validity

/-!
# How long a slot lives

The slots of the written elements are allocated at the start of the entry. As long as a run does
not come back to the entry, each of them is allocated once, every load and every store of the
redirection goes to it, and its cells hold what was stored to them last. Each time a run branches
to the entry, it allocates the slots anew, and what was stored before is out of reach.
-/

set_option autoImplicit false

namespace ShaderIR

/-- The pointer through which an instruction loads or stores. -/
def Instr.accessed? : Instr → Option ValueId
  | .load _ ptr _ => some ptr
  | .store ptr _ => some ptr
  | _ => none

theorem Instr.accessed?_of_computes {ins : Instr} (h : ins.computes = true) :
    ins.accessed? = none := by
  cases ins <;> simp_all [computes, accessed?]

namespace Scratch

/-- The value is the pointer to the slot, or computed from it. -/
def Addressed (s : Scratch) (g : Function) (ptr : ValueId) : Prop :=
  ptr = s.slot ∨ ∃ indices inbounds ty,
    g.definer? ptr = some (.gep ptr s.slot indices inbounds ty)

/-- What has become of the slot with number `i` after a run has passed some points: what is
addressed is in this slot, and each cell of it holds what was stored to it last. -/
structure Alive (s : Scratch) (g : Function) (i : Nat) (cs : List Config) (m : Machine) :
    Prop where
  pointer : ∀ ptr x, s.Addressed g ptr → m.values[ptr]? = some x → ∃ o, x = .pointer i o
  cell : ∀ o, m.cell? i o = if o < s.element.rows * s.element.cols then
    some ((g.lastStored i o cs).getD .undef) else none

theorem addressed_address {s : Scratch} {g : Function} {row column : ValueId} {width next : Nat}
    (h : g.Defines (s.address row column width next).code) :
    s.Addressed g (s.address row column width next).value := by
  cases hs : s.element.isSingle with
  | true =>
    rw [address, if_pos hs]
    exact Or.inl rfl
  | false =>
    rw [address_of_not_single hs] at h ⊢
    dsimp only at h ⊢
    exact Or.inr ⟨_, _, _, h (.gep ⟨(toI32 column width (next + 2)).next + 2⟩ s.slot
      [⟨(toI32 column width (next + 2)).next + 1⟩, ⟨(toI32 column width (next + 2)).next⟩]
      (.pointer s.ty)) (by simp) _ rfl⟩

theorem addressed_of_mem_storing {s : Scratch} {g : Function} {o : OutputStore} {width next : Nat}
    (h : g.Defines (s.storing o width next)) {d : Draft} (hd : d ∈ s.storing o width next)
    {ptr : ValueId} (hptr : d.instr.accessed? = some ptr) : s.Addressed g ptr := by
  rcases List.mem_append.mp hd with hd | hd
  · rw [Instr.accessed?_of_computes (s.computes_address _ _ _ _ d hd)] at hptr
    cases hptr
  · cases List.mem_singleton.mp hd
    cases hptr
    exact addressed_address (h.mono fun d hd => List.mem_append_left _ hd)

theorem addressed_of_mem_flush {g : Function} {cells : List (Scratch × Nat × Nat)} {next : Nat}
    (h : g.Defines (flush cells next).1) {d : Draft} (hd : d ∈ (flush cells next).1)
    {ptr : ValueId} (hptr : d.instr.accessed? = some ptr) :
    ∃ c ∈ cells, c.1.Addressed g ptr := by
  induction cells generalizing next with
  | nil => cases hd
  | cons c cells ih =>
    obtain ⟨s, p⟩ := c
    rcases List.mem_append.mp hd with hd | hd
    · refine ⟨_, List.mem_cons_self, ?_⟩
      have hcode : g.Defines (s.emission p next).code :=
        h.mono fun d hd => List.mem_append_left _ hd
      rw [code_emission] at hd hcode
      rcases List.mem_append.mp hd with hd | hd
      · have hcomputes : d.instr.computes = true := by
          rcases List.mem_append.mp hd with hd | hd
          · exact s.computes_constants p next d hd
          · exact s.computes_address ⟨next + 2⟩ ⟨next + 3⟩ 8 (next + 4) d hd
        rw [Instr.accessed?_of_computes hcomputes] at hptr
        cases hptr
      · rcases List.mem_cons.mp hd with rfl | hd
        · cases hptr
          exact addressed_address (hcode.mono fun d hd =>
            List.mem_append_left _ (List.mem_append_right _ hd))
        · cases List.mem_singleton.mp hd
          cases hptr
    · obtain ⟨c, hc, haddressed⟩ := ih (h.mono fun d hd => List.mem_append_right _ hd) hd
      exact ⟨c, List.mem_cons_of_mem _ hc, haddressed⟩

end Scratch

namespace Preserve.Redirected

variable {f : Function} {m : Metadata} {stores : List OutputStore} {ts : List Target}
  {before : InstrId → List (InstrId × Instr)} {w g : Function}
  (h : Redirected f m stores ts before w g)
include h

theorem addressed {q : InstrId × Instr} (hq : q ∈ g.instrs) (hnew : f.instr? q.1 = none)
    {ptr : ValueId} (hptr : q.2.accessed? = some ptr) :
    ∃ s ∈ Scratch.allot f.nextValue ts, s.Addressed g ptr := by
  rw [h.instrs] at hq
  rcases List.mem_append.mp hq with hq | hq
  · obtain ⟨d, hd, heq⟩ := exists_draft hq
    obtain ⟨s, -, rfl⟩ := List.mem_map.mp hd
    rw [← heq] at hptr
    cases hptr
  · obtain ⟨p, hp, hq⟩ := List.mem_flatMap.mp hq
    rcases List.mem_append.mp hq with hq | hq
    · cases h.fate hp with
      | store o s width start next ho hreads hs hid hindexed hnext htyped hdefines hcode =>
        rw [hcode] at hq
        obtain ⟨d, hd, heq⟩ := exists_draft hq
        rw [← heq] at hptr
        exact ⟨s, hs, Scratch.addressed_of_mem_storing hdefines hd hptr⟩
      | ret start next hkept hret hcols hnext htyped hdefines hcode =>
        rw [hcode] at hq
        obtain ⟨d, hd, heq⟩ := exists_draft hq
        rw [← heq] at hptr
        obtain ⟨c, hc, haddressed⟩ := Scratch.addressed_of_mem_flush hdefines hd hptr
        obtain ⟨s, hs, hc⟩ := List.mem_flatMap.mp hc
        obtain ⟨_, -, rfl⟩ := List.mem_map.mp hc
        exact ⟨s, hs, haddressed⟩
      | other hkept hret hop hcode =>
        rw [hcode] at hq
        cases hq
    · split at hq
      · cases hq
      · cases List.mem_singleton.mp hq
        rw [h.consistent.mem_instrs.mp hp] at hnew
        cases hnew

theorem exists_store_of_reads {p : InstrId × Instr} (hp : p ∈ f.instrs) {o : OutputStore}
    (hr : OutputStore.Reads f p o) : ∃ s ∈ Scratch.allot f.nextValue ts, s.target.id = o.id ∧
      ∃ i ptr, (i, Instr.store ptr o.value) ∈ g.instrs ∧ s.Addressed g ptr := by
  cases h.fate hp with
  | store o' s width start next ho hreads hs hid hindexed hnext htyped hdefines hcode =>
    cases hr.unique hreads
    have hmem : Draft.store o.value (s.address o.row o.column width next).value ∈
        s.storing o width next := List.mem_append_right _ List.mem_cons_self
    obtain ⟨⟨i, ins⟩, hq, rfl⟩ := exists_placed start hmem
    refine ⟨s, hs, hid, i, _, ?_, Scratch.addressed_of_mem_storing hdefines hmem rfl⟩
    rw [h.instrs]
    refine List.mem_append_right _ (List.mem_flatMap.mpr ⟨p, hp, List.mem_append_left _ ?_⟩)
    rw [hcode]
    exact hq
  | ret start next hkept hret hcols hnext htyped hdefines hcode =>
    rw [hr.isReturn_eq_false] at hret
    cases hret
  | other hkept hret hop hcode =>
    rw [hr.opcode] at hop
    cases hop

theorem result?_site {p : InstrId × Instr} (hp : p ∈ f.instrs) {t : Scratch}
    (ht : t ∈ Scratch.allot f.nextValue ts) :
    ∀ ins ∈ site before stores p, ins.result? ≠ some t.slot := by
  obtain ⟨hle, hlt⟩ := slot_index ht
  have hfresh : ∀ {code : List Draft} {a b : Nat}, Fresh a code b → f.nextValue + ts.length ≤ a →
      ∀ ins ∈ code.map Draft.instr, ins.result? ≠ some t.slot := by
    intro code a b hcode hab ins hi hr
    obtain ⟨d, hd, rfl⟩ := List.mem_map.mp hi
    exact hcode.notMem_of_lt (Nat.lt_of_lt_of_le hlt hab) (mem_results.mpr ⟨d, hd, hr⟩)
  have hkeep : p.2.result? ≠ some t.slot := by
    intro hr
    have := h.numbered.result p hp _ hr
    omega
  cases h.fate hp with
  | store o s width start next ho hreads hs hid hindexed hnext htyped hdefines hcode =>
    rw [site_of_store hreads ho hcode]
    exact hfresh (s.fresh_storing o width next) hnext
  | ret start next hkept hret hcols hnext htyped hdefines hcode =>
    rw [site_of_kept hkept hcode]
    intro ins hi
    rcases List.mem_append.mp hi with hi | hi
    · exact hfresh (Scratch.fresh_flush _ next) hnext ins hi
    · cases List.mem_singleton.mp hi
      exact hkeep
  | other hkept hret hop hcode =>
    rw [site_of_other hkept hcode]
    intro ins hi
    cases List.mem_singleton.mp hi
    exact hkeep

theorem countP_slot_body (b : BlockId) {t : Scratch} (ht : t ∈ Scratch.allot f.nextValue ts) :
    ((f.blockInstrs b).flatMap (site before stores)).countP
      (fun ins => ins.result? == some t.slot) = 0 := by
  refine List.countP_eq_zero.mpr fun ins hi => ?_
  obtain ⟨p, hp, hi⟩ := List.mem_flatMap.mp hi
  have hmem := h.consistent.mem_instrs.mpr (Function.instr?_of_mem_blockInstrs hp)
  rw [beq_iff_eq]
  exact h.result?_site hmem ht ins hi

theorem countP_slot_le (b : BlockId) {t : Scratch} (ht : t ∈ Scratch.allot f.nextValue ts) :
    (g.code b).countP (fun ins => ins.result? == some t.slot) ≤ if b = .entry then 1 else 0 := by
  rw [h.code, List.countP_append, h.countP_slot_body b ht, Nat.add_zero]
  split
  · have hnodup := (Scratch.fresh_alloca f.nextValue ts).nodup
    rw [Scratch.results_alloca] at hnodup
    rw [List.countP_map, List.countP_map]
    have hcount : (Scratch.allot f.nextValue ts).countP
        (((fun ins => ins.result? == some t.slot) ∘ Draft.instr) ∘ Scratch.alloca) =
          ((Scratch.allot f.nextValue ts).map Scratch.slot).count t.slot := by
      rw [List.count, List.countP_map]
      rfl
    rw [hcount]
    exact List.nodup_iff_count_le_one.mp hnodup t.slot
  · exact Nat.le_refl 0

theorem param_lt {blk : Block} (hb : blk ∈ g.blocks) {v : ValueId} (hv : v ∈ blk.paramIds) :
    v.index < f.nextValue := by
  have hmem := List.mem_map_of_mem (f := fun blk : Block => { blk with body := [] }) hb
  rw [h.blocks] at hmem
  obtain ⟨old, hold, heq⟩ := List.mem_map.mp hmem
  have hids : old.paramIds = blk.paramIds := congrArg (fun b => b.params.map BlockParam.id) heq
  exact h.numbered.param old hold v (hids ▸ hv)

theorem le_of_addressed {s : Scratch} (hs : s ∈ Scratch.allot f.nextValue ts) {ptr : ValueId}
    (hptr : s.Addressed g ptr) : f.nextValue ≤ ptr.index := by
  obtain ⟨hle, -⟩ := slot_index hs
  rcases hptr with rfl | ⟨indices, inbounds, ty, hd⟩
  · exact hle
  · unfold Function.definer? at hd
    split at hd
    · next i hdef =>
      rw [h.erased.instr?] at hd
      split at hd
      · cases hd
      · by_cases hlt : i.index < f.arena.size
        · rw [h.woven.extension.instr?_old i hlt] at hd
          have hbase := h.numbered.operand _ (h.consistent.mem_instrs.mpr hd) s.slot
            List.mem_cons_self
          omega
        · exact (h.woven.extension.new i _ ptr (Nat.not_lt.mp hlt) hd rfl).1
    · cases hd

theorem eq_of_addressed {s : Scratch} (hs : s ∈ Scratch.allot f.nextValue ts) {ptr : ValueId}
    {indices : List ValueId} {inbounds : Bool} {ty : Ty}
    (hd : g.definer? ptr = some (.gep ptr s.slot indices inbounds ty)) {i : InstrId} {ins : Instr}
    (hi : (i, ins) ∈ g.instrs) (hr : ins.result? = some ptr) :
    ins = .gep ptr s.slot indices inbounds ty := by
  have hdef := h.definition?_new hi hr (h.le_of_addressed hs (Or.inr ⟨_, _, _, hd⟩))
  rw [Function.definer?, hdef] at hd
  exact Option.some.inj ((h.erased.consistent.mem_instrs.mp hi).symm.trans hd)

/-- Whatever is computed from a slot keeps pointing into it, as long as the slot stays the same. -/
theorem pointer_of_trace {s : Scratch} (hs : s ∈ Scratch.allot f.nextValue ts) {i : Nat}
    {c d : Config} {cs : List Config} (hat : g.At c) (htrace : g.Trace c cs d)
    (hkept : ∀ a ∈ cs, a.defines s.slot = false)
    (hslot : c.machine.values[s.slot]? = some (.pointer i 0)) {ptr : ValueId}
    (hptr : s.Addressed g ptr)
    (hc : ∀ x, c.machine.values[ptr]? = some x → ∃ o, x = .pointer i o) :
    ∀ x, d.machine.values[ptr]? = some x → ∃ o, x = .pointer i o := by
  have hparam : ∀ {v}, s.Addressed g v → ∀ blk ∈ g.blocks, v ∉ blk.paramIds :=
    fun hv blk hb hmem => absurd (h.param_lt hb hmem) (Nat.not_lt.mpr (h.le_of_addressed hs hv))
  refine (htrace.invariant (P := fun c => g.At c ∧ c.machine.values[s.slot]? = some (.pointer i 0) ∧
    ∀ x, c.machine.values[ptr]? = some x → ∃ o, x = .pointer i o) ⟨hat, hslot, hc⟩ ?_).2.2
  rintro a ha b ⟨hata, hslota, hptra⟩ hn
  have hstep : g.Trace a [a] b := .step hn (.refl b)
  have hslotb : b.machine.values[s.slot]? = some (.pointer i 0) :=
    (hstep.values_eq (hparam (Or.inl rfl)) fun _ hmem =>
      List.mem_singleton.mp hmem ▸ hkept a ha).trans hslota
  refine ⟨hata.next? hn, hslotb, fun x hx => ?_⟩
  cases hdefines : a.defines ptr with
  | false =>
    rw [hstep.values_eq (hparam hptr) fun _ hmem => List.mem_singleton.mp hmem ▸ hdefines] at hx
    exact hptra x hx
  | true =>
    rcases hptr with rfl | ⟨indices, inbounds, ty, hd⟩
    · rw [hkept a ha] at hdefines
      cases hdefines
    · obtain ⟨ins, e, hi, he, hb⟩ := Function.effect_of_next? hn
      rw [Config.defines, hi, Option.bind_some, beq_iff_eq] at hdefines
      obtain ⟨j, hj⟩ := hata.exists_mem h.erased.consistent hi
      cases h.eq_of_addressed hs hd hj hdefines
      obtain ⟨⟨slot, o⟩, hpointer, he⟩ := bind_eq_ok.mp he
      obtain ⟨o', -, he⟩ := bind_eq_ok.mp he
      cases he
      cases hslota.symm.trans (Machine.pointer_eq_ok.mp hpointer)
      rw [hb, Machine.apply, Machine.values_bind, if_pos rfl] at hx
      exact ⟨o', (Option.some.inj hx).symm⟩

theorem exists_allocated {entry : Block} {rest : List Block} (hb : g.blocks = entry :: rest)
    (args : List Value) : ∃ ds u, g.Trace (g.start entry args) ds
        ⟨.entry, (f.blockInstrs .entry).flatMap (site before stores), u⟩ ∧
      ds.length = ts.length ∧ ∀ (i : Nat) (s : Scratch),
        (Scratch.allot f.nextValue ts)[i]? = some s → i < u.slots.size ∧
          u.values[s.slot]? = some (.pointer i 0) ∧ s.Alive g i ds u := by
  have hstraight := (Scratch.fresh_alloca f.nextValue ts).straight_instrs
  obtain ⟨u, hline, -, hslots, hvalues⟩ := Scratch.line_alloca (f := g)
    (Machine.initial.bindAll (entry.paramIds.zip args)) f.nextValue
    fun t ht => Scratch.size_lt_of_fits (h.fits t ht)
  have hnone : (Machine.initial.bindAll (entry.paramIds.zip args)).slots = #[] :=
    Machine.slots_bindAll _ _
  rw [hnone, Array.empty_append] at hslots
  rw [hnone] at hvalues
  obtain ⟨ds, htrace, hlen, hds⟩ := Function.exists_trace_of_line hstraight hline .entry
    ((f.blockInstrs .entry).flatMap (site before stores))
  refine ⟨ds, u, ?_, ?_, fun i s hi => ?_⟩
  · rw [Function.start, h.code, if_pos rfl]
    exact htrace
  · rw [hlen, List.length_map, List.length_map, length_allot]
  · have hslot := hvalues i s hi
    rw [Array.size_empty, Nat.zero_add] at hslot
    have hs := List.mem_of_getElem? hi
    have hlt : i < u.slots.size := by
      rw [hslots, List.size_toArray, List.length_map, ← length_allot f.nextValue]
      exact (List.getElem?_eq_some_iff.mp hi).1
    refine ⟨hlt, hslot, fun ptr x hptr hx => ?_, fun o => ?_⟩
    · rcases hptr with rfl | ⟨indices, inbounds, ty, hd⟩
      · exact ⟨0, Option.some.inj (hx.symm.trans hslot)⟩
      · -- nothing has been computed from the slot yet
        have hnew := h.le_of_addressed hs (Or.inr ⟨_, _, _, hd⟩)
        have hnever : ∀ ins ∈ ((Scratch.allot f.nextValue ts).map Scratch.alloca).map Draft.instr,
            ins.result? ≠ some ptr := by
          intro ins hins hr
          obtain ⟨d, hmem, rfl⟩ := List.mem_map.mp hins
          rw [h.recorded_head.2 d hmem ptr hr] at hd
          obtain ⟨t, -, rfl⟩ := List.mem_map.mp hmem
          cases hd
        rw [Function.line_values hstraight hline hnever] at hx
        rcases Machine.values_bindAll Machine.initial (entry.paramIds.zip args) ptr with
          ⟨hsame, -⟩ | ⟨y, hy, -⟩
        · rw [hsame] at hx
          simp [Machine.initial] at hx
        · have := h.param_lt (hb ▸ List.mem_cons_self) (List.of_mem_zip hy).1
          omega
    · have hstored : g.lastStored i o ds = none := by
        refine Function.lastStored_eq_none fun d hd => ?_
        obtain ⟨ins, hins, hdi⟩ := hds d hd
        obtain ⟨draft, hmem, rfl⟩ := List.mem_map.mp hins
        obtain ⟨t, -, rfl⟩ := List.mem_map.mp hmem
        exact Function.stored?_of_alloca hdi i o
      rw [Scratch.getElem?_allot, Option.map_eq_some_iff] at hi
      obtain ⟨target, htarget, rfl⟩ := hi
      rw [Machine.cell?, hslots, List.getElem?_toArray, List.getElem?_map, htarget,
        Option.map_some, Option.bind_some, Array.getElem?_replicate, hstored]
      rfl

/-- As long as a run does not come back to the entry, the slots live. -/
theorem alive_of_trace {entry : Block} {rest : List Block} (hb : g.blocks = entry :: rest)
    {args : List Value} {cs : List Config} {c : Config}
    (htrace : g.Trace (g.start entry args) cs c) (hentry : cs.countP g.reenters = 0)
    (hlen : ts.length ≤ cs.length) {i : Nat} {s : Scratch}
    (hi : (Scratch.allot f.nextValue ts)[i]? = some s) : s.Alive g i cs c.machine := by
  have hs := List.mem_of_getElem? hi
  obtain ⟨ds, u, hhead, hds, hall⟩ := h.exists_allocated hb args
  obtain ⟨hlt, hslot, halive⟩ := hall i s hi
  obtain ⟨tail, rfl, htail⟩ := htrace.split hhead (hds ▸ hlen)
  rw [List.countP_append, Nat.add_eq_zero_iff] at hentry
  have hkept : ∀ a ∈ tail, a.defines s.slot = false := by
    have hcount := htail.countP_defines_le (fun b => h.countP_slot_le b hs)
    rw [h.countP_slot_body .entry hs, hentry.2] at hcount
    intro a ha
    have hzero : tail.countP (Config.defines s.slot) = 0 := by omega
    simpa using List.countP_eq_zero.mp hzero a ha
  have hat := (g.at_start entry args).trace hhead
  refine ⟨fun ptr x hptr hx => ?_, fun o => ?_⟩
  · exact h.pointer_of_trace hs hat htail hkept hslot hptr
      (fun y hy => halive.pointer ptr y hptr hy)
      x hx
  · rw [htail.cell?_eq hlt o, halive.cell o, Function.lastStored_append]
    split
    · rw [Option.map_some]
      cases g.lastStored i o tail <;> rfl
    · rfl

end Preserve.Redirected

namespace Preserve

/-- The slots are allocated by the first instructions of the entry, once at the start of a run
and once more for each branch to the entry. A run that does not branch to the entry has the
same slots from their allocation to its end: what the redirection loads and stores, it loads
from them and stores to them, and their cells hold what was stored to them last. -/
theorem slots_alive {f : Function} {m : Metadata} (hf : f.Made) (hv : f.Numbered)
    (hrun : (run f m).verdict = .ok true) :
    ∃ slots : List Scratch, Target.Written f m (slots.map Scratch.target) ∧
      (∃ body, (run f m).func.code .entry = slots.map (fun s => s.alloca.instr) ++ body) ∧
      (∀ p ∈ f.instrs, ∀ o, OutputStore.Reads f p o → ∃ s ∈ slots, s.target.id = o.id ∧
        ∃ i ptr, (i, Instr.store ptr o.value) ∈ (run f m).func.instrs ∧
          s.Addressed (run f m).func ptr) ∧
      (∀ q ∈ (run f m).func.instrs, f.instr? q.1 = none → ∀ ptr, q.2.accessed? = some ptr →
        ∃ s ∈ slots, s.Addressed (run f m).func ptr) ∧
      ∀ entry rest args cs c, (run f m).func.blocks = entry :: rest →
        (run f m).func.Trace ((run f m).func.start entry args) cs c →
        (∀ s ∈ slots, cs.countP (Config.defines s.slot) ≤
          cs.countP (run f m).func.reenters + 1) ∧
        (cs.countP (run f m).func.reenters = 0 → slots.length ≤ cs.length →
          ∀ (i : Nat) (s : Scratch), slots[i]? = some s →
            s.Alive (run f m).func i cs c.machine) := by
  obtain ⟨stores, ts, before, w, h⟩ := exists_redirected hf.consistent hv hrun
  refine ⟨Scratch.allot f.nextValue ts, ?_,
    ⟨(f.blockInstrs .entry).flatMap (Redirected.site before stores), ?_⟩,
    fun p hp o hr => h.exists_store_of_reads hp hr,
    fun q hq hnew ptr hptr => h.addressed hq hnew hptr, fun entry rest args cs c hb htrace =>
      ⟨fun s hs => ?_, fun hentry hlen i s hi => ?_⟩⟩
  · rw [Scratch.map_target_allot]
    exact h.written
  · rw [h.code, if_pos rfl, List.map_map]
    rfl
  · have hcount := htrace.countP_defines_le (fun b => h.countP_slot_le b hs)
    have hle := h.countP_slot_le .entry hs
    rw [if_pos rfl] at hle
    dsimp only [Function.start] at hcount
    omega
  · rw [length_allot] at hlen
    exact h.alive_of_trace hb htrace hentry hlen hi

/-- Stores to an output and goes back to the entry, where the run returns the second time. -/
def loopingCommands : List Builder.Command :=
  [.createBlock none, .addParam ⟨0⟩ none .i1, .createBlock none, .createBlock none,
    .setCurrent ⟨0⟩, .push (.condbr ⟨0⟩ ⟨1⟩ [] ⟨2⟩ []) none,
    .setCurrent ⟨1⟩, .constInt 5 .i32, .constInt 0 .i32, .constInt 0 .i32, .constInt 0 .i8,
    .constInt 7 .i32, .call "dx.op.storeOutput.i32" [⟨1⟩, ⟨2⟩, ⟨3⟩, ⟨4⟩, ⟨5⟩], .constInt 0 .i1,
    .push (.br ⟨0⟩ [⟨6⟩]) none,
    .setCurrent ⟨2⟩, .ret []]

def looping : Function :=
  match ((Builder.new "main" [⟨"go", .i1⟩] .void).run loopingCommands).2 with
  | .ok s => s.func
  | .error _ => .empty "main" [] .void

def loopingMetadata : Metadata :=
  { Metadata.empty with outputs := ⟨.output, [⟨"A", 1, 1, .i32⟩]⟩ }

theorem made_looping : looping.Made := by
  have hrun : ((Builder.new "main" [⟨"go", .i1⟩] .void).run loopingCommands).2 =
      .ok ⟨looping, some ⟨2⟩⟩ := rfl
  exact .build (Prod.ext rfl hrun) rfl

def loopingStart (x : Int64) : Config :=
  (run looping loopingMetadata).func.start
    ((run looping loopingMetadata).func.blocks.headD ⟨.entry, [], [], none⟩) [.int x]

/-- The run that does not go back has its slot to the end, and the one that does allocates it
twice at most. -/
theorem looping_slots_alive : ∃ slots : List Scratch,
    Target.Written looping loopingMetadata (slots.map Scratch.target) ∧
    (∀ s ∈ slots, ((run looping loopingMetadata).func.walk 20 (loopingStart 1)).1.countP
      (Config.defines s.slot) ≤ 2) ∧
    ∀ (i : Nat) (s : Scratch), slots[i]? = some s → s.Alive (run looping loopingMetadata).func i
      ((run looping loopingMetadata).func.walk 20 (loopingStart 0)).1
      ((run looping loopingMetadata).func.walk 20 (loopingStart 0)).2.machine := by
  obtain ⟨slots, hwritten, ⟨body, hbody⟩, -, -, hall⟩ :=
    slots_alive made_looping (m := loopingMetadata) (by decide) rfl
  have hblocks : (run looping loopingMetadata).func.blocks =
      (run looping loopingMetadata).func.blocks.headD ⟨.entry, [], [], none⟩ ::
        (run looping loopingMetadata).func.blocks.tail := rfl
  refine ⟨slots, hwritten, fun s hs => ?_, ?_⟩
  · have hle := (hall _ _ _ _ _ hblocks (Function.trace_walk _ 20 (loopingStart 1))).1 s hs
    have hone : ((run looping loopingMetadata).func.walk 20 (loopingStart 1)).1.countP
        (run looping loopingMetadata).func.reenters = 1 := by decide +kernel
    omega
  · refine (hall _ _ _ _ _ hblocks (Function.trace_walk _ 20 (loopingStart 0))).2 ?_ ?_
    · decide +kernel
    · have hcode : ((run looping loopingMetadata).func.code .entry).length = 2 := by decide +kernel
      have hwalk : ((run looping loopingMetadata).func.walk 20 (loopingStart 0)).1.length = 8 := by
        decide +kernel
      rw [hbody, List.length_append, List.length_map] at hcode
      omega

/-- A function goes back to its entry after it has stored to an output. In the redirected
function the slot is allocated twice, and what was stored is lost. -/
theorem looping_slot_lost :
    looping.Made ∧ looping.validate = .ok () ∧ (run looping loopingMetadata).verdict = .ok true ∧
    (run looping loopingMetadata).func.definer? ⟨7⟩ =
      some (.alloca ⟨7⟩ .i32 (some "A")) ∧
    ((run looping loopingMetadata).func.walk 20 (loopingStart 1)).1.countP
      (Config.defines ⟨7⟩) = 2 ∧
    (looping.evaluate [.int 1]).toOption.map (fun e => e.outputs.map OutputRecord.text) =
      some ["storeOutput: sig 0 [0][0] = 7"] ∧
    ((run looping loopingMetadata).func.evaluate [.int 1]).toOption.map
      (fun e => e.outputs.map OutputRecord.text) = some ["storeOutput: sig 0 [0][0] = undef"] :=
  ⟨made_looping, rfl, rfl, rfl, by decide +kernel, by decide +kernel, by decide +kernel⟩

end Preserve

end ShaderIR
