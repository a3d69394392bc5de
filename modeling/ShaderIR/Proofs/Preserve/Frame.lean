import ShaderIR.Proofs.Preserve.Growth

/-!
# What a redirection leaves alone

Of the function that was there before, a redirection takes the output stores and nothing else.
Every other instruction keeps its handle, its block and its place among the others, and every
value that is no result of an output store keeps what is recorded of it. New instructions stand
at the top of the entry, in the place of an output store, or directly in front of a return.
-/

set_option autoImplicit false

namespace ShaderIR

namespace Scratch

/-- The lowered form of an output store: what computes the address of its component, and then a
store of its value. If the element has one component only, this is a store to the slot. -/
structure Lowers (s : Scratch) (f : Function) (o : OutputStore)
    (site : List (InstrId × Instr)) : Prop where
  lowered : ∃ width start next, s.Indexed f o width ∧ site = placed start (s.storing o width next)
  ends : ∃ init i ptr, site = init ++ [(i, .store ptr o.value)] ∧
    ∀ q ∈ init, q.2.result?.isSome = true
  single : s.element.isSingle = true → ∃ i, site = [(i, .store s.slot o.value)]

theorem lowers_placed {s : Scratch} {f : Function} {o : OutputStore} {width : Nat}
    (h : s.Indexed f o width) (start next : Nat) :
    s.Lowers f o (placed start (s.storing o width next)) where
  lowered := ⟨width, start, next, h, rfl⟩
  ends := by
    refine ⟨_, _, _, placed_append start (s.address o.row o.column width next).code
      [.store o.value (s.address o.row o.column width next).value], fun q hq => ?_⟩
    obtain ⟨d, hd, heq⟩ := exists_draft hq
    rw [← heq]
    exact Instr.result?_of_computes (s.computes_address _ _ _ _ d hd)
  single hs := by
    rw [storing, address, if_pos hs]
    exact ⟨⟨start⟩, rfl⟩

end Scratch

namespace Preserve

theorem header_eraseStores (stores : List OutputStore) (f : Function) :
    (eraseStores stores f).header = f.header := by
  induction stores generalizing f with
  | nil => rfl
  | cons o rest ih =>
    rw [eraseStores, List.foldl_cons, ← eraseStores, ih]
    cases h : f.erase o.call with
    | none => rfl
    | some p =>
      obtain ⟨ins, g⟩ := p
      obtain ⟨-, b, k, -, rfl⟩ := Function.erase_eq_some.mp h
      cases ins.result? <;> rfl

theorem header_run (f : Function) (m : Metadata) : (run f m).func.header = f.header := by
  cases course f m with
  | unread e hall hrun => rw [hrun]
  | idle hall hrun => rw [hrun]
  | unresolved stores e hall hne hts hrun => rw [hrun]
  | unfit stores ts hc hfits hfunc hmetadata hverdict => rw [hfunc]
  | unlowered stores ts hc hfits u e hl hgrows hfunc hmetadata hverdict =>
    rw [hfunc]
    exact ((grows_allocateSlots f ts).trans hgrows).header
  | unflushed stores ts hc hfits u w m' e hl he hgrows hfunc hmetadata hverdict =>
    rw [hfunc]
    exact ((grows_allocateSlots f ts).trans hgrows).header
  | done stores ts hc hfits u w m' hl he hgrows hfunc hmetadata hverdict =>
    rw [hfunc, header_eraseStores]
    exact ((grows_allocateSlots f ts).trans hgrows).header

/-- `g` is `f` with its output stores redirected, and otherwise as it was. The written elements
are `ts`, and `site i` is the new code in the place of the instruction `i` or in front of it. -/
structure Framed (f : Function) (m : Metadata) (g : Function) (ts : List Target)
    (site : InstrId → List (InstrId × Instr)) : Prop where
  header : g.header = f.header
  /-- So the blocks list no handles but those of live instructions, each of them once. -/
  consistent : g.Consistent
  /-- The blocks differ in their bodies only. -/
  blocks : g.blocks.map (fun blk => { blk with body := [] }) =
    f.blocks.map fun blk => { blk with body := [] }
  instr?_old : ∀ i : InstrId, i.index < f.arena.size →
    g.instr? i = (f.instr? i).filter fun ins => (f.storeOpcode? ins).isNone
  records_old : ∀ v : ValueId, v.index < f.nextValue →
    (∀ p ∈ f.instrs, (f.storeOpcode? p.2).isSome = true → p.2.result? ≠ some v) →
    g.definition? v = f.definition? v ∧ g.typeOf? v = f.typeOf? v
  written : Target.Written f m ts
  blockInstrs : ∀ b, g.blockInstrs b =
    (if b = .entry then
      placed f.arena.size ((Scratch.allot f.nextValue ts).map Scratch.alloca) else []) ++
    (f.blockInstrs b).flatMap fun p =>
      site p.1 ++ if (f.storeOpcode? p.2).isSome = true then [] else [p]
  new : ∀ p ∈ f.instrs, ∀ q ∈ site p.1, f.arena.size ≤ q.1.index
  store : ∀ p ∈ f.instrs, (f.storeOpcode? p.2).isSome = true →
    ∃ o, OutputStore.Reads f p o ∧ ∃ s ∈ Scratch.allot f.nextValue ts,
      s.target.id = o.id ∧ (s.target.opcode = o.opcode ∨ o.target? m = some s.target) ∧
      s.Lowers f o (site p.1)
  ret : ∀ p ∈ f.instrs, p.2.isReturn = true →
    ∃ start next, site p.1 = placed start
      (Scratch.flush (Scratch.cellsOf (Scratch.allot f.nextValue ts)) next).1
  other : ∀ p ∈ f.instrs, (f.storeOpcode? p.2).isSome = false → p.2.isReturn = false →
    site p.1 = []

namespace Redirected

variable {f : Function} {m : Metadata} {stores : List OutputStore} {ts : List Target}
  {before : InstrId → List (InstrId × Instr)} {w g : Function}
  (h : Redirected f m stores ts before w g)
include h

theorem mem_calls_iff {i : InstrId} {ins : Instr} (hi : f.instr? i = some ins) :
    i ∈ stores.map OutputStore.call ↔ (f.storeOpcode? ins).isSome = true := by
  constructor
  · intro hmem
    obtain ⟨o, ho, rfl⟩ := List.mem_map.mp hmem
    obtain ⟨ins', hins', hr⟩ := OutputStore.live_call h.read h.consistent ho
    cases hi.symm.trans hins'
    rw [hr.opcode]
    rfl
  · intro hop
    obtain ⟨op, hop⟩ := Option.isSome_iff_exists.mp hop
    obtain ⟨o, ho, hr⟩ := OutputStore.exists_store h.read (h.consistent.mem_instrs.mpr hi) hop
    exact List.mem_map.mpr ⟨o, ho, hr.call⟩

theorem instr?_old {i : InstrId} (hi : i.index < f.arena.size) :
    g.instr? i = (f.instr? i).filter fun ins => (f.storeOpcode? ins).isNone := by
  rw [h.erased.instr?, h.woven.extension.instr?_old i hi]
  cases hins : f.instr? i with
  | none => simp
  | some ins =>
    by_cases hcall : i ∈ stores.map OutputStore.call
    · have hop := (h.mem_calls_iff hins).mp hcall
      rw [if_pos hcall, Option.filter_some, if_neg (by simp [Option.isSome_iff_ne_none.mp hop])]
    · have hop : f.storeOpcode? ins = none := by
        rw [← Option.not_isSome_iff_eq_none]
        exact fun hsome => hcall ((h.mem_calls_iff hins).mpr hsome)
      rw [if_neg hcall, Option.filter_some, if_pos (by rw [hop]; rfl)]

theorem framed (hheader : g.header = f.header) : Framed f m g ts before where
  header := hheader
  consistent := h.erased.consistent
  blocks := h.blocks
  instr?_old _ hi := h.instr?_old hi
  records_old v hv hkept := by
    refine (h.records_old hv fun p hp o hr => hkept p hp ?_).symm
    rw [hr.opcode]
    rfl
  written := h.written
  blockInstrs b := by
    rw [h.blockInstrs]
    congr 1
    refine List.flatMap_congr fun p hp => ?_
    simp only [h.mem_calls_iff (Function.instr?_of_mem_blockInstrs hp)]
  new p hp q hq := h.woven.before_new p.1 q hq
  store p hp hop := by
    cases h.fate hp with
    | store o s width start next ho hreads hs hid hindexed hnext htyped hdefines hcode =>
      obtain ⟨t, ht, htid, hagrees⟩ := h.written.agrees p hp o hreads
      obtain rfl : s.target = t :=
        h.written.eq_of_id (Scratch.target_mem_of_mem_allot hs) ht (hid.trans htid.symm)
      rw [hcode]
      exact ⟨o, hreads, s, hs, hid, hagrees, Scratch.lowers_placed hindexed start next⟩
    | ret start next hkept hret hcols hnext htyped hdefines hcode =>
      exact absurd ((h.mem_calls_iff (h.consistent.mem_instrs.mp hp)).mpr hop) hkept
    | other hkept hret hnone hcode =>
      rw [hnone] at hop
      cases hop
  ret p hp hret := by
    cases h.fate hp with
    | store o s width start next ho hreads hs hid hindexed hnext htyped hdefines hcode =>
      rw [hreads.isReturn_eq_false] at hret
      cases hret
    | ret start next hkept hret hcols hnext htyped hdefines hcode => exact ⟨start, next, hcode⟩
    | other hkept hnone hop hcode =>
      rw [hnone] at hret
      cases hret
  other p hp hop hret := by
    cases h.fate hp with
    | store o s width start next ho hreads hs hid hindexed hnext htyped hdefines hcode =>
      rw [hreads.opcode] at hop
      cases hop
    | ret start next hkept hret' hcols hnext htyped hdefines hcode =>
      rw [hret'] at hret
      cases hret
    | other hkept hnone hop hcode => exact hcode

end Redirected

theorem exists_framed {f : Function} {m : Metadata} (hf : f.Made) (hv : f.Numbered)
    (hrun : (run f m).verdict = .ok true) : ∃ ts site, Framed f m (run f m).func ts site := by
  obtain ⟨stores, ts, before, w, h⟩ := exists_redirected hf.consistent hv hrun
  exact ⟨ts, before, h.framed (header_run f m)⟩

/-- The only call of a sparse function is erased. -/
theorem sparse_framed : (sparse.instr? ⟨5⟩).isSome = true ∧
    (run sparse sparseMetadata).func.instr? ⟨5⟩ = none ∧
    ∃ ts site, Framed sparse sparseMetadata (run sparse sparseMetadata).func ts site :=
  ⟨rfl, rfl, exists_framed made_sparse (by decide) rfl⟩

end Preserve

end ShaderIR
