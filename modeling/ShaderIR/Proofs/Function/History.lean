import ShaderIR.Proofs.Preserve.Failure

/-!
# The history of a function

A function is built, and then edited by cursors, by erasures and by the pass, in any order. At
every point of such a history its parts agree with each other, and a handle that has been handed
out stands for one instruction only: for the same one until it is erased, and then for none.
-/

set_option autoImplicit false

namespace ShaderIR.Function

/-- How the blocks, the instructions and the records of a function agree. -/
structure Represented (f : Function) : Prop where
  blockId : ∀ (n : Nat) (blk : Block), f.blocks[n]? = some blk → blk.id = ⟨n⟩
  live : ∀ blk ∈ f.blocks, ∀ i ∈ blk.body, ∃ ins, f.instr? i = some ins
  /-- A live instruction stands at one place. -/
  place : ∀ i ins, f.instr? i = some ins →
    ∃! p : BlockId × Nat, ∃ blk, f.block? p.1 = some blk ∧ blk.body[p.2]? = some i
  position : ∀ i b k, f.position? i = some (b, k) ↔
    ∃ blk, f.block? b = some blk ∧ blk.body[k]? = some i
  /-- Every live instruction is listed, and none twice. -/
  instrs : (f.instrs.map Prod.fst).Nodup ∧ ∀ p, p ∈ f.instrs ↔ f.instr? p.1 = some p.2
  keys : ∀ v, (f.definition? v).isSome = (f.typeOf? v).isSome
  result : ∀ v i, f.definition? v = some (.result i) →
    ∃ ins, f.instr? i = some ins ∧ ins.result? = some v
  param : ∀ v b, f.definition? v = some (.param b) →
    ∃ blk, f.block? b = some blk ∧ v ∈ blk.paramIds

theorem Consistent.represented {f : Function} (hf : f.Consistent) : f.Represented where
  blockId := hf.blockId
  live blk hblk i hi := hf.live_of_mem hblk hi
  place i ins hi := by
    obtain ⟨b, k, hp⟩ := hf.exists_position? hi
    refine ⟨(b, k), hf.position?_eq_some.mp hp, fun p hp' => ?_⟩
    exact (Option.some.inj (hp.symm.trans (hf.position?_eq_some.mpr hp'))).symm
  position i b k := hf.position?_eq_some
  instrs := by
    rw [hf.map_fst_instrs]
    exact ⟨hf.nodup, fun p => hf.mem_instrs⟩
  keys v := (hf.recorded.typed v).symm
  result := hf.recorded.result
  param := hf.recorded.param

/-- In `g` the handles `es` stand for nothing, and the others that `f` has handed out stand for
what they stood for in `f`. -/
structure Keeps (f : Function) (es : List InstrId) (g : Function) : Prop where
  arena_le : f.arena.size ≤ g.arena.size
  handed : ∀ i ∈ es, i.index < g.arena.size
  erased : ∀ i ∈ es, g.instr? i = none
  kept : ∀ i : InstrId, i.index < f.arena.size → i ∉ es → g.instr? i = f.instr? i

namespace Keeps

theorem of_instr? {f g : Function} (hle : f.arena.size ≤ g.arena.size)
    (h : ∀ i : InstrId, i.index < f.arena.size → g.instr? i = f.instr? i) : f.Keeps [] g :=
  ⟨hle, fun _ hi => absurd hi List.not_mem_nil, fun _ hi => absurd hi List.not_mem_nil,
    fun i hi _ => h i hi⟩

theorem refl (f : Function) : f.Keeps [] f := of_instr? (Nat.le_refl _) fun _ _ => rfl

theorem trans {f g h : Function} {es es' : List InstrId} (hfg : f.Keeps es g)
    (hgh : g.Keeps es' h) : f.Keeps (es ++ es') h := by
  refine ⟨Nat.le_trans hfg.arena_le hgh.arena_le, fun i hi => ?_, fun i hi => ?_, fun i hi hn => ?_⟩
  · rcases List.mem_append.mp hi with hi | hi
    · exact Nat.lt_of_lt_of_le (hfg.handed i hi) hgh.arena_le
    · exact hgh.handed i hi
  · -- a handle from `es` has been handed out, so no later instruction gets it
    by_cases hi' : i ∈ es'
    · exact hgh.erased i hi'
    · have hi : i ∈ es := (List.mem_append.mp hi).resolve_right hi'
      rw [hgh.kept i (hfg.handed i hi) hi', hfg.erased i hi]
  · obtain ⟨hn, hn'⟩ := not_or.mp (fun hor => hn (List.mem_append.mpr hor))
    rw [hgh.kept i (Nat.lt_of_lt_of_le hi hfg.arena_le) hn', hfg.kept i hi hn]

theorem of_extends {f g : Function} (h : f.Extends g) : f.Keeps [] g :=
  of_instr? h.arena_le h.instr?_old

theorem of_inserted {c : Cursor} {g : Function} (h : c.Inserted g) : c.func.Keeps [] g := by
  obtain ⟨blk, next, d, -, rfl⟩ := h
  refine of_instr? ?_ fun i hi => ?_
  · rw [arena_splice]
    simp
  · rw [instr?_splice]
    exact if_pos hi

theorem of_run {c c' : Cursor} {cmds : List Cursor.Command} {rs : List Reply}
    (h : c.run cmds = (rs, .ok c')) : c.func.Keeps [] c'.func := by
  induction cmds generalizing c rs with
  | nil =>
    cases h
    exact refl _
  | cons cmd cmds ih =>
    obtain ⟨r, rs', d, hd, hrun, -⟩ := Cursor.run_cons_eq_ok h
    rcases Cursor.func_step hd with heq | hins
    · exact heq ▸ ih hrun
    · exact (of_inserted hins).trans (ih hrun)

theorem of_erase {f g : Function} {i : InstrId} {ins : Instr} (h : f.erase i = some (ins, g)) :
    f.Keeps [i] g := by
  obtain ⟨hi, b, k, -, rfl⟩ := erase_eq_some.mp h
  refine ⟨Nat.le_of_eq (arena_size_without ..).symm, fun j hj => ?_, fun j hj => ?_,
    fun j _ hn => ?_⟩
  · obtain rfl := List.mem_singleton.mp hj
    rw [arena_size_without]
    exact index_lt_of_instr? hi
  · obtain rfl := List.mem_singleton.mp hj
    rw [instr?_without, if_pos rfl]
  · rw [instr?_without, if_neg (fun heq => hn (List.mem_singleton.mpr heq))]

end Keeps

end ShaderIR.Function

namespace ShaderIR.Preserve

variable {f : Function} {m : Metadata}

theorem keeps_of_true (hf : f.Consistent) (h : (run f m).verdict = .ok true) :
    f.Keeps ((OutputStore.callsOf f f.instrs).map Prod.fst) (run f m).func := by
  obtain ⟨stores, ts, hall, hne, hts, heq⟩ := run_eq_true h
  have hc : Collected f m stores ts := ⟨hall, hne, hts⟩
  rw [← heq] at h ⊢
  obtain ⟨u, w, m', -, hl, he, hfunc, -⟩ := redirect_eq_true h
  have hw := (hc.consistent_allocateSlots hf).lowerStores (Scratch.allot f.nextValue ts) stores
  have hgrows := (grows_allocateSlots f ts).lowerStores (Scratch.allot f.nextValue ts) stores
  rw [hl] at hw hgrows
  replace hw := hw.emitEpilogues (Scratch.allot f.nextValue ts) u.returns m
  replace hgrows := hgrows.emitEpilogues (Scratch.allot f.nextValue ts) u.returns m
  rw [he] at hw hgrows
  have hext := hgrows.extension
  have hlive : ∀ i ∈ stores.map OutputStore.call, ∃ ins, w.instr? i = some ins := by
    intro i hi
    obtain ⟨o, ho, rfl⟩ := List.mem_map.mp hi
    obtain ⟨ins, hins, -⟩ := OutputStore.live_call hall hf ho
    exact ⟨ins, hext.instr?_of_some hins⟩
  have herased := Function.erased_eraseStores hw
    (fun o ho => hlive o.call (List.mem_map_of_mem ho)) (OutputStore.nodup_calls hall hf)
  rw [hfunc, ← OutputStore.map_call_all hall]
  refine ⟨?_, fun i hi => ?_, fun i hi => ?_, fun i hi hn => ?_⟩
  · rw [arena_size_eraseStores]
    exact hext.arena_le
  · obtain ⟨ins, hins⟩ := hlive i hi
    rw [arena_size_eraseStores]
    exact Function.index_lt_of_instr? hins
  · rw [herased.instr?, if_pos hi]
  · rw [herased.instr?, if_neg hn, hext.instr?_old i hi]

theorem keeps_of_ne_true (h : (run f m).verdict ≠ .ok true)
    (hsound : ∀ v, (run f m).verdict ≠ .error (.violation v)) : f.Keeps [] (run f m).func := by
  cases course f m with
  | unread e hall hrun =>
    rw [hrun]
    exact .refl f
  | idle hall hrun =>
    rw [hrun]
    exact .refl f
  | unresolved stores e hall hne hts hrun =>
    rw [hrun]
    exact .refl f
  | unfit stores ts hc hfits hfunc hmetadata hverdict => exact absurd hverdict (hsound _)
  | unlowered stores ts hc hfits u e hl hgrows hfunc hmetadata hverdict =>
    rw [hfunc]
    exact .of_extends ((grows_allocateSlots f ts).trans hgrows).extension
  | unflushed stores ts hc hfits u w m' e hl he hgrows hfunc hmetadata hverdict =>
    rw [hfunc]
    exact .of_extends ((grows_allocateSlots f ts).trans hgrows).extension
  | done stores ts hc hfits u w m' hl he hgrows hfunc hmetadata hverdict =>
    rw [ruled] at hverdict
    split at hverdict
    · exact absurd hverdict h
    · exact absurd hverdict (hsound _)

end ShaderIR.Preserve

namespace ShaderIR.Function

/-- A history of edits leads from `f` to a function, and has erased some handles on the way. -/
inductive Edited (f : Function) : List InstrId → Function → Prop
  | refl : Edited f [] f
  | editFrom {es : List InstrId} {g : Function} {b : BlockId} {cmds : List Cursor.Command}
      {rs : List Reply} {c : Cursor} :
      Edited f es g → (Cursor.atBlockStart g b).run cmds = (rs, .ok c) → Edited f es c.func
  | editBefore {es : List InstrId} {g : Function} {i : InstrId} {c d : Cursor}
      {cmds : List Cursor.Command} {rs : List Reply} :
      Edited f es g → Cursor.before? g i = some c → c.run cmds = (rs, .ok d) → Edited f es d.func
  | erase {es : List InstrId} {g g' : Function} {i : InstrId} {ins : Instr} :
      Edited f es g → g.erase i = some (ins, g') → Edited f (es ++ [i]) g'
  | redirect {es : List InstrId} {g : Function} {m : Metadata} :
      Edited f es g → (Preserve.run g m).verdict = .ok true →
        Edited f (es ++ (OutputStore.callsOf g g.instrs).map Prod.fst) (Preserve.run g m).func
  | attempt {es : List InstrId} {g : Function} {m : Metadata} :
      Edited f es g → (Preserve.run g m).verdict ≠ .ok true →
        (∀ v, (Preserve.run g m).verdict ≠ .error (.violation v)) →
        Edited f es (Preserve.run g m).func
  | withHeader {es : List InstrId} {g : Function} {id : FunctionId} {name : String}
      {params : List Param} {returnTy : Ty} :
      Edited f es g →
        Edited f es { g with id := id, name := name, params := params, returnTy := returnTy }

namespace Edited

variable {f g : Function} {es : List InstrId}

theorem made (hf : f.Made) (h : f.Edited es g) : g.Made := by
  induction h with
  | refl => exact hf
  | editFrom _ hr ih => exact .editFrom ih hr
  | editBefore _ hc hr ih => exact .editBefore ih hc hr
  | erase _ he ih => exact .erase ih he
  | redirect _ hv ih =>
    refine .preserve ih fun v => ?_
    rw [hv]
    exact nofun
  | attempt _ _ hv ih => exact .preserve ih hv
  | withHeader _ ih => exact .withHeader ih

theorem keeps (hf : f.Made) (h : f.Edited es g) : f.Keeps es g := by
  induction h with
  | refl => exact .refl f
  | @editFrom es g b cmds rs c _ hr ih => exact es.append_nil ▸ ih.trans (.of_run hr)
  | @editBefore es g i c d cmds rs _ hc hr ih =>
    obtain ⟨p, -, rfl⟩ := Option.map_eq_some_iff.mp hc
    exact es.append_nil ▸ ih.trans (.of_run hr)
  | erase _ he ih => exact ih.trans (.of_erase he)
  | redirect hg hv ih => exact ih.trans (Preserve.keeps_of_true (hg.made hf).consistent hv)
  | @attempt es g m _ hne hv ih => exact es.append_nil ▸ ih.trans (Preserve.keeps_of_ne_true hne hv)
  | @withHeader es g id name params returnTy _ ih =>
    exact ⟨ih.arena_le, ih.handed, ih.erased, ih.kept⟩

end Edited

/-- However a function was built and edited, its parts agree. A handle that was erased is never
live again, and every other one that had been handed out stands for what it stood for. -/
theorem represented_of_edited {f g : Function} {es : List InstrId} (hf : f.Made)
    (h : f.Edited es g) : g.Represented ∧ (∀ i ∈ es, g.instr? i = none) ∧
      ∀ i : InstrId, i.index < f.arena.size → i ∉ es → g.instr? i = f.instr? i :=
  ⟨(h.made hf).consistent.represented, (h.keeps hf).erased, (h.keeps hf).kept⟩

/-- The sparse function is redirected, a constant is placed at its entry, and its first constant is
erased: its return is what it was, and the output store is gone. -/
theorem sparse_represented : ∃ g, Preserve.sparse.Edited [⟨5⟩, ⟨0⟩] g ∧ g.Represented ∧
    g.instr? ⟨5⟩ = none ∧ g.instr? ⟨0⟩ = none ∧ g.instr? ⟨6⟩ = some (.ret []) := by
  have hredirect : (Preserve.run Preserve.sparse Preserve.sparseMetadata).verdict = .ok true := rfl
  obtain ⟨c, g, hrun, herase⟩ : ∃ c g, (Cursor.atBlockStart
      (Preserve.run Preserve.sparse Preserve.sparseMetadata).func .entry).run
        [.constInt .i32 3] = ([.value ⟨34⟩], .ok c) ∧
      c.func.erase ⟨0⟩ = some (.constInt ⟨0⟩ 5 .i32, g) := ⟨_, _, rfl, rfl⟩
  have hedited := ((Edited.refl.redirect hredirect).editFrom hrun).erase herase
  obtain ⟨hrepresented, hgone, hkept⟩ := represented_of_edited Preserve.made_sparse hedited
  have hes : [] ++ (OutputStore.callsOf Preserve.sparse Preserve.sparse.instrs).map Prod.fst ++
      [⟨0⟩] = [⟨5⟩, ⟨0⟩] := rfl
  rw [hes] at hedited hgone hkept
  exact ⟨g, hedited, hrepresented, hgone ⟨5⟩ (by decide), hgone ⟨0⟩ (by decide),
    hkept ⟨6⟩ (by decide) (by decide)⟩

end ShaderIR.Function
