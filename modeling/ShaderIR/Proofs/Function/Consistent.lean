import ShaderIR.Function.Edit
import Mathlib.Data.List.Nodup
import Mathlib.Data.List.Perm.Basic

/-!
# Consistent functions

What ties the parts of a function together: a block is named by its position, every live
instruction stands in one block, and what is recorded about a value names its definition.
The edits keep this, wherever they place or erase an instruction.
-/

set_option autoImplicit false

namespace ShaderIR

theorem mem_handles {start count : Nat} {i : InstrId} :
    i ∈ handles start count ↔ start ≤ i.index ∧ i.index < start + count := by
  obtain ⟨n⟩ := i
  simp [handles]

theorem nodup_handles (start count : Nat) : (handles start count).Nodup :=
  List.Nodup.map (fun a b h => by simpa using h) List.nodup_range'

@[simp] theorem length_handles (start count : Nat) : (handles start count).length = count := by
  simp [handles]

namespace Function

def listed (f : Function) : List InstrId := f.blocks.flatMap Block.body

/-- The recorded definition of a value names an instruction or a block that defines it, and a
type is recorded along with it. -/
structure Recorded (f : Function) : Prop where
  result : ∀ v i, f.definition? v = some (.result i) →
    ∃ ins, f.instr? i = some ins ∧ ins.result? = some v
  param : ∀ v b, f.definition? v = some (.param b) →
    ∃ blk, f.block? b = some blk ∧ v ∈ blk.paramIds
  typed : ∀ v, (f.typeOf? v).isSome = (f.definition? v).isSome

structure Consistent (f : Function) : Prop where
  blockId : ∀ (n : Nat) (blk : Block), f.blocks[n]? = some blk → blk.id = ⟨n⟩
  nodup : f.listed.Nodup
  mem_listed : ∀ i, i ∈ f.listed ↔ (f.instr? i).isSome = true
  recorded : f.Recorded

/-- Every value that occurs in a function has been handed out by it. -/
structure Numbered (f : Function) : Prop where
  param : ∀ blk ∈ f.blocks, ∀ v ∈ blk.paramIds, v.index < f.nextValue
  result : ∀ p ∈ f.instrs, ∀ v, p.2.result? = some v → v.index < f.nextValue
  operand : ∀ p ∈ f.instrs, ∀ v ∈ p.2.operands, v.index < f.nextValue

theorem numbered_iff {f : Function} : f.Numbered ↔
    (∀ blk ∈ f.blocks, ∀ v ∈ blk.paramIds, v.index < f.nextValue) ∧
      ∀ p ∈ f.instrs, ∀ v ∈ p.2.result?.toList ++ p.2.operands, v.index < f.nextValue := by
  simp only [List.mem_append, Option.mem_toList]
  constructor
  · intro h
    refine ⟨h.param, fun p hp v hv => ?_⟩
    rcases hv with hv | hv
    · exact h.result p hp v hv
    · exact h.operand p hp v hv
  · rintro ⟨hp, hi⟩
    exact ⟨hp, fun p h v hv => hi p h v (Or.inl hv), fun p h v hv => hi p h v (Or.inr hv)⟩

instance (f : Function) : Decidable f.Numbered := decidable_of_iff _ numbered_iff.symm

theorem index_lt_of_instr? {f : Function} {i : InstrId} {ins : Instr}
    (h : f.instr? i = some ins) : i.index < f.arena.size := by
  rw [instr?, Option.join_eq_some_iff] at h
  exact (Array.getElem?_eq_some_iff.mp h).1

theorem instr?_of_mem_blockInstrs {f : Function} {b : BlockId} {p : InstrId × Instr}
    (h : p ∈ f.blockInstrs b) : f.instr? p.1 = some p.2 := by
  unfold blockInstrs at h
  split at h
  · exact (f.mem_resolve.mp h).2
  · cases h

namespace Consistent

variable {f : Function} (hf : f.Consistent)
include hf

theorem block?_of_mem {blk : Block} (h : blk ∈ f.blocks) : f.block? blk.id = some blk := by
  obtain ⟨n, hn⟩ := List.mem_iff_getElem?.mp h
  rw [hf.blockId n blk hn]
  exact hn

theorem id_of_block? {b : BlockId} {blk : Block} (h : f.block? b = some blk) : blk.id = b :=
  hf.blockId b.index blk h

theorem nodup_body {blk : Block} (h : blk ∈ f.blocks) : blk.body.Nodup :=
  (List.nodup_flatMap.mp hf.nodup).1 blk h

theorem block_unique {blk blk' : Block} {i : InstrId} (h : blk ∈ f.blocks) (h' : blk' ∈ f.blocks)
    (hi : i ∈ blk.body) (hi' : i ∈ blk'.body) : blk = blk' := by
  have hd := (List.nodup_flatMap.mp hf.nodup).2
  obtain ⟨n, hn, rfl⟩ := List.mem_iff_getElem.mp h
  obtain ⟨m, hm, rfl⟩ := List.mem_iff_getElem.mp h'
  rcases Nat.lt_trichotomy n m with hlt | rfl | hlt
  · exact absurd hi' (List.pairwise_iff_getElem.mp hd n m hn hm hlt hi)
  · rfl
  · exact absurd hi (List.pairwise_iff_getElem.mp hd m n hm hn hlt hi')

theorem live_of_mem {blk : Block} {i : InstrId} (h : blk ∈ f.blocks) (hi : i ∈ blk.body) :
    ∃ ins, f.instr? i = some ins :=
  Option.isSome_iff_exists.mp ((hf.mem_listed i).mp (List.mem_flatMap.mpr ⟨blk, h, hi⟩))

theorem position?_eq_some {i : InstrId} {b : BlockId} {k : Nat} :
    f.position? i = some (b, k) ↔ ∃ blk, f.block? b = some blk ∧ blk.body[k]? = some i := by
  constructor
  · intro h
    unfold position? at h
    split at h
    · obtain ⟨pre, blk, post, hb, hp, -⟩ := List.findSome?_eq_some_iff.mp h
      obtain ⟨k', hk, heq⟩ := Option.map_eq_some_iff.mp hp
      obtain ⟨rfl, rfl⟩ := Prod.mk.inj heq
      refine ⟨blk, hf.block?_of_mem (by simp [hb]), ?_⟩
      obtain ⟨hlt, hget, -⟩ := List.idxOf?_eq_some_iff.mp hk
      rw [List.getElem?_eq_getElem hlt, hget]
    · cases h
  · rintro ⟨blk, hb, hk⟩
    have hmem : blk ∈ f.blocks := List.mem_of_getElem? hb
    have hi : i ∈ blk.body := List.mem_of_getElem? hk
    obtain ⟨ins, hins⟩ := hf.live_of_mem hmem hi
    obtain ⟨n, hn⟩ := List.mem_iff_getElem?.mp hmem
    have hpos : (blk.indexOf? i).map (fun k => (blk.id, k)) = some (b, k) := by
      have hlt := (List.getElem?_eq_some_iff.mp hk).1
      have hidx : blk.body.idxOf? i = some k := by
        refine List.idxOf?_eq_some_iff.mpr ⟨hlt, (List.getElem?_eq_some_iff.mp hk).2, ?_⟩
        intro j hj heq
        have := (List.Nodup.getElem_inj_iff (hf.nodup_body hmem)).mp
          (heq.trans (List.getElem?_eq_some_iff.mp hk).2.symm)
        omega
      rw [Block.indexOf?, hidx, hf.id_of_block? hb]
      rfl
    rw [position?, if_pos (by simp [hins])]
    refine List.findSome?_eq_some_iff.mpr ?_
    obtain ⟨pre, post, hsplit⟩ := List.append_of_mem hmem
    refine ⟨pre, blk, post, hsplit, hpos, ?_⟩
    intro blk' hb'
    -- the handle stands nowhere before its block
    rw [Option.map_eq_none_iff, Block.indexOf?, List.idxOf?_eq_none_iff]
    intro hi'
    have hnd := hf.nodup
    rw [listed, hsplit, List.flatMap_append, List.flatMap_cons] at hnd
    have hdis := List.disjoint_of_nodup_append hnd
    exact hdis (List.mem_flatMap.mpr ⟨blk', hb', hi'⟩) (List.mem_append_left _ hi)

theorem exists_position? {i : InstrId} {ins : Instr} (h : f.instr? i = some ins) :
    ∃ b k, f.position? i = some (b, k) := by
  have hi : i ∈ f.listed := (hf.mem_listed i).mpr (by simp [h])
  obtain ⟨blk, hb, hi⟩ := List.mem_flatMap.mp hi
  obtain ⟨k, hk⟩ := List.mem_iff_getElem?.mp hi
  exact ⟨blk.id, k, hf.position?_eq_some.mpr ⟨blk, hf.block?_of_mem hb, hk⟩⟩

theorem mem_instrs {i : InstrId} {ins : Instr} :
    (i, ins) ∈ f.instrs ↔ f.instr? i = some ins := by
  constructor
  · intro h
    obtain ⟨blk, -, h⟩ := List.mem_flatMap.mp h
    exact ((f.mem_resolve).mp h).2
  · intro h
    obtain ⟨blk, hb, hi⟩ := List.mem_flatMap.mp ((hf.mem_listed i).mpr (by simp [h]))
    exact List.mem_flatMap.mpr ⟨blk, hb, f.mem_resolve.mpr ⟨hi, h⟩⟩

theorem exists_mem_blockInstrs {i : InstrId} {ins : Instr} (h : f.instr? i = some ins) :
    ∃ b, (i, ins) ∈ f.blockInstrs b := by
  obtain ⟨blk, hb, hi⟩ := List.mem_flatMap.mp ((hf.mem_listed i).mpr (by simp [h]))
  refine ⟨blk.id, ?_⟩
  unfold blockInstrs
  rw [hf.block?_of_mem hb]
  exact f.mem_resolve.mpr ⟨hi, h⟩

theorem map_fst_resolve {blk : Block} (h : blk ∈ f.blocks) :
    (f.resolve blk.body).map Prod.fst = blk.body := by
  have hall : ∀ i ∈ blk.body, ∃ ins, f.instr? i = some ins := fun i hi => hf.live_of_mem h hi
  generalize blk.body = is at hall
  induction is with
  | nil => rfl
  | cons i is ih =>
    obtain ⟨ins, hins⟩ := hall i List.mem_cons_self
    have hrest : (f.resolve is).map Prod.fst = is :=
      ih fun j hj => hall j (List.mem_cons_of_mem i hj)
    rw [resolve] at hrest ⊢
    rw [List.filterMap_cons_some (b := (i, ins)) (by rw [hins]; rfl), List.map_cons, hrest]

theorem map_fst_instrs : f.instrs.map Prod.fst = f.listed := by
  rw [instrs, List.map_flatMap, listed]
  exact List.flatMap_congr fun blk hb => hf.map_fst_resolve hb

theorem instrs_eq : f.instrs = (f.blocks.map Block.id).flatMap f.blockInstrs := by
  rw [instrs, List.flatMap_map]
  refine List.flatMap_congr fun blk hb => ?_
  rw [blockInstrs, hf.block?_of_mem hb]

theorem nodup_returns : f.returns.Nodup := by
  have hsub : f.returns.Sublist (f.instrs.map Prod.fst) := List.filter_sublist.map _
  rw [hf.map_fst_instrs] at hsub
  exact hf.nodup.sublist hsub

theorem mem_returns {i : InstrId} :
    i ∈ f.returns ↔ ∃ ins, f.instr? i = some ins ∧ ins.isReturn = true := by
  simp only [returns, List.mem_map, List.mem_filter, Prod.exists, exists_and_right, exists_eq_right,
    hf.mem_instrs]

end Consistent

theorem block?_editBody (f : Function) (b c : BlockId) (g : List InstrId → List InstrId) :
    (f.editBody b g).block? c =
      (f.block? c).map fun blk => if b = c then { blk with body := g blk.body } else blk := by
  obtain ⟨n⟩ := b
  obtain ⟨m⟩ := c
  simp only [block?, editBody, List.getElem?_modify, BlockId.mk.injEq]
  cases f.blocks[m]? with
  | none => rfl
  | some blk =>
    by_cases h : n = m <;> simp [h]

theorem listed_editBody {f : Function} {b : BlockId} {blk : Block} (h : f.block? b = some blk) :
    ∃ pre post, f.listed = pre ++ blk.body ++ post ∧
      ∀ g, (f.editBody b g).listed = pre ++ g blk.body ++ post := by
  obtain ⟨hlt, hget⟩ := List.getElem?_eq_some_iff.mp h
  refine ⟨(f.blocks.take b.index).flatMap Block.body,
    (f.blocks.drop (b.index + 1)).flatMap Block.body, ?_, fun g => ?_⟩
  · have hsplit : f.blocks = f.blocks.take b.index ++ blk :: f.blocks.drop (b.index + 1) := by
      rw [← hget, List.getElem_cons_drop, List.take_append_drop]
    conv_lhs => rw [listed, hsplit]
    simp
  · rw [listed, editBody, List.modify_eq_take_cons_drop hlt, hget]
    simp

theorem params_editBody (f : Function) (b c : BlockId) (g : List InstrId → List InstrId) :
    ((f.editBody b g).block? c).map Block.paramIds = (f.block? c).map Block.paramIds := by
  rw [block?_editBody, Option.map_map]
  congr 1
  funext blk
  simp only [Function.comp_apply]
  split <;> rfl

theorem blockId_editBody {f : Function} (b : BlockId) (g : List InstrId → List InstrId)
    (hf : ∀ (n : Nat) (blk : Block), f.blocks[n]? = some blk → blk.id = ⟨n⟩) (n : Nat) (blk : Block)
    (h : (f.editBody b g).blocks[n]? = some blk) : blk.id = ⟨n⟩ := by
  have h' : (f.editBody b g).block? ⟨n⟩ = some blk := h
  rw [block?_editBody, Option.map_eq_some_iff] at h'
  obtain ⟨blk', hb, rfl⟩ := h'
  split <;> exact hf n blk' hb

theorem instr?_splice (f : Function) (b : BlockId) (k : Nat) (ds : List Draft) (i : InstrId) :
    (f.splice b k ds).instr? i =
      if i.index < f.arena.size then f.instr? i
      else (ds[i.index - f.arena.size]?).map Draft.instr := by
  rw [instr?, arena_splice, Array.getElem?_append]
  split
  · rfl
  · cases h : ds[i.index - f.arena.size]? <;> simp [h]

theorem typeOf?_splice (f : Function) (b : BlockId) (k : Nat) (ds : List Draft) (v : ValueId) :
    (f.splice b k ds).typeOf? v = (ds.foldl allocate f).typeOf? v := rfl

theorem definition?_splice (f : Function) (b : BlockId) (k : Nat) (ds : List Draft) (v : ValueId) :
    (f.splice b k ds).definition? v = (ds.foldl allocate f).definition? v := rfl

theorem instr?_allocate (f : Function) (d : Draft) (i : InstrId) :
    (f.allocate d).instr? i = if i = f.nextHandle then some d.instr else f.instr? i := by
  obtain ⟨n⟩ := i
  simp only [instr?, arena_allocate, nextHandle, Array.getElem?_push, InstrId.mk.injEq]
  split <;> rfl

theorem instr?_allocate_of_some {f : Function} {d : Draft} {i : InstrId} {ins : Instr}
    (h : f.instr? i = some ins) : (f.allocate d).instr? i = some ins := by
  have hne : i ≠ f.nextHandle := by
    rintro rfl
    exact absurd (index_lt_of_instr? h) (Nat.lt_irrefl _)
  rw [instr?_allocate, if_neg hne, h]

theorem definition?_allocate (f : Function) (d : Draft) (v : ValueId) :
    (f.allocate d).definition? v =
      if d.instr.result? = some v ∧ d.ty.isSome then some (.result f.nextHandle)
      else f.definition? v := by
  obtain ⟨ins, ty⟩ := d
  unfold allocate definition?
  rcases hr : ins.result? with _ | r
  · simp
  · cases ty with
    | none => simp
    | some t =>
      rw [ValueMap.getElem?_insert_eq]
      simp

theorem typeOf?_allocate (f : Function) (d : Draft) (v : ValueId) :
    (f.allocate d).typeOf? v =
      if d.instr.result? = some v ∧ d.ty.isSome then d.ty else f.typeOf? v := by
  obtain ⟨ins, ty⟩ := d
  unfold allocate typeOf?
  rcases hr : ins.result? with _ | r
  · simp
  · cases ty with
    | none => simp
    | some t =>
      rw [ValueMap.getElem?_insert_eq]
      simp

theorem Recorded.allocate {f : Function} (hf : f.Recorded) (d : Draft) :
    (f.allocate d).Recorded where
  result v i h := by
    rw [definition?_allocate] at h
    split at h
    · next hd =>
      cases h
      exact ⟨d.instr, by simp [instr?_allocate], hd.1⟩
    · obtain ⟨ins, hins, hr⟩ := hf.result v i h
      exact ⟨ins, instr?_allocate_of_some hins, hr⟩
  param v b h := by
    rw [definition?_allocate] at h
    split at h
    · cases h
    · rw [block?, blocks_allocate]
      exact hf.param v b h
  typed v := by
    rw [typeOf?_allocate, definition?_allocate]
    split
    · next h => simpa using h.2
    · exact hf.typed v

theorem Recorded.allocateAll {f : Function} (hf : f.Recorded) (ds : List Draft) :
    (ds.foldl Function.allocate f).Recorded := by
  induction ds generalizing f with
  | nil => exact hf
  | cons d ds ih => exact ih (hf.allocate d)

theorem Recorded.editBody {f : Function} (hf : f.Recorded) (b : BlockId)
    (g : List InstrId → List InstrId) : (f.editBody b g).Recorded where
  result := hf.result
  param v c h := by
    obtain ⟨blk, hb, hv⟩ := hf.param v c h
    have hp := f.params_editBody b c g
    rw [hb, Option.map_some, Option.map_eq_some_iff] at hp
    obtain ⟨blk', hb', hp⟩ := hp
    exact ⟨blk', hb', hp ▸ hv⟩
  typed := hf.typed

theorem Recorded.splice {f : Function} (hf : f.Recorded) (b : BlockId) (k : Nat) (ds : List Draft) :
    (f.splice b k ds).Recorded :=
  (hf.allocateAll ds).editBody b fun is =>
    is.take k ++ handles f.arena.size ds.length ++ is.drop k

namespace Consistent

theorem listed_splice_perm {f : Function} {b : BlockId} {blk : Block} (h : f.block? b = some blk)
    (k : Nat) (ds : List Draft) :
    (f.splice b k ds).listed.Perm (handles f.arena.size ds.length ++ f.listed) := by
  have hb : (ds.foldl Function.allocate f).block? b = some blk := by
    rw [block?, blocks_foldl_allocate]
    exact h
  obtain ⟨pre, post, hl, hg⟩ := listed_editBody hb
  have hl' : f.listed = pre ++ blk.body ++ post := by
    rw [← hl, listed, listed, blocks_foldl_allocate]
  rw [Function.splice, hg, hl']
  conv_rhs => rw [← List.take_append_drop k blk.body]
  have hmid : (pre ++ List.take k blk.body ++ handles f.arena.size ds.length).Perm
      (handles f.arena.size ds.length ++ (pre ++ List.take k blk.body)) := List.perm_append_comm
  simpa only [List.append_assoc] using hmid.append_right (List.drop k blk.body ++ post)

theorem splice {f : Function} (hf : f.Consistent) {b : BlockId} {blk : Block}
    (h : f.block? b = some blk) (k : Nat) (ds : List Draft) : (f.splice b k ds).Consistent where
  blockId := by
    refine blockId_editBody b _ fun n blk' hb => ?_
    rw [blocks_foldl_allocate] at hb
    exact hf.blockId n blk' hb
  nodup := by
    refine (listed_splice_perm h k ds).nodup_iff.mpr ?_
    refine List.nodup_append.mpr ⟨nodup_handles _ _, hf.nodup, ?_⟩
    rintro i hi j hj rfl
    obtain ⟨ins, hins⟩ := Option.isSome_iff_exists.mp ((hf.mem_listed i).mp hj)
    have := (mem_handles.mp hi).1
    have := index_lt_of_instr? hins
    omega
  mem_listed i := by
    rw [(listed_splice_perm h k ds).mem_iff, List.mem_append, hf.mem_listed, mem_handles,
      instr?_splice]
    split
    · next hlt => simp [Nat.not_le.mpr hlt]
    · next hge =>
      have hnone : f.instr? i = none := by
        cases hi : f.instr? i with
        | none => rfl
        | some ins => exact absurd (index_lt_of_instr? hi) hge
      rw [hnone, Option.isSome_map]
      simp
      omega
  recorded := hf.recorded.splice b k ds

end Consistent

def without (f : Function) (i : InstrId) (b : BlockId) (k : Nat) (v : Option ValueId) : Function :=
  let g := f.editBody b fun is => is.eraseIdx k
  { g with arena := g.arena.setIfInBounds i.index none }.forget v

theorem erase_eq_some {f g : Function} {i : InstrId} {ins : Instr} :
    f.erase i = some (ins, g) ↔
      f.instr? i = some ins ∧ ∃ b k, f.position? i = some (b, k) ∧
        g = f.without i b k ins.result? := by
  unfold erase
  constructor
  · intro h
    split at h
    · next ins' b k hi hp =>
      cases h
      exact ⟨hi, b, k, hp, rfl⟩
    · cases h
  · rintro ⟨hi, b, k, hp, rfl⟩
    rw [hi, hp]
    rfl

section Without

variable (f : Function) (i : InstrId) (b : BlockId) (k : Nat) (r : Option ValueId)

theorem blocks_without :
    (f.without i b k r).blocks = (f.editBody b fun is => is.eraseIdx k).blocks := by
  cases r <;> rfl

theorem arena_size_without : (f.without i b k r).arena.size = f.arena.size := by
  cases r <;> exact Array.size_setIfInBounds

theorem instr?_without (j : InstrId) :
    (f.without i b k r).instr? j = if j = i then none else f.instr? j := by
  have h : (f.without i b k r).arena = f.arena.setIfInBounds i.index none := by cases r <;> rfl
  obtain ⟨n⟩ := i
  obtain ⟨m⟩ := j
  rw [instr?, h, Array.getElem?_setIfInBounds, instr?]
  by_cases hnm : n = m
  · subst hnm
    by_cases hlt : n < f.arena.size <;> simp [hlt]
  · simp [hnm, Ne.symm hnm]

theorem definition?_without (v : ValueId) :
    (f.without i b k r).definition? v = if r = some v then none else f.definition? v := by
  cases r with
  | none => rfl
  | some w =>
    unfold without forget definition?
    rw [ValueMap.getElem?_erase_eq]
    simp [editBody]

theorem typeOf?_without (v : ValueId) :
    (f.without i b k r).typeOf? v = if r = some v then none else f.typeOf? v := by
  cases r with
  | none => rfl
  | some w =>
    unfold without forget typeOf?
    rw [ValueMap.getElem?_erase_eq]
    simp [editBody]

end Without

namespace Consistent

theorem listed_without_perm {f : Function} {b : BlockId} {blk : Block} {i : InstrId} {k : Nat}
    (h : f.block? b = some blk) (hk : blk.body[k]? = some i) (v : Option ValueId) :
    (i :: (f.without i b k v).listed).Perm f.listed := by
  obtain ⟨pre, post, hl, hg⟩ := listed_editBody h
  obtain ⟨hlt, rfl⟩ := List.getElem?_eq_some_iff.mp hk
  have hp := List.getElem_cons_eraseIdx_perm hlt
  rw [listed, blocks_without, ← listed, hg, hl, List.append_assoc]
  refine List.Perm.trans List.perm_middle.symm ?_
  simpa only [List.append_assoc, List.cons_append] using (hp.append_right post).append_left pre

theorem without {f : Function} (hf : f.Consistent) {b : BlockId} {i : InstrId} {k : Nat}
    {ins : Instr} (hi : f.instr? i = some ins) (hp : f.position? i = some (b, k)) :
    (f.without i b k ins.result?).Consistent := by
  obtain ⟨blk, hb, hk⟩ := hf.position?_eq_some.mp hp
  have hperm := listed_without_perm hb hk ins.result?
  have hnd := hperm.nodup_iff.mpr hf.nodup
  refine ⟨?_, (List.nodup_cons.mp hnd).2, fun j => ?_, ?_⟩
  · intro n blk' h
    rw [blocks_without] at h
    exact blockId_editBody b _ hf.blockId n blk' h
  · have hmem := hperm.mem_iff (a := j)
    rw [List.mem_cons, hf.mem_listed] at hmem
    rw [instr?_without]
    split
    · next hj =>
      subst hj
      simpa using (List.nodup_cons.mp hnd).1
    · next hj => simpa [hj] using hmem
  · constructor
    · intro v j h
      rw [definition?_without] at h
      split at h
      · cases h
      · next hv =>
        obtain ⟨ins', hj, hr⟩ := hf.recorded.result v j h
        refine ⟨ins', ?_, hr⟩
        rw [instr?_without, if_neg, hj]
        rintro rfl
        rw [hi] at hj
        cases hj
        exact hv hr
    · intro v c h
      rw [definition?_without] at h
      split at h
      · cases h
      · have := (hf.recorded.editBody b fun is => is.eraseIdx k).param v c h
        rwa [block?, blocks_without]
    · intro v
      rw [typeOf?_without, definition?_without]
      split
      · rfl
      · exact hf.recorded.typed v

theorem erase {f g : Function} (hf : f.Consistent) {i : InstrId} {ins : Instr}
    (h : f.erase i = some (ins, g)) : g.Consistent := by
  obtain ⟨hi, b, k, hp, rfl⟩ := erase_eq_some.mp h
  exact hf.without hi hp

theorem withNextValue {f : Function} (hf : f.Consistent) (n : Nat) :
    { f with nextValue := n }.Consistent :=
  ⟨hf.blockId, hf.nodup, hf.mem_listed, hf.recorded.result, hf.recorded.param, hf.recorded.typed⟩

theorem withHeader {f : Function} (hf : f.Consistent) (id : FunctionId) (name : String)
    (params : List Param) (returnTy : Ty) :
    { f with id := id, name := name, params := params, returnTy := returnTy }.Consistent :=
  ⟨hf.blockId, hf.nodup, hf.mem_listed, hf.recorded.result, hf.recorded.param, hf.recorded.typed⟩

end Consistent

end Function

end ShaderIR
