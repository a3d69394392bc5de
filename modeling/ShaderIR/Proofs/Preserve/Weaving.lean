import ShaderIR.Preserve.Redirect
import ShaderIR.Proofs.Function.Layout
import ShaderIR.Proofs.Preserve.Code

/-!
# Weaving code into a function

The redirection places all its code either at the entry or in front of an instruction that
the function had before. So the result is described by the code at the entry and, for each
of the old instructions, the code in front of it.
-/

set_option autoImplicit false

namespace ShaderIR

theorem placed_cons (start : Nat) (d : Draft) (code : List Draft) :
    placed start (d :: code) = (⟨start⟩, d.instr) :: placed (start + 1) code := by
  simp [placed, handles, List.range'_succ]

theorem placed_append (start : Nat) (code rest : List Draft) :
    placed start (code ++ rest) = placed start code ++ placed (start + code.length) rest := by
  have hsplit : handles start (code.length + rest.length) =
      handles start code.length ++ handles (start + code.length) rest.length := by
    rw [handles, handles, handles, ← List.map_append, List.range'_append_1]
  rw [placed, List.length_append, List.map_append, hsplit, List.zip_append (by simp)]
  rfl

/-- One more piece of code in front of an instruction. -/
def addBefore (before : InstrId → List (InstrId × Instr)) (i : InstrId)
    (new : List (InstrId × Instr)) (j : InstrId) : List (InstrId × Instr) :=
  if j = i then before j ++ new else before j

section AddBefore

variable (before : InstrId → List (InstrId × Instr)) (i : InstrId)

theorem addBefore_self (new : List (InstrId × Instr)) :
    addBefore before i new i = before i ++ new :=
  if_pos rfl

theorem addBefore_of_ne (new : List (InstrId × Instr)) {j : InstrId} (h : j ≠ i) :
    addBefore before i new j = before j :=
  if_neg h

theorem addBefore_nil : addBefore before i [] = before := by
  funext j
  simp [addBefore]

theorem addBefore_addBefore (new more : List (InstrId × Instr)) :
    addBefore (addBefore before i new) i more = addBefore before i (new ++ more) := by
  funext j
  by_cases h : j = i <;> simp [addBefore, h]

end AddBefore

namespace Function

/-- `g` is `f` with some code at the entry and some in front of each instruction. -/
structure Woven (f g : Function) (head : List (InstrId × Instr))
    (before : InstrId → List (InstrId × Instr)) : Prop where
  consistent : g.Consistent
  extension : f.Extends g
  blockInstrs : ∀ b, g.blockInstrs b =
    (if b = .entry then head else []) ++ (f.blockInstrs b).flatMap fun p => before p.1 ++ [p]
  head_new : ∀ p ∈ head, f.arena.size ≤ p.1.index
  before_new : ∀ i, ∀ p ∈ before i, f.arena.size ≤ p.1.index

theorem arena_size_emit (f : Function) (b : BlockId) (k : Nat) (code : List Draft) (next : Nat) :
    (f.emit b k code next).arena.size = f.arena.size + code.length := by
  rw [emit, arena_splice]
  simp

theorem nextValue_emit (f : Function) (b : BlockId) (k : Nat) (code : List Draft) (next : Nat) :
    (f.emit b k code next).nextValue = next :=
  nextValue_foldl_allocate { f with nextValue := next } code

theorem Woven.emit {f g : Function} {head : List (InstrId × Instr)}
    {before : InstrId → List (InstrId × Instr)} (h : Woven f g head before) {i : InstrId}
    {ins : Instr} (hi : f.instr? i = some ins) {b : BlockId} {k : Nat}
    (hp : g.position? i = some (b, k)) {code : List Draft} {next : Nat}
    (hc : Fresh g.nextValue code next) :
    Woven f (g.emit b k code next) head (addBefore before i (placed g.arena.size code)) where
  consistent := by
    obtain ⟨blk, hb, -⟩ := h.consistent.position?_eq_some.mp hp
    exact (h.consistent.withNextValue next).splice hb k code
  extension := h.extension.trans (Extends.emit hc b k)
  blockInstrs c := by
    have hold : ∀ l : List (InstrId × Instr), (∀ p ∈ l, f.arena.size ≤ p.1.index) →
        (l.flatMap fun p => if p.1 = i then placed g.arena.size code ++ [p] else [p]) = l := by
      intro l hl
      conv_rhs => rw [← List.flatMap_singleton' l]
      refine List.flatMap_congr fun p hmem => if_neg ?_
      rintro rfl
      exact absurd (index_lt_of_instr? hi) (Nat.not_lt.mpr (hl p hmem))
    have hhead : ∀ p ∈ (if c = .entry then head else []), f.arena.size ≤ p.1.index := by
      intro p hp
      split at hp
      · exact h.head_new p hp
      · cases hp
    have hsplice := blockInstrs_splice_before (h.consistent.withNextValue next)
      (f := { g with nextValue := next }) hp code c
    rw [Function.emit, hsplice]
    have hg : Function.blockInstrs { g with nextValue := next } c = _ := h.blockInstrs c
    rw [hg, List.flatMap_append, hold _ hhead, List.flatMap_assoc]
    congr 1
    refine List.flatMap_congr fun p _ => ?_
    rw [List.flatMap_append, hold _ (h.before_new p.1), List.flatMap_singleton, addBefore]
    split <;> simp
  head_new := h.head_new
  before_new j p hp := by
    unfold addBefore at hp
    split at hp
    · rcases List.mem_append.mp hp with hp | hp
      · exact h.before_new j p hp
      · exact Nat.le_trans h.extension.arena_le (le_of_mem_placed hp)
    · exact h.before_new j p hp

theorem Consistent.emit_entry {f : Function} (hf : f.Consistent) {blk : Block}
    (hb : f.block? .entry = some blk) {code : List Draft} {next : Nat}
    (hc : Fresh f.nextValue code next) :
    Woven f (f.emit .entry 0 code next) (placed f.arena.size code) fun _ => [] where
  consistent := (hf.withNextValue next).splice hb 0 code
  extension := Extends.emit hc .entry 0
  blockInstrs c := by
    rw [Function.emit, blockInstrs_splice_start (hf.withNextValue next) hb]
    have hsame : (f.blockInstrs c).flatMap (fun p => [] ++ [p]) = f.blockInstrs c := by simp
    rw [hsame]
    rfl
  head_new _ hp := le_of_mem_placed hp
  before_new _ _ hp := nomatch hp

section Parts

variable {f g : Function} {head : List (InstrId × Instr)}
  {before : InstrId → List (InstrId × Instr)} (h : Woven f g head before)
include h

theorem Woven.instr?_before (hf : f.Consistent) {i : InstrId} {ins : Instr}
    (hi : f.instr? i = some ins) {p : InstrId × Instr} (hp : p ∈ before i) :
    g.instr? p.1 = some p.2 := by
  obtain ⟨b, hb⟩ := hf.exists_mem_blockInstrs hi
  refine instr?_of_mem_blockInstrs (b := b) ?_
  rw [h.blockInstrs]
  exact List.mem_append_right _
    (List.mem_flatMap.mpr ⟨(i, ins), hb, List.mem_append_left _ hp⟩)

theorem Woven.instr?_head {p : InstrId × Instr} (hp : p ∈ head) : g.instr? p.1 = some p.2 := by
  refine instr?_of_mem_blockInstrs (b := .entry) ?_
  rw [h.blockInstrs, if_pos rfl]
  exact List.mem_append_left _ hp

theorem Woven.mem_returns (hf : f.Consistent) {i : InstrId} : i ∈ g.returns ↔ i ∈ f.returns := by
  rw [h.consistent.mem_returns, hf.mem_returns]
  constructor
  · rintro ⟨ins, hi, hret⟩
    by_cases hlt : i.index < f.arena.size
    · exact ⟨ins, (h.extension.instr?_old i hlt).symm.trans hi, hret⟩
    · have hs := h.extension.straight i ins (Nat.not_lt.mp hlt) hi
      rw [Instr.isTerminator_of_isReturn hret] at hs
      cases hs
  · rintro ⟨ins, hi, hret⟩
    exact ⟨ins, h.extension.instr?_of_some hi, hret⟩

end Parts

/-- `g` is `f` without some instructions. What was recorded about their results is forgotten. -/
structure Erased (f g : Function) (gone : List InstrId) : Prop where
  consistent : g.Consistent
  name : g.name = f.name
  nextValue : g.nextValue = f.nextValue
  blocks : g.blocks.map (fun blk => { blk with body := [] }) =
    f.blocks.map fun blk => { blk with body := [] }
  instr? : ∀ j, g.instr? j = if j ∈ gone then none else f.instr? j
  blockInstrs : ∀ b, g.blockInstrs b = (f.blockInstrs b).filter fun p => decide (p.1 ∉ gone)
  records : ∀ v, g.typeOf? v = f.typeOf? v ∧ g.definition? v = f.definition? v ∨
    (g.typeOf? v = none ∧ g.definition? v = none) ∧
      ∃ i ∈ gone, ∃ ins, f.instr? i = some ins ∧ ins.result? = some v

namespace Erased

theorem refl {f : Function} (hf : f.Consistent) : f.Erased f [] where
  consistent := hf
  name := rfl
  nextValue := rfl
  blocks := rfl
  instr? j := by simp
  blockInstrs b := by simp
  records v := Or.inl ⟨rfl, rfl⟩

theorem blocks_erase {f g : Function} {i : InstrId} {ins : Instr}
    (h : f.erase i = some (ins, g)) : g.blocks.map (fun blk => { blk with body := [] }) =
      f.blocks.map fun blk => { blk with body := [] } := by
  obtain ⟨-, b, k, -, rfl⟩ := erase_eq_some.mp h
  rw [blocks_without]
  refine List.ext_getElem? fun n => ?_
  rw [editBody, List.getElem?_map, List.getElem?_map, List.getElem?_modify]
  split <;> cases f.blocks[n]? <;> rfl

theorem cons {f g h : Function} {i : InstrId} {ins : Instr} {gone : List InstrId}
    (hf : f.Consistent) (he : f.erase i = some (ins, g)) (hg : g.Erased h gone) :
    f.Erased h (i :: gone) := by
  have hblocks := blocks_erase he
  have hbody := fun b => blockInstrs_erase hf he b
  obtain ⟨hi, b, k, hp, hgeq⟩ := erase_eq_some.mp he
  have hinstr : ∀ j, g.instr? j = if j = i then none else f.instr? j := fun j => by
    rw [hgeq, instr?_without]
  refine ⟨hg.consistent, ?_, ?_, hg.blocks.trans hblocks, fun j => ?_, fun c => ?_, fun v => ?_⟩
  · rw [hg.name, hgeq]
    cases ins.result? <;> rfl
  · rw [hg.nextValue, hgeq]
    cases ins.result? <;> rfl
  · rw [hg.instr?, hinstr]
    by_cases hj : j = i <;> by_cases hm : j ∈ gone <;> simp [hj, hm]
  · rw [hg.blockInstrs, hbody, List.filter_filter]
    refine List.filter_congr fun p _ => ?_
    by_cases hj : p.1 = i <;> by_cases hm : p.1 ∈ gone <;> simp [hj, hm]
  · have htype := (typeOf?_without f i b k ins.result? v).symm
    have hdef := (definition?_without f i b k ins.result? v).symm
    rw [← hgeq] at htype hdef
    rcases hg.records v with ⟨ht, hd⟩ | ⟨hnone, j, hj, ins', hins', hr⟩
    · rw [ht, hd, ← htype, ← hdef]
      by_cases hv : ins.result? = some v
      · rw [if_pos hv, if_pos hv]
        exact Or.inr ⟨⟨rfl, rfl⟩, i, List.mem_cons_self, ins, hi, hv⟩
      · rw [if_neg hv, if_neg hv]
        exact Or.inl ⟨rfl, rfl⟩
    · rw [hinstr] at hins'
      split at hins'
      · cases hins'
      · exact Or.inr ⟨hnone, j, List.mem_cons_of_mem i hj, ins', hins', hr⟩

end Erased

theorem erased_eraseStores {f : Function} (hf : f.Consistent) {stores : List OutputStore}
    (hlive : ∀ o ∈ stores, ∃ ins, f.instr? o.call = some ins)
    (hn : (stores.map OutputStore.call).Nodup) :
    f.Erased (Preserve.eraseStores stores f) (stores.map OutputStore.call) := by
  induction stores generalizing f with
  | nil => exact Erased.refl hf
  | cons o rest ih =>
    obtain ⟨ins, hins⟩ := hlive o List.mem_cons_self
    obtain ⟨b, k, hp⟩ := hf.exists_position? hins
    rw [List.map_cons, List.nodup_cons] at hn
    have he : f.erase o.call = some (ins, f.without o.call b k ins.result?) :=
      erase_eq_some.mpr ⟨hins, b, k, hp, rfl⟩
    have hlive' : ∀ o' ∈ rest,
        ∃ ins', (f.without o.call b k ins.result?).instr? o'.call = some ins' := by
      intro o' ho'
      obtain ⟨ins', hins'⟩ := hlive o' (List.mem_cons_of_mem o ho')
      refine ⟨ins', ?_⟩
      rw [instr?_without, if_neg, hins']
      exact fun heq => hn.1 (heq ▸ List.mem_map_of_mem ho')
    have hstep : Preserve.eraseStores (o :: rest) f =
        Preserve.eraseStores rest (f.without o.call b k ins.result?) := by
      rw [Preserve.eraseStores, List.foldl_cons, he]
      rfl
    rw [hstep]
    exact Erased.cons hf he (ih (hf.erase he) hlive' hn.2)

end Function

end ShaderIR
