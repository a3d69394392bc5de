import ShaderIR.Preserve.Scratch
import ShaderIR.Proofs.Function.Consistent

/-!
# The layout of an edited function

What an edit does to the instructions of a block, as they are read in program order: code
that is placed before an instruction stands before it, code that is placed at the start of
a block stands there, and an erased instruction is gone.
-/

set_option autoImplicit false

namespace ShaderIR

/-- Code that has been placed: its instructions under consecutive handles. -/
def placed (start : Nat) (code : List Draft) : List (InstrId × Instr) :=
  (handles start code.length).zip (code.map Draft.instr)

theorem map_snd_placed (start : Nat) (code : List Draft) :
    (placed start code).map Prod.snd = code.map Draft.instr :=
  List.map_snd_zip (by simp)

theorem map_fst_placed (start : Nat) (code : List Draft) :
    (placed start code).map Prod.fst = handles start code.length :=
  List.map_fst_zip (by simp)

theorem exists_draft {start : Nat} {code : List Draft} {p : InstrId × Instr}
    (h : p ∈ placed start code) : ∃ d ∈ code, d.instr = p.2 := by
  have hp : p.2 ∈ (placed start code).map Prod.snd := List.mem_map_of_mem h
  rw [map_snd_placed] at hp
  exact List.mem_map.mp hp

theorem exists_placed (start : Nat) {code : List Draft} {d : Draft} (hd : d ∈ code) :
    ∃ p ∈ placed start code, p.2 = d.instr := by
  have hmem : d.instr ∈ (placed start code).map Prod.snd := by
    rw [map_snd_placed]
    exact List.mem_map_of_mem hd
  exact List.mem_map.mp hmem

theorem le_of_mem_placed {start : Nat} {code : List Draft} {p : InstrId × Instr}
    (h : p ∈ placed start code) : start ≤ p.1.index := by
  have hp : p.1 ∈ handles start code.length := by
    rw [← map_fst_placed]
    exact List.mem_map_of_mem h
  exact (mem_handles.mp hp).1

namespace Function

theorem resolve_congr {f g : Function} {is : List InstrId}
    (h : ∀ i ∈ is, g.instr? i = f.instr? i) : g.resolve is = f.resolve is := by
  refine List.filterMap_congr fun i hi => ?_
  rw [h i hi]

theorem resolve_handles {g : Function} {start : Nat} {code : List Draft}
    (h : ∀ (n : Nat) (d : Draft), code[n]? = some d → g.instr? ⟨start + n⟩ = some d.instr) :
    g.resolve (handles start code.length) = placed start code := by
  induction code generalizing start with
  | nil => rfl
  | cons d code ih =>
    have hd : g.instr? ⟨start⟩ = some d.instr := h 0 d rfl
    have htail : g.resolve (handles (start + 1) code.length) = placed (start + 1) code := by
      refine ih fun n e he => ?_
      rw [Nat.add_right_comm]
      exact h (n + 1) e he
    simp only [handles, placed, resolve] at htail
    simp [handles, placed, resolve, List.range'_succ, hd, htail]

theorem resolve_handles_splice (f : Function) (b : BlockId) (k : Nat) (ds : List Draft) :
    (f.splice b k ds).resolve (handles f.arena.size ds.length) = placed f.arena.size ds := by
  refine resolve_handles fun n d h => ?_
  rw [instr?_splice, if_neg (by simp)]
  simp [h]

theorem flatMap_resolve (f : Function) (is : List InstrId) {α : Type}
    (F : InstrId × Instr → List α) :
    (f.resolve is).flatMap F =
      is.flatMap fun j => ((f.instr? j).map fun ins => F (j, ins)).getD [] := by
  induction is with
  | nil => rfl
  | cons j is ih =>
    rw [List.flatMap_cons, ← ih]
    cases h : f.instr? j <;> simp [resolve, h]

theorem resolve_flatMap (f : Function) (is : List InstrId) (F : InstrId → List InstrId) :
    f.resolve (is.flatMap F) = is.flatMap fun j => f.resolve (F j) := by
  induction is with
  | nil => rfl
  | cons j is ih => rw [List.flatMap_cons, resolve_append, ih, List.flatMap_cons]

theorem flatMap_ite_of_notMem {α : Type} [DecidableEq α] {l : List α} {a : α} (h : a ∉ l)
    (new : List α) : (l.flatMap fun x => if x = a then new ++ [x] else [x]) = l := by
  conv_rhs => rw [← List.flatMap_singleton' l]
  refine List.flatMap_congr fun x hx => ?_
  rw [if_neg]
  rintro rfl
  exact h hx

theorem take_append_drop_eq_flatMap {α : Type} [DecidableEq α] {l : List α} {k : Nat} {a : α}
    (hn : l.Nodup) (hk : l[k]? = some a) (new : List α) :
    l.take k ++ new ++ l.drop k = l.flatMap fun x => if x = a then new ++ [x] else [x] := by
  obtain ⟨hlt, hget⟩ := List.getElem?_eq_some_iff.mp hk
  have hsplit : l.take k ++ a :: l.drop (k + 1) = l := by
    rw [← hget, List.getElem_cons_drop, List.take_append_drop]
  have hnd : (l.take k ++ a :: l.drop (k + 1)).Nodup := hsplit.symm ▸ hn
  obtain ⟨-, hr, hdis⟩ := List.nodup_append.mp hnd
  have hl : a ∉ l.take k := fun h => hdis a h a List.mem_cons_self rfl
  conv_rhs => rw [← hsplit]
  rw [List.flatMap_append, List.flatMap_cons, flatMap_ite_of_notMem hl,
    flatMap_ite_of_notMem (List.nodup_cons.mp hr).1, if_pos rfl, List.drop_eq_getElem_cons hlt,
    hget]
  simp

theorem instr?_splice_of_listed {f : Function} (hf : f.Consistent) {blk : Block} {j : InstrId}
    (hblk : blk ∈ f.blocks) (hj : j ∈ blk.body) (b : BlockId) (k : Nat) (ds : List Draft) :
    (f.splice b k ds).instr? j = f.instr? j := by
  obtain ⟨ins, hins⟩ := hf.live_of_mem hblk hj
  rw [hins]
  exact instr?_splice_of_some hins b k ds

theorem block?_splice (f : Function) (b : BlockId) (k : Nat) (ds : List Draft) (c : BlockId) :
    (f.splice b k ds).block? c = (f.block? c).map fun blk =>
      if b = c then
        { blk with body := blk.body.take k ++ handles f.arena.size ds.length ++ blk.body.drop k }
      else blk := by
  rw [splice, block?_editBody, block?, blocks_foldl_allocate]
  rfl

def bodyOf (f : Function) (b : BlockId) : List InstrId := ((f.block? b).map Block.body).getD []

theorem bodyOf_eq {f : Function} {b : BlockId} {blk : Block} (h : f.block? b = some blk) :
    f.bodyOf b = blk.body := by
  rw [bodyOf, h, Option.map_some, Option.getD_some]

theorem bodyOf_splice {f : Function} {b : BlockId} {blk : Block} (h : f.block? b = some blk)
    (k : Nat) (ds : List Draft) (c : BlockId) :
    (f.splice b k ds).bodyOf c =
      if b = c then
        (f.bodyOf c).take k ++ handles f.arena.size ds.length ++ (f.bodyOf c).drop k
      else f.bodyOf c := by
  rw [bodyOf, block?_splice]
  by_cases hbc : b = c
  · subst hbc
    rw [if_pos rfl, bodyOf_eq h, h]
    simp
  · rw [if_neg hbc, bodyOf]
    simp only [if_neg hbc, Option.map_id']

section Before

variable {f : Function} (hf : f.Consistent) {i : InstrId} {b : BlockId} {k : Nat}
  (hp : f.position? i = some (b, k)) (ds : List Draft)
include hf hp

/-- Seen from any block, code that is placed before an instruction stands before it. -/
theorem body_splice_before {c : BlockId} {blk : Block} (hblk : f.block? c = some blk) :
    ((f.splice b k ds).block? c).map Block.body = some (blk.body.flatMap fun j =>
      if j = i then handles f.arena.size ds.length ++ [j] else [j]) := by
  obtain ⟨blk', hb', hk⟩ := hf.position?_eq_some.mp hp
  rw [block?_splice, hblk, Option.map_some, Option.map_some]
  congr 1
  split
  · next hbc =>
    subst hbc
    cases hb'.symm.trans hblk
    exact take_append_drop_eq_flatMap (hf.nodup_body (List.mem_of_getElem? hblk)) hk _
  · next hbc =>
    refine (flatMap_ite_of_notMem (fun hi => hbc ?_) _).symm
    have heq := hf.block_unique (List.mem_of_getElem? hb') (List.mem_of_getElem? hblk)
      (List.mem_of_getElem? hk) hi
    rw [← hf.id_of_block? hb', heq, hf.id_of_block? hblk]

theorem blockInstrs_splice_before (c : BlockId) :
    (f.splice b k ds).blockInstrs c = (f.blockInstrs c).flatMap fun p =>
      if p.1 = i then placed f.arena.size ds ++ [p] else [p] := by
  unfold blockInstrs
  cases hblk : f.block? c with
  | none => rw [block?_splice, hblk]; rfl
  | some blk =>
    have hbody := body_splice_before hf hp ds hblk
    obtain ⟨blk', hblk', hbody⟩ := Option.map_eq_some_iff.mp hbody
    rw [hblk']
    dsimp only
    rw [hbody, resolve_flatMap, flatMap_resolve]
    refine List.flatMap_congr fun j hj => ?_
    have hmem : blk ∈ f.blocks := List.mem_of_getElem? hblk
    obtain ⟨ins, hins⟩ := hf.live_of_mem hmem hj
    have hone : (f.splice b k ds).resolve [j] = [(j, ins)] := by
      simp [resolve, instr?_splice_of_some hins]
    rw [hins, Option.map_some, Option.getD_some]
    dsimp only
    split
    · rw [resolve_append, resolve_handles_splice, hone]
    · exact hone

end Before

theorem blockInstrs_splice_start {f : Function} (hf : f.Consistent) {b : BlockId} {blk : Block}
    (hb : f.block? b = some blk) (ds : List Draft) (c : BlockId) :
    (f.splice b 0 ds).blockInstrs c =
      (if c = b then placed f.arena.size ds else []) ++ f.blockInstrs c := by
  unfold blockInstrs
  cases hblk : f.block? c with
  | none =>
    rw [block?_splice, hblk, Option.map_none, if_neg]
    · rfl
    · rintro rfl
      rw [hb] at hblk
      cases hblk
  | some blk' =>
    have hsame : (f.splice b 0 ds).resolve blk'.body = f.resolve blk'.body :=
      resolve_congr fun j hj => instr?_splice_of_listed hf (List.mem_of_getElem? hblk) hj b 0 ds
    rw [block?_splice, hblk, Option.map_some]
    by_cases hbc : b = c
    · subst hbc
      simp [resolve_append, resolve_handles_splice, hsame]
    · simp [hbc, Ne.symm hbc, hsame]

theorem eraseIdx_eq_filter {α : Type} [DecidableEq α] {l : List α} {k : Nat} {a : α}
    (hn : l.Nodup) (hk : l[k]? = some a) : l.eraseIdx k = l.filter (· != a) := by
  obtain ⟨hlt, rfl⟩ := List.getElem?_eq_some_iff.mp hk
  rw [← hn.erase_eq_filter, List.erase_eq_eraseIdx_of_idxOf (hn.idxOf_getElem k hlt)]

theorem resolve_filter (f : Function) (is : List InstrId) (q : InstrId → Bool) :
    f.resolve (is.filter q) = (f.resolve is).filter fun p => q p.1 := by
  induction is with
  | nil => rfl
  | cons j is ih =>
    rw [List.filter_cons]
    cases h : f.instr? j <;> cases hq : q j <;> simp_all [resolve]

theorem blockInstrs_erase {f g : Function} (hf : f.Consistent) {i : InstrId} {ins : Instr}
    (h : f.erase i = some (ins, g)) (c : BlockId) :
    g.blockInstrs c = (f.blockInstrs c).filter fun p => p.1 != i := by
  obtain ⟨hi, b, k, hp, rfl⟩ := erase_eq_some.mp h
  obtain ⟨blk', hb', hk⟩ := hf.position?_eq_some.mp hp
  have hblocks : (f.without i b k ins.result?).block? c =
      (f.block? c).map fun blk =>
        if b = c then { blk with body := blk.body.eraseIdx k } else blk := by
    rw [block?, blocks_without, ← block?, block?_editBody]
  unfold blockInstrs
  rw [hblocks]
  cases hblk : f.block? c with
  | none => rfl
  | some blk =>
    have hsame : (f.without i b k ins.result?).resolve (blk.body.filter (· != i)) =
        f.resolve (blk.body.filter (· != i)) := by
      refine resolve_congr fun j hj => ?_
      rw [instr?_without, if_neg (by simpa using (List.mem_filter.mp hj).2)]
    simp only [Option.map_some]
    rw [← f.resolve_filter blk.body (· != i), ← hsame]
    congr 1
    split
    · next hbc =>
      subst hbc
      cases hb'.symm.trans hblk
      exact eraseIdx_eq_filter (hf.nodup_body (List.mem_of_getElem? hblk)) hk
    · next hbc =>
      refine (List.filter_eq_self.mpr fun j hj => ?_).symm
      rw [bne_iff_ne]
      rintro rfl
      have heq := hf.block_unique (List.mem_of_getElem? hb') (List.mem_of_getElem? hblk)
        (List.mem_of_getElem? hk) hj
      exact hbc (by rw [← hf.id_of_block? hb', heq, hf.id_of_block? hblk])

end Function

end ShaderIR
