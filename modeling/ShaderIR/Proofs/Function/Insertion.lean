import ShaderIR.Proofs.Function.WellFormed
import ShaderIR.Proofs.Preserve.Validity

/-!
# Insertions into valid functions

Code that stands before a place of a valid function, uses what is defined before that place and
has the types that its operands ask for, can be placed there: nothing after it loses a
definition. The instructions that a cursor creates are such code, so a cursor that stands
before an instruction keeps a function valid.
-/

set_option autoImplicit false

namespace ShaderIR

namespace Function

variable {f : Function}

theorem length_resolve {is : List InstrId} (h : ∀ i ∈ is, ∃ ins, f.instr? i = some ins) :
    (f.resolve is).length = is.length := by
  induction is with
  | nil => rfl
  | cons i is ih =>
    obtain ⟨ins, hins⟩ := h i List.mem_cons_self
    have hrest := ih fun j hj => h j (List.mem_cons_of_mem i hj)
    rw [resolve] at hrest ⊢
    rw [List.filterMap_cons_some (b := (i, ins)) (by rw [hins]; rfl), List.length_cons, hrest,
      List.length_cons]

theorem Consistent.resolve_split (hf : f.Consistent) {blk : Block} (hb : blk ∈ f.blocks)
    {k : Nat} (hk : k ≤ blk.body.length) :
    f.resolve (blk.body.take k) = (f.resolve blk.body).take k ∧
      f.resolve (blk.body.drop k) = (f.resolve blk.body).drop k := by
  have hlength : (f.resolve (blk.body.take k)).length = k := by
    rw [length_resolve fun i hi => hf.live_of_mem hb (List.mem_of_mem_take hi),
      List.length_take, Nat.min_eq_left hk]
  have hsplit : f.resolve blk.body =
      f.resolve (blk.body.take k) ++ f.resolve (blk.body.drop k) := by
    rw [← resolve_append, List.take_append_drop]
  rw [hsplit]
  exact ⟨(List.take_left' hlength).symm, (List.drop_left' hlength).symm⟩

def occurrencesBefore (f : Function) (n k : Nat) : List Occurrence :=
  (f.blocks.take n).flatMap f.blockOccurrences ++
    (f.blocks[n]?.toList.flatMap Block.paramIds).map (fun v => ⟨[], [v]⟩) ++
    ((f.code ⟨n⟩).take k).map Instr.occurrence

def occurrencesFrom (f : Function) (n k : Nat) : List Occurrence :=
  ((f.code ⟨n⟩).drop k).map Instr.occurrence ++
    (f.blocks.drop (n + 1)).flatMap f.blockOccurrences

theorem blocks_split {n : Nat} {blk : Block} (hb : f.blocks[n]? = some blk) :
    f.blocks = f.blocks.take n ++ blk :: f.blocks.drop (n + 1) := by
  obtain ⟨hlt, rfl⟩ := List.getElem?_eq_some_iff.mp hb
  rw [List.getElem_cons_drop, List.take_append_drop]

theorem occurrences_split {n : Nat} {blk : Block} (hb : f.blocks[n]? = some blk) (k : Nat) :
    f.occurrences = f.occurrencesBefore n k ++ f.occurrencesFrom n k := by
  have hcode : (f.code ⟨n⟩).map Instr.occurrence =
      ((f.code ⟨n⟩).take k).map Instr.occurrence ++
        ((f.code ⟨n⟩).drop k).map Instr.occurrence := by
    rw [← List.map_append, List.take_append_drop]
  rw [occurrences]
  conv_lhs => rw [blocks_split hb]
  rw [List.flatMap_append, List.flatMap_cons, blockOccurrences_eq, ← code_eq hb, hcode,
    occurrencesBefore, occurrencesFrom, hb, Option.toList_some, List.flatMap_singleton]
  simp only [List.append_assoc]

theorem mem_definitions_occurrencesBefore {n k : Nat} {blk : Block}
    (hb : f.blocks[n]? = some blk) {v : ValueId} :
    v ∈ definitions (f.occurrencesBefore n k) ↔ f.DefinedBefore n k v := by
  rw [occurrencesBefore, definitions_append, definitions_append, hb, Option.toList_some,
    List.flatMap_singleton, definitions_params]
  exact mem_definitions_before hb

theorem blocks_emit {n : Nat} {blk : Block} (hb : f.blocks[n]? = some blk) (k : Nat)
    (code : List Draft) (next : Nat) : (f.emit ⟨n⟩ k code next).blocks = f.blocks.take n ++
      { blk with body := blk.body.take k ++ handles f.arena.size code.length ++ blk.body.drop k } ::
        f.blocks.drop (n + 1) := by
  obtain ⟨hlt, rfl⟩ := List.getElem?_eq_some_iff.mp hb
  rw [emit, blocks_splice]
  exact List.modify_eq_take_cons_drop hlt

theorem ends_insert {is new : List Instr} {k : Nat} (h : Ends is) (hk : k < is.length)
    (hs : ∀ ins ∈ new, ins.isTerminator = false) : Ends (is.take k ++ new ++ is.drop k) := by
  obtain ⟨init, last, rfl, hlast, hinit⟩ := h
  have hle : k ≤ init.length := by
    rw [List.length_append, List.length_singleton] at hk
    omega
  rw [List.take_append_of_le_length hle, List.drop_append_of_le_length hle]
  refine ⟨init.take k ++ new ++ init.drop k, last, by simp, hlast, fun ins hi => ?_⟩
  rcases List.mem_append.mp hi with hi | hi
  · rcases List.mem_append.mp hi with hi | hi
    · exact hinit ins (List.mem_of_mem_take hi)
    · exact hs ins hi
  · exact hinit ins (List.mem_of_mem_drop hi)

theorem Valid.numbered_iff (h : f.Valid) :
    f.Numbered ↔ ∀ v ∈ definitions f.occurrences, v.index < f.nextValue := by
  have hmem : ∀ v, v ∈ definitions f.occurrences ↔ (∃ blk ∈ f.blocks, v ∈ blk.paramIds) ∨
      ∃ p ∈ f.instrs, p.2.result? = some v := by
    intro v
    rw [(definitions_perm f).mem_iff, List.mem_append, List.mem_flatMap, List.mem_flatMap]
    simp only [Option.mem_toList]
  constructor
  · intro hn v hv
    rcases (hmem v).mp hv with ⟨blk, hb, hv⟩ | ⟨p, hp, hv⟩
    · exact hn.param blk hb v hv
    · exact hn.result p hp v hv
  · intro hall
    refine ⟨fun blk hb v hv => hall v ((hmem v).mpr (Or.inl ⟨blk, hb, hv⟩)),
      fun p hp v hv => hall v ((hmem v).mpr (Or.inr ⟨p, hp, hv⟩)), fun p hp v hv => hall v ?_⟩
    obtain ⟨blk, hb, hp⟩ := List.mem_flatMap.mp hp
    have ho : p.2.occurrence ∈ f.occurrences :=
      List.mem_flatMap.mpr ⟨blk, hb, List.mem_append_right _ (List.mem_map_of_mem hp)⟩
    exact h.scope.mem_of_use ho hv

section Emit

variable (hf : f.Consistent) {n k : Nat} {blk : Block} (hb : f.blocks[n]? = some blk)
  (hk : k ≤ blk.body.length) (code : List Draft) (next : Nat)
include hf

theorem Consistent.resolve_emit_old (b : BlockId) {blk' : Block} (hmem : blk' ∈ f.blocks)
    {is : List InstrId} (his : ∀ i ∈ is, i ∈ blk'.body) :
    (f.emit b k code next).resolve is = f.resolve is := by
  refine resolve_congr fun i hi => ?_
  exact instr?_splice_of_listed (hf.withNextValue next) hmem (his i hi) b k code

theorem Consistent.mem_instrs_emit {b : BlockId} (hg : (f.emit b k code next).Consistent)
    {p : InstrId × Instr} (hp : p ∈ (f.emit b k code next).instrs) :
    p ∈ f.instrs ∨ ∃ d ∈ code, d.instr = p.2 := by
  obtain ⟨i, ins⟩ := p
  rw [hg.mem_instrs, Function.emit, instr?_splice] at hp
  split at hp
  · exact Or.inl (hf.mem_instrs.mpr hp)
  · obtain ⟨d, hd, heq⟩ := Option.map_eq_some_iff.mp hp
    exact Or.inr ⟨d, List.mem_of_getElem? hd, heq⟩

include hb hk

theorem Consistent.resolve_emit_placed :
    (f.emit ⟨n⟩ k code next).resolve (blk.body.take k ++ handles f.arena.size code.length ++
      blk.body.drop k) =
        (f.resolve blk.body).take k ++ placed f.arena.size code ++ (f.resolve blk.body).drop k := by
  have hmem : blk ∈ f.blocks := List.mem_of_getElem? hb
  obtain ⟨htake, hdrop⟩ := hf.resolve_split hmem hk
  have hnew : (f.emit ⟨n⟩ k code next).resolve (handles f.arena.size code.length) =
      placed f.arena.size code := resolve_handles_splice _ _ _ code
  rw [resolve_append, resolve_append, hnew,
    hf.resolve_emit_old code next ⟨n⟩ hmem fun i hi => List.mem_of_mem_take hi,
    hf.resolve_emit_old code next ⟨n⟩ hmem fun i hi => List.mem_of_mem_drop hi, htake, hdrop]

theorem Consistent.resolve_emit :
    ((f.emit ⟨n⟩ k code next).resolve (blk.body.take k ++ handles f.arena.size code.length ++
      blk.body.drop k)).map Prod.snd =
        (f.code ⟨n⟩).take k ++ code.map Draft.instr ++ (f.code ⟨n⟩).drop k := by
  rw [hf.resolve_emit_placed hb hk code next, List.map_append, List.map_append, map_snd_placed,
    List.map_take, List.map_drop, code_eq hb]

theorem occurrences_emit : (f.emit ⟨n⟩ k code next).occurrences =
    f.occurrencesBefore n k ++ codeOccurrences code ++ f.occurrencesFrom n k := by
  have hold : ∀ blks : List Block, (∀ b ∈ blks, b ∈ f.blocks) →
      blks.flatMap (f.emit ⟨n⟩ k code next).blockOccurrences =
        blks.flatMap f.blockOccurrences := by
    intro blks hsub
    refine List.flatMap_congr fun b hmem => ?_
    rw [blockOccurrences_eq, blockOccurrences_eq,
      hf.resolve_emit_old code next ⟨n⟩ (hsub b hmem) fun i hi => hi]
  have hcode : codeOccurrences code = (code.map Draft.instr).map Instr.occurrence := by
    rw [codeOccurrences, List.map_map]
    rfl
  rw [occurrences, blocks_emit hb, List.flatMap_append, List.flatMap_cons,
    hold _ fun b hmem => List.mem_of_mem_take hmem, hold _ fun b hmem => List.mem_of_mem_drop hmem,
    blockOccurrences_eq, hf.resolve_emit hb hk code next, occurrencesBefore, occurrencesFrom, hb,
    hcode, List.map_append, List.map_append, Option.toList_some, List.flatMap_singleton]
  simp only [List.append_assoc]
  rfl

variable {code next}

theorem Valid.ends_emit (hv : f.Valid) (hlt : k < blk.body.length)
    (hs : ∀ d ∈ code, d.instr.isTerminator = false) :
    ∀ b ∈ (f.emit ⟨n⟩ k code next).blocks,
      Ends (((f.emit ⟨n⟩ k code next).resolve b.body).map Prod.snd) := by
  have hmem : blk ∈ f.blocks := List.mem_of_getElem? hb
  intro b hb'
  rw [blocks_emit hb, List.mem_append, List.mem_cons] at hb'
  rcases hb' with hb' | rfl | hb'
  · rw [hf.resolve_emit_old code next ⟨n⟩ (List.mem_of_mem_take hb') fun i hi => hi]
    exact hv.ends b (List.mem_of_mem_take hb')
  · have hlength : (f.resolve blk.body).length = blk.body.length :=
      length_resolve fun i hi => hf.live_of_mem hmem hi
    rw [hf.resolve_emit hb hk code next, code_eq hb]
    refine ends_insert (hv.ends blk hmem) ?_ (List.forall_mem_map.mpr hs)
    rw [List.length_map, hlength]
    exact hlt
  · rw [hf.resolve_emit_old code next ⟨n⟩ (List.mem_of_mem_drop hb') fun i hi => hi]
    exact hv.ends b (List.mem_of_mem_drop hb')

/-- Code that uses what is defined before its place, has the types that it asks for and defines
values of its own keeps a function valid. -/
theorem Valid.emit (hv : f.Valid) (hn : f.Numbered) (hlt : k < blk.body.length)
    (hfresh : Fresh f.nextValue code next)
    (hscope : Scoped (definitions (f.occurrencesBefore n k)) (codeOccurrences code))
    (htyped : ∀ d ∈ code, (f.emit ⟨n⟩ k code next).typeFault? d.instr = none) :
    (f.emit ⟨n⟩ k code next).Valid ∧ (f.emit ⟨n⟩ k code next).Numbered := by
  have hlayout := occurrences_emit hf hb hk code next
  have hold := occurrences_split hb k
  have hbound := hv.numbered_iff.mp hn
  have hperm : (definitions (f.emit ⟨n⟩ k code next).occurrences).Perm
      (results code ++ definitions f.occurrences) := by
    rw [hlayout, hold, definitions_append, definitions_append, definitions_append,
      definitions_codeOccurrences, ← List.append_assoc]
    exact List.perm_append_comm.append_right _
  have hg : (f.emit ⟨n⟩ k code next).Consistent := hf.emit hb k code next
  have hvalid : (f.emit ⟨n⟩ k code next).Valid := by
    constructor
    case ends => exact hv.ends_emit hf hb hk hlt hfresh.straight
    case nodup =>
      rw [hperm.nodup_iff, List.nodup_append]
      refine ⟨hfresh.nodup, hv.nodup, ?_⟩
      rintro v hnew w hw rfl
      exact hfresh.notMem_of_lt (hbound v hw) hnew
    case scope =>
      have hscope' := hv.scope
      rw [hold, scoped_append, List.nil_append] at hscope'
      rw [hlayout, scoped_append, scoped_append, List.nil_append]
      refine ⟨⟨hscope'.1, hscope⟩, hscope'.2.mono fun v hmem => ?_⟩
      rw [List.nil_append, definitions_append]
      exact List.mem_append_left _ hmem
    case typed =>
      -- an instruction of the function has the operands, and so the types, that it had
      intro p hp
      rcases hf.mem_instrs_emit code next hg hp with hp | ⟨d, hd, heq⟩
      · rw [typeFault?_congr fun v hmem =>
          typeOf?_emit_of_notMem (hfresh.notMem_of_lt (hn.operand p hp v hmem)) ⟨n⟩ k next]
        exact hv.typed p hp
      · rw [← heq]
        exact htyped d hd
  refine ⟨hvalid, hvalid.numbered_iff.mpr fun v hmem => ?_⟩
  rw [nextValue_emit]
  rcases List.mem_append.mp (hperm.mem_iff.mp hmem) with hmem | hmem
  · exact (hfresh.mem_iff.mp hmem).2
  · exact Nat.lt_of_lt_of_le (hbound v hmem) hfresh.le

end Emit

end Function

namespace Cursor

def Sees (c : Cursor) (v : ValueId) : Prop := c.func.DefinedBefore c.block.index c.index v

/-- What the commands that create an instruction ask for: operands that are defined before the
place of the cursor, and recorded types that fit. -/
def Admits (c : Cursor) : Command → Prop
  | .constInt .. | .undef _ | .alloca .. => True
  | .binary _ lhs rhs => c.Sees lhs ∧ c.Sees rhs ∧ c.func.typeOf lhs = c.func.typeOf rhs
  | .cast _ v _ => c.Sees v
  | .gep base indices => c.Sees base ∧ (∃ ty, c.func.typeOf base = .pointer ty) ∧
    ∀ v ∈ indices, c.Sees v ∧ ∃ s : Scalar, c.func.typeOf v = .scalar s ∧ s.isInt
  | .load ptr => c.Sees ptr ∧ ∃ ty, c.func.typeOf ptr = .pointer ty
  | .store value ptr => c.Sees value ∧ c.Sees ptr ∧
    c.func.typeOf ptr = .pointer (c.func.typeOf value)
  | .call _ args _ => ∀ v ∈ args, c.Sees v
  | .insert .. | .move _ => False

/-- Each command of a list finds what it asks for when its turn comes. -/
def AdmitsAll (c : Cursor) : List Command → Prop
  | [] => True
  | cmd :: cmds => c.Admits cmd ∧ ∀ r d, c.step cmd = .ok (r, d) → d.AdmitsAll cmds

/-- A cursor that has been placed in a function: at the start of one of its blocks, or before a
live instruction. -/
inductive PlacedIn (f : Function) : Cursor → Prop
  | blockStart {b : BlockId} {blk : Block} : f.block? b = some blk → PlacedIn f (atBlockStart f b)
  | before {i : InstrId} {c : Cursor} : before? f i = some c → PlacedIn f c

def StandsBefore (c : Cursor) : Prop :=
  ∃ blk, c.func.blocks[c.block.index]? = some blk ∧ c.index < blk.body.length

theorem PlacedIn.standsBefore {f : Function} {c : Cursor} (hf : f.Consistent) (hv : f.Valid)
    (h : PlacedIn f c) : c.func = f ∧ c.StandsBefore := by
  cases h with
  | @blockStart b blk hb =>
    refine ⟨rfl, blk, hb, List.length_pos_of_ne_nil ?_⟩
    intro hnil
    obtain ⟨init, last, heq, -⟩ := hv.ends blk (List.mem_of_getElem? hb)
    rw [hnil] at heq
    exact absurd heq (by simp)
  | @before i _ hc =>
    obtain ⟨⟨b, k⟩, hp, rfl⟩ := Option.map_eq_some_iff.mp hc
    obtain ⟨blk, hb, hk⟩ := hf.position?_eq_some.mp hp
    exact ⟨rfl, blk, hb, (List.getElem?_eq_some_iff.mp hk).1⟩

/-- What a command places at a cursor: an instruction without a result or with the next fresh
one, whose operands are defined before the place and have the types that it asks for. -/
structure Creates (c : Cursor) (d : Draft) (next : Nat) : Prop where
  fresh : Fresh c.func.nextValue [d] next
  next_le : next ≤ c.func.nextValue + 1
  sees : ∀ v ∈ d.instr.operands, c.Sees v
  agrees : c.func.Agrees d.instr

def past (c : Cursor) (d : Draft) (next : Nat) : Cursor :=
  ⟨c.func.emit c.block c.index [d] next, c.block, c.index + 1⟩

theorem exists_block?_past {c : Cursor} {blk : Block} (hb : c.func.block? c.block = some blk)
    (d : Draft) (next : Nat) : ∃ blk', (c.past d next).func.block? c.block = some blk' ∧
      blk'.body.length = blk.body.length + 1 := by
  have hblock : (c.past d next).func.block? c.block = _ :=
    Function.block?_splice { c.func with nextValue := next } c.block c.index [d] c.block
  rw [show Function.block? { c.func with nextValue := next } c.block = some blk from hb,
    Option.map_some, if_pos rfl] at hblock
  refine ⟨_, hblock, ?_⟩
  simp only [List.length_append, List.length_take, List.length_drop, length_handles,
    List.length_singleton]
  omega

theorem draft?_result {f : Function} {cmd : Command} {make : ValueId → Draft}
    (h : draft? f cmd = some make) (r : ValueId) : (make r).instr.result? = some r ∧
      (make r).ty = (make r).instr.ty? ∧ (make r).ty.isSome = true := by
  cases cmd with
  | store | insert | move => cases h
  | call callee args ty =>
    cases ty with
    | none => cases h
    | some t =>
      cases h
      exact ⟨rfl, rfl, rfl⟩
  | _ =>
    cases h
    exact ⟨rfl, rfl, rfl⟩

theorem Admits.draft {c : Cursor} {cmd : Command} {make : ValueId → Draft} (h : c.Admits cmd)
    (hcmd : draft? c.func cmd = some make) (r : ValueId) :
    (∀ v ∈ (make r).instr.operands, c.Sees v) ∧ c.func.Agrees (make r).instr := by
  cases cmd with
  | constInt | undef | alloca =>
    cases hcmd
    refine ⟨fun v hv => ?_, trivial⟩
    cases hv
  | binary op lhs rhs =>
    cases hcmd
    obtain ⟨hlhs, hrhs, htypes⟩ := h
    refine ⟨fun v hv => ?_, htypes, fun hop => ?_⟩
    · rcases List.mem_pair.mp hv with rfl | rfl
      · exact hlhs
      · exact hrhs
    · rw [hop]
      rfl
  | cast op u ty =>
    cases hcmd
    refine ⟨fun v hv => ?_, trivial⟩
    cases List.mem_singleton.mp hv
    exact h
  | gep base indices =>
    cases hcmd
    obtain ⟨hbase, hpointer, hindices⟩ := h
    refine ⟨fun v hv => ?_, hpointer, fun v hv => (hindices v hv).2⟩
    rcases List.mem_cons.mp hv with rfl | hv
    · exact hbase
    · exact (hindices v hv).1
  | load ptr =>
    cases hcmd
    obtain ⟨hptr, ty, hty⟩ := h
    refine ⟨fun v hv => ?_, ?_⟩
    · cases List.mem_singleton.mp hv
      exact hptr
    · show c.func.typeOf ptr = .pointer _
      rw [hty, Function.typeOf?_of_typeOf hty nofun]
      rfl
  | call callee args ty =>
    cases ty with
    | none => cases hcmd
    | some t =>
      cases hcmd
      exact ⟨h, trivial⟩
  | store | insert | move => cases hcmd

section Step

variable {c : Cursor} (hc : c.StandsBefore)
include hc

theorem step_of_draft {cmd : Command} {make : ValueId → Draft} (h : c.Admits cmd)
    (hcmd : draft? c.func cmd = some make) :
    (c.step cmd = .error .overflow ∧ idLimit ≤ c.func.nextValue + 1) ∨
      ∃ r d next, c.step cmd = .ok (r, c.past d next) ∧ c.Creates d next := by
  have hstep : c.step cmd = c.define make >>= fun p => .ok (.value p.1, p.2) := by
    unfold step
    rw [hcmd]
  obtain ⟨blk, hb, hlt⟩ := hc
  rw [hstep]
  by_cases hids : c.func.nextValue + 1 < idLimit
  · obtain ⟨hr, ht, hs⟩ := draft?_result hcmd c.func.freshValue
    obtain ⟨hsees, hagrees⟩ := h.draft hcmd c.func.freshValue
    have hdefine : c.define make = .ok (c.func.freshValue,
        c.past (make c.func.freshValue) (c.func.nextValue + 1)) :=
      define_eq_ok.mpr ⟨hids, rfl, c.func.nextHandle,
        insert_eq_ok.mpr ⟨blk, hb, Nat.le_of_lt hlt, rfl, rfl⟩⟩
    refine Or.inr ⟨.value c.func.freshValue, make c.func.freshValue, c.func.nextValue + 1, ?_,
      .cons hr ht hs (.nil _), Nat.le_refl _, hsees, hagrees⟩
    rw [hdefine]
    rfl
  · refine Or.inl ⟨?_, Nat.not_lt.mp hids⟩
    rw [define, if_neg hids]
    rfl

theorem insert_creates {d : Draft} (hr : d.instr.result? = none)
    (hs : d.instr.isTerminator = false) (hsees : ∀ v ∈ d.instr.operands, c.Sees v)
    (hagrees : c.func.Agrees d.instr) :
    ∃ i next, c.insert d = .ok (i, c.past d next) ∧ c.Creates d next := by
  obtain ⟨blk, hb, hlt⟩ := hc
  refine ⟨c.func.nextHandle, c.func.nextValue,
    insert_eq_ok.mpr ⟨blk, hb, Nat.le_of_lt hlt, rfl, rfl⟩, ?_, Nat.le_succ _, hsees, hagrees⟩
  exact .cons_silent hr hs (.nil _)

theorem step_of_admits {cmd : Command} (h : c.Admits cmd) :
    (c.step cmd = .error .overflow ∧ idLimit ≤ c.func.nextValue + 1) ∨
      ∃ r d next, c.step cmd = .ok (r, c.past d next) ∧ c.Creates d next := by
  cases hcmd : draft? c.func cmd with
  | some make => exact step_of_draft hc h hcmd
  | none =>
    cases cmd with
    | store value ptr =>
      obtain ⟨hvalue, hptr, hty⟩ := h
      have hsees : ∀ v ∈ (Draft.store value ptr).instr.operands, c.Sees v := by
        intro v hv
        rcases List.mem_pair.mp hv with rfl | rfl
        · exact hptr
        · exact hvalue
      obtain ⟨i, next, hinsert, hcreates⟩ :=
        insert_creates hc (d := .store value ptr) rfl rfl hsees hty
      refine Or.inr ⟨.instr i, .store value ptr, next, ?_, hcreates⟩
      exact bind_eq_ok.mpr ⟨_, hinsert, rfl⟩
    | call callee args ty =>
      cases ty with
      | some t => cases hcmd
      | none =>
        obtain ⟨i, next, hinsert, hcreates⟩ :=
          insert_creates hc (d := .call none callee args none) rfl rfl h trivial
        refine Or.inr ⟨.done, .call none callee args none, next, ?_, hcreates⟩
        exact bind_eq_ok.mpr ⟨_, hinsert, rfl⟩
    | insert | move => exact absurd h id
    | constInt | undef | binary | cast | alloca | gep | load => cases hcmd

variable (hf : c.func.Consistent) (hv : c.func.Valid) (hn : c.func.Numbered)
include hf hv hn

theorem Creates.keeps {d : Draft} {next : Nat} (h : c.Creates d next) :
    (c.past d next).func.Valid ∧ (c.past d next).func.Numbered ∧
      (c.past d next).func.Consistent ∧ (c.past d next).StandsBefore := by
  obtain ⟨blk, hb, hlt⟩ := hc
  have hb' : c.func.block? c.block = some blk := hb
  have hdefined : ∀ v ∈ d.instr.operands,
      v ∈ definitions (c.func.occurrencesBefore c.block.index c.index) := fun v hmem =>
    (Function.mem_definitions_occurrencesBefore hb).mpr (h.sees v hmem)
  have hbound : ∀ v ∈ d.instr.operands, v.index < c.func.nextValue := by
    intro v hmem
    refine hv.numbered_iff.mp hn v ?_
    rw [Function.occurrences_split hb c.index, definitions_append]
    exact List.mem_append_left _ (hdefined v hmem)
  obtain ⟨hvalid, hnumbered⟩ := Function.Valid.emit hf hb (Nat.le_of_lt hlt) hv hn hlt h.fresh
    ⟨hdefined, trivial⟩ fun e he => by
      cases List.mem_singleton.mp he
      rw [Function.typeFault?_congr fun v hmem => Function.typeOf?_emit_of_notMem
        (h.fresh.notMem_of_lt (hbound v hmem)) _ _ _]
      exact Function.typeFault?_eq_none.mpr h.agrees
  obtain ⟨blk', hblk', hlength⟩ := exists_block?_past hb' d next
  refine ⟨hvalid, hnumbered, hf.emit hb' c.index [d] next, blk', hblk', ?_⟩
  show c.index + 1 < blk'.body.length
  omega

end Step

/-- Commands that find what they ask for keep a function valid, unless the identifiers run out. -/
theorem run_of_admitsAll {c : Cursor} {cmds : List Command} (hc : c.StandsBefore)
    (hf : c.func.Consistent) (hv : c.func.Valid) (hn : c.func.Numbered) (h : c.AdmitsAll cmds) :
    (∃ d, (c.run cmds).2 = .ok d ∧ d.func.Valid ∧ d.func.Numbered) ∨
      (c.run cmds).2 = .error .overflow ∧ idLimit ≤ c.func.nextValue + cmds.length := by
  induction cmds generalizing c with
  | nil => exact Or.inl ⟨c, rfl, hv, hn⟩
  | cons cmd cmds ih =>
    rw [run, List.length_cons]
    rcases step_of_admits hc h.1 with ⟨hstep, hids⟩ | ⟨r, d, next, hstep, hcreates⟩
    · rw [hstep]
      exact Or.inr ⟨rfl, by omega⟩
    · obtain ⟨hv', hn', hf', hc'⟩ := hcreates.keeps hc hf hv hn
      rw [hstep]
      rcases ih hc' hf' hv' hn' (h.2 r _ hstep) with ⟨e, hrun, hvalid⟩ | ⟨hrun, hids⟩
      · exact Or.inl ⟨e, hrun, hvalid⟩
      · refine Or.inr ⟨hrun, ?_⟩
        have hnext : (c.past d next).func.nextValue = next := Function.nextValue_emit _ _ _ _ _
        have hle := hcreates.next_le
        omega

/-- A cursor that stands at the start of a block or before an instruction of a valid function
keeps it valid, whatever it creates of operands that are defined before its place and have the
types that are asked for. Only the identifiers may run out. -/
theorem validate_run_of_admitsAll {f : Function} {c : Cursor} {cmds : List Command}
    (hf : f.Made) (hv : f.validate = .ok ()) (hn : f.Numbered) (hc : PlacedIn f c)
    (h : c.AdmitsAll cmds) :
    (∃ d, (c.run cmds).2 = .ok d ∧ d.func.validate = .ok () ∧ d.func.Numbered) ∨
      (c.run cmds).2 = .error .overflow ∧ idLimit ≤ f.nextValue + cmds.length := by
  have hvalid := Function.validate_eq_ok.mp hv
  obtain ⟨rfl, hstands⟩ := hc.standsBefore hf.consistent hvalid
  rcases run_of_admitsAll hstands hf.consistent hvalid hn h with ⟨d, hrun, hd, hdn⟩ | hids
  · exact Or.inl ⟨d, hrun, Function.validate_eq_ok.mpr hd, hdn⟩
  · exact Or.inr hids

theorem AdmitsAll.cons {c d : Cursor} {cmd : Command} {cmds : List Command} {r : Reply}
    (h : c.Admits cmd) (hstep : c.step cmd = .ok (r, d)) (hd : d.AdmitsAll cmds) :
    c.AdmitsAll (cmd :: cmds) := by
  refine ⟨h, fun r' d' h' => ?_⟩
  cases hstep.symm.trans h'
  exact hd

/-- In front of the store of the sparse function, its value goes through a new slot. -/
theorem sparse_validate_run : Preserve.sparse.validate = .ok () ∧ Preserve.sparse.Numbered ∧
    ∃ c, PlacedIn Preserve.sparse c ∧ ∃ d, (c.run [.alloca .i32 none, .store ⟨4⟩ ⟨5⟩, .load ⟨5⟩,
      .binary .add ⟨6⟩ ⟨4⟩]).2 = .ok d ∧ d.func.validate = .ok () ∧ d.func.Numbered := by
  have hvalid : Preserve.sparse.validate = .ok () := rfl
  have hnumbered : Preserve.sparse.Numbered := by decide
  have hplaced : PlacedIn Preserve.sparse ⟨Preserve.sparse, ⟨0⟩, 5⟩ := .before (i := ⟨5⟩) rfl
  refine ⟨hvalid, hnumbered, _, hplaced, ?_⟩
  have h : Cursor.AdmitsAll ⟨Preserve.sparse, ⟨0⟩, 5⟩ [.alloca .i32 none, .store ⟨4⟩ ⟨5⟩,
      .load ⟨5⟩, .binary .add ⟨6⟩ ⟨4⟩] := by
    refine .cons trivial rfl (.cons ⟨?_, ?_, rfl⟩ rfl (.cons ⟨?_, .i32, rfl⟩ rfl
      (.cons ⟨?_, ?_, rfl⟩ rfl trivial)))
    · exact .result (m := 0) (j := 4) rfl (Or.inr ⟨rfl, by decide⟩) rfl
    · exact .result (m := 0) (j := 5) rfl (Or.inr ⟨rfl, by decide⟩) rfl
    · exact .result (m := 0) (j := 5) rfl (Or.inr ⟨rfl, by decide⟩) rfl
    · exact .result (m := 0) (j := 7) rfl (Or.inr ⟨rfl, by decide⟩) rfl
    · exact .result (m := 0) (j := 4) rfl (Or.inr ⟨rfl, by decide⟩) rfl
  exact (validate_run_of_admitsAll Preserve.made_sparse hvalid hnumbered hplaced h).resolve_right
    fun hids => absurd hids.2 (by decide)

end Cursor

end ShaderIR
