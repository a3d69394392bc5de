import ShaderIR.Machine.Run
import ShaderIR.Proofs.Function.Layout
import ShaderIR.Proofs.Function.Made
import ShaderIR.Proofs.Function.Valid

/-!
# Built functions

A builder checks twice: an instruction is pushed only to a block that no terminator ends yet, and
a function is finished only if a terminator ends every block. Between them the checks leave one
terminator in each block, behind all else that was pushed to it. The pushes to one block keep
their order, however they alternate with those to others.
-/

set_option autoImplicit false

namespace ShaderIR

namespace Function

theorem blockInstrs_eq_resolve (f : Function) (b : BlockId) :
    f.blockInstrs b = f.resolve (f.bodyOf b) := by
  cases h : f.block? b with
  | none => rw [blockInstrs, bodyOf, h, Option.map_none, Option.getD_none, resolve_nil]
  | some blk => rw [blockInstrs, bodyOf_eq h, h]

theorem terminator?_eq (f : Function) (b : BlockId) :
    f.terminator? b = ((f.bodyOf b).getLast?.bind f.instr?).filter Instr.isTerminator := by
  cases h : f.block? b with
  | none => rw [terminator?, bodyOf, h]; rfl
  | some blk => rw [terminator?, bodyOf_eq h, h, Option.bind_some]

theorem resolve_map_fst {f : Function} {ps : List (InstrId × Instr)}
    (h : ∀ p ∈ ps, f.instr? p.1 = some p.2) : f.resolve (ps.map Prod.fst) = ps := by
  induction ps with
  | nil => rfl
  | cons p ps ih =>
    have hrest := ih fun q hq => h q (List.mem_cons_of_mem p hq)
    rw [resolve] at hrest ⊢
    rw [List.map_cons, List.filterMap_cons_some (b := p), hrest]
    rw [h p List.mem_cons_self]
    rfl

end Function

namespace Builder

/-- The instructions that a session pushes, each under the block that is then current. -/
def pushes (b : Option BlockId) : List Command → List Reply → List (BlockId × Instr)
  | c :: cs, r :: rs =>
    (b.bind fun b => (c.pushed? r).map fun ins => (b, ins)).toList ++ pushes (c.target b) cs rs
  | _, _ => []

theorem pushes_of_none {c : Command} {r : Reply} (h : c.pushed? r = none) (b : Option BlockId)
    (cs : List Command) (rs : List Reply) :
    pushes b (c :: cs) (r :: rs) = pushes (c.target b) cs rs := by
  rw [pushes, h]
  cases b <;> rfl

/-- The instructions that are pushed to a block, in this order. A handle is the number of a push
among all pushes. -/
def pushedTo (b : BlockId) (log : List (BlockId × Instr)) : List (InstrId × Instr) :=
  (log.zipIdx.filter fun p => p.1.1 = b).map fun p => (⟨p.2⟩, p.1.2)

theorem pushedTo_concat (b c : BlockId) (ins : Instr) (log : List (BlockId × Instr)) :
    pushedTo c (log ++ [(b, ins)]) =
      pushedTo c log ++ if b = c then [(⟨log.length⟩, ins)] else [] := by
  rw [pushedTo, List.zipIdx_append, List.filter_append, List.map_append, ← pushedTo]
  by_cases h : b = c <;> simp [h]

theorem getElem?_of_mem_pushedTo {b : BlockId} {log : List (BlockId × Instr)}
    {p : InstrId × Instr} (h : p ∈ pushedTo b log) : log[p.1.index]? = some (b, p.2) := by
  obtain ⟨⟨⟨c, ins⟩, n⟩, hq, rfl⟩ := List.mem_map.mp h
  obtain ⟨hmem, hc⟩ := List.mem_filter.mp hq
  rw [← of_decide_eq_true hc]
  exact List.mk_mem_zipIdx_iff_getElem?.mp hmem

theorem map_snd_pushedTo (b : BlockId) (log : List (BlockId × Instr)) :
    (pushedTo b log).map Prod.snd = (log.filter fun p => p.1 = b).map Prod.snd := by
  conv_rhs => rw [← List.zipIdx_map_fst 0 log, List.filter_map]
  rw [pushedTo, List.map_map, List.map_map]
  rfl

/-- A function holds what has been pushed, and no block goes on behind a terminator. -/
structure Tracks (f : Function) (log : List (BlockId × Instr)) : Prop where
  arena : f.arena.toList = log.map fun p => some p.2
  body : ∀ b, f.bodyOf b = (pushedTo b log).map Prod.fst
  straight : ∀ b, ∀ p ∈ (pushedTo b log).dropLast, p.2.isTerminator = false

namespace Tracks

variable {f g : Function} {log : List (BlockId × Instr)}

theorem of_bodies (h : Tracks f log) (ha : g.arena = f.arena)
    (hb : ∀ b, g.bodyOf b = f.bodyOf b) : Tracks g log where
  arena := by rw [ha, h.arena]
  body b := by rw [hb, h.body]
  straight := h.straight

variable (h : Tracks f log)
include h

theorem instr?_eq {b : BlockId} {p : InstrId × Instr} (hp : p ∈ pushedTo b log) :
    f.instr? p.1 = some p.2 := by
  rw [Function.instr?, ← Array.getElem?_toList, h.arena, List.getElem?_map,
    getElem?_of_mem_pushedTo hp]
  rfl

theorem blockInstrs_eq (b : BlockId) : f.blockInstrs b = pushedTo b log := by
  rw [f.blockInstrs_eq_resolve, h.body]
  exact Function.resolve_map_fst fun p hp => h.instr?_eq hp

theorem terminator?_eq (b : BlockId) :
    f.terminator? b = ((pushedTo b log).getLast?.map Prod.snd).filter Instr.isTerminator := by
  rw [f.terminator?_eq, h.body, List.getLast?_map]
  cases hp : (pushedTo b log).getLast? with
  | none => rfl
  | some p =>
    rw [Option.map_some, Option.bind_some, h.instr?_eq (List.mem_of_getLast? hp), Option.map_some]

theorem straight_of_unsealed {b : BlockId} (hsealed : f.isSealed b = false) :
    ∀ p ∈ pushedTo b log, p.2.isTerminator = false := by
  intro p hp
  have hne : pushedTo b log ≠ [] := List.ne_nil_of_mem hp
  have hlast : ((pushedTo b log).getLast hne).2.isTerminator = false := by
    rw [Function.isSealed, h.terminator?_eq, List.getLast?_eq_some_getLast hne,
      Option.map_some] at hsealed
    simpa [Option.filter] using hsealed
  rw [← List.dropLast_concat_getLast hne, List.mem_append, List.mem_singleton] at hp
  rcases hp with hp | rfl
  · exact h.straight b p hp
  · exact hlast

theorem push {b : BlockId} {blk : Block} (hblk : f.block? b = some blk)
    (hsealed : f.isSealed b = false) (d : Draft) :
    Tracks (f.splice b blk.body.length [d]) (log ++ [(b, d.instr)]) where
  arena := by
    rw [Function.arena_splice, Array.toList_append, h.arena, List.map_append]
    rfl
  body c := by
    have hsize : f.arena.size = log.length := by
      rw [← Array.length_toList, h.arena, List.length_map]
    rw [Function.bodyOf_splice hblk, pushedTo_concat, List.map_append, ← h.body c, hsize]
    split
    · next hbc =>
      rw [← hbc, Function.bodyOf_eq hblk]
      simp [handles]
    · exact (List.append_nil _).symm
  straight c p hp := by
    rw [pushedTo_concat] at hp
    split at hp
    · next hbc =>
      -- all that was in the block before stands in front of its last instruction now
      rw [List.dropLast_concat, ← hbc] at hp
      exact h.straight_of_unsealed hsealed p hp
    · rw [List.append_nil] at hp
      exact h.straight c p hp

end Tracks

theorem bodyOf_createBlock (s : Builder) (name : Option String) (b : BlockId) :
    (s.createBlock name).2.func.bodyOf b = s.func.bodyOf b := by
  have hblock : (s.createBlock name).2.func.block? b =
      (s.func.blocks ++ [⟨⟨s.func.blocks.length⟩, [], [], name⟩])[b.index]? := rfl
  rw [Function.bodyOf, Function.bodyOf, hblock, Function.block?, List.getElem?_append]
  split
  · rfl
  · next hlt =>
    -- past the old blocks there is at most the new one, and it is empty
    rw [List.getElem?_eq_none (Nat.not_lt.mp hlt)]
    cases b.index - s.func.blocks.length <;> rfl

theorem bodyOf_addParam {s t : Builder} {b : BlockId} {name : Option String} {ty : Ty} {v : ValueId}
    (h : s.addParam b name ty = .ok (v, t)) (c : BlockId) : t.func.bodyOf c = s.func.bodyOf c := by
  obtain ⟨u, blk, hu, -, rfl⟩ := addParam_eq_ok.mp h
  obtain ⟨-, -, rfl⟩ := fresh_eq_ok.mp hu
  have hblocks : s.func.bodyOf c = ((s.func.blocks[c.index]?).map Block.body).getD [] := rfl
  rw [Function.bodyOf, Function.block?, List.getElem?_modify, Option.map_eq_map, Option.map_map,
    hblocks]
  congr 2
  funext blk
  simp only [Function.comp_apply]
  split <;> rfl

/-- What is held after a command is what was held before and what the command pushes. -/
theorem Tracks.step {s t : Builder} {c : Command} {r : Reply} {log : List (BlockId × Instr)}
    (h : Tracks s.func log) (hstep : s.Step c r t) (cs : List Command) (rs : List Reply) :
    ∃ log', Tracks t.func log' ∧
      log ++ pushes s.current (c :: cs) (r :: rs) = log' ++ pushes t.current cs rs := by
  cases hstep with
  | @block name hc =>
    refine ⟨log, h.of_bodies rfl (s.bodyOf_createBlock name), ?_⟩
    subst hc
    rw [pushes_of_none rfl]
    rfl
  | @param b name ty v _ hc hadd =>
    have hbodies := bodyOf_addParam hadd
    obtain ⟨u, blk, hu, -, rfl⟩ := addParam_eq_ok.mp hadd
    obtain ⟨-, -, rfl⟩ := fresh_eq_ok.mp hu
    refine ⟨log, h.of_bodies rfl hbodies, ?_⟩
    subst hc
    rw [pushes_of_none rfl]
    rfl
  | reserved hpushed =>
    exact ⟨log, h.of_bodies rfl fun _ => rfl, by rw [pushes_of_none hpushed]⟩
  | @pushed next d _ hpushed htarget _ hpush =>
    obtain ⟨b, blk, hb, hsealed, hblk, rfl⟩ := push_eq_ok.mp hpush
    have hnext : Tracks { s.func with nextValue := next } log := h.of_bodies rfl fun _ => rfl
    refine ⟨_, hnext.push hblk hsealed d, ?_⟩
    rw [pushes, hpushed, htarget, show s.current = some b from hb, List.append_assoc]
    rfl

theorem Tracks.run {s t : Builder} {cs : List Command} {rs : List Reply}
    {log : List (BlockId × Instr)} (h : Tracks s.func log) (hrun : s.run cs = (rs, .ok t)) :
    Tracks t.func (log ++ pushes s.current cs rs) := by
  induction cs generalizing s rs log with
  | nil =>
    cases hrun
    rw [pushes, List.append_nil]
    · exact h
    · exact fun _ _ _ _ h => nomatch h
  | cons c cs ih =>
    obtain ⟨r, rs', u, hu, hrest, rfl⟩ := run_cons_eq_ok hrun
    obtain ⟨log', hlog', heq⟩ := h.step (step_eq_ok hu) cs rs'
    rw [heq]
    exact ih hlog' hrest

theorem tracks_new (name : String) (params : List Param) (returnTy : Ty) :
    Tracks (new name params returnTy).func [] where
  arena := rfl
  body _ := rfl
  straight _ _ hp := absurd hp List.not_mem_nil

/-- A block of a finished function, after all pushes of the session. -/
structure Finished (f : Function) (log : List (BlockId × Instr)) (b : BlockId) (blk : Block) :
    Prop where
  id : blk.id = b
  body : blk.body = (pushedTo b log).map Prod.fst
  instrs : f.blockInstrs b = pushedTo b log
  code : f.code b = (log.filter fun p => p.1 = b).map Prod.snd
  /-- The last instruction is a terminator, and no other one is. -/
  ends : ∃ init last, f.code b = init ++ [last] ∧ last.isTerminator = true ∧
    (∀ ins ∈ init, ins.isTerminator = false) ∧ f.terminator? b = some last
  isSealed : f.isSealed b = true

theorem Tracks.exists_block {f : Function} {log : List (BlockId × Instr)} (h : Tracks f log)
    {p : BlockId × Instr} (hp : p ∈ log) : ∃ blk, f.block? p.1 = some blk := by
  have hmem : p.2 ∈ (pushedTo p.1 log).map Prod.snd := by
    rw [map_snd_pushedTo]
    exact List.mem_map_of_mem (List.mem_filter.mpr ⟨hp, decide_eq_true rfl⟩)
  cases hb : f.block? p.1 with
  | some blk => exact ⟨blk, rfl⟩
  | none =>
    have hbody := h.body p.1
    rw [Function.bodyOf, hb] at hbody
    rw [List.map_eq_nil_iff.mp hbody.symm] at hmem
    cases hmem

theorem Tracks.ends {f : Function} {log : List (BlockId × Instr)} (h : Tracks f log)
    {b : BlockId} (hsealed : f.isSealed b = true) :
    ∃ init last, f.code b = init ++ [last] ∧ last.isTerminator = true ∧
      (∀ ins ∈ init, ins.isTerminator = false) ∧ f.terminator? b = some last := by
  obtain ⟨last, hlast⟩ := f.isSealed_iff.mp hsealed
  obtain ⟨hmem, hterm⟩ := Option.filter_eq_some_iff.mp (h.terminator?_eq b ▸ hlast)
  obtain ⟨p, hp, rfl⟩ := Option.map_eq_some_iff.mp hmem
  refine ⟨(pushedTo b log).dropLast.map Prod.snd, p.2, ?_, hterm, ?_, hlast⟩
  · rw [Function.code, h.blockInstrs_eq]
    conv_lhs => rw [← List.dropLast_append_getLast? p hp, List.map_append]
    rfl
  · exact List.forall_mem_map.mpr (h.straight b)

/-- However the commands of a session alternate between blocks, the finished function has in every
block what was pushed to it, in this order, up to the one terminator that seals the block. -/
theorem finished_of_build {name : String} {params : List Param} {returnTy : Ty}
    {cs : List Command} {rs : List Reply} {s : Builder} {f : Function}
    (hrun : (new name params returnTy).run cs = (rs, .ok s)) (hbuild : s.build = .ok f) :
    (∀ b blk, f.block? b = some blk → Finished f (pushes none cs rs) b blk) ∧
      ∀ p ∈ pushes none cs rs, ∃ blk, f.block? p.1 = some blk := by
  obtain ⟨rfl, hsealed⟩ := build_eq_ok.mp hbuild
  have hcons : s.func.Consistent := consistent_run (consistent_new name params returnTy) hrun
  have htracks : Tracks s.func (pushes none cs rs) := (tracks_new name params returnTy).run hrun
  constructor
  · intro b blk hblk
    have hid : blk.id = b := hcons.id_of_block? hblk
    have hb : s.func.isSealed b = true := hid ▸ hsealed blk (List.mem_of_getElem? hblk)
    constructor
    case id => exact hid
    case body => rw [← Function.bodyOf_eq hblk, htracks.body]
    case instrs => exact htracks.blockInstrs_eq b
    case code => rw [Function.code, htracks.blockInstrs_eq, map_snd_pushedTo]
    case ends => exact htracks.ends hb
    case isSealed => exact hb
  · exact fun p hp => htracks.exists_block hp

def turns : List Command :=
  [.createBlock none, .createBlock none, .setCurrent ⟨1⟩, .constInt 7 .i32, .setCurrent ⟨0⟩,
    .constInt 5 .i32, .push (.br ⟨1⟩ []) none, .setCurrent ⟨1⟩, .constInt 9 .i32, .ret []]

theorem finished_of_turns : ∃ rs s f, (new "turns" [] .void).run turns = (rs, .ok s) ∧
    s.build = .ok f ∧ f.code ⟨0⟩ = [.constInt ⟨1⟩ 5 .i32, .br ⟨1⟩ []] ∧
    f.code ⟨1⟩ = [.constInt ⟨0⟩ 7 .i32, .constInt ⟨2⟩ 9 .i32, .ret []] := by
  obtain ⟨s, f, blk, blk', hrun, hbuild, hblk, hblk'⟩ : ∃ s f blk blk',
      (new "turns" [] .void).run turns = ([.block ⟨0⟩, .block ⟨1⟩, .done, .value ⟨0⟩, .done,
        .value ⟨1⟩, .done, .done, .value ⟨2⟩, .done], .ok s) ∧ s.build = .ok f ∧
      f.block? ⟨0⟩ = some blk ∧ f.block? ⟨1⟩ = some blk' := ⟨_, _, _, _, rfl, rfl, rfl, rfl⟩
  obtain ⟨hfinished, -⟩ := finished_of_build hrun hbuild
  exact ⟨_, s, f, hrun, hbuild, (hfinished ⟨0⟩ blk hblk).code, (hfinished ⟨1⟩ blk' hblk').code⟩

end Builder

end ShaderIR
