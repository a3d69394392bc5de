import ShaderIR.Proofs.Function.Made
import ShaderIR.Proofs.Function.Valid
import ShaderIR.Proofs.Preserve.Growth

/-!
# Types of parameters

A block gets its parameters while it is built, each under a value that no other has, and with its
type recorded. Edits add no parameters. They may forget what is recorded of one, or record an
instruction for its value, but they never record another type for the parameter. In a valid
function a parameter has the type that its block gives it, or none is recorded.
-/

set_option autoImplicit false

namespace ShaderIR

namespace Function

/-- A value that is recorded as a parameter has the type that its block gives it. -/
def ParamTyped (f : Function) : Prop :=
  ∀ blk ∈ f.blocks, ∀ p ∈ blk.params, ∀ b, f.definition? p.id = some (.param b) →
    f.typeOf? p.id = some p.ty

/-- `g` has the parameters of `f`, and records nothing new of them. -/
structure Retains (f g : Function) : Prop where
  params : g.blocks.map Block.params = f.blocks.map Block.params
  records : ∀ v b, g.definition? v = some (.param b) →
    f.definition? v = some (.param b) ∧ g.typeOf? v = f.typeOf? v

namespace Retains

variable {f g h : Function}

theorem refl (f : Function) : f.Retains f := ⟨rfl, fun _ _ hd => ⟨hd, rfl⟩⟩

theorem trans (hfg : f.Retains g) (hgh : g.Retains h) : f.Retains h where
  params := hgh.params.trans hfg.params
  records v b hd := by
    obtain ⟨hd', ht⟩ := hgh.records v b hd
    obtain ⟨hd'', ht'⟩ := hfg.records v b hd'
    exact ⟨hd'', ht.trans ht'⟩

theorem exists_block (hr : f.Retains g) {blk : Block} (h : blk ∈ g.blocks) :
    ∃ blk' ∈ f.blocks, blk'.params = blk.params := by
  have hmem : blk.params ∈ g.blocks.map Block.params := List.mem_map_of_mem h
  exact List.mem_map.mp (hr.params ▸ hmem)

theorem paramTyped (hr : f.Retains g) (hf : f.ParamTyped) : g.ParamTyped := by
  intro blk hblk p hp b hd
  obtain ⟨blk', hblk', heq⟩ := hr.exists_block hblk
  obtain ⟨hd', ht⟩ := hr.records p.id b hd
  rw [ht]
  exact hf blk' hblk' p (heq ▸ hp) b hd'

theorem allocate (f : Function) (d : Draft) : f.Retains (f.allocate d) where
  params := by rw [blocks_allocate]
  records v b hd := by
    rw [definition?_allocate] at hd
    rw [typeOf?_allocate]
    split at hd
    · cases hd
    · next hnew => exact ⟨hd, if_neg hnew⟩

theorem allocateAll (f : Function) (ds : List Draft) :
    f.Retains (ds.foldl Function.allocate f) := by
  induction ds generalizing f with
  | nil => exact refl f
  | cons d ds ih => exact (allocate f d).trans (ih (f.allocate d))

theorem editBody (f : Function) (b : BlockId) (edit : List InstrId → List InstrId) :
    f.Retains (f.editBody b edit) where
  params := by
    refine List.ext_getElem? fun n => ?_
    rw [List.getElem?_map, List.getElem?_map, Function.editBody, List.getElem?_modify]
    split <;> cases f.blocks[n]? <;> rfl
  records _ _ hd := ⟨hd, rfl⟩

theorem splice (f : Function) (b : BlockId) (k : Nat) (ds : List Draft) :
    f.Retains (f.splice b k ds) :=
  (allocateAll f ds).trans (editBody (ds.foldl Function.allocate f) b fun is =>
    is.take k ++ handles f.arena.size ds.length ++ is.drop k)

theorem withNextValue (f : Function) (n : Nat) : f.Retains { f with nextValue := n } :=
  ⟨rfl, fun _ _ hd => ⟨hd, rfl⟩⟩

theorem of_grows (hg : f.Grows g) : f.Retains g := by
  induction hg with
  | refl => exact refl f
  | emit b k _ _ ih => exact (ih.trans (withNextValue _ _)).trans (splice _ b k _)

theorem of_erase {i : InstrId} {ins : Instr} (h : f.erase i = some (ins, g)) : f.Retains g := by
  obtain ⟨-, b, k, -, rfl⟩ := erase_eq_some.mp h
  constructor
  · rw [blocks_without]
    exact (editBody f b _).params
  · intro v c hd
    rw [definition?_without] at hd
    rw [typeOf?_without]
    split at hd
    · cases hd
    · next hne => exact ⟨hd, if_neg hne⟩

theorem eraseStores (f : Function) (stores : List OutputStore) :
    f.Retains (Preserve.eraseStores stores f) := by
  induction stores generalizing f with
  | nil => exact refl f
  | cons o rest ih =>
    rw [Preserve.eraseStores, List.foldl_cons, ← Preserve.eraseStores]
    refine Retains.trans ?_ (ih _)
    cases h : f.erase o.call with
    | none => exact refl f
    | some p => exact of_erase h

theorem of_run {c c' : Cursor} {cmds : List Cursor.Command} {rs : List Reply}
    (h : c.run cmds = (rs, .ok c')) : c.func.Retains c'.func := by
  induction cmds generalizing c rs with
  | nil =>
    cases h
    exact refl _
  | cons cmd cmds ih =>
    obtain ⟨r, rs', d, hd, hrun, -⟩ := Cursor.run_cons_eq_ok h
    rcases Cursor.func_step hd with heq | ⟨blk, next, new, -, heq⟩
    · exact heq ▸ ih hrun
    · refine Retains.trans ?_ (ih hrun)
      rw [heq]
      exact (withNextValue _ next).trans (splice _ _ _ _)

theorem preserve (f : Function) (m : Metadata) : f.Retains (Preserve.run f m).func := by
  cases Preserve.course f m with
  | unread e hall hrun => rw [hrun]; exact refl f
  | idle hall hrun => rw [hrun]; exact refl f
  | unresolved stores e hall hne hts hrun => rw [hrun]; exact refl f
  | unfit stores ts hc hfits hfunc hmetadata hverdict => rw [hfunc]; exact refl f
  | unlowered stores ts hc hfits u e hl hgrows hfunc hmetadata hverdict =>
    rw [hfunc]
    exact of_grows ((Preserve.grows_allocateSlots f ts).trans hgrows)
  | unflushed stores ts hc hfits u w m' e hl he hgrows hfunc hmetadata hverdict =>
    rw [hfunc]
    exact of_grows ((Preserve.grows_allocateSlots f ts).trans hgrows)
  | done stores ts hc hfits u w m' hl he hgrows hfunc hmetadata hverdict =>
    rw [hfunc]
    exact (of_grows ((Preserve.grows_allocateSlots f ts).trans hgrows)).trans
      (eraseStores w stores)

end Retains

end Function

namespace Builder

/-- While a function is built, its parameters are values that have been handed out. -/
structure Declaring (f : Function) : Prop where
  paramTyped : f.ParamTyped
  below : ∀ blk ∈ f.blocks, ∀ p ∈ blk.params, p.id.index < f.nextValue

theorem declaring_of_retains {f g : Function} (hf : Declaring f) (hr : f.Retains g)
    (hle : f.nextValue ≤ g.nextValue) : Declaring g where
  paramTyped := hr.paramTyped hf.paramTyped
  below blk hblk p hp := by
    obtain ⟨blk', hblk', heq⟩ := hr.exists_block hblk
    exact Nat.lt_of_lt_of_le (hf.below blk' hblk' p (heq ▸ hp)) hle

section Step

variable {s t : Builder} (hs : Declaring s.func)
include hs

theorem declaring_addParam {b : BlockId} {name : Option String} {ty : Ty} {v : ValueId}
    (h : s.addParam b name ty = .ok (v, t)) : Declaring t.func := by
  obtain ⟨u, blk, hu, -, rfl⟩ := addParam_eq_ok.mp h
  obtain ⟨-, rfl, rfl⟩ := fresh_eq_ok.mp hu
  have hcases : ∀ blk ∈ s.func.blocks.modify b.index (fun blk =>
      { blk with params := blk.params ++ [⟨s.func.freshValue, ty, name⟩] }),
      ∀ p ∈ blk.params, p = ⟨s.func.freshValue, ty, name⟩ ∨
        ∃ blk' ∈ s.func.blocks, p ∈ blk'.params := by
    intro blk hblk p hp
    obtain ⟨n, hn⟩ := List.mem_iff_getElem?.mp hblk
    rw [List.getElem?_modify, Option.map_eq_map, Option.map_eq_some_iff] at hn
    obtain ⟨blk', hblk', rfl⟩ := hn
    have hmem := List.mem_of_getElem? hblk'
    split at hp
    · rcases List.mem_append.mp hp with hp | hp
      · exact Or.inr ⟨blk', hmem, hp⟩
      · exact Or.inl (List.mem_singleton.mp hp)
    · exact Or.inr ⟨blk', hmem, hp⟩
  constructor
  · intro blk hblk p hp c hd
    rcases hcases blk hblk p hp with rfl | ⟨blk', hblk', hp⟩
    · exact (ValueMap.getElem?_insert_eq ..).trans (if_pos rfl)
    · have hlt := hs.below blk' hblk' p hp
      have hne : s.func.freshValue ≠ p.id := by
        rintro heq
        rw [← heq] at hlt
        exact Nat.lt_irrefl _ hlt
      have hold := hs.paramTyped blk' hblk' p hp c
        ((ValueMap.getElem?_insert_ne _ _ _ _ hne).symm.trans hd)
      exact (ValueMap.getElem?_insert_ne _ _ _ _ hne).trans hold
  · intro blk hblk p hp
    rcases hcases blk hblk p hp with rfl | ⟨blk', hblk', hp⟩
    · exact Nat.lt_succ_self _
    · exact Nat.lt_succ_of_lt (hs.below blk' hblk' p hp)

theorem declaring_step {c : Command} {r : Reply} (h : s.step c = .ok (r, t)) :
    Declaring t.func := by
  cases step_eq_ok h with
  | @block name =>
    have hblocks : ∀ blk ∈ (s.createBlock name).2.func.blocks, ∀ p ∈ blk.params,
        blk ∈ s.func.blocks := by
      intro blk hblk p hp
      rcases List.mem_append.mp hblk with hblk | hblk
      · exact hblk
      · cases List.mem_singleton.mp hblk
        cases hp
    exact ⟨fun blk hblk p hp => hs.paramTyped blk (hblocks blk hblk p hp) p hp,
      fun blk hblk p hp => hs.below blk (hblocks blk hblk p hp) p hp⟩
  | param _ hadd => exact declaring_addParam hs hadd
  | reserved _ hle => exact declaring_of_retains hs (.withNextValue _ _) hle
  | @pushed next d _ _ _ hle hpush =>
    obtain ⟨b, blk, -, -, -, rfl⟩ := push_eq_ok.mp hpush
    refine declaring_of_retains hs (.trans (.withNextValue _ next) (.splice _ b _ _)) ?_
    exact Nat.le_trans hle
      (Nat.le_of_eq (Function.nextValue_foldl_allocate { s.func with nextValue := next } [d]).symm)

theorem declaring_run {cs : List Command} {rs : List Reply} (h : s.run cs = (rs, .ok t)) :
    Declaring t.func := by
  induction cs generalizing s rs with
  | nil =>
    cases h
    exact hs
  | cons c cs ih =>
    obtain ⟨r, rs', u, hu, hrun, -⟩ := run_cons_eq_ok h
    exact ih (declaring_step hs hu) hrun

end Step

end Builder

namespace Function

variable {f : Function}

theorem Made.paramTyped (hf : f.Made) : f.ParamTyped := by
  induction hf with
  | build hr hb =>
    obtain ⟨rfl, -⟩ := Builder.build_eq_ok.mp hb
    refine (Builder.declaring_run ⟨fun blk hblk => ?_, fun blk hblk => ?_⟩ hr).paramTyped
    · exact absurd hblk List.not_mem_nil
    · exact absurd hblk List.not_mem_nil
  | editFrom _ hr ih => exact (Retains.of_run hr).paramTyped ih
  | editBefore _ hc hr ih =>
    obtain ⟨p, -, rfl⟩ := Option.map_eq_some_iff.mp hc
    exact (Retains.of_run hr).paramTyped ih
  | erase _ h ih => exact (Retains.of_erase h).paramTyped ih
  | preserve _ _ ih => exact (Retains.preserve _ _).paramTyped ih
  | withHeader _ ih => exact ih

/-- In a valid function a parameter has the type that its block gives it, unless what was recorded
of it has been forgotten. -/
theorem Made.typeOf?_param (hf : f.Made) (hv : f.Valid) {blk : Block} (hblk : blk ∈ f.blocks)
    {p : BlockParam} (hp : p ∈ blk.params) :
    f.typeOf? p.id = none ∨ f.typeOf? p.id = some p.ty := by
  cases hd : f.definition? p.id with
  | none =>
    left
    have htyped := hf.consistent.recorded.typed p.id
    rwa [hd, Option.isSome_none, Option.isSome_eq_false_iff, Option.isNone_iff_eq_none] at htyped
  | some d =>
    cases d with
    | param b => exact Or.inr (hf.paramTyped blk hblk p hp b hd)
    | result i =>
      obtain ⟨ins, hi, hr⟩ := hf.consistent.recorded.result p.id i hd
      exact absurd (List.mem_map_of_mem hp)
        (hv.notMem_paramIds (hf.consistent.mem_instrs.mpr hi) hr hblk)

end Function

end ShaderIR
