import ShaderIR.Function.Validity
import ShaderIR.Preserve.Redirect

/-!
# The place of a function in its module

A function carries the number of its place in the module. Neither the pass nor the check for
validity reads it.
-/

set_option autoImplicit false

namespace ShaderIR

namespace Function

/-- The function at another place. -/
def moveTo (f : Function) (id : FunctionId) : Function := { f with id := id }

variable (f : Function) (id : FunctionId)

theorem moveTo_emit (b : BlockId) (k : Nat) (code : List Draft) (next : Nat) :
    (f.moveTo id).emit b k code next = (f.emit b k code next).moveTo id := by
  have hall : ∀ (ds : List Draft) (g : Function),
      ds.foldl allocate (g.moveTo id) = (ds.foldl allocate g).moveTo id := by
    intro ds
    induction ds with
    | nil => exact fun g => rfl
    | cons d ds ih =>
      intro g
      have hd : (g.moveTo id).allocate d = (g.allocate d).moveTo id := by
        unfold allocate
        split <;> rfl
      rw [List.foldl_cons, List.foldl_cons, hd, ih]
  have hemit := hall code { f with nextValue := next }
  exact congrArg (fun g : Function => g.editBody b fun is =>
    is.take k ++ handles f.arena.size code.length ++ is.drop k) hemit

theorem moveTo_erase (i : InstrId) :
    (f.moveTo id).erase i = (f.erase i).map fun p => (p.1, p.2.moveTo id) := by
  unfold erase
  have hi : (f.moveTo id).instr? i = f.instr? i := rfl
  have hp : (f.moveTo id).position? i = f.position? i := rfl
  rw [hi, hp]
  cases f.instr? i with
  | none => rfl
  | some ins =>
    cases f.position? i with
    | none => rfl
    | some p => cases h : ins.result? <;> simp [forget, h] <;> rfl

theorem moveTo_defineAll (d : Defined) (vs : List ValueId) :
    (f.moveTo id).defineAll d vs = f.defineAll d vs := by
  induction vs generalizing d with
  | nil => rfl
  | cons v vs ih => exact congrArg (f.define d v >>= ·) (funext ih)

theorem moveTo_checkInstrs (label : String) (d : Defined) (is : List Instr) :
    (f.moveTo id).checkInstrs label d is = f.checkInstrs label d is := by
  have hone : ∀ isLast d ins,
      (f.moveTo id).checkInstr label isLast d ins = f.checkInstr label isLast d ins := by
    intro isLast d ins
    have hfault : (f.moveTo id).typeFault? ins = f.typeFault? ins := rfl
    simp only [checkInstr, moveTo_defineAll, hfault]
    rfl
  induction is generalizing d with
  | nil => rfl
  | cons ins is ih =>
    rw [checkInstrs, checkInstrs, hone]
    exact congrArg (f.checkInstr label is.isEmpty d ins >>= ·) (funext ih)

theorem moveTo_validate : (f.moveTo id).validate = f.validate := by
  have hblocks : ∀ (blks : List Block) (d : Defined),
      (f.moveTo id).checkBlocks d blks = f.checkBlocks d blks := by
    intro blks
    induction blks with
    | nil => exact fun d => rfl
    | cons blk blks ih =>
      intro d
      have hblk : (f.moveTo id).checkBlock d blk = f.checkBlock d blk := by
        simp only [checkBlock, moveTo_defineAll, moveTo_checkInstrs]
        rfl
      rw [checkBlocks, checkBlocks, hblk]
      exact congrArg (f.checkBlock d blk >>= ·) (funext ih)
  rw [validate, hblocks]
  rfl

theorem moveTo_all : OutputStore.all (f.moveTo id) = OutputStore.all f := by
  have hcollect : ∀ is : List (InstrId × Instr),
      OutputStore.collect (f.moveTo id) is = OutputStore.collect f is := by
    intro is
    induction is with
    | nil => rfl
    | cons p is ih =>
      have hop : (f.moveTo id).storeOpcode? p.2 = f.storeOpcode? p.2 := rfl
      rw [OutputStore.collect, OutputStore.collect, ih, hop]
      rfl
  exact hcollect f.instrs

end Function

section Steps

variable (f : Function) (id : FunctionId)

theorem moveTo_lowerStores (slots : List Scratch) (stores : List OutputStore) :
    lowerStores slots stores (f.moveTo id) =
      ((lowerStores slots stores f).1.moveTo id, (lowerStores slots stores f).2) := by
  induction stores generalizing f with
  | nil => rfl
  | cons o rest ih =>
    have hp : (f.moveTo id).position? o.call = f.position? o.call := rfl
    rw [lowerStores, lowerStores, hp]
    cases slots.find? fun s => s.target.id == o.id with
    | none => rfl
    | some s =>
      cases f.position? o.call with
      | none => rfl
      | some p =>
        obtain ⟨b, k⟩ := p
        have hl : s.lowerStore (f.moveTo id) o = s.lowerStore f o := rfl
        simp only [hl, Function.moveTo_emit]
        cases (s.lowerStore f o).fault with
        | some e => rfl
        | none => exact ih _

theorem moveTo_emitEpilogue (ret : InstrId) (slots : List Scratch) (m : Metadata) :
    emitEpilogue ret slots (f.moveTo id) m = ((emitEpilogue ret slots f m).1.moveTo id,
      (emitEpilogue ret slots f m).2) := by
  induction slots generalizing f m with
  | nil => rfl
  | cons s rest ih =>
    have hp : (f.moveTo id).position? ret = f.position? ret := rfl
    rw [emitEpilogue, emitEpilogue, hp]
    cases f.position? ret with
    | none => rfl
    | some p =>
      obtain ⟨b, k⟩ := p
      obtain ⟨i, m'⟩ := m.request s.target.intrinsic
      have hl : s.epilogue i.name (f.moveTo id).name (f.moveTo id).nextValue =
        s.epilogue i.name f.name f.nextValue := rfl
      simp only [hl, Function.moveTo_emit]
      cases (s.epilogue i.name f.name f.nextValue).fault with
      | some e => rfl
      | none => exact ih _ _

theorem moveTo_emitEpilogues (slots : List Scratch) (rets : List InstrId) (m : Metadata) :
    emitEpilogues slots rets (f.moveTo id) m = ((emitEpilogues slots rets f m).1.moveTo id,
      (emitEpilogues slots rets f m).2) := by
  induction rets generalizing f m with
  | nil => rfl
  | cons ret rest ih =>
    rw [emitEpilogues, emitEpilogues, moveTo_emitEpilogue]
    obtain ⟨g, m', e⟩ := emitEpilogue ret slots f m
    cases e with
    | some e => rfl
    | none => exact ih g m'

theorem moveTo_eraseStores (stores : List OutputStore) :
    Preserve.eraseStores stores (f.moveTo id) = (Preserve.eraseStores stores f).moveTo id := by
  induction stores generalizing f with
  | nil => rfl
  | cons o rest ih =>
    have hone : (((f.moveTo id).erase o.call).map Prod.snd).getD (f.moveTo id) =
        (((f.erase o.call).map Prod.snd).getD f).moveTo id := by
      rw [Function.moveTo_erase]
      cases f.erase o.call <;> rfl
    rw [Preserve.eraseStores, List.foldl_cons, hone]
    exact ih _

end Steps

namespace Preserve

variable (f : Function) (id : FunctionId) (m : Metadata)

theorem moveTo_redirectStores (slots : List Scratch) (stores : List OutputStore) :
    redirectStores slots stores (f.moveTo id) m =
      { redirectStores slots stores f m with
        func := (redirectStores slots stores f m).func.moveTo id } := by
  simp only [redirectStores, moveTo_lowerStores]
  obtain ⟨u, e⟩ := lowerStores slots stores f
  cases e with
  | some e => rfl
  | none =>
    have hrets : (u.moveTo id).returns = u.returns := rfl
    simp only [hrets, moveTo_emitEpilogues]
    obtain ⟨g, m', e⟩ := emitEpilogues slots u.returns u m
    cases e with
    | some e => rfl
    | none =>
      simp only [moveTo_eraseStores]
      rfl

theorem moveTo_redirect (stores : List OutputStore) (ts : List Target) :
    redirect (f.moveTo id) m stores ts =
      { redirect f m stores ts with func := (redirect f m stores ts).func.moveTo id } := by
  have halloc : allocateSlots (f.moveTo id) (Scratch.allot f.nextValue ts) =
      (allocateSlots f (Scratch.allot f.nextValue ts)).moveTo id :=
    f.moveTo_emit id .entry 0 _ _
  have hnext : (f.moveTo id).nextValue = f.nextValue := rfl
  simp only [redirect, hnext, halloc, moveTo_redirectStores]
  split
  · simp only [guardIds]
    have hids : ∀ g : Function, (g.moveTo id).nextValue = g.nextValue := fun g => rfl
    simp only [hids]
    split <;> rfl
  · rfl

theorem moveTo_run : run (f.moveTo id) m = { run f m with func := (run f m).func.moveTo id } := by
  unfold run
  rw [Function.moveTo_all]
  have hname : (f.moveTo id).name = f.name := rfl
  rw [hname]
  split
  · rfl
  · rfl
  · next stores hne hall =>
    split
    · rfl
    · next ts hts => rw [moveTo_redirect]

end Preserve

end ShaderIR
