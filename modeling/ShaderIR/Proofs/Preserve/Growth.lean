import ShaderIR.Proofs.Preserve.Redirected

/-!
# The course of a run

Until the output stores are erased, the pass only places code that defines fresh values, also
where that code breaks off. So a function grows, piece by piece, up to the step at which a run
ends, and each way for a run to end is told apart by this step.
-/

set_option autoImplicit false

namespace ShaderIR

namespace Function

def header (f : Function) : FunctionId × String × List Param × Ty :=
  (f.id, f.name, f.params, f.returnTy)

theorem header_emit (f : Function) (b : BlockId) (k : Nat) (code : List Draft) (next : Nat) :
    (f.emit b k code next).header = f.header := by
  have hall : ∀ (ds : List Draft) (g : Function), (ds.foldl allocate g).header = g.header := by
    intro ds
    induction ds with
    | nil => exact fun g => rfl
    | cons d ds ih =>
      intro g
      have hd : (g.allocate d).header = g.header := by
        unfold allocate
        split <;> rfl
      rw [List.foldl_cons, ih, hd]
  exact hall code { f with nextValue := next }

/-- `g` is what `f` has become after code was placed in it, piece by piece. -/
inductive Grows (f : Function) : Function → Prop
  | refl : Grows f f
  | emit {g : Function} {code : List Draft} {next : Nat} (b : BlockId) (k : Nat) :
      Grows f g → Fresh g.nextValue code next → Grows f (g.emit b k code next)

end Function

def Block.upTo (n : Nat) (blk : Block) : Block :=
  { blk with body := blk.body.filter fun i => decide (i.index < n) }

namespace Function

theorem Consistent.upTo_block? {f : Function} (hf : f.Consistent) (b : BlockId) :
    (f.block? b).map (Block.upTo f.arena.size) = f.block? b := by
  cases hb : f.block? b with
  | none => rfl
  | some blk =>
    have hold : blk.body.filter (fun i => decide (i.index < f.arena.size)) = blk.body := by
      refine List.filter_eq_self.mpr fun i hi => decide_eq_true ?_
      obtain ⟨ins, hins⟩ := hf.live_of_mem (List.mem_of_getElem? hb) hi
      exact index_lt_of_instr? hins
    rw [Option.map_some, Block.upTo, hold]

theorem upTo_emit {g : Function} {n : Nat} (hle : n ≤ g.arena.size) (c : BlockId) (k : Nat)
    (code : List Draft) (next : Nat) (b : BlockId) :
    ((g.emit c k code next).block? b).map (Block.upTo n) = (g.block? b).map (Block.upTo n) := by
  have hnew : (handles g.arena.size code.length).filter (fun i => decide (i.index < n)) = [] := by
    refine List.filter_eq_nil_iff.mpr fun i hi hlt => ?_
    have := (mem_handles.mp hi).1
    have := of_decide_eq_true hlt
    omega
  have hsplice : (g.emit c k code next).block? b = (g.block? b).map fun blk =>
      if c = b then
        { blk with
          body := blk.body.take k ++ handles g.arena.size code.length ++ blk.body.drop k }
      else blk :=
    block?_splice { g with nextValue := next } c k code b
  rw [hsplice, Option.map_map]
  congr 1
  funext blk
  by_cases hcb : c = b
  · simp only [Function.comp_apply, if_pos hcb, Block.upTo, List.filter_append, hnew,
      List.append_nil]
    rw [← List.filter_append, List.take_append_drop]
  · simp only [Function.comp_apply, if_neg hcb]

end Function

namespace Function.Grows

variable {f g : Function} (h : f.Grows g)
include h

theorem trans {g' : Function} (h' : g.Grows g') : f.Grows g' := by
  induction h' with
  | refl => exact h
  | emit b k _ hc ih => exact .emit b k ih hc

theorem header : g.header = f.header := by
  induction h with
  | refl => rfl
  | emit b k _ _ ih => rw [header_emit, ih]

theorem extension : f.Extends g := by
  induction h with
  | refl => exact Extends.refl f
  | emit b k _ hc ih => exact ih.trans (Extends.emit hc b k)

theorem upTo_block? (hf : f.Consistent) (b : BlockId) :
    (g.block? b).map (Block.upTo f.arena.size) = f.block? b := by
  induction h with
  | refl => exact hf.upTo_block? b
  | @emit g code next c k hg _ ih =>
    rw [upTo_emit hg.extension.arena_le c k code next, ih]

end Function.Grows

namespace Scratch

theorem fresh_lowerStore (s : Scratch) (f : Function) (o : OutputStore) :
    Fresh f.nextValue (s.lowerStore f o).code (s.lowerStore f o).next := by
  unfold lowerStore
  dsimp only
  split
  · exact (Fresh.nil _).cons_silent rfl rfl
  · split
    · exact Fresh.nil _
    · split
      · split
        · exact s.fresh_rowOffset o.row f.nextValue
        · next width _ => exact s.fresh_storing o width f.nextValue
      · exact Fresh.nil _

theorem fresh_components (s : Scratch) (ps : List (Nat × Nat)) (next : Nat) :
    Fresh next (s.components s.target.intrinsic.name ps next).1
      (s.components s.target.intrinsic.name ps next).2 := by
  rw [components_eq_flush]
  exact fresh_flush _ next

theorem fresh_epilogue (s : Scratch) (func : String) (next : Nat) :
    Fresh next (s.epilogue s.target.intrinsic.name func next).code
      (s.epilogue s.target.intrinsic.name func next).next := by
  unfold epilogue
  split
  · exact s.fresh_components s.element.positions next
  · generalize (List.range Element.columnLimit).map (fun c => (0, c)) = ps
    exact s.fresh_components ps next

end Scratch

namespace Function.Grows

variable {f g : Function} (h : f.Grows g)
include h

theorem lowerStores (slots : List Scratch) (stores : List OutputStore) :
    f.Grows (lowerStores slots stores g).1 := by
  induction stores generalizing g with
  | nil => exact h
  | cons o rest ih =>
    rw [ShaderIR.lowerStores]
    split
    · exact h
    · next s _ =>
      split
      · exact h
      · next b k _ =>
        have hstep := h.emit b k (s.fresh_lowerStore g o)
        dsimp only
        split
        · exact hstep
        · exact ih hstep

theorem emitEpilogue (ret : InstrId) (slots : List Scratch) (m : Metadata) :
    f.Grows (emitEpilogue ret slots g m).1 := by
  induction slots generalizing g m with
  | nil => exact h
  | cons s rest ih =>
    rw [emitEpilogue_cons]
    split
    · exact h
    · next b k _ =>
      have hstep := h.emit b k (s.fresh_epilogue g.name g.nextValue)
      dsimp only
      split
      · exact hstep
      · exact ih hstep _

theorem emitEpilogues (slots : List Scratch) (rets : List InstrId) (m : Metadata) :
    f.Grows (emitEpilogues slots rets g m).1 := by
  induction rets generalizing g m with
  | nil => exact h
  | cons ret rest ih =>
    have hret := h.emitEpilogue ret slots m
    rw [ShaderIR.emitEpilogues]
    split
    · next heq =>
      rw [heq] at hret
      exact hret
    · next heq =>
      rw [heq] at hret
      exact ih hret _

end Function.Grows

namespace Preserve

theorem grows_allocateSlots (f : Function) (ts : List Target) :
    f.Grows (allocateSlots f (Scratch.allot f.nextValue ts)) := by
  have hfresh := Scratch.fresh_alloca f.nextValue ts
  rw [← length_allot f.nextValue ts] at hfresh
  exact Function.Grows.refl.emit .entry 0 hfresh

theorem arena_size_allocateSlots (f : Function) (ts : List Target) :
    (allocateSlots f (Scratch.allot f.nextValue ts)).arena.size = f.arena.size + ts.length := by
  rw [allocateSlots, Function.arena_size_emit, List.length_map, length_allot]

/-- The output stores of a function, and the elements that they write. -/
structure Collected (f : Function) (m : Metadata) (stores : List OutputStore) (ts : List Target) :
    Prop where
  read : OutputStore.all f = .ok stores
  nonempty : stores ≠ []
  targets : Target.collect f.name m [] stores = .ok ts

/-- A verdict on a function, which holds as long as its values have identifiers. -/
def ruled (g : Function) (v : Except (Failure PassError) Bool) : Except (Failure PassError) Bool :=
  if g.nextValue < idLimit then v else .error (.violation .overflow)

/-- The step at which a run ends, and what it leaves behind there. -/
inductive Course (f : Function) (m : Metadata) : Prop
  | unread (e : PassError) (hall : OutputStore.all f = .error e)
      (hrun : run f m = ⟨f, m, [], .error (.error e)⟩)
  | idle (hall : OutputStore.all f = .ok [])
      (hrun : run f m = ⟨f, m, [.noOutputStores passName f.name], .ok false⟩)
  | unresolved (stores : List OutputStore) (e : PassError) (hall : OutputStore.all f = .ok stores)
      (hne : stores ≠ []) (hts : Target.collect f.name m [] stores = .error e)
      (hrun : run f m = ⟨f, m, [], .error (.error e)⟩)
  | unfit (stores : List OutputStore) (ts : List Target) (h : Collected f m stores ts)
      (hfits : ts.all fits = false) (hfunc : (run f m).func = f)
      (hmetadata : (run f m).metadata = m)
      (hverdict : (run f m).verdict = .error (.violation .overflow))
  | unlowered (stores : List OutputStore) (ts : List Target) (h : Collected f m stores ts)
      (hfits : ts.all fits = true) (u : Function) (e : PassError)
      (hl : lowerStores (Scratch.allot f.nextValue ts) stores
        (allocateSlots f (Scratch.allot f.nextValue ts)) = (u, some e))
      (hgrows : (allocateSlots f (Scratch.allot f.nextValue ts)).Grows u)
      (hfunc : (run f m).func = u) (hmetadata : (run f m).metadata = m)
      (hverdict : (run f m).verdict = ruled u (.error (.error e)))
  | unflushed (stores : List OutputStore) (ts : List Target) (h : Collected f m stores ts)
      (hfits : ts.all fits = true) (u w : Function) (m' : Metadata) (e : PassError)
      (hl : lowerStores (Scratch.allot f.nextValue ts) stores
        (allocateSlots f (Scratch.allot f.nextValue ts)) = (u, none))
      (he : emitEpilogues (Scratch.allot f.nextValue ts) u.returns u m = (w, m', some e))
      (hgrows : (allocateSlots f (Scratch.allot f.nextValue ts)).Grows w)
      (hfunc : (run f m).func = w) (hmetadata : (run f m).metadata = m')
      (hverdict : (run f m).verdict = ruled w (.error (.error e)))
  | done (stores : List OutputStore) (ts : List Target) (h : Collected f m stores ts)
      (hfits : ts.all fits = true) (u w : Function) (m' : Metadata)
      (hl : lowerStores (Scratch.allot f.nextValue ts) stores
        (allocateSlots f (Scratch.allot f.nextValue ts)) = (u, none))
      (he : emitEpilogues (Scratch.allot f.nextValue ts) u.returns u m = (w, m', none))
      (hgrows : (allocateSlots f (Scratch.allot f.nextValue ts)).Grows w)
      (hfunc : (run f m).func = eraseStores stores w) (hmetadata : (run f m).metadata = m')
      (hverdict : (run f m).verdict = ruled (eraseStores stores w) (.ok true))

theorem guardIds_eq (r : PassRun) : guardIds r = { r with verdict := ruled r.func r.verdict } := by
  unfold guardIds ruled
  split <;> rfl

theorem redirect_eq {f : Function} {m : Metadata} {stores : List OutputStore} {ts : List Target}
    (hfits : ts.all fits = true) {r : PassRun}
    (hr : redirectStores (Scratch.allot f.nextValue ts) stores
      (allocateSlots f (Scratch.allot f.nextValue ts)) m = r) :
    (redirect f m stores ts).func = r.func ∧ (redirect f m stores ts).metadata = r.metadata ∧
      (redirect f m stores ts).verdict = ruled r.func r.verdict := by
  rw [redirect, if_pos hfits, hr, guardIds_eq]
  exact ⟨rfl, rfl, rfl⟩

theorem course (f : Function) (m : Metadata) : Course f m := by
  cases hall : OutputStore.all f with
  | error e =>
    refine .unread e hall ?_
    rw [run, hall]
  | ok stores =>
    by_cases hne : stores = []
    · subst hne
      refine .idle hall ?_
      rw [run, hall]
    cases hts : Target.collect f.name m [] stores with
    | error e => exact .unresolved stores e hall hne hts (run_of_collect_error hall hne hts)
    | ok ts =>
      have h : Collected f m stores ts := ⟨hall, hne, hts⟩
      have hrun := run_of_collect_ok hall hne hts
      cases hfits : ts.all fits with
      | false =>
        have hunfit : (run f m).func = f ∧ (run f m).metadata = m ∧
            (run f m).verdict = .error (.violation .overflow) := by
          rw [hrun, redirect, if_neg (by simp [hfits])]
          exact ⟨rfl, rfl, rfl⟩
        exact .unfit stores ts h hfits hunfit.1 hunfit.2.1 hunfit.2.2
      | true =>
        have hlowered := (Function.Grows.refl (f := allocateSlots f (Scratch.allot f.nextValue ts)))
          |>.lowerStores (Scratch.allot f.nextValue ts) stores
        rcases hl : lowerStores (Scratch.allot f.nextValue ts) stores
            (allocateSlots f (Scratch.allot f.nextValue ts)) with ⟨u, _ | e⟩ <;> rw [hl] at hlowered
        · have hflushed := hlowered.emitEpilogues (Scratch.allot f.nextValue ts) u.returns m
          rcases he : emitEpilogues (Scratch.allot f.nextValue ts) u.returns u m with
            ⟨w, m', _ | e⟩ <;> rw [he] at hflushed
          · have hr : redirectStores (Scratch.allot f.nextValue ts) stores
                (allocateSlots f (Scratch.allot f.nextValue ts)) m =
                ⟨eraseStores stores w, m', [.returns passName u.returns.length u.name],
                  .ok true⟩ := by
              simp only [redirectStores, hl, he]
            obtain ⟨hfunc, hmetadata, hverdict⟩ := redirect_eq hfits hr
            rw [← hrun] at hfunc hmetadata hverdict
            exact .done stores ts h hfits u w m' hl he hflushed hfunc hmetadata hverdict
          · have hr : redirectStores (Scratch.allot f.nextValue ts) stores
                (allocateSlots f (Scratch.allot f.nextValue ts)) m =
                ⟨w, m', [.returns passName u.returns.length u.name], .error (.error e)⟩ := by
              simp only [redirectStores, hl, he]
            obtain ⟨hfunc, hmetadata, hverdict⟩ := redirect_eq hfits hr
            rw [← hrun] at hfunc hmetadata hverdict
            exact .unflushed stores ts h hfits u w m' e hl he hflushed hfunc hmetadata hverdict
        · have hr : redirectStores (Scratch.allot f.nextValue ts) stores
              (allocateSlots f (Scratch.allot f.nextValue ts)) m =
              ⟨u, m, [], .error (.error e)⟩ := by
            simp only [redirectStores, hl]
          obtain ⟨hfunc, hmetadata, hverdict⟩ := redirect_eq hfits hr
          rw [← hrun] at hfunc hmetadata hverdict
          exact .unlowered stores ts h hfits u e hl hlowered hfunc hmetadata hverdict

theorem arena_size_eraseStores (stores : List OutputStore) (f : Function) :
    (eraseStores stores f).arena.size = f.arena.size := by
  induction stores generalizing f with
  | nil => rfl
  | cons o rest ih =>
    rw [eraseStores, List.foldl_cons, ← eraseStores, ih]
    cases h : f.erase o.call with
    | none => rfl
    | some p =>
      obtain ⟨ins, g⟩ := p
      obtain ⟨-, b, k, -, rfl⟩ := Function.erase_eq_some.mp h
      exact Function.arena_size_without f o.call b k ins.result?

theorem Collected.arena_lt_of_grows {f g : Function} {m : Metadata} {stores : List OutputStore}
    {ts : List Target} (h : Collected f m stores ts)
    (hg : (allocateSlots f (Scratch.allot f.nextValue ts)).Grows g) :
    f.arena.size < g.arena.size := by
  obtain ⟨o, ho⟩ := List.exists_mem_of_ne_nil _ h.nonempty
  obtain ⟨t, ht, -⟩ := (Target.exists_of_collect h.targets).2 o ho
  have hpos := List.length_pos_of_mem ht
  have hle := hg.extension.arena_le
  rw [arena_size_allocateSlots] at hle
  omega

theorem arena_size_run (f : Function) (m : Metadata) :
    f.arena.size ≤ (run f m).func.arena.size ∧
      ((run f m).verdict = .ok true → f.arena.size < (run f m).func.arena.size) := by
  cases course f m with
  | unread e hall hrun => simp [hrun]
  | idle hall hrun => simp [hrun]
  | unresolved stores e hall hne hts hrun => simp [hrun]
  | unfit stores ts hc hfits hfunc hmetadata hverdict => simp [hfunc, hverdict]
  | unlowered stores ts hc hfits u e hl hgrows hfunc hmetadata hverdict =>
    have hlt := hc.arena_lt_of_grows hgrows
    rw [hfunc]
    exact ⟨Nat.le_of_lt hlt, fun _ => hlt⟩
  | unflushed stores ts hc hfits u w m' e hl he hgrows hfunc hmetadata hverdict =>
    have hlt := hc.arena_lt_of_grows hgrows
    rw [hfunc]
    exact ⟨Nat.le_of_lt hlt, fun _ => hlt⟩
  | done stores ts hc hfits u w m' hl he hgrows hfunc hmetadata hverdict =>
    have hlt := hc.arena_lt_of_grows hgrows
    rw [hfunc, arena_size_eraseStores]
    exact ⟨Nat.le_of_lt hlt, fun _ => hlt⟩

end Preserve

end ShaderIR
