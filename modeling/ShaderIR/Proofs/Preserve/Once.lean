import Mathlib.Data.List.ProdSigma
import ShaderIR.Proofs.Machine.Outputs
import ShaderIR.Proofs.Preserve.Execution
import ShaderIR.Proofs.Preserve.Redirected

/-!
# Every output is stored once

No run of a redirected function stores to an output before its return, and in front of the
return it stores every component of every written element once. So a run that ends shows
each of their cells exactly once, whatever its way through the function was.
-/

set_option autoImplicit false

namespace ShaderIR

def Target.cells (t : Target) : List OutputCell := t.element.positions.map t.cell

theorem Element.nodup_positions (e : Element) : e.positions.Nodup :=
  List.nodup_range.product List.nodup_range

theorem Target.nodup_cells {t : Target} (h : Preserve.fits t = true) : t.cells.Nodup := by
  have hsize := Scratch.size_lt_of_fits h
  refine List.Nodup.map_on ?_ t.element.nodup_positions
  rintro ⟨r, c⟩ hp ⟨r', c'⟩ hp' heq
  obtain ⟨hr, hc, -⟩ := Scratch.lt_of_mem_positions (s := ⟨t, ⟨0⟩⟩) hp hsize
  obtain ⟨hr', hc', -⟩ := Scratch.lt_of_mem_positions (s := ⟨t, ⟨0⟩⟩) hp' hsize
  have hrow : r = r' := Int64.ofNat_injOn hr hr' (congrArg OutputCell.row heq)
  have hcolumn : c = c' := Int64.ofNat_injOn hc hc' (congrArg OutputCell.column heq)
  rw [hrow, hcolumn]

namespace Scratch

theorem map_cell_cellsOf (next : Nat) (ts : List Target) :
    (cellsOf (allot next ts)).map (fun c => c.1.target.cell c.2) = ts.flatMap Target.cells := by
  conv_rhs => rw [← map_target_allot next ts]
  rw [cellsOf, List.map_flatMap, List.flatMap_map]
  refine List.flatMap_congr fun s _ => ?_
  rw [List.map_map]
  rfl

end Scratch

theorem Machine.outputs_apply_of_not_intrinsic {f : Function} {s : Machine} {ins : Instr}
    {e : Effect} (hcall : ins.callsIntrinsic = false) (hs : ins.isTerminator = false)
    (he : s.effect f ins = .ok e) : (s.apply e).outputs = s.outputs := by
  cases ins with
  | call r name args ty =>
    obtain ⟨v, n, op, o, hname, -⟩ := Machine.call_eq_ok.mp he
    have hname' : isIntrinsicName name = false := hcall
    rw [hname'] at hname
    cases hname
  | _ => exact Machine.outputs_apply hs he rfl

namespace Preserve.Redirected

variable {f : Function} {m : Metadata} {stores : List OutputStore} {ts : List Target}
  {before : InstrId → List (InstrId × Instr)} {w g : Function}
  (h : Redirected f m stores ts before w g)
include h

theorem storable (hcols : ∀ t ∈ ts, t.element.cols ≤ Element.columnLimit) :
    ∀ c ∈ Scratch.cellsOf (Scratch.allot f.nextValue ts), c.1.Storable c.2 := by
  intro c hc
  obtain ⟨s, hs, hc⟩ := List.mem_flatMap.mp hc
  obtain ⟨p, hp, rfl⟩ := List.mem_map.mp hc
  have ht := Scratch.target_mem_of_mem_allot hs
  exact .of_fits (h.id_lt ht) (h.fits _ ht) (hcols _ ht) hp

theorem nodup_cells : (ts.flatMap Target.cells).Nodup := by
  refine List.nodup_flatMap.mpr ⟨fun t ht => Target.nodup_cells (h.fits t ht), ?_⟩
  refine (Target.pairwise_collect List.Pairwise.nil h.targets).imp fun {t u} hlt => ?_
  intro c ht hu
  obtain ⟨p, -, rfl⟩ := List.mem_map.mp ht
  obtain ⟨q, -, heq⟩ := List.mem_map.mp hu
  have hid : u.id = t.id := congrArg OutputCell.id heq
  omega

theorem enter {fuel : Nat} {b : BlockId} {s : Machine} {xs : List Value}
    (hrun : (g.exec fuel ⟨b, g.code b, s⟩).ending = .ok xs) :
    ∃ s' k, k ≤ fuel ∧ s'.outputs = s.outputs ∧ g.exec fuel ⟨b, g.code b, s⟩ =
      g.exec k ⟨b, (f.blockInstrs b).flatMap (site before stores), s'⟩ := by
  rw [h.code] at hrun ⊢
  by_cases hb : b = .entry
  · rw [if_pos hb] at hrun ⊢
    have hfresh := Scratch.fresh_alloca f.nextValue ts
    obtain ⟨s', k, hline, hfuel, hexec⟩ := Function.line_of_exec hfresh.straight_instrs hrun
    refine ⟨s', k, by omega, hfresh.outputs_line hline fun d hd => ?_, hexec⟩
    obtain ⟨s, -, rfl⟩ := List.mem_map.mp hd
    rfl
  · rw [if_neg hb, List.nil_append]
    exact ⟨s, fuel, Nat.le_refl _, rfl, rfl⟩

/-- The heart of the matter: nothing is stored to an output on the way to a return, and there
everything is. -/
theorem cells_of_exec
    (hcalls : ∀ p ∈ f.instrs, p.2.callsIntrinsic = true → (f.storeOpcode? p.2).isSome = true)
    {fuel : Nat} :
    ∀ {b : BlockId} {ps : List (InstrId × Instr)} {s : Machine} {xs : List Value},
      (∀ p ∈ ps, ∃ c, p ∈ f.blockInstrs c) → s.outputs = #[] →
      (g.exec fuel ⟨b, ps.flatMap (site before stores), s⟩).ending = .ok xs →
      (g.exec fuel ⟨b, ps.flatMap (site before stores), s⟩).outputs.map OutputRecord.cell =
        ts.flatMap Target.cells := by
  induction fuel using Nat.strong_induction_on with
  | _ fuel ih =>
  intro b ps s xs hps hs hrun
  cases ps with
  | nil => cases fuel <;> cases hrun
  | cons p ps =>
    obtain ⟨c, hp⟩ := hps p List.mem_cons_self
    have hrest : ∀ q ∈ ps, ∃ c, q ∈ f.blockInstrs c := fun q hq => hps q (List.mem_cons_of_mem p hq)
    rw [List.flatMap_cons] at hrun ⊢
    have hmem : p ∈ f.instrs :=
      h.consistent.mem_instrs.mpr (Function.instr?_of_mem_blockInstrs hp)
    cases h.fate hmem with
    | store o t width start next ho hreads hs' hid hindexed hnext htyped hdefines hcode =>
      -- the code that stands for an output store writes to a slot only
      have hfresh := t.fresh_storing o width next
      rw [site_of_store hreads ho hcode] at hrun ⊢
      obtain ⟨s', k, hline, hfuel, hexec⟩ := Function.line_of_exec hfresh.straight_instrs hrun
      have hs' := hfresh.outputs_line hline (t.callee?_storing o width next)
      have hpos : 0 < ((t.storing o width next).map Draft.instr).length := by
        simp [Scratch.storing]
      rw [hexec] at hrun ⊢
      exact ih k (by omega) hrest (hs'.trans hs) hrun
    | ret start next hkept hret hcols hnext htyped hdefines hcode =>
      -- the flushes are the only code that stores to the outputs, and the run ends after them
      rw [site_of_kept hkept hcode, List.append_assoc] at hrun ⊢
      have hstraight := (Scratch.fresh_flush (Scratch.cellsOf (Scratch.allot f.nextValue ts))
        next).straight_instrs
      obtain ⟨s', k, hline, -, hexec⟩ := Function.line_of_exec hstraight hrun
      have hcells := Scratch.cells_of_line_flush (h.storable hcols) hline
      rw [hs, Scratch.map_cell_cellsOf] at hcells
      rw [hexec, List.singleton_append] at hrun ⊢
      rw [Function.outputs_of_exec_return hret hrun]
      exact hcells
    | other hkept hret hop hcode =>
      rw [site_of_other hkept hcode, List.singleton_append] at hrun ⊢
      cases fuel with
      | zero => cases hrun
      | succ k =>
        cases ht : p.2.isTerminator with
        | false =>
          obtain ⟨e, he, hexec⟩ := Function.exec_cons_of_ok ht hrun
          rw [hexec] at hrun ⊢
          have hname : p.2.callsIntrinsic = false := by
            cases hc : p.2.callsIntrinsic with
            | false => rfl
            | true =>
              have hsome := hcalls p hmem hc
              rw [hop] at hsome
              cases hsome
          have hs' := Machine.outputs_apply_of_not_intrinsic hname ht he
          exact ih k (Nat.lt_succ_self k) hrest (hs'.trans hs) hrun
        | true =>
          obtain ⟨target, bs, hexec⟩ := Function.exec_branch_of_ok ht hret hrun
          rw [hexec] at hrun ⊢
          obtain ⟨s', k', hle, hs', henter⟩ := h.enter hrun
          rw [henter] at hrun ⊢
          rw [Machine.outputs_bindAll] at hs'
          exact ih k' (by omega) (fun q hq => ⟨target, hq⟩) (hs'.trans hs) hrun

theorem cells_of_evaluate
    (hcalls : ∀ p ∈ f.instrs, p.2.callsIntrinsic = true → (f.storeOpcode? p.2).isSome = true)
    {args : List Value} {e : Execution} (he : g.evaluate args = .ok e) :
    e.outputs.map OutputRecord.cell = ts.flatMap Target.cells := by
  obtain ⟨xs, hxs, rfl⟩ := map_eq_ok.mp he
  unfold Function.run at hxs ⊢
  split at hxs
  · cases hxs
  · next blk rest hblocks =>
    unfold Function.start at hxs ⊢
    obtain ⟨s, k, -, hs, henter⟩ := h.enter hxs
    rw [henter] at hxs ⊢
    rw [Machine.outputs_bindAll] at hs
    exact h.cells_of_exec hcalls (fun p hp => ⟨.entry, hp⟩) hs hxs

end Preserve.Redirected

namespace Preserve

/-- If all calls of intrinsics are output stores, then every run of the redirected function
that ends shows the components of the written elements in order, each of them once. -/
theorem outputs_stored_once {f : Function} {m : Metadata} (hf : f.Made) (hv : f.Numbered)
    (hcalls : ∀ p ∈ f.instrs, p.2.callsIntrinsic = true → (f.storeOpcode? p.2).isSome = true)
    (hrun : (run f m).verdict = .ok true) :
    ∃ ts, Target.Written f m ts ∧ ∀ args e, (run f m).func.evaluate args = .ok e →
      e.outputs.map OutputRecord.cell = ts.flatMap Target.cells ∧
      ∀ c, e.writeCounts[c]? = if c ∈ ts.flatMap Target.cells then some 1 else none := by
  obtain ⟨stores, ts, before, w, h⟩ := exists_redirected hf.consistent hv hrun
  refine ⟨ts, h.written, fun args e he => ?_⟩
  have hcells := h.cells_of_evaluate hcalls he
  refine ⟨hcells, fun c => ?_⟩
  have hcounts := Execution.getElem?_writeCounts e.outputs e.returned c
  rw [hcells] at hcounts
  rw [hcounts]
  split
  · next hc => rw [List.count_eq_one_of_mem h.nodup_cells hc]
  · rfl

/-- A function that stores one of the two components of an output is made to store both. -/
theorem sparse_stored_once :
    (∃ ts, Target.Written sparse sparseMetadata ts ∧
      ∀ args e, (run sparse sparseMetadata).func.evaluate args = .ok e →
        e.outputs.map OutputRecord.cell = ts.flatMap Target.cells ∧
        ∀ c, e.writeCounts[c]? = if c ∈ ts.flatMap Target.cells then some 1 else none) ∧
    ((run sparse sparseMetadata).func.evaluate []).toOption.map
      (fun e => e.outputs.map OutputRecord.cell) =
        some [⟨.storeOutput, 0, 0, 0⟩, ⟨.storeOutput, 0, 0, 1⟩] :=
  ⟨outputs_stored_once made_sparse (by decide) (by decide) rfl, by decide +kernel⟩

end Preserve

end ShaderIR
