import ShaderIR.Proofs.Machine.Trace
import ShaderIR.Proofs.Preserve.Once
import ShaderIR.Proofs.Preserve.Simulation

/-!
# Redirection keeps what is computed

A run of the redirected function goes the way of the run of the function. It returns the same
values, and stores each component of a written element to the output as the other run did
last, unless it runs out of steps on the way. Only the numbers of slots are not the same: the
slots of the written elements come first.
-/

set_option autoImplicit false

namespace ShaderIR

namespace Preserve

/-- Every component of the written elements, as an execution has left it. -/
def completed (ts : List Target) (e : Execution) : List OutputRecord :=
  ts.flatMap fun t => t.element.positions.map fun p =>
    t.record p ((e.lastStored (t.cell p).place).shift ts.length)

/-- The redirected run has run out of steps, or ends as the run of the function does. -/
def Completes (ts : List Target) (xs : List Value) (r r' : RunResult) : Prop :=
  r'.ending = .error (.error (.unsupported .stepLimit)) ∨
    r' = ⟨completed ts ⟨r.outputs, xs⟩, .ok (xs.map (Value.shift ts.length))⟩

namespace Redirected

variable {f : Function} {m : Metadata} {stores : List OutputStore} {ts : List Target}
  {before : InstrId → List (InstrId × Instr)} {w g : Function}
  (h : Redirected f m stores ts before w g)
include h

theorem step_flush {s u : Machine} (hsim : Simulates f (Scratch.allot f.nextValue ts) s u)
    (hcols : ∀ t ∈ ts, t.element.cols ≤ Element.columnLimit) {next : Nat}
    (hnext : f.nextValue + ts.length ≤ next)
    (htyped : g.Typed (Scratch.flush (Scratch.cellsOf (Scratch.allot f.nextValue ts)) next).1)
    (xs : List Value) :
    ∃ u', g.line u ((Scratch.flush (Scratch.cellsOf (Scratch.allot f.nextValue ts)) next).1.map
        Draft.instr) = .ok u' ∧
      Machine.Shifted ts.length f.nextValue s u' ∧
      u'.outputs.toList = completed ts ⟨s.outputs.toList, xs⟩ := by
  have hlen := length_allot f.nextValue ts
  have hloaded : ∀ c ∈ Scratch.cellsOf (Scratch.allot f.nextValue ts), c.1.Loaded g u next c.2
      ((Execution.lastStored ⟨s.outputs.toList, xs⟩ (c.1.target.cell c.2).place).shift
        ts.length) := by
    intro c hc
    have hstorable := h.storable hcols c hc
    obtain ⟨t, ht, hc⟩ := List.mem_flatMap.mp hc
    obtain ⟨p, hp, rfl⟩ := List.mem_map.mp hc
    obtain ⟨i, hi⟩ := List.mem_iff_getElem?.mp ht
    have hcell := hsim.cells i t hi p hp
    rw [hlen] at hcell
    exact ⟨hp, h.size_lt ht, hstorable, h.typeOf?_slot ht,
      Nat.lt_of_lt_of_le (slot_index ht).2 hnext, i, hsim.pointers i t hi, hcell⟩
  obtain ⟨u', hline, hslots, houtputs⟩ := Scratch.line_flush hloaded htyped
  have hshifted := hsim.shifted
  rw [hlen] at hshifted
  refine ⟨u', hline, ⟨fun v hv => ?_, fun j => ?_, ?_⟩, ?_⟩
  · rw [(Scratch.fresh_flush _ next).values_line hline (by omega)]
    exact hshifted.values v hv
  · rw [hslots]
    exact hshifted.slots j
  · rw [hslots]
    exact hshifted.size
  · rw [houtputs, hsim.outputs, Array.toList_empty, List.nil_append, completed]
    conv_rhs => rw [← Scratch.map_target_allot f.nextValue ts]
    rw [Scratch.cellsOf, List.map_flatMap, List.flatMap_map]
    refine List.flatMap_congr fun t _ => ?_
    rw [List.map_map, List.length_map, hlen]
    rfl

theorem completes_return {p : InstrId × Instr} (hp : p ∈ f.instrs) (hret : p.2.isReturn = true)
    {s u : Machine} (hsim : Simulates f (Scratch.allot f.nextValue ts) s u)
    (hcols : ∀ t ∈ ts, t.element.cols ≤ Element.columnLimit) {next : Nat}
    (hnext : f.nextValue + ts.length ≤ next)
    (htyped : g.Typed (Scratch.flush (Scratch.cellsOf (Scratch.allot f.nextValue ts)) next).1)
    {fuel k : Nat} {b : BlockId} {rest rest' : List Instr} {xs : List Value}
    (hrun : (f.exec (fuel + 1) ⟨b, p.2 :: rest, s⟩).ending = .ok xs) :
    Completes ts xs (f.exec (fuel + 1) ⟨b, p.2 :: rest, s⟩)
      (g.exec k ⟨b, (Scratch.flush (Scratch.cellsOf (Scratch.allot f.nextValue ts)) next).1.map
        Draft.instr ++ ([p.2] ++ rest'), u⟩) := by
  obtain ⟨e, he⟩ := Function.effect_of_exec hrun
  obtain ⟨values, ys, hins, hys, rfl⟩ := Machine.effect_return hret he
  rw [Function.exec_ret he] at hrun ⊢
  cases hrun
  obtain ⟨u', hline, hshifted, houtputs⟩ := h.step_flush hsim hcols hnext htyped xs
  rcases Function.exec_line_cases (Scratch.fresh_flush _ next).straight_instrs hline k b
    ([p.2] ++ rest') with hstop | ⟨k', hexec⟩
  · exact Or.inl hstop
  · rw [hexec]
    cases k' with
    | zero => exact Or.inl rfl
    | succ k' =>
      have hops := h.numbered.operand p hp
      rw [hins] at hops
      have hret' : u'.effect g p.2 = .ok (.ret (xs.map (Value.shift ts.length))) := by
        rw [hins]
        exact bind_eq_ok.mpr ⟨_, hshifted.getAll hops hys, rfl⟩
      right
      rw [List.singleton_append, Function.exec_ret hret', houtputs]

theorem exists_run_eq (args : List Value) : ∃ blk ∈ f.blocks,
    f.run args = f.exec Function.stepLimit ⟨.entry, f.code .entry,
      Machine.initial.bindAll (blk.paramIds.zip args)⟩ ∧
    g.run args = g.exec Function.stepLimit ⟨.entry, g.code .entry,
      Machine.initial.bindAll (blk.paramIds.zip args)⟩ := by
  obtain ⟨blk, rest, hblocks, -, -⟩ := h.exists_entry
  obtain ⟨blk', rest', hblocks', hparams⟩ : ∃ blk' rest', g.blocks = blk' :: rest' ∧
      blk'.paramIds = blk.paramIds := by
    have hsame := h.blocks
    rw [hblocks, List.map_cons, List.map_eq_cons_iff] at hsame
    obtain ⟨blk', rest', hblocks', heq, -⟩ := hsame
    exact ⟨blk', rest', hblocks', congrArg (fun b => b.params.map BlockParam.id) heq⟩
  refine ⟨blk, hblocks ▸ List.mem_cons_self, ?_, ?_⟩
  · rw [Function.run, hblocks]
    rfl
  · rw [Function.run, hblocks', ← hparams]
    rfl

section Runs

variable (hf : f.Valid) (hentry : ∀ p ∈ f.instrs, BlockId.entry ∉ p.2.successors)
  (hfixed : ∀ p ∈ f.instrs, p.2.callsIntrinsic = true →
    ∀ v ∈ p.2.operands.take 2, ∃ n, f.Fixed v n)
include hf hentry hfixed

/-- The heart of the matter: both runs go the same way, and their states stay alike. -/
theorem exec_completes {fuel : Nat} {k : Nat} {b : BlockId} {ps : List (InstrId × Instr)}
    {s u : Machine} {xs : List Value} (hps : ∀ p ∈ ps, p ∈ f.instrs) (hs : s.Sourced f)
    (hsim : Simulates f (Scratch.allot f.nextValue ts) s u)
    (hrun : (f.exec fuel ⟨b, ps.map Prod.snd, s⟩).ending = .ok xs)
    (hrange : ∀ r ∈ (f.exec fuel ⟨b, ps.map Prod.snd, s⟩).outputs,
      ∀ t ∈ ts, t.id = r.id → r.Within t.element) :
    Completes ts xs (f.exec fuel ⟨b, ps.map Prod.snd, s⟩)
      (g.exec k ⟨b, ps.flatMap (site before stores), u⟩) := by
  induction fuel generalizing k b ps s u with
  | zero => cases ps <;> cases hrun
  | succ fuel ih =>
    cases ps with
    | nil => cases hrun
    | cons p ps =>
      have hp := hps p List.mem_cons_self
      have hrest : ∀ q ∈ ps, q ∈ f.instrs := fun q hq => hps q (List.mem_cons_of_mem p hq)
      rw [List.map_cons] at hrun hrange ⊢
      rw [List.flatMap_cons]
      obtain ⟨e, he⟩ := Function.effect_of_exec hrun
      cases h.fate hp with
      | store o t width start next ho hreads ht hid hindexed hnext htyped hdefines hcode =>
        obtain ⟨n, c, x, rfl, hrow, hcolumn, hvalue⟩ :=
          hreads.effect h.consistent hf (hfixed p hp hreads.callsIntrinsic) hs he
        rw [Function.exec_cons hreads.isTerminator_eq_false he] at hrun hrange ⊢
        have hrecord : (⟨o.opcode, o.id, n, c, x⟩ : OutputRecord).Within t.element :=
          hrange _ (Function.mem_outputs_exec (Array.mem_push_self)) _
            (Scratch.target_mem_of_mem_allot ht) hid
        obtain ⟨u', hline, hsim'⟩ := h.step_storing hsim hf hs ho ht hid hindexed hnext htyped
          (r := ⟨o.opcode, o.id, n, c, x⟩) rfl hrow hcolumn hvalue hrecord
        rw [site_of_store hreads ho hcode]
        rcases Function.exec_line_cases (t.fresh_storing o width next).straight_instrs hline k b
          (ps.flatMap (site before stores)) with hstop | ⟨k', hexec⟩
        · exact Or.inl hstop
        · rw [hexec]
          exact ih hrest (hs.apply hp he) hsim' hrun hrange
      | ret start next hkept hret hcols hnext htyped hdefines hcode =>
        rw [site_of_kept hkept hcode, List.append_assoc]
        exact h.completes_return hp hret hsim hcols hnext htyped hrun
      | other hkept hret hop hcode =>
        have hcall := OutputStore.callee?_eq_none_of_effect h.consistent hf hop (hfixed p hp) hs he
        obtain ⟨heffect, hsim'⟩ := h.step hf hp hs hsim hcall he
        rw [site_of_other hkept hcode, List.singleton_append]
        cases k with
        | zero => exact Or.inl rfl
        | succ k =>
          cases ht : p.2.isTerminator with
          | false =>
            rw [Function.exec_cons ht he] at hrun hrange ⊢
            rw [Function.exec_cons ht heffect]
            exact ih hrest (hs.apply hp he) hsim' hrun hrange
          | true =>
            obtain ⟨target, args, hjump, hmem⟩ := Machine.effect_branch ht hret he
            obtain ⟨blk, ys, hblk, -, rfl⟩ := Machine.jump_eq_ok.mp hjump
            have hne : target ≠ .entry := fun heq =>
              hentry p hp (heq ▸ Instr.mem_successors_of_branches hmem)
            rw [Function.exec_jump he] at hrun hrange ⊢
            rw [Function.exec_jump heffect, h.code, if_neg hne, List.nil_append]
            refine ih (fun q hq => ?_) (hs.apply hp he) hsim' hrun hrange
            exact h.consistent.mem_instrs.mpr (Function.instr?_of_mem_blockInstrs hq)

theorem run_completes {args xs : List Value} (hargs : ∀ x ∈ args, x.isPointer = false)
    (hrun : (f.run args).ending = .ok xs)
    (hrange : ∀ r ∈ (f.run args).outputs, ∀ t ∈ ts, t.id = r.id → r.Within t.element) :
    Completes ts xs (f.run args) (g.run args) := by
  obtain ⟨blk, hblk, heq, heq'⟩ := h.exists_run_eq args
  rw [heq] at hrun hrange ⊢
  rw [heq']
  have hbs : ∀ b ∈ blk.paramIds.zip args, b.2.isPointer = false := fun b hb =>
    hargs b.2 (List.of_mem_zip hb).2
  obtain ⟨u, hline, hsim⟩ := h.simulates_start hbs
  have hsourced : (Machine.initial.bindAll (blk.paramIds.zip args)).Sourced f :=
    (Machine.sourced_initial f).bindAll hblk fun b hb => (List.of_mem_zip hb).1
  rw [h.code, if_pos rfl]
  rcases Function.exec_line_cases (Scratch.fresh_alloca f.nextValue ts).straight_instrs hline
    Function.stepLimit .entry ((f.blockInstrs .entry).flatMap (site before stores))
    with hstop | ⟨k, hexec⟩
  · exact Or.inl hstop
  · rw [hexec]
    exact h.exec_completes hf hentry hfixed
      (fun p hp => h.consistent.mem_instrs.mpr (Function.instr?_of_mem_blockInstrs hp))
      hsourced hsim hrun hrange

end Runs

end Redirected

end Preserve

/-- An output store of the function names the element that the record stores to. -/
def OutputRecord.Named (f : Function) (r : OutputRecord) : Prop :=
  ∃ p ∈ f.instrs, ∃ o, OutputStore.Reads f p o ∧ o.opcode = r.opcode ∧ o.id = r.id

section Named

variable {f : Function} {os : List OutputStore} (hc : f.Consistent) (hf : f.Valid)
  (hall : OutputStore.all f = .ok os)
  (hfixed : ∀ p ∈ f.instrs, p.2.callsIntrinsic = true →
    ∀ v ∈ p.2.operands.take 2, ∃ n, f.Fixed v n)
include hc hf hall hfixed

theorem OutputRecord.named_apply {p : InstrId × Instr} (hp : p ∈ f.instrs) {s : Machine}
    (hs : s.Sourced f) (hnamed : ∀ r ∈ s.outputs, r.Named f) {e : Effect}
    (he : s.effect f p.2 = .ok e) : ∀ r ∈ (s.apply e).outputs, r.Named f := by
  cases hop : f.storeOpcode? p.2 with
  | none =>
    have hcall := OutputStore.callee?_eq_none_of_effect hc hf hop (hfixed p hp) hs he
    rw [Machine.outputs_apply_of_callee?_none he hcall]
    exact hnamed
  | some op =>
    obtain ⟨o, -, hr⟩ := OutputStore.exists_store hall hp hop
    obtain ⟨n, c, x, rfl, -⟩ := hr.effect hc hf (hfixed p hp hr.callsIntrinsic) hs he
    intro r hmem
    rcases Array.mem_push.mp hmem with hmem | rfl
    · exact hnamed r hmem
    · exact ⟨p, hp, o, hr, rfl, rfl⟩

theorem OutputRecord.named_of_evaluate {args : List Value} {e : Execution}
    (he : f.evaluate args = .ok e) : ∀ r ∈ e.outputs, r.Named f := by
  obtain ⟨xs, hxs, rfl⟩ := map_eq_ok.mp he
  unfold Function.run at hxs ⊢
  split at hxs
  · cases hxs
  · next entry rest hblocks =>
    obtain ⟨cs, d, ins, htrace, -, -, -, -, heq⟩ := Function.trace_of_exec hxs
    have hd : f.At d ∧ d.machine.Sourced f ∧ ∀ r ∈ d.machine.outputs, r.Named f := by
      refine htrace.invariant
        (P := fun c => f.At c ∧ c.machine.Sourced f ∧ ∀ r ∈ c.machine.outputs, r.Named f)
        ⟨f.at_start entry args, Function.sourced_start hblocks args, ?_⟩ ?_
      · intro r hr
        rw [Function.start, Machine.outputs_bindAll] at hr
        cases (Array.mem_toList_iff.mpr hr : r ∈ [])
      · rintro a - b ⟨hat, hs, hnamed⟩ hn
        obtain ⟨ins, e, hi, heffect, hb⟩ := Function.effect_of_next? hn
        obtain ⟨i, hp⟩ := hat.exists_mem hc hi
        refine ⟨hat.next? hn, ?_⟩
        rw [hb]
        exact ⟨hs.apply hp heffect, named_apply hc hf hall hfixed hp hs hnamed heffect⟩
    rw [heq]
    exact fun r hr => hd.2.2 r (Array.mem_toList_iff.mp hr)

end Named

/-- Where the kinds are right, a record has the opcode of the written element with its number, and
that is its own signature's. -/
theorem Target.Written.of_named {f : Function} {m : Metadata} {ts : List Target}
    (h : Target.Written f m ts) (ha : m.Aligned) {r : OutputRecord} (hr : r.Named f) {t : Target}
    (ht : t ∈ ts) (hid : t.id = r.id) :
    t.opcode = r.opcode ∧ (m.signature r.opcode).element? r.id = some t.element := by
  obtain ⟨p, hp, o, hreads, hop, hoid⟩ := hr
  obtain ⟨u, hu, huid, huop, hnamed⟩ := h.exists_of_reads ha hp hreads
  obtain rfl : t = u := h.eq_of_id ht hu (by rw [hid, huid, hoid])
  rw [← hop, ← hoid]
  exact ⟨huop, (OutputStore.target?_eq_some.mp hnamed).2.2⟩

namespace Preserve

/-- Let no branch go back to the entry, let the opcode and the element of every call of an
intrinsic be constants, and let a run without pointers as arguments stay within the elements.
The redirected function then stores each component of a written element as the run did last,
and returns the same values, unless it runs out of steps. In both, pointers are shifted by
the slots of the written elements. Where the kinds of the signatures are right, a record stores
to the element of its own signature, and the last values are those of the table of final writes. -/
theorem evaluate_run {f : Function} {m : Metadata} (hf : f.Made) (hv : f.Numbered)
    (hvalid : f.validate = .ok ()) (hentry : ∀ p ∈ f.instrs, BlockId.entry ∉ p.2.successors)
    (hfixed : ∀ p ∈ f.instrs, p.2.callsIntrinsic = true →
      ∀ v ∈ p.2.operands.take 2, ∃ n, f.Fixed v n)
    (hrun : (run f m).verdict = .ok true) :
    ∃ ts, Target.Written f m ts ∧ ∀ args e, (∀ x ∈ args, x.isPointer = false) →
      f.evaluate args = .ok e →
      (m.Aligned → (∀ r ∈ e.outputs, ∀ t ∈ ts, t.id = r.id →
          t.opcode = r.opcode ∧ (m.signature r.opcode).element? r.id = some t.element) ∧
        ∀ t ∈ ts, ∀ p, e.lastStored (t.cell p).place = e.lastWritten (t.cell p)) ∧
      ((∀ r ∈ e.outputs, ∀ t ∈ ts, t.id = r.id → r.Within t.element) →
        (run f m).func.evaluate args = .error (.error (.unsupported .stepLimit)) ∨
          (run f m).func.evaluate args =
            .ok ⟨completed ts e, e.returned.map (Value.shift ts.length)⟩) := by
  obtain ⟨stores, ts, before, w, h⟩ := exists_redirected hf.consistent hv hrun
  have hf' := Function.validate_eq_ok.mp hvalid
  refine ⟨ts, h.written, fun args e hargs he => ⟨fun ha => ?_, fun hrange => ?_⟩⟩
  · have hnamed := OutputRecord.named_of_evaluate hf.consistent hf' h.read hfixed he
    have hown := fun r hr t ht hid => h.written.of_named ha (hnamed r hr) (t := t) ht hid
    exact ⟨hown, fun t ht p => Execution.lastStored_eq_lastWritten e.outputs e.returned
      fun r hr hid => (hown r hr t ht hid.symm).1.symm⟩
  · obtain ⟨xs, hxs, rfl⟩ := map_eq_ok.mp he
    have hcompletes := h.run_completes hf' hentry hfixed hargs hxs hrange
    rw [Function.evaluate]
    rcases hcompletes with hstop | heq
    · left
      rw [hstop]
      rfl
    · right
      rw [heq]
      rfl

/-- Stores the first of the two components of an output, and returns a pointer to its slot. -/
def escapingCommands : List Builder.Command :=
  [.createBlock none, .setCurrent ⟨0⟩, .fresh, .push (.alloca ⟨0⟩ .i32 none) (some (.pointer .i32)),
    .constInt 5 .i32, .constInt 0 .i32, .constInt 0 .i32, .constInt 0 .i8, .constInt 7 .i32,
    .call "dx.op.storeOutput.i32" [⟨1⟩, ⟨2⟩, ⟨3⟩, ⟨4⟩, ⟨5⟩], .ret [⟨0⟩]]

def escaping : Function :=
  match ((Builder.new "main" [] .void).run escapingCommands).2 with
  | .ok s => s.func
  | .error _ => .empty "main" [] .void

theorem made_escaping : escaping.Made := by
  have hrun : ((Builder.new "main" [] .void).run escapingCommands).2 =
      .ok ⟨escaping, some ⟨0⟩⟩ := rfl
  exact .build (Prod.ext rfl hrun) rfl

theorem fixed_escaping : ∀ p ∈ escaping.instrs, p.2.callsIntrinsic = true →
    ∀ v ∈ p.2.operands.take 2, ∃ n, escaping.Fixed v n := by
  have hops : ∀ p ∈ escaping.instrs, p.2.callsIntrinsic = true →
      p.2.operands.take 2 = [⟨1⟩, ⟨2⟩] := by decide
  intro p hp hcall v hv
  rw [hops p hp hcall] at hv
  rcases List.mem_cons.mp hv with rfl | hv
  · exact ⟨5, ⟨1⟩, .i32, 32, rfl, rfl, by decide, by decide⟩
  · cases List.mem_singleton.mp hv
    exact ⟨0, ⟨2⟩, .i32, 32, rfl, rfl, by decide, by decide⟩

theorem exists_evaluate_escaping : ∃ e, escaping.evaluate [] = .ok e ∧
    (∀ r ∈ e.outputs, ∀ el, (sparseMetadata.signature r.opcode).element? r.id = some el →
      r.Within el) ∧
    e.returned.map Value.text = ["&slot0[0]"] ∧
    (e.lastWritten ⟨.storePatchConstant, 0, 0, 0⟩).text = "undef" := by
  have hrun : (escaping.evaluate []).toOption.map
      (fun e => (e.outputs.map OutputRecord.cell, e.returned.map Value.text,
        (e.lastWritten ⟨.storePatchConstant, 0, 0, 0⟩).text)) =
        some ([⟨.storeOutput, 0, 0, 0⟩], ["&slot0[0]"], "undef") := by decide +kernel
  obtain ⟨e, he, hshown⟩ := toOption_map_eq_some.mp hrun
  obtain ⟨hcells, htexts⟩ := Prod.mk.inj hshown
  refine ⟨e, he, fun r hr element hel => ?_, Prod.mk.inj htexts⟩
  have hcell : r.cell ∈ e.outputs.map OutputRecord.cell := List.mem_map_of_mem hr
  rw [hcells, List.mem_singleton] at hcell
  obtain ⟨op, id, row, column, x⟩ := r
  cases hcell
  cases hel
  show 0 ≤ (0 : Int64).toInt ∧ (0 : Int64).toInt < (1 : Nat) ∧
    0 ≤ (0 : Int64).toInt ∧ (0 : Int64).toInt < (2 : Nat)
  decide

theorem texts_run_escaping : ((run escaping sparseMetadata).func.evaluate []).toOption.map
    (fun e => (e.outputs.map OutputRecord.text, e.returned.map Value.text)) =
      some (["storeOutput: sig 0 [0][0] = 7", "storeOutput: sig 0 [0][1] = undef"],
        ["&slot1[0]"]) := by
  decide +kernel

theorem texts_run_crossed : ((run escaping crossedMetadata).func.evaluate []).toOption.map
    (fun e => e.outputs.map fun r => (r.cell, r.value.text)) =
      some [(⟨.storePatchConstant, 0, 0, 0⟩, "7"), (⟨.storePatchConstant, 0, 0, 1⟩, "undef")] := by
  decide +kernel

theorem evaluate_run_escaping : ∃ ts e, Target.Written escaping sparseMetadata ts ∧
    escaping.evaluate [] = .ok e ∧
    (∀ t ∈ ts, ∀ p, e.lastStored (t.cell p).place = e.lastWritten (t.cell p)) ∧
    (run escaping sparseMetadata).func.evaluate [] =
      .ok ⟨completed ts e, e.returned.map (Value.shift ts.length)⟩ := by
  obtain ⟨ts, hts, hall⟩ := evaluate_run made_escaping (m := sparseMetadata) (by decide) rfl
    (by decide) fixed_escaping rfl
  obtain ⟨e, he, hrange, -, -⟩ := exists_evaluate_escaping
  obtain ⟨haligned, heval⟩ := hall [] e (fun x hx => absurd hx List.not_mem_nil) he
  obtain ⟨hown, hlast⟩ := haligned made_sparseMetadata.aligned
  refine ⟨ts, e, hts, he, hlast, ?_⟩
  rcases heval fun r hr t ht hid => hrange r hr t.element (hown r hr t ht hid).2 with hstop | heq
  · have htexts := texts_run_escaping
    rw [hstop] at htexts
    cases htexts
  · exact heq

/-- The pointer does not stay the same: its slot comes behind that of the output now. And with the
output in a signature of the other kind, a component is stored to a cell that was not written. -/
theorem escaping_changed : escaping.Made ∧ escaping.Numbered ∧ escaping.validate = .ok () ∧
    (∀ p ∈ escaping.instrs, BlockId.entry ∉ p.2.successors) ∧
    (∀ p ∈ escaping.instrs, p.2.callsIntrinsic = true →
      ∀ v ∈ p.2.operands.take 2, ∃ n, escaping.Fixed v n) ∧
    (run escaping sparseMetadata).verdict = .ok true ∧
    (run escaping crossedMetadata).verdict = .ok true ∧
    ∃ e, escaping.evaluate [] = .ok e ∧
      ((∀ r ∈ e.outputs, ∀ el, (sparseMetadata.signature r.opcode).element? r.id = some el →
          r.Within el) ∧
        ∃ e', (run escaping sparseMetadata).func.evaluate [] = .ok e' ∧ e'.returned ≠ e.returned) ∧
      (∀ r ∈ e.outputs, ∀ el, (crossedMetadata.signature r.opcode).element? r.id = some el →
          r.Within el) ∧
        ∃ e', (run escaping crossedMetadata).func.evaluate [] = .ok e' ∧
          ∃ r ∈ e'.outputs, r.value ≠ e.lastWritten r.cell := by
  obtain ⟨e, he, hrange, hreturned, hlast⟩ := exists_evaluate_escaping
  refine ⟨made_escaping, by decide, rfl, by decide, fixed_escaping, rfl, rfl, e, he,
    ⟨hrange, ?_⟩, fun r hr el hel => hrange r hr el ?_, ?_⟩
  · obtain ⟨e', he', htexts⟩ := toOption_map_eq_some.mp texts_run_escaping
    obtain ⟨-, hreturned'⟩ := Prod.mk.inj htexts
    refine ⟨e', he', fun heq => ?_⟩
    rw [heq, hreturned] at hreturned'
    revert hreturned'
    decide
  · rw [← hel]
    cases r.opcode <;> rfl
  · obtain ⟨e', he', htexts⟩ := toOption_map_eq_some.mp texts_run_crossed
    obtain ⟨r, rs, houtputs, hr, -⟩ := List.map_eq_cons_iff.mp htexts
    obtain ⟨hcell, hvalue⟩ := Prod.mk.inj hr
    refine ⟨e', he', r, houtputs ▸ List.mem_cons_self, fun heq => ?_⟩
    rw [heq, hcell, hlast] at hvalue
    revert hvalue
    decide

end Preserve

end ShaderIR
