import ShaderIR.Proofs.Preserve.Declared
import ShaderIR.Proofs.Preserve.Growth

/-!
# What an error leaves behind

An error about the output stores, or about the elements that they name, is found before anything
is changed. An error about an index, or about the shape of an element, is found on the way: then
the function has gained instructions and lost none, and the intrinsics have been added to. Which
of the two it is shows in the error.
-/

set_option autoImplicit false

namespace ShaderIR

namespace PassError

/-- The errors about the output stores of a function and the elements that they name. -/
inductive OfStores (func : String) : PassError → Prop
  | operandCount (op : OpCode) (count : Nat) :
      OfStores func (.unsupportedShader func (.operandCount op count))
  | variableId (op : OpCode) : OfStores func (.unsupportedShader func (.variableId op))
  | idOutOfRange (op : OpCode) (id : Int64) :
      OfStores func (.unsupportedShader func (.idOutOfRange op id))
  | sharedId (first second : OpCode) (id : Nat) :
      OfStores func (.unsupportedShader func (.sharedId first second id))
  | unknownElement (signature : String) (id : Nat) :
      OfStores func (.unknownSignatureElement func signature id)

/-- The errors about the indices of output stores and the shapes of elements. -/
inductive OfShape (func : String) : PassError → Prop
  | row (v : ValueId) (element : String) :
      OfShape func (.unsupportedShader func (.rowNotInteger v element))
  | column (v : ValueId) (element : String) :
      OfShape func (.unsupportedShader func (.columnNotInteger v element))
  | width (bits : Nat) : OfShape func (.indexWidthMismatch func bits)
  | columns (element : String) : OfShape func (.unsupportedShader func (.tooManyColumns element))

inductive OfIndex (func : String) : PassError → Prop
  | row (v : ValueId) (element : String) :
      OfIndex func (.unsupportedShader func (.rowNotInteger v element))
  | column (v : ValueId) (element : String) :
      OfIndex func (.unsupportedShader func (.columnNotInteger v element))
  | width (bits : Nat) : OfIndex func (.indexWidthMismatch func bits)

theorem OfIndex.ofShape {func : String} {e : PassError} (h : OfIndex func e) : OfShape func e := by
  cases h with
  | row v element => exact .row v element
  | column v element => exact .column v element
  | width bits => exact .width bits

theorem OfStores.not_ofShape {func : String} {e : PassError} (h : OfStores func e) :
    ¬OfShape func e := by
  intro h'
  cases h <;> cases h'

end PassError

theorem OutputStore.error_of_ofCall {f : Function} {i : InstrId} {op : OpCode}
    {args : List ValueId} {e : PassError} (h : ofCall f i op args = .error e) :
    e.OfStores f.name := by
  unfold ofCall at h
  split at h
  · split at h
    · cases h
      exact .variableId op
    · next n _ =>
      split at h
      · cases h
        exact .idOutOfRange op n
      · cases h
  · cases h
    exact .operandCount op _

theorem OutputStore.error_of_all {f : Function} {e : PassError} (h : all f = .error e) :
    e.OfStores f.name := by
  rw [all] at h
  generalize f.instrs = is at h
  induction is with
  | nil => cases h
  | cons p ps ih =>
    obtain ⟨i, ins⟩ := p
    rw [collect] at h
    split at h
    · exact ih h
    · next op _ =>
      cases ho : ofCall f i op ins.operands with
      | error e' =>
        rw [ho] at h
        cases h
        exact error_of_ofCall ho
      | ok o =>
        cases hos : collect f ps with
        | error e' =>
          rw [ho, hos] at h
          cases h
          exact ih hos
        | ok os =>
          rw [ho, hos] at h
          cases h

theorem Target.error_of_collect {func : String} {m : Metadata} {ts : List Target}
    {stores : List OutputStore} {e : PassError} (h : collect func m ts stores = .error e) :
    e.OfStores func := by
  induction stores generalizing ts with
  | nil => cases h
  | cons o rest ih =>
    rw [collect] at h
    split at h
    · next t _ =>
      split at h
      · exact ih h
      · cases h
        exact .sharedId t.opcode o.opcode o.id
    · split at h
      · exact ih h
      · cases h
        exact .unknownElement _ o.id

namespace Scratch

theorem ofIndex_lowerStore {s : Scratch} {f : Function} {o : OutputStore} {e : PassError}
    (h : (s.lowerStore f o).fault = some e) : e.OfIndex f.name := by
  unfold lowerStore at h
  dsimp only at h
  split at h
  · cases h
  · split at h
    · cases h
      exact .row o.row _
    · next width _ =>
      split at h
      · split at h
        · cases h
          exact .column o.column _
        · cases h
      · cases h
        exact .width width

theorem fault_epilogue_eq_some {s : Scratch} {callee func : String} {next : Nat} {e : PassError} :
    (s.epilogue callee func next).fault = some e ↔ Element.columnLimit < s.element.cols ∧
      e = .unsupportedShader func (.tooManyColumns s.element.name) := by
  unfold epilogue
  split
  · next hle => simp [Nat.not_lt.mpr hle]
  · next hlt => simp [Nat.lt_of_not_le hlt, eq_comm]

/-- One of some slots is too wide for an epilogue, and the intrinsic that stores it is declared. -/
def TooWide (slots : List Scratch) (func : String) (m : Metadata) (e : PassError) : Prop :=
  ∃ s ∈ slots, Element.columnLimit < s.element.cols ∧
    e = .unsupportedShader func (.tooManyColumns s.element.name) ∧
    s.target.intrinsic ∈ m.ops.declared

theorem TooWide.ofShape {slots : List Scratch} {func : String} {m : Metadata} {e : PassError}
    (h : TooWide slots func m e) : e.OfShape func := by
  obtain ⟨s, -, -, rfl, -⟩ := h
  exact .columns s.element.name

end Scratch

namespace Function.Grows

variable {f g : Function} (h : f.Grows g) (hg : g.Consistent)
include h hg

theorem error_of_lowerStores {slots : List Scratch} {stores : List OutputStore}
    (hlive : ∀ o ∈ stores, ∃ ins, f.instr? o.call = some ins)
    (hslots : ∀ o ∈ stores, ∃ s ∈ slots, s.target.id = o.id) {u : Function} {e : PassError}
    (hl : ShaderIR.lowerStores slots stores g = (u, some e)) : e.OfIndex f.name := by
  induction stores generalizing g with
  | nil => cases hl
  | cons o rest ih =>
    obtain ⟨ins, hins⟩ := hlive o List.mem_cons_self
    obtain ⟨b, k, hp⟩ := hg.exists_position? (h.extension.instr?_of_some hins)
    obtain ⟨s', hs', hid⟩ := hslots o List.mem_cons_self
    rw [ShaderIR.lowerStores] at hl
    cases hfind : slots.find? fun s => s.target.id == o.id with
    | none =>
      have hno := List.find?_eq_none.mp hfind s' hs'
      simp [hid] at hno
    | some s =>
      simp only [hfind, hp] at hl
      cases hfault : (s.lowerStore g o).fault with
      | some e' =>
        simp only [hfault] at hl
        cases hl
        rw [← h.extension.name]
        exact Scratch.ofIndex_lowerStore hfault
      | none =>
        simp only [hfault] at hl
        exact ih (h.emit b k (s.fresh_lowerStore g o)) (hg.emit_position hp _ _)
          (fun o' ho' => hlive o' (List.mem_cons_of_mem o ho'))
          (fun o' ho' => hslots o' (List.mem_cons_of_mem o ho')) hl

theorem tooWide_of_emitEpilogue {ret : InstrId} {ins : Instr} (hret : f.instr? ret = some ins)
    {slots : List Scratch} {m m' : Metadata} {w : Function} {e : PassError}
    (he : ShaderIR.emitEpilogue ret slots g m = (w, m', some e)) :
    Scratch.TooWide slots f.name m' e := by
  induction slots generalizing g m with
  | nil => cases he
  | cons s rest ih =>
    obtain ⟨b, k, hp⟩ := hg.exists_position? (h.extension.instr?_of_some hret)
    rw [emitEpilogue_cons] at he
    simp only [hp] at he
    cases hfault : (s.epilogue s.target.intrinsic.name g.name g.nextValue).fault with
    | some e' =>
      simp only [hfault] at he
      cases he
      obtain ⟨hwide, heq⟩ := Scratch.fault_epilogue_eq_some.mp hfault
      rw [h.extension.name] at heq
      exact ⟨s, List.mem_cons_self, hwide, heq, OpTable.mem_declare.mpr (Or.inl rfl)⟩
    | none =>
      simp only [hfault] at he
      obtain ⟨s', hs', hwide⟩ := ih (h.emit b k (s.fresh_epilogue g.name g.nextValue))
        (hg.emit_position hp _ _) he
      exact ⟨s', List.mem_cons_of_mem s hs', hwide⟩

theorem tooWide_of_emitEpilogues {slots : List Scratch} {rets : List InstrId}
    (hlive : ∀ i ∈ rets, ∃ ins, f.instr? i = some ins) {m m' : Metadata} {w : Function}
    {e : PassError} (he : ShaderIR.emitEpilogues slots rets g m = (w, m', some e)) :
    Scratch.TooWide slots f.name m' e := by
  induction rets generalizing g m with
  | nil => cases he
  | cons ret rest ih =>
    obtain ⟨ins, hins⟩ := hlive ret List.mem_cons_self
    rw [ShaderIR.emitEpilogues] at he
    rcases hone : ShaderIR.emitEpilogue ret slots g m with ⟨g₁, m₁, _ | e₁⟩
    · simp only [hone] at he
      have hgrown := h.emitEpilogue ret slots m
      have hkept := hg.emitEpilogue ret slots m
      rw [hone] at hgrown hkept
      exact ih hgrown hkept (fun i hi => hlive i (List.mem_cons_of_mem ret hi)) he
    · simp only [hone] at he
      cases he
      exact h.tooWide_of_emitEpilogue hg hins hone

end Function.Grows

namespace Preserve

theorem ruled_eq_error {g : Function} {v : Except (Failure PassError) Bool} {e : PassError}
    (h : ruled g v = .error (.error e)) : v = .error (.error e) := by
  unfold ruled at h
  split at h
  · exact h
  · cases h

namespace Collected

variable {f : Function} {m : Metadata} {stores : List OutputStore} {ts : List Target}
  (h : Collected f m stores ts)
include h

theorem consistent_allocateSlots (hf : f.Consistent) :
    (allocateSlots f (Scratch.allot f.nextValue ts)).Consistent := by
  obtain ⟨blk, hb⟩ := Function.exists_entry h.read h.nonempty
  exact hf.emit hb 0 _ _

theorem live_returns (hf : f.Consistent) (hv : f.Numbered) {u : Function}
    (hl : lowerStores (Scratch.allot f.nextValue ts) stores
      (allocateSlots f (Scratch.allot f.nextValue ts)) = (u, none)) :
    ∀ i ∈ u.returns, ∃ ins, f.instr? i = some ins := by
  obtain ⟨before, hw, -, -, -⟩ := exists_lowered hf hv h.read h.nonempty hl
  intro i hi
  obtain ⟨ins, hins, -⟩ := hf.mem_returns.mp ((hw.mem_returns hf).mp hi)
  exact ⟨ins, hins⟩

theorem error_of_lowerStores (hf : f.Consistent) {u : Function} {e : PassError}
    (hl : lowerStores (Scratch.allot f.nextValue ts) stores
      (allocateSlots f (Scratch.allot f.nextValue ts)) = (u, some e)) : e.OfIndex f.name := by
  refine (grows_allocateSlots f ts).error_of_lowerStores (h.consistent_allocateSlots hf)
    (fun o ho => ?_) (fun o ho => ?_) hl
  · obtain ⟨ins, hins, -⟩ := OutputStore.live_call h.read hf ho
    exact ⟨ins, hins⟩
  · obtain ⟨t, ht, hid, -⟩ := (Target.exists_of_collect h.targets).2 o ho
    rw [← Scratch.map_target_allot f.nextValue ts] at ht
    obtain ⟨s, hs, rfl⟩ := List.mem_map.mp ht
    exact ⟨s, hs, hid⟩

theorem tooWide_of_emitEpilogues (hf : f.Consistent) {u w : Function} {m' : Metadata}
    {e : PassError}
    (hl : lowerStores (Scratch.allot f.nextValue ts) stores
      (allocateSlots f (Scratch.allot f.nextValue ts)) = (u, none))
    (hlive : ∀ i ∈ u.returns, ∃ ins, f.instr? i = some ins)
    (he : emitEpilogues (Scratch.allot f.nextValue ts) u.returns u m = (w, m', some e)) :
    Scratch.TooWide (Scratch.allot f.nextValue ts) f.name m' e := by
  have hgrown := (grows_allocateSlots f ts).lowerStores (Scratch.allot f.nextValue ts) stores
  have hkept := (h.consistent_allocateSlots hf).lowerStores (Scratch.allot f.nextValue ts) stores
  rw [hl] at hgrown hkept
  exact hgrown.tooWide_of_emitEpilogues hkept hlive he

end Collected

/-- The pass fails at reading the output stores, or at looking up the elements that they name. -/
def FailsEarly (f : Function) (m : Metadata) (e : PassError) : Prop :=
  OutputStore.all f = .error e ∨
    ∃ stores, OutputStore.all f = .ok stores ∧ Target.collect f.name m [] stores = .error e

/-- A run has added to a function and to its metadata, and has taken nothing away. -/
structure Gained (f : Function) (m : Metadata) (r : PassRun) : Prop where
  header : r.func.header = f.header
  live : ∀ i ins, f.instr? i = some ins → r.func.instr? i = some ins
  /-- Without the new handles, every block is what it was. -/
  blocks : ∀ b, (r.func.block? b).map (Block.upTo f.arena.size) = f.block? b
  records : ∀ v : ValueId, v.index < f.nextValue ∨ (f.definition? v).isSome = true →
    r.func.definition? v = f.definition? v ∧ r.func.typeOf? v = f.typeOf? v
  outputs : r.metadata.outputs = m.outputs
  patchConstants : r.metadata.patchConstants = m.patchConstants
  declared : m.ops.declared.Sublist r.metadata.ops.declared

theorem index_lt_of_definition? {f : Function} (hf : f.Consistent) (hv : f.Numbered) {v : ValueId}
    (h : (f.definition? v).isSome = true) : v.index < f.nextValue := by
  obtain ⟨d, hd⟩ := Option.isSome_iff_exists.mp h
  cases d with
  | param b =>
    obtain ⟨blk, hb, hmem⟩ := hf.recorded.param v b hd
    exact hv.param blk (List.mem_of_getElem? hb) v hmem
  | result i =>
    obtain ⟨ins, hins, hr⟩ := hf.recorded.result v i hd
    exact hv.result (i, ins) (hf.mem_instrs.mpr hins) v hr

theorem metadata_run (f : Function) (m : Metadata) :
    ∃ is, (run f m).metadata = m.declareAll is := by
  obtain ⟨g, is, events, verdict, hrun, -⟩ := exists_run f m
  exact ⟨is, congrArg PassRun.metadata (hrun m fun _ => rfl)⟩

theorem gained_of_grows {f : Function} {m : Metadata} (hf : f.Consistent) (hv : f.Numbered)
    (h : f.Grows (run f m).func) : Gained f m (run f m) := by
  obtain ⟨is, hmeta⟩ := metadata_run f m
  refine ⟨h.header, fun i ins hi => h.extension.instr?_of_some hi, h.upTo_block? hf,
    fun v hold => ?_, ?_, ?_, ?_⟩
  · have hlt : v.index < f.nextValue := hold.elim id (index_lt_of_definition? hf hv)
    exact ⟨h.extension.definition?_old v hlt, h.extension.typeOf?_old v hlt⟩
  · rw [hmeta]
    exact m.signature_declareAll is .storeOutput
  · rw [hmeta]
    exact m.signature_declareAll is .storePatchConstant
  · rw [hmeta]
    exact m.sublist_declareAll is

theorem run_of_failsEarly {f : Function} {m : Metadata} {e : PassError} (h : FailsEarly f m e) :
    run f m = ⟨f, m, [], .error (.error e)⟩ := by
  rcases h with hall | ⟨stores, hall, hts⟩
  · rw [run, hall]
  · refine run_of_collect_error hall ?_ hts
    rintro rfl
    cases hts

theorem ofStores_of_failsEarly {f : Function} {m : Metadata} {e : PassError}
    (h : FailsEarly f m e) : e.OfStores f.name := by
  rcases h with hall | ⟨stores, -, hts⟩
  · exact OutputStore.error_of_all hall
  · exact Target.error_of_collect hts

/-- The pass breaks off at lowering the output stores, or at the epilogues of the returns. -/
inductive FailsLate (f : Function) (m : Metadata) (e : PassError) : Prop
  | lowering (stores : List OutputStore) (ts : List Target) (h : Collected f m stores ts)
      (hl : lowerStores (Scratch.allot f.nextValue ts) stores
        (allocateSlots f (Scratch.allot f.nextValue ts)) = ((run f m).func, some e))
      (hgrows : (allocateSlots f (Scratch.allot f.nextValue ts)).Grows (run f m).func)
      (hmetadata : (run f m).metadata = m)
  | flushing (stores : List OutputStore) (ts : List Target) (h : Collected f m stores ts)
      (u : Function)
      (hl : lowerStores (Scratch.allot f.nextValue ts) stores
        (allocateSlots f (Scratch.allot f.nextValue ts)) = (u, none))
      (he : emitEpilogues (Scratch.allot f.nextValue ts) u.returns u m =
        ((run f m).func, (run f m).metadata, some e))
      (hgrows : (allocateSlots f (Scratch.allot f.nextValue ts)).Grows (run f m).func)

theorem failsEarly_or_failsLate {f : Function} {m : Metadata} {e : PassError}
    (h : (run f m).verdict = .error (.error e)) : FailsEarly f m e ∨ FailsLate f m e := by
  cases course f m with
  | unread e' hall hrun =>
    rw [hrun] at h
    cases h
    exact Or.inl (Or.inl hall)
  | idle hall hrun =>
    rw [hrun] at h
    cases h
  | unresolved stores e' hall hne hts hrun =>
    rw [hrun] at h
    cases h
    exact Or.inl (Or.inr ⟨stores, hall, hts⟩)
  | unfit stores ts hc hfits hfunc hmetadata hverdict =>
    rw [hverdict] at h
    cases h
  | unlowered stores ts hc hfits u e' hl hgrows hfunc hmetadata hverdict =>
    rw [hverdict] at h
    cases ruled_eq_error h
    rw [← hfunc] at hl hgrows
    exact Or.inr (.lowering stores ts hc hl hgrows hmetadata)
  | unflushed stores ts hc hfits u w m' e' hl he hgrows hfunc hmetadata hverdict =>
    rw [hverdict] at h
    cases ruled_eq_error h
    rw [← hfunc, ← hmetadata] at he
    rw [← hfunc] at hgrows
    exact Or.inr (.flushing stores ts hc u hl he hgrows)
  | done stores ts hc hfits u w m' hl he hgrows hfunc hmetadata hverdict =>
    rw [hverdict] at h
    cases ruled_eq_error h

theorem failsEarly_or_grows {f : Function} {m : Metadata} {e : PassError} (hf : f.Consistent)
    (hv : f.Numbered) (h : (run f m).verdict = .error (.error e)) :
    FailsEarly f m e ∨ e.OfShape f.name ∧ f.Grows (run f m).func := by
  refine (failsEarly_or_failsLate h).imp_right fun hlate => ?_
  cases hlate with
  | lowering stores ts hc hl hgrows hmetadata =>
    exact ⟨(hc.error_of_lowerStores hf hl).ofShape, (grows_allocateSlots f ts).trans hgrows⟩
  | flushing stores ts hc u hl he hgrows =>
    exact ⟨(hc.tooWide_of_emitEpilogues hf hl (hc.live_returns hf hv hl) he).ofShape,
      (grows_allocateSlots f ts).trans hgrows⟩

/-- An error leaves everything in place, and if it is about the output stores or the elements that
they name, nothing at all has changed. -/
theorem gained_of_error {f : Function} {m : Metadata} {e : PassError} (hf : f.Made)
    (hv : f.Numbered) (h : (run f m).verdict = .error (.error e)) :
    (FailsEarly f m e ↔ e.OfStores f.name) ∧
      (FailsEarly f m e → (run f m).func = f ∧ (run f m).metadata = m) ∧
      Gained f m (run f m) := by
  have hunchanged : FailsEarly f m e → (run f m).func = f ∧ (run f m).metadata = m := by
    intro hearly
    rw [run_of_failsEarly hearly]
    exact ⟨rfl, rfl⟩
  rcases failsEarly_or_grows hf.consistent hv h with hearly | ⟨hshape, hgrown⟩
  · refine ⟨iff_of_true hearly (ofStores_of_failsEarly hearly), hunchanged, ?_⟩
    refine gained_of_grows hf.consistent hv ?_
    rw [(hunchanged hearly).1]
    exact .refl
  · have hlate : ¬e.OfStores f.name := fun hstores => hstores.not_ofShape hshape
    exact ⟨iff_of_false (fun hearly => hlate (ofStores_of_failsEarly hearly)) hlate, hunchanged,
      gained_of_grows hf.consistent hv hgrown⟩

/-- Stores at a column that is no integer. -/
def misindexedCommands : List Builder.Command :=
  [.createBlock none, .setCurrent ⟨0⟩, .constInt 5 .i32, .constInt 0 .i32, .constInt 0 .i32, .fresh,
    .push (.undef ⟨3⟩ (.scalar .f32)) (some (.scalar .f32)), .constInt 7 .i32,
    .call "dx.op.storeOutput.i32" [⟨0⟩, ⟨1⟩, ⟨2⟩, ⟨3⟩, ⟨4⟩], .ret []]

def misindexed : Function :=
  match ((Builder.new "main" [] .void).run misindexedCommands).2 with
  | .ok s => s.func
  | .error _ => .empty "main" [] .void

theorem made_misindexed : misindexed.Made := by
  have hrun : ((Builder.new "main" [] .void).run misindexedCommands).2 =
      .ok ⟨misindexed, some ⟨0⟩⟩ := rfl
  exact .build (Prod.ext rfl hrun) rfl

/-- Where the element is declared, the fault is found after its slot and the offset of the row have
been placed; where it is not, before. -/
theorem misindexed_gained :
    ((run misindexed sparseMetadata).verdict =
        .error (.error (.unsupportedShader "main" (.columnNotInteger ⟨3⟩ "A"))) ∧
      (run misindexed sparseMetadata).func.arena.size = misindexed.arena.size + 3 ∧
      Gained misindexed sparseMetadata (run misindexed sparseMetadata)) ∧
    (run misindexed .empty).verdict =
        .error (.error (.unknownSignatureElement "main" "output" 0)) ∧
      (run misindexed .empty).func = misindexed := by
  have hlate : (run misindexed sparseMetadata).verdict =
      .error (.error (.unsupportedShader "main" (.columnNotInteger ⟨3⟩ "A"))) := rfl
  have hearly : (run misindexed .empty).verdict =
      .error (.error (.unknownSignatureElement "main" "output" 0)) := rfl
  obtain ⟨-, -, hgained⟩ := gained_of_error made_misindexed (by decide) hlate
  obtain ⟨hiff, hunchanged, -⟩ := gained_of_error made_misindexed (by decide) hearly
  exact ⟨⟨hlate, rfl, hgained⟩, hearly, (hunchanged (hiff.mpr (.unknownElement "output" 0))).1⟩

end Preserve

end ShaderIR
