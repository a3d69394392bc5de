import ShaderIR.Pass.Pipeline
import ShaderIR.Proofs.Preserve.Declared
import ShaderIR.Proofs.Preserve.Place

/-!
# Functions of a module, one by one

A pipeline hands the metadata from one function to the next. What the pass makes of a function
is still the same as if the function stood alone: neither its place in the module nor the
intrinsics that are declared when its turn comes make a difference.
-/

set_option autoImplicit false

namespace ShaderIR

theorem firstFault?_eq_none {fs : List Function} :
    firstFault? fs = none ↔ ∀ f ∈ fs, f.validate = .ok () := by
  induction fs with
  | nil => exact iff_of_true rfl nofun
  | cons f fs ih =>
    rw [firstFault?, List.forall_mem_cons]
    cases hf : f.validate with
    | error e => simp
    | ok u => simpa using ih

section Singleton

variable {p : Pass} {o : RunOptions} {M : Module}

theorem Pass.result_runOnModule : (p.runOnModule o M).result =
    { M with
      functions := (p.sweep M.functions M.metadataOrEmpty).functions
      metadata := some (p.sweep M.functions M.metadataOrEmpty).metadata } := by
  simp only [Pass.runOnModule]
  split
  · rfl
  · split <;> rfl

theorem Pass.verdict_runOnModule {b : Bool} : (p.runOnModule o M).verdict = .ok b ↔
    (p.sweep M.functions M.metadataOrEmpty).verdict = .ok b ∧ (o.verifyEach = true →
      ∀ f ∈ (p.sweep M.functions M.metadataOrEmpty).functions, f.validate = .ok ()) := by
  simp only [Pass.runOnModule, ← firstFault?_eq_none]
  cases (p.sweep M.functions M.metadataOrEmpty).verdict with
  | error e => simp
  | ok c =>
    cases o.verifyEach with
    | false => simp
    | true => cases firstFault? (p.sweep M.functions M.metadataOrEmpty).functions <;> simp

theorem Pipeline.run_singleton :
    (Pipeline.run ⟨[p]⟩ o M).result = (p.runOnModule o M).result ∧
      (Pipeline.run ⟨[p]⟩ o M).verdict = (p.runOnModule o M).verdict := by
  simp only [Pipeline.run, runPasses]
  cases h : (p.runOnModule o M).verdict with
  | error e => exact ⟨rfl, rfl⟩
  | ok c => exact ⟨rfl, congrArg Except.ok (Bool.or_false c)⟩

end Singleton

namespace Preserve

/-- The pass on a function alone, with nothing declared before. -/
def alone (m : Metadata) (f : Function) : PassRun := run f { m with ops := .empty }

theorem run_of_alike {m m' : Metadata} (h : m'.Alike m) (f : Function) :
    (run f m').func = (alone m f).func ∧ (run f m').verdict = (alone m f).verdict := by
  obtain ⟨g, is, events, verdict, hrun, -⟩ := exists_run f m
  have halone : alone m f = _ := hrun { m with ops := .empty } fun op => by cases op <;> rfl
  rw [hrun m' h, halone]
  exact ⟨rfl, rfl⟩

theorem verdict_sweep {m m' : Metadata} (h : m'.Alike m) {fs : List Function} {b : Bool} :
    (Pass.preserve.sweep fs m').verdict = .ok b ↔
      (∀ f ∈ fs, ∃ c, (alone m f).verdict = .ok c) ∧
        (b = true ↔ ∃ f ∈ fs, (alone m f).verdict = .ok true) := by
  induction fs generalizing m' b with
  | nil => cases b <;> simp [Pass.sweep]
  | cons f fs ih =>
    obtain ⟨g, is, events, verdict, hrun, -⟩ := exists_run f m
    have hverdict := (run_of_alike h f).2
    have hmeta : (run f m').metadata.Alike m := by
      rw [hrun m' h]
      exact Metadata.alike_declareAll h is
    rw [Pass.sweep]
    dsimp only [Pass.run]
    rw [hverdict]
    cases hf : (alone m f).verdict with
    | error e => simp [hf]
    | ok c =>
      simp only [map_eq_ok, List.forall_mem_cons, List.exists_mem_cons_iff, hf, Except.ok.injEq]
      constructor
      · rintro ⟨c', hc', rfl⟩
        obtain ⟨hall, hany⟩ := (ih hmeta).mp hc'
        exact ⟨⟨⟨c, rfl⟩, hall⟩, by rw [Bool.or_eq_true, hany]⟩
      · rintro ⟨⟨-, hall⟩, hany⟩
        obtain ⟨c', hc'⟩ : ∃ c' : Bool, c' = true ↔ ∃ f ∈ fs, (alone m f).verdict = .ok true := by
          classical exact ⟨decide _, decide_eq_true_iff⟩
        refine ⟨c', (ih hmeta).mpr ⟨hall, hc'⟩, ?_⟩
        rw [Bool.eq_iff_iff, Bool.or_eq_true, hc', hany]

/-- What a sweep leaves behind: every function as the pass leaves it alone, and the intrinsics
that the functions declare besides those from before. -/
theorem sweep_of_ok {m m' : Metadata} (h : m'.Alike m) {fs : List Function} {b : Bool}
    (hok : (Pass.preserve.sweep fs m').verdict = .ok b) :
    (Pass.preserve.sweep fs m').functions = fs.map (fun f => (alone m f).func) ∧
      ∃ is, (Pass.preserve.sweep fs m').metadata = m'.declareAll is ∧
        ((∀ f ∈ fs, f.Consistent ∧ f.Numbered) → ∀ i, i ∈ is ↔ ∃ f ∈ fs, f.Declares m i) := by
  induction fs generalizing m' b with
  | nil => exact ⟨rfl, [], rfl, by simp⟩
  | cons f fs ih =>
    obtain ⟨g, is, events, verdict, hrun, his⟩ := exists_run f m
    obtain ⟨hfunc, hverdict⟩ := run_of_alike h f
    have hrun' := hrun m' h
    rw [Pass.sweep] at hok ⊢
    dsimp only [Pass.run] at hok ⊢
    rw [hrun'] at hok hfunc ⊢
    cases verdict with
    | error e => cases hok
    | ok c =>
      obtain ⟨c', hc', -⟩ := map_eq_ok.mp hok
      obtain ⟨hfuncs, js, hmeta, hjs⟩ := ih (Metadata.alike_declareAll h is) hc'
      refine ⟨?_, is ++ js, ?_, fun hall i => ?_⟩
      · dsimp only at hfunc hfuncs ⊢
        rw [List.map_cons, hfunc, hfuncs]
      · rw [Metadata.declareAll_append]
        exact hmeta
      · obtain ⟨⟨hf, hv⟩, hrest⟩ := List.forall_mem_cons.mp hall
        rw [List.mem_append, his hf hv c rfl, hjs hrest, List.exists_mem_cons_iff]

theorem alone_moveTo (m : Metadata) (f : Function) (id : FunctionId) :
    alone m (f.moveTo id) = { alone m f with func := (alone m f).func.moveTo id } :=
  moveTo_run f id _

/-- What the pass makes of a module, function by function. -/
structure Separate (M r : Module) (d : Metadata) : Prop where
  functions : r.functions = M.functions.map fun f => (alone M.metadataOrEmpty f).func
  succeeds : ∀ f ∈ M.functions, ∃ c, (alone M.metadataOrEmpty f).verdict = .ok c
  metadata : r.metadata = some d
  signatures : d.Alike M.metadataOrEmpty
  /-- The intrinsics from before, and those of the elements that a function with a return writes. -/
  declared : ∀ i, i ∈ d.ops.declared ↔
    i ∈ M.metadataOrEmpty.ops.declared ∨ ∃ f ∈ M.functions, f.Declares M.metadataOrEmpty i
  /-- They are listed by name, and none of them twice. -/
  ordered : d.ops.declared.Pairwise fun i j => i.name < j.name
  declarations : ∀ i ∈ d.ops.declared, d.ops.find? i.name = some i ∧
    i.name = "dx.op." ++ i.opcode.className ++ "." ++ i.overload.suffix ∧
    i.params = [.i32, .i32, .i32, .i8, .scalar i.overload] ∧ i.returnTy = .void

/-- The same functions up to their places, in any order. -/
def Rearranged (fs gs : List Function) : Prop :=
  (fs.map fun f => f.moveTo ⟨0⟩).Perm (gs.map fun f => f.moveTo ⟨0⟩)

namespace Rearranged

variable {fs gs : List Function} (h : Rearranged fs gs) {P : Function → Prop}
  (hP : ∀ f, P (f.moveTo ⟨0⟩) ↔ P f)
include h hP

theorem exists_mem_iff : (∃ f ∈ fs, P f) ↔ ∃ f ∈ gs, P f := by
  have hplace : ∀ l : List Function, (∃ f ∈ l, P f) ↔ ∃ f ∈ l.map fun f => f.moveTo ⟨0⟩, P f := by
    intro l
    simp only [List.mem_map, exists_exists_and_eq_and, hP]
  rw [hplace fs, hplace gs]
  exact exists_congr fun f => and_congr_left fun _ => h.mem_iff

theorem forall_mem_iff : (∀ f ∈ fs, P f) ↔ ∀ f ∈ gs, P f := by
  have hplace : ∀ l : List Function, (∀ f ∈ l, P f) ↔ ∀ f ∈ l.map fun f => f.moveTo ⟨0⟩, P f := by
    intro l
    simp only [List.forall_mem_map, hP]
  rw [hplace fs, hplace gs]
  exact forall_congr' fun f => imp_congr_left h.mem_iff

omit hP in
theorem map_alone (m : Metadata) :
    Rearranged (fs.map fun f => (alone m f).func) (gs.map fun f => (alone m f).func) := by
  have hplace : ∀ l : List Function,
      (l.map fun f => (alone m f).func).map (fun f => f.moveTo ⟨0⟩) =
        (l.map fun f => f.moveTo ⟨0⟩).map fun f => (alone m f).func := by
    intro l
    simp only [List.map_map]
    exact List.map_congr_left fun f _ => (congrArg PassRun.func (alone_moveTo m f ⟨0⟩)).symm
  rw [Rearranged, hplace, hplace]
  exact h.map _

end Rearranged

/-- A pipeline that schedules the pass alone works on every function as if it stood alone, and the
intrinsics that it leaves behind are those from before and those that the functions declare. With
other intrinsics declared before, and with the functions in another order, it makes the same of
every function. -/
theorem functions_separate {M : Module} {o : RunOptions} {b : Bool}
    (hmade : ∀ f ∈ M.functions, f.Made) (hnumbered : ∀ f ∈ M.functions, f.Numbered)
    (hops : M.metadataOrEmpty.ops.Built)
    (hrun : (Pipeline.run ⟨[.preserve]⟩ o M).verdict = .ok b) :
    (∃ d, Separate M (Pipeline.run ⟨[.preserve]⟩ o M).result d) ∧
      ∀ M' : Module, M'.metadataOrEmpty.Alike M.metadataOrEmpty →
        Rearranged M'.functions M.functions →
        (Pipeline.run ⟨[.preserve]⟩ o M').verdict = .ok b ∧
          Rearranged (Pipeline.run ⟨[.preserve]⟩ o M').result.functions
            (Pipeline.run ⟨[.preserve]⟩ o M).result.functions := by
  rw [Pipeline.run_singleton.2, Pass.verdict_runOnModule] at hrun
  obtain ⟨hsweep, hvalid⟩ := hrun
  obtain ⟨hall, hany⟩ := (verdict_sweep fun _ => rfl).mp hsweep
  obtain ⟨hfuncs, is, hmeta, his⟩ := sweep_of_ok (fun _ => rfl) hsweep
  have his := his fun f hf => ⟨(hmade f hf).consistent, hnumbered f hf⟩
  have hbuilt := Metadata.built_declareAll hops is
  rw [Pipeline.run_singleton.1, Pass.result_runOnModule]
  refine ⟨⟨M.metadataOrEmpty.declareAll is, hfuncs, hall, congrArg some hmeta,
    Metadata.alike_declareAll (fun _ => rfl) is, fun i => ?_, hbuilt.ordered, fun i hi =>
      ⟨OpTable.find?_eq_some.mpr ⟨hi, rfl⟩, rfl, rfl, rfl⟩⟩, fun M' halike hfs => ?_⟩
  · rw [Metadata.mem_declareAll, his]
  · have hsweep' : (Pass.preserve.sweep M'.functions M'.metadataOrEmpty).verdict = .ok b := by
      refine (verdict_sweep halike).mpr ⟨?_, ?_⟩
      · exact (hfs.forall_mem_iff fun f => by rw [alone_moveTo]).mpr hall
      · exact hany.trans (hfs.exists_mem_iff fun f => by rw [alone_moveTo]).symm
    have hsame : Rearranged (Pass.preserve.sweep M'.functions M'.metadataOrEmpty).functions
        (Pass.preserve.sweep M.functions M.metadataOrEmpty).functions := by
      rw [(sweep_of_ok halike hsweep').1, hfuncs]
      exact hfs.map_alone _
    rw [Pipeline.run_singleton.1, Pipeline.run_singleton.2, Pass.result_runOnModule,
      Pass.verdict_runOnModule]
    refine ⟨⟨hsweep', fun hv => ?_⟩, hsame⟩
    exact (hsame.forall_mem_iff fun f => by rw [Function.moveTo_validate]).mpr (hvalid hv)

/-- Two functions with a sparse store, where another intrinsic was declared before. -/
def sparsePair : Module :=
  { Module.empty "pair" with
    functions := [sparse, { sparse with id := ⟨1⟩, name := "second" }]
    metadata := some { sparseMetadata with
      ops := OpTable.empty.declare ⟨.storePatchConstant, .f16⟩ } }

def sparsePairSwapped : Module :=
  { Module.empty "pair" with
    functions := [{ sparse with name := "second" }, { sparse with id := ⟨1⟩ }]
    metadata := some sparseMetadata }

theorem sparse_functions_separate :
    (∃ d, Separate sparsePair (Pipeline.run ⟨[.preserve]⟩ ⟨true, none⟩ sparsePair).result d) ∧
      (Pipeline.run ⟨[.preserve]⟩ ⟨true, none⟩ sparsePairSwapped).verdict = .ok true ∧
      Rearranged (Pipeline.run ⟨[.preserve]⟩ ⟨true, none⟩ sparsePairSwapped).result.functions
        (Pipeline.run ⟨[.preserve]⟩ ⟨true, none⟩ sparsePair).result.functions := by
  have hmade : ∀ f ∈ sparsePair.functions, f.Made := by
    intro f hf
    rcases List.mem_cons.mp hf with rfl | hf
    · exact made_sparse
    · obtain rfl := List.mem_singleton.mp hf
      exact .withHeader made_sparse
  have hnumbered : ∀ f ∈ sparsePair.functions, f.Numbered := by decide +kernel
  have hrun : (Pipeline.run ⟨[.preserve]⟩ ⟨true, none⟩ sparsePair).verdict = .ok true := rfl
  obtain ⟨hseparate, hswap⟩ := functions_separate hmade hnumbered (.declare _ .empty) hrun
  exact ⟨hseparate, hswap sparsePairSwapped (fun op => by cases op <;> rfl) (List.Perm.swap _ _ _)⟩

end Preserve

end ShaderIR
