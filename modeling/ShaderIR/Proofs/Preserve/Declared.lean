import ShaderIR.Proofs.Intrinsic
import ShaderIR.Proofs.Preserve.Redirected

/-!
# What a redirection declares

Of the metadata, the pass reads the signatures only, so what it makes of a function does not
depend on the intrinsics that are declared already. To these it adds, for every return, the ones
that store the written elements.
-/

set_option autoImplicit false

namespace ShaderIR

/-- Two metadata differ in their intrinsics only. -/
def Metadata.Alike (m m' : Metadata) : Prop := ∀ op, m.signature op = m'.signature op

theorem Metadata.alike_declareAll {m m' : Metadata} (h : m.Alike m') (is : List Intrinsic) :
    (m.declareAll is).Alike m' :=
  fun op => (m.signature_declareAll is op).trans (h op)

theorem OutputStore.target?_congr {m m' : Metadata} (h : m.Alike m') (o : OutputStore) :
    o.target? m = o.target? m' := by
  rw [target?, target?, h]

theorem Target.collect_congr {m m' : Metadata} (h : m.Alike m') (func : String)
    (ts : List Target) (stores : List OutputStore) :
    collect func m ts stores = collect func m' ts stores := by
  induction stores generalizing ts with
  | nil => rfl
  | cons o rest ih => simp only [collect, o.target?_congr h, ih]

/-- A function with a return writes an element that is stored to by an intrinsic. -/
def Function.Declares (f : Function) (m : Metadata) (i : Intrinsic) : Prop :=
  f.returns ≠ [] ∧ ∃ t, f.Writes m t ∧ i = t.intrinsic

theorem Target.Written.mem_map_intrinsic {f : Function} {m : Metadata} {ts : List Target}
    (h : Written f m ts) {i : Intrinsic} :
    i ∈ ts.map intrinsic ↔ ∃ t, f.Writes m t ∧ i = t.intrinsic := by
  simp only [List.mem_map, h.mem_iff, eq_comm]

namespace Preserve

theorem exists_emitEpilogue (ret : InstrId) (slots : List Scratch) (f : Function) :
    ∃ g is e, (∀ m : Metadata, emitEpilogue ret slots f m = (g, m.declareAll is, e)) ∧
      (e = none → is = slots.map fun s => s.target.intrinsic) := by
  induction slots generalizing f with
  | nil => exact ⟨f, [], none, fun _ => rfl, fun _ => rfl⟩
  | cons s rest ih =>
    cases hp : f.position? ret with
    | none =>
      refine ⟨f, [], some (.internal f.name (.ret ret)), fun m => ?_, by simp⟩
      rw [emitEpilogue_cons, hp]
      rfl
    | some p =>
      obtain ⟨b, k⟩ := p
      cases hfault : (s.epilogue s.target.intrinsic.name f.name f.nextValue).fault with
      | some e =>
        refine ⟨f.emit b k (s.epilogue s.target.intrinsic.name f.name f.nextValue).code
          (s.epilogue s.target.intrinsic.name f.name f.nextValue).next, [s.target.intrinsic],
          some e, fun m => ?_, by simp⟩
        simp only [emitEpilogue_cons, hp, hfault]
        rfl
      | none =>
        obtain ⟨g, is, e, hg, his⟩ := ih (f.emit b k
          (s.epilogue s.target.intrinsic.name f.name f.nextValue).code
          (s.epilogue s.target.intrinsic.name f.name f.nextValue).next)
        refine ⟨g, s.target.intrinsic :: is, e, fun m => ?_, fun he => ?_⟩
        · simp only [emitEpilogue_cons, hp, hfault]
          exact hg (m.declare s.target.intrinsic)
        · rw [his he, List.map_cons]

theorem exists_emitEpilogues (slots : List Scratch) (rets : List InstrId) (f : Function) :
    ∃ g is e, (∀ m : Metadata, emitEpilogues slots rets f m = (g, m.declareAll is, e)) ∧
      (e = none → is = rets.flatMap fun _ => slots.map fun s => s.target.intrinsic) := by
  induction rets generalizing f with
  | nil => exact ⟨f, [], none, fun _ => rfl, fun _ => rfl⟩
  | cons ret rest ih =>
    obtain ⟨g, is, e, hg, his⟩ := exists_emitEpilogue ret slots f
    cases e with
    | some e => exact ⟨g, is, some e, fun m => by rw [emitEpilogues, hg], by simp⟩
    | none =>
      obtain ⟨g', js, e, hg', hjs⟩ := ih g
      refine ⟨g', is ++ js, e, fun m => ?_, fun he => ?_⟩
      · simp only [emitEpilogues, hg, hg', Metadata.declareAll_append]
      · rw [his rfl, hjs he, List.flatMap_cons]

theorem exists_redirectStores (slots : List Scratch) (stores : List OutputStore) (f : Function) :
    ∃ g is events verdict,
      (∀ m : Metadata, redirectStores slots stores f m = ⟨g, m.declareAll is, events, verdict⟩) ∧
      ∀ b, verdict = .ok b → ∃ u, lowerStores slots stores f = (u, none) ∧
        is = u.returns.flatMap fun _ => slots.map fun s => s.target.intrinsic := by
  obtain ⟨u, e, hu⟩ : ∃ u e, lowerStores slots stores f = (u, e) := ⟨_, _, rfl⟩
  cases e with
  | some e =>
    refine ⟨u, [], [], .error (.error e), fun m => ?_, by simp⟩
    rw [redirectStores, hu]
    rfl
  | none =>
    obtain ⟨g, is, e, hg, his⟩ := exists_emitEpilogues slots u.returns u
    cases e with
    | some e =>
      refine ⟨g, is, [.returns passName u.returns.length u.name], .error (.error e), fun m => ?_,
        by simp⟩
      simp only [redirectStores, hu, hg]
    | none =>
      refine ⟨eraseStores stores g, is, [.returns passName u.returns.length u.name], .ok true,
        fun m => ?_, fun b _ => ⟨u, hu, his rfl⟩⟩
      simp only [redirectStores, hu, hg]

theorem exists_redirect (f : Function) (stores : List OutputStore) (ts : List Target) :
    ∃ g is events verdict,
      (∀ m : Metadata, redirect f m stores ts = ⟨g, m.declareAll is, events, verdict⟩) ∧
      ∀ b, verdict = .ok b → ∃ u, lowerStores (Scratch.allot f.nextValue ts) stores
          (allocateSlots f (Scratch.allot f.nextValue ts)) = (u, none) ∧
        is = u.returns.flatMap fun _ => ts.map Target.intrinsic := by
  have htargets : (Scratch.allot f.nextValue ts).map (fun s => s.target.intrinsic) =
      ts.map Target.intrinsic := by
    conv_rhs => rw [← Scratch.map_target_allot f.nextValue ts, List.map_map]
    rfl
  obtain ⟨g, is, events, verdict, hg, his⟩ := exists_redirectStores
    (Scratch.allot f.nextValue ts) stores (allocateSlots f (Scratch.allot f.nextValue ts))
  rw [htargets] at his
  by_cases hfits : ts.all fits = true
  · by_cases hids : g.nextValue < idLimit
    · refine ⟨g, is, (redirect f .empty stores ts).events, verdict, fun m => ?_, his⟩
      simp only [redirect, hfits, if_true, guardIds, hg, hids]
    · refine ⟨g, is, (redirect f .empty stores ts).events, .error (.violation .overflow),
        fun m => ?_, by simp⟩
      simp only [redirect, hfits, if_true, guardIds, hg, hids]
      rfl
  · refine ⟨f, [], (redirect f .empty stores ts).events, .error (.violation .overflow),
      fun m => ?_, by simp⟩
    simp only [redirect, hfits]
    rfl

/-- A run is the same whatever is declared already, and adds the same intrinsics. -/
theorem exists_run (f : Function) (m : Metadata) : ∃ g is events verdict,
    (∀ m' : Metadata, m'.Alike m → run f m' = ⟨g, m'.declareAll is, events, verdict⟩) ∧
    (f.Consistent → f.Numbered → ∀ b, verdict = .ok b → ∀ i, i ∈ is ↔ f.Declares m i) := by
  cases hall : OutputStore.all f with
  | error e =>
    refine ⟨f, [], [], .error (.error e), fun m' _ => ?_, by simp⟩
    rw [run, hall]
    rfl
  | ok stores =>
    by_cases hne : stores = []
    · subst hne
      have hrun : ∀ m', run f m' = ⟨f, m', [.noOutputStores passName f.name], .ok false⟩ := by
        intro m'
        rw [run, hall]
      refine ⟨f, [], _, .ok false, fun m' _ => hrun m', fun _ _ _ _ i => ?_⟩
      refine iff_of_false List.not_mem_nil ?_
      rintro ⟨-, t, ⟨o, hfirst, -⟩, -⟩
      obtain ⟨p, hp, hr⟩ := hfirst.exists_mem
      obtain ⟨o', ho', -⟩ := OutputStore.exists_store hall hp hr.opcode
      cases ho'
    · cases hts : Target.collect f.name m [] stores with
      | error e =>
        refine ⟨f, [], [], .error (.error e), fun m' hm' => ?_, by simp⟩
        exact run_of_collect_error hall hne ((Target.collect_congr hm' _ _ _).trans hts)
      | ok ts =>
        obtain ⟨g, is, events, verdict, hg, his⟩ := exists_redirect f stores ts
        refine ⟨g, is, events, verdict, fun m' hm' => ?_, fun hf hv b hb i => ?_⟩
        · rw [← hg]
          exact run_of_collect_ok hall hne ((Target.collect_congr hm' _ _ _).trans hts)
        · obtain ⟨u, hu, rfl⟩ := his b hb
          obtain ⟨before, hw, -, -, -⟩ := exists_lowered hf hv hall hne hu
          have hrets : u.returns ≠ [] ↔ f.returns ≠ [] := by
            simp only [← List.length_pos_iff, List.length_pos_iff_exists_mem, hw.mem_returns hf]
          rw [Function.Declares, ← (Target.written_of_collect hall hts).mem_map_intrinsic, ← hrets]
          cases u.returns with
          | nil => simp
          | cons ret rest => simp

end Preserve

end ShaderIR
