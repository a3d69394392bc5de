import ShaderIR.Proofs.Pass.Independence
import ShaderIR.Proofs.Preserve.Verdict

/-!
# Pipelines, call by call

A run of a pipeline is a sequence of calls: the first pass is called on one function after the
other, then the second pass, and so on. The run stops behind the last call, at the first call
that fails, or behind a pass that has left an invalid function. How far it came says which passes
every function has had, and the verdict says whether one of them has changed anything.
-/

set_option autoImplicit false

namespace ShaderIR

namespace Pass

variable {p : Pass} {f : Function} {m m' : Metadata}

theorem alike_run (p : Pass) (f : Function) (h : m'.Alike m) : (p.run f m').metadata.Alike m := by
  cases p with
  | preserve =>
    obtain ⟨is, hmeta⟩ := Preserve.metadata_run f m'
    rw [Pass.run, hmeta]
    exact Metadata.alike_declareAll h is
  | validate =>
    rw [Pass.run]
    split <;> exact h

theorem run_of_alike (p : Pass) (f : Function) (h : m'.Alike m) :
    (p.run f m').func = (p.run f m).func ∧ (p.run f m').verdict = (p.run f m).verdict := by
  cases p with
  | preserve =>
    obtain ⟨hfunc, hverdict⟩ := Preserve.run_of_alike h f
    obtain ⟨hfunc', hverdict'⟩ := Preserve.run_of_alike (fun _ => rfl : m.Alike m) f
    exact ⟨hfunc.trans hfunc'.symm, hverdict.trans hverdict'.symm⟩
  | validate =>
    simp only [Pass.run]
    split <;> exact ⟨rfl, rfl⟩

theorem run_eq_false (h : (p.run f m).verdict = .ok false) : (p.run f m).func = f := by
  cases p with
  | preserve => exact Preserve.run_eq_false h
  | validate =>
    rw [Pass.run]
    split <;> rfl

theorem arena_size_run (p : Pass) (f : Function) (m : Metadata) :
    f.arena.size ≤ (p.run f m).func.arena.size ∧
      ((p.run f m).verdict = .ok true → f.arena.size < (p.run f m).func.arena.size) := by
  cases p with
  | preserve => exact Preserve.arena_size_run f m
  | validate =>
    rw [Pass.run]
    split <;> exact ⟨Nat.le_refl _, nofun⟩

theorem eq_true_iff {c : Bool} (h : (p.run f m).verdict = .ok c) :
    c = true ↔ p = .preserve ∧ f.HasStore := by
  cases p with
  | preserve =>
    have hfalse := Preserve.verdict_eq_false_iff (f := f) (m := m)
    rw [Pass.run] at h
    rw [h, Except.ok.injEq] at hfalse
    cases c <;> simpa using hfalse
  | validate =>
    rw [Pass.run] at h
    split at h
    · cases h
      simp
    · cases h

end Pass

/-- What passes make of a function, one after another, if it stands alone. -/
def Function.after (m : Metadata) (f : Function) (ps : List Pass) : Function :=
  ps.foldl (fun g p => (p.run g m).func) f

namespace Function

theorem after_take_succ {m : Metadata} {f : Function} {ps : List Pass} {k : Nat} {p : Pass}
    (hp : ps[k]? = some p) :
    f.after m (ps.take (k + 1)) = (p.run (f.after m (ps.take k)) m).func := by
  rw [after, List.take_add_one, hp, Option.toList_some, List.foldl_concat, ← after]

theorem arena_le_after (m : Metadata) (f : Function) (ps : List Pass) :
    f.arena.size ≤ (f.after m ps).arena.size := by
  induction ps generalizing f with
  | nil => exact Nat.le_refl _
  | cons p ps ih => exact Nat.le_trans (p.arena_size_run f m).1 (ih _)

end Function

structure Workspace where
  functions : List Function
  metadata : Metadata

def Module.workspace (m : Module) : Workspace := ⟨m.functions, m.metadataOrEmpty⟩

namespace Workspace

def call (w : Workspace) (p : Pass) (j : Nat) : Option PassRun :=
  w.functions[j]?.map fun f => p.run f w.metadata

def put (w : Workspace) (j : Nat) (r : PassRun) : Workspace :=
  ⟨w.functions.set j r.func, r.metadata⟩

theorem call_eq_some {w : Workspace} {p : Pass} {j : Nat} {r : PassRun} :
    w.call p j = some r ↔ ∃ f, w.functions[j]? = some f ∧ p.run f w.metadata = r :=
  Option.map_eq_some_iff

theorem take_put {w : Workspace} {j : Nat} (hj : j < w.functions.length) (r : PassRun)
    (fs : List Function) :
    (w.put j r).functions.take (j + 1) ++ fs = w.functions.take j ++ r.func :: fs := by
  rw [put, List.take_add_one, List.take_set_of_le (Nat.le_refl j), List.getElem?_set_self hj,
    Option.toList_some, List.append_assoc, List.singleton_append]

theorem drop_put (w : Workspace) (j : Nat) (r : PassRun) :
    (w.put j r).functions.drop (j + 1) = w.functions.drop (j + 1) :=
  List.drop_set_of_lt (Nat.lt_succ_self j)

theorem functions_put {ps : List Pass} {m : Metadata} {fs : List Function} {w : Workspace}
    {k j : Nat} (hw : w.metadata.Alike m)
    (hfs : ∀ i : Nat, w.functions[i]? =
      fs[i]?.map fun f => f.after m (ps.take (if i < j then k + 1 else k)))
    {p : Pass} {r : PassRun} (hp : ps[k]? = some p) (hr : w.call p j = some r) (i : Nat) :
    (w.put j r).functions[i]? =
      fs[i]?.map fun f => f.after m (ps.take (if i < j + 1 then k + 1 else k)) := by
  obtain ⟨f, hf, rfl⟩ := call_eq_some.mp hr
  by_cases hij : i = j
  · subst hij
    obtain ⟨f₀, hf₀, rfl⟩ := Option.map_eq_some_iff.mp ((hfs i).symm.trans hf)
    have hlt := (List.getElem?_eq_some_iff.mp hf).1
    rw [put, List.getElem?_set_self hlt, hf₀, Option.map_some, if_pos (Nat.lt_succ_self i),
      if_neg (Nat.lt_irrefl i), Function.after_take_succ hp, (p.run_of_alike _ hw).1]
  · have hiff : i < j + 1 ↔ i < j := by omega
    rw [put, List.getElem?_set_ne (Ne.symm hij), hfs]
    simp only [hiff]

end Workspace

namespace Pipeline

/-- A run over `w` arrives at the call of pass `k` on function `j`, where it finds the workspace
`u`; the flag says whether some call has changed its function. -/
inductive Arrives (ps : List Pass) (o : RunOptions) (w : Workspace) :
    Nat → Nat → Bool → Workspace → Prop
  | start : Arrives ps o w 0 0 false w
  | call {k j : Nat} {b c : Bool} {u : Workspace} {p : Pass} {r : PassRun} :
      Arrives ps o w k j b u → ps[k]? = some p → u.call p j = some r → r.verdict = .ok c →
        Arrives ps o w k (j + 1) (b || c) (u.put j r)
  | pass {k : Nat} {b : Bool} {u : Workspace} {p : Pass} :
      Arrives ps o w k u.functions.length b u → ps[k]? = some p →
        (o.verifyEach = true → ∀ f ∈ u.functions, f.validate = .ok ()) →
        Arrives ps o w (k + 1) 0 b u

namespace Arrives

variable {ps : List Pass} {o : RunOptions} {w u : Workspace} {k j : Nat} {b : Bool}
  (h : Arrives ps o w k j b u)
include h

theorem alike : u.metadata.Alike w.metadata := by
  induction h with
  | start => exact fun _ => rfl
  | call _ _ hr _ ih =>
    obtain ⟨f, -, rfl⟩ := Workspace.call_eq_some.mp hr
    exact Pass.alike_run _ f ih
  | pass _ _ _ ih => exact ih

theorem length : u.functions.length = w.functions.length := by
  induction h with
  | start => rfl
  | call _ _ _ _ ih => exact List.length_set.trans ih
  | pass _ _ _ ih => exact ih

theorem le_length : j ≤ u.functions.length := by
  cases h with
  | start => exact Nat.zero_le _
  | call _ _ hr _ =>
    obtain ⟨f, hf, -⟩ := Workspace.call_eq_some.mp hr
    rw [Workspace.put, List.length_set]
    exact (List.getElem?_eq_some_iff.mp hf).1
  | pass _ _ _ => exact Nat.zero_le _

/-- The functions before `j` have had pass `k`, and the others only those before it. -/
theorem functions (i : Nat) : u.functions[i]? =
    w.functions[i]?.map fun f => f.after w.metadata (ps.take (if i < j then k + 1 else k)) := by
  induction h generalizing i with
  | start => simp [Function.after]
  | call hu hp hr _ ih => exact Workspace.functions_put hu.alike ih hp hr i
  | @pass k b u p hu hp _ ih =>
    by_cases hi : i < u.functions.length
    · rw [ih, if_pos hi, if_neg (Nat.not_lt_zero i)]
    · rw [List.getElem?_eq_none (Nat.le_of_not_lt hi),
        List.getElem?_eq_none (hu.length ▸ Nat.le_of_not_lt hi), Option.map_none]

theorem functions_eq (hj : j = 0) :
    u.functions = w.functions.map fun f => f.after w.metadata (ps.take k) := by
  refine List.ext_getElem? fun i => ?_
  rw [h.functions i, hj, if_neg (Nat.not_lt_zero i), List.getElem?_map]

theorem functions_eq_of_length (hj : j = u.functions.length) :
    u.functions = w.functions.map fun f => f.after w.metadata (ps.take (k + 1)) := by
  refine List.ext_getElem? fun i => ?_
  by_cases hi : i < u.functions.length
  · rw [h.functions i, hj, if_pos hi, List.getElem?_map]
  · have hle := Nat.le_of_not_lt hi
    rw [List.getElem?_eq_none hle, List.getElem?_map, List.getElem?_eq_none (h.length ▸ hle),
      Option.map_none]

theorem unchanged (hb : b = false) : u.functions = w.functions := by
  induction h with
  | start => rfl
  | call _ _ hr hc ih =>
    obtain ⟨hbefore, rfl⟩ := Bool.or_eq_false_iff.mp hb
    obtain ⟨f, hf, rfl⟩ := Workspace.call_eq_some.mp hr
    obtain ⟨hlt, rfl⟩ := List.getElem?_eq_some_iff.mp hf
    rw [Workspace.put, Pass.run_eq_false hc, List.set_getElem_self, ih hbefore]
  | pass _ _ _ ih => exact ih hb

theorem changed (hb : b = true) : ∃ (i : Nat) (f g : Function), w.functions[i]? = some f ∧
    u.functions[i]? = some g ∧ f.arena.size < g.arena.size := by
  induction h with
  | start => cases hb
  | @call k j b c u p r hu hp hr hc ih =>
    obtain ⟨f, hf, rfl⟩ := Workspace.call_eq_some.mp hr
    have hlt := (List.getElem?_eq_some_iff.mp hf).1
    obtain ⟨hle, hgrow⟩ := p.arena_size_run f u.metadata
    rcases Bool.or_eq_true_iff.mp hb with hb | rfl
    · obtain ⟨i, f₀, g, hf₀, hg, hlt'⟩ := ih hb
      by_cases hij : i = j
      · subst hij
        cases hf.symm.trans hg
        exact ⟨i, f₀, _, hf₀, List.getElem?_set_self hlt, Nat.lt_of_lt_of_le hlt' hle⟩
      · exact ⟨i, f₀, g, hf₀, (List.getElem?_set_ne (Ne.symm hij)).trans hg, hlt'⟩
    · -- whatever the passes before have made of it, they have taken no handle back
      obtain ⟨f₀, hf₀, rfl⟩ := Option.map_eq_some_iff.mp ((hu.functions j).symm.trans hf)
      exact ⟨j, f₀, _, hf₀, List.getElem?_set_self hlt,
        Nat.lt_of_le_of_lt (f₀.arena_le_after _ _) (hgrow hc)⟩
  | pass _ _ _ ih => exact ih hb

theorem eq_true_iff_changed : b = true ↔ ∃ i : Nat, u.functions[i]? ≠ w.functions[i]? := by
  constructor
  · intro hb
    obtain ⟨i, f, g, hf, hg, hlt⟩ := h.changed hb
    refine ⟨i, fun heq => ?_⟩
    cases hg.symm.trans (heq.trans hf)
    exact Nat.lt_irrefl _ hlt
  · rintro ⟨i, hi⟩
    by_contra hb
    exact hi (by rw [h.unchanged (Bool.eq_false_iff.mpr hb)])

theorem eq_true_iff_hasStore : b = true ↔ ∃ (k' i : Nat) (f : Function),
    (k' < k ∨ k' = k ∧ i < j) ∧ ps[k']? = some .preserve ∧ w.functions[i]? = some f ∧
      (f.after w.metadata (ps.take k')).HasStore := by
  induction h with
  | start => simp
  | @call k j b c u p r hu hp hr hc ih =>
    obtain ⟨g, hg, rfl⟩ := Workspace.call_eq_some.mp hr
    have hat := hu.functions j
    rw [hg, if_neg (Nat.lt_irrefl j)] at hat
    obtain ⟨f₀, hf₀, rfl⟩ := Option.map_eq_some_iff.mp hat.symm
    rw [Bool.or_eq_true, ih, Pass.eq_true_iff hc]
    constructor
    · rintro (⟨k', i, f, hbefore, hrest⟩ | ⟨rfl, hstore⟩)
      · exact ⟨k', i, f, by omega, hrest⟩
      · exact ⟨k, j, f₀, by omega, hp, hf₀, hstore⟩
    · rintro ⟨k', i, f, hbefore, hp', hf, hstore⟩
      by_cases hlast : k' = k ∧ i = j
      · obtain ⟨rfl, rfl⟩ := hlast
        cases hp.symm.trans hp'
        cases hf₀.symm.trans hf
        exact Or.inr ⟨rfl, hstore⟩
      · exact Or.inl ⟨k', i, f, by omega, hp', hf, hstore⟩
  | @pass k b u p hu hp _ ih =>
    rw [ih]
    constructor
    · rintro ⟨k', i, f, hbefore, hrest⟩
      exact ⟨k', i, f, by omega, hrest⟩
    · rintro ⟨k', i, f, hbefore, hp', hf, hstore⟩
      have hlt := (List.getElem?_eq_some_iff.mp hf).1
      rw [← hu.length] at hlt
      exact ⟨k', i, f, by omega, hp', hf, hstore⟩

omit h in
theorem sweep {p : Pass} (hp : ps[k]? = some p) {fs : List Function}
    (h : Arrives ps o w k j b u) (hfs : u.functions.drop j = fs) :
    (∃ c, (p.sweep fs u.metadata).verdict = .ok c ∧
      Arrives ps o w k u.functions.length (b || c)
        ⟨u.functions.take j ++ (p.sweep fs u.metadata).functions,
          (p.sweep fs u.metadata).metadata⟩) ∨
    ∃ i b' v r e, (p.sweep fs u.metadata).verdict = .error e ∧ Arrives ps o w k i b' v ∧
      v.call p i = some r ∧ r.verdict = .error e ∧
      v.put i r = ⟨u.functions.take j ++ (p.sweep fs u.metadata).functions,
        (p.sweep fs u.metadata).metadata⟩ := by
  -- the functions before `j` are as the sweep has left them, and `fs` are still to come
  induction fs generalizing j b u with
  | nil =>
    have hj : j = u.functions.length :=
      Nat.le_antisymm h.le_length (List.drop_eq_nil_iff.mp hfs)
    refine Or.inl ⟨false, rfl, ?_⟩
    rw [Pass.sweep, List.append_nil, hj, List.take_length, Bool.or_false, ← hj]
    exact h
  | cons f fs ih =>
    have hf : u.functions[j]? = some f := by
      rw [← List.head?_drop, hfs, List.head?_cons]
    have hlt := (List.getElem?_eq_some_iff.mp hf).1
    have hcall : u.call p j = some (p.run f u.metadata) :=
      Workspace.call_eq_some.mpr ⟨f, hf, rfl⟩
    have hdrop : (u.put j (p.run f u.metadata)).functions.drop (j + 1) = fs := by
      rw [Workspace.drop_put, ← List.tail_drop, hfs, List.tail_cons]
    have hput := Workspace.take_put hlt (p.run f u.metadata)
    have hlength : (u.put j (p.run f u.metadata)).functions.length = u.functions.length :=
      List.length_set
    rw [Pass.sweep]
    dsimp only
    cases hverdict : (p.run f u.metadata).verdict with
    | error e =>
      refine Or.inr ⟨j, b, u, _, e, rfl, h, hcall, hverdict, ?_⟩
      rw [← hput fs, ← hdrop, List.take_append_drop]
      rfl
    | ok c =>
      have harrives := h.call hp hcall hverdict
      rcases ih harrives hdrop with ⟨c', hok, hend⟩ | ⟨i, b', v, r, e, herror, hrest⟩
      · rw [hput, hlength, Bool.or_assoc] at hend
        exact Or.inl ⟨c || c', congrArg (Except.map (c || ·)) hok, hend⟩
      · rw [hput] at hrest
        exact Or.inr ⟨i, b', v, r, e, congrArg (Except.map (c || ·)) herror, hrest⟩

end Arrives

theorem exists_of_firstFault? {fs : List Function} {e : PassError} (h : firstFault? fs = some e) :
    ∃ (i : Nat) (g : Function), fs[i]? = some g ∧ g.validate = .error e ∧
      ∀ i' < i, ∀ g', fs[i']? = some g' → g'.validate = .ok () := by
  induction fs with
  | nil => cases h
  | cons f fs ih =>
    rw [firstFault?] at h
    split at h
    · next hf =>
      cases h
      exact ⟨0, f, rfl, hf, fun i' hi' => absurd hi' (Nat.not_lt_zero i')⟩
    · next hf =>
      obtain ⟨i, g, hg, hfault, hvalid⟩ := ih h
      refine ⟨i + 1, g, hg, hfault, fun i' hi' g' hg' => ?_⟩
      cases i' with
      | zero =>
        cases hg'
        exact hf
      | succ i' => exact hvalid i' (Nat.lt_of_succ_lt_succ hi') g' hg'

/-- Where the calls of a run over `w` end, and with which verdict. A change that has been made
already is not reported again. -/
inductive Stops (ps : List Pass) (o : RunOptions) (w : Workspace) (b : Bool) (r : ModuleRun) : Prop
  | finished (c : Bool) (hcalls : Arrives ps o w ps.length 0 (b || c) r.result.workspace)
      (hverdict : r.verdict = .ok c)
  | failed (k j : Nat) (c : Bool) (u : Workspace) (p : Pass) (call : PassRun)
      (e : Failure PassError) (hcalls : Arrives ps o w k j c u) (hp : ps[k]? = some p)
      (hcall : u.call p j = some call) (hfails : call.verdict = .error e)
      (hresult : r.result.workspace = u.put j call) (hverdict : r.verdict = .error (p.name, e))
  | invalid (k : Nat) (c : Bool) (p : Pass) (e : PassError)
      (hcalls : Arrives ps o w k r.result.functions.length c r.result.workspace)
      (hp : ps[k]? = some p) (hverify : o.verifyEach = true)
      (hfault : firstFault? r.result.functions = some e)
      (hverdict : r.verdict = .error (p.name, .error e))

section RunOnModule

variable {p : Pass} {o : RunOptions} {M : Module}

theorem workspace_runOnModule : (p.runOnModule o M).result.workspace =
    ⟨(p.sweep M.functions M.metadataOrEmpty).functions,
      (p.sweep M.functions M.metadataOrEmpty).metadata⟩ := by
  rw [Pass.result_runOnModule]
  rfl

theorem runOnModule_of_error {e : Failure PassError}
    (h : (p.sweep M.functions M.metadataOrEmpty).verdict = .error e) :
    (p.runOnModule o M).verdict = .error (p.name, e) := by
  simp only [Pass.runOnModule, h]

theorem runOnModule_of_fault {c : Bool} {e : PassError}
    (h : (p.sweep M.functions M.metadataOrEmpty).verdict = .ok c) (ho : o.verifyEach = true)
    (he : firstFault? (p.sweep M.functions M.metadataOrEmpty).functions = some e) :
    (p.runOnModule o M).verdict = .error (p.name, .error e) := by
  simp only [Pass.runOnModule, h, ho, he, if_true]

end RunOnModule

theorem runPasses_of_error {p : Pass} (rest : List Pass) {o : RunOptions} {M : Module}
    {e : String × Failure PassError} (h : (p.runOnModule o M).verdict = .error e) :
    (runPasses o (p :: rest) M).result = (p.runOnModule o M).result ∧
      (runPasses o (p :: rest) M).verdict = .error e := by
  simp only [runPasses, h, and_self]

theorem runPasses_of_ok {p : Pass} (rest : List Pass) {o : RunOptions} {M : Module}
    {c : Bool} (h : (p.runOnModule o M).verdict = .ok c) :
    (runPasses o (p :: rest) M).result = (runPasses o rest (p.runOnModule o M).result).result ∧
      (runPasses o (p :: rest) M).verdict =
        (runPasses o rest (p.runOnModule o M).result).verdict.map (c || ·) := by
  simp only [runPasses, h, and_self]

theorem Stops.prepend {ps : List Pass} {o : RunOptions} {w : Workspace} {b c : Bool}
    {r r' : ModuleRun} (h : Stops ps o w (b || c) r) (hresult : r'.result = r.result)
    (hverdict : r'.verdict = r.verdict.map (c || ·)) : Stops ps o w b r' := by
  cases h with
  | finished d hcalls hd =>
    rw [hd] at hverdict
    rw [Bool.or_assoc, ← hresult] at hcalls
    exact .finished (c || d) hcalls hverdict
  | failed k j d u p call e hcalls hp hcall hfails hleft he =>
    rw [he] at hverdict
    rw [← hresult] at hleft
    exact .failed k j d u p call e hcalls hp hcall hfails hleft hverdict
  | invalid k d p e hcalls hp hverify hfault he =>
    rw [he] at hverdict
    rw [← hresult] at hcalls hfault
    exact .invalid k d p e hcalls hp hverify hfault hverdict

theorem Arrives.sweep_module {ps : List Pass} {o : RunOptions} {w : Workspace} {k : Nat} {b : Bool}
    {M : Module} {p : Pass} (h : Arrives ps o w k 0 b M.workspace) (hp : ps[k]? = some p) :
    (∃ c, (p.sweep M.functions M.metadataOrEmpty).verdict = .ok c ∧
      Arrives ps o w k (p.runOnModule o M).result.functions.length (b || c)
        (p.runOnModule o M).result.workspace) ∨
    ∃ j c v r e, (p.sweep M.functions M.metadataOrEmpty).verdict = .error e ∧
      Arrives ps o w k j c v ∧ v.call p j = some r ∧ r.verdict = .error e ∧
      (p.runOnModule o M).result.workspace = v.put j r := by
  have hfunctions : (p.runOnModule o M).result.functions =
      (p.sweep M.functions M.metadataOrEmpty).functions := by rw [Pass.result_runOnModule]
  rw [workspace_runOnModule, hfunctions]
  rcases h.sweep hp List.drop_zero with ⟨c, hok, hend⟩ | ⟨j, c, v, r, e, herror, hv, hr, he, hput⟩
  · have hlength := hend.length.trans h.length.symm
    rw [← hlength] at hend
    exact Or.inl ⟨c, hok, hend⟩
  · exact Or.inr ⟨j, c, v, r, e, herror, hv, hr, he, hput.symm⟩

theorem stops_runPasses {ps rest : List Pass} {o : RunOptions} {w : Workspace} {k : Nat} {b : Bool}
    {M : Module} (h : Arrives ps o w k 0 b M.workspace) (hrest : ps.drop k = rest)
    (hk : k ≤ ps.length) : Stops ps o w b (runPasses o rest M) := by
  induction rest generalizing k b M with
  | nil =>
    have hlength : k = ps.length := Nat.le_antisymm hk (List.drop_eq_nil_iff.mp hrest)
    rw [hlength, ← Bool.or_false b] at h
    exact .finished false h rfl
  | cons p rest ih =>
    have hp : ps[k]? = some p := by
      rw [← List.head?_drop, hrest, List.head?_cons]
    have hdrop : ps.drop (k + 1) = rest := by
      rw [← List.tail_drop, hrest, List.tail_cons]
    have hfunctions : (p.runOnModule o M).result.functions =
        (p.sweep M.functions M.metadataOrEmpty).functions := by rw [Pass.result_runOnModule]
    rcases h.sweep_module hp with ⟨c, hok, hend⟩ | ⟨j, c, v, r, e, herror, hv, hr, he, hput⟩
    · by_cases hvalid : o.verifyEach = true →
          ∀ f ∈ (p.runOnModule o M).result.functions, f.validate = .ok ()
      · have hverdict := Pass.verdict_runOnModule.mpr ⟨hok, hfunctions ▸ hvalid⟩
        obtain ⟨hresult, hrun⟩ := runPasses_of_ok rest hverdict
        exact (ih (hend.pass hp hvalid) hdrop (List.getElem?_eq_some_iff.mp hp).1).prepend
          hresult hrun
      · obtain ⟨hverify, hsome⟩ := Classical.not_imp.mp hvalid
        rw [← firstFault?_eq_none, ← ne_eq, Option.ne_none_iff_exists'] at hsome
        obtain ⟨e, hfault⟩ := hsome
        obtain ⟨hresult, hrun⟩ := runPasses_of_error rest
          (runOnModule_of_fault hok hverify (hfunctions ▸ hfault))
        rw [← hresult] at hend hfault
        exact .invalid k (b || c) p e hend hp hverify hfault hrun
    · obtain ⟨hresult, hrun⟩ :=
        runPasses_of_error rest (runOnModule_of_error (o := o) herror)
      exact .failed k j c v p r e hv hp hr he (hresult ▸ hput) hrun

/-- The outcome of a run: how far its calls came, and what it has made of every function. -/
inductive Outcome (ps : List Pass) (o : RunOptions) (M : Module) (r : ModuleRun) : Prop
  /-- All calls were made, and the verdict is accurate. -/
  | finished (b : Bool) (hcalls : Arrives ps o M.workspace ps.length 0 b r.result.workspace)
      (hverdict : r.verdict = .ok b)
      (hfunctions : r.result.functions = M.functions.map fun f => f.after M.metadataOrEmpty ps)
      (hchanged : b = true ↔ ∃ i : Nat, r.result.functions[i]? ≠ M.functions[i]?)
      (hstores : b = true ↔ ∃ k, ps[k]? = some .preserve ∧
        ∃ f ∈ M.functions, (f.after M.metadataOrEmpty (ps.take k)).HasStore)
  /-- Pass `k` failed on function `j`, after all calls before had succeeded. -/
  | failed (k j : Nat) (b : Bool) (u : Workspace) (p : Pass) (call : PassRun)
      (e : Failure PassError) (hcalls : Arrives ps o M.workspace k j b u) (hp : ps[k]? = some p)
      (hcall : u.call p j = some call) (hfails : call.verdict = .error e)
      (hverdict : r.verdict = .error (p.name, e)) (hresult : r.result.workspace = u.put j call)
      (hbefore : ∀ i ≤ j, r.result.functions[i]? =
        M.functions[i]?.map fun f => f.after M.metadataOrEmpty (ps.take (k + 1)))
      (hafter : ∀ i > j, r.result.functions[i]? =
        M.functions[i]?.map fun f => f.after M.metadataOrEmpty (ps.take k))
  /-- Pass `k` has left invalid functions behind, of which `i` is the first. -/
  | invalid (k i : Nat) (b : Bool) (p : Pass) (g : Function) (e : PassError)
      (hcalls : Arrives ps o M.workspace k r.result.functions.length b r.result.workspace)
      (hp : ps[k]? = some p) (hverify : o.verifyEach = true)
      (hg : r.result.functions[i]? = some g) (hinvalid : g.validate = .error e)
      (hvalid : ∀ i' < i, ∀ g', r.result.functions[i']? = some g' → g'.validate = .ok ())
      (hverdict : r.verdict = .error (p.name, .error e))
      (hfunctions : r.result.functions =
        M.functions.map fun f => f.after M.metadataOrEmpty (ps.take (k + 1)))

/-- A run of a pipeline calls its passes one after the other, each on all functions in order, and
says accurately whether it has changed one. If it fails, it says which pass has failed and why, and
leaves the functions as the calls up to this one have made them. -/
theorem outcome (P : Pipeline) (o : RunOptions) (M : Module) :
    Outcome P.passes o M (P.run o M) := by
  have hstart : Arrives P.passes o M.workspace 0 0 false M.workspace := .start
  cases stops_runPasses hstart List.drop_zero (Nat.zero_le _) with
  | finished b hcalls hverdict =>
    rw [Bool.false_or] at hcalls
    have hfunctions := hcalls.functions_eq rfl
    rw [List.take_length] at hfunctions
    refine .finished b hcalls hverdict hfunctions hcalls.eq_true_iff_changed
      (hcalls.eq_true_iff_hasStore.trans ?_)
    constructor
    · rintro ⟨k, i, f, -, hp, hf, hstore⟩
      exact ⟨k, hp, f, List.mem_of_getElem? hf, hstore⟩
    · rintro ⟨k, hp, f, hf, hstore⟩
      obtain ⟨i, hi⟩ := List.mem_iff_getElem?.mp hf
      exact ⟨k, i, f, Or.inl (List.getElem?_eq_some_iff.mp hp).1, hp, hi, hstore⟩
  | failed k j b u p call e hcalls hp hcall hfails hresult hverdict =>
    have hput := Workspace.functions_put hcalls.alike hcalls.functions hp hcall
    rw [← hresult] at hput
    refine .failed k j b u p call e hcalls hp hcall hfails hverdict hresult (fun i hi => ?_)
      fun i hi => ?_
    · have hat := hput i
      rwa [if_pos (Nat.lt_succ_of_le hi)] at hat
    · have hat := hput i
      rwa [if_neg (Nat.not_lt.mpr hi)] at hat
  | invalid k b p e hcalls hp hverify hfault hverdict =>
    obtain ⟨i, g, hg, hinvalid, hvalid⟩ := exists_of_firstFault? hfault
    exact .invalid k i b p g e hcalls hp hverify hg hinvalid hvalid hverdict
      (hcalls.functions_eq_of_length rfl)

end Pipeline

end ShaderIR
