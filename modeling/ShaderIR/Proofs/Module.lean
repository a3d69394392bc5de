import ShaderIR.Proofs.Pass.Sequence
import ShaderIR.Proofs.Preserve.Frame

/-!
# Modules and their names

A module names its functions twice: each is numbered by its place, and an index leads from its name
to this number. Functions are only added, under names that are not taken, and a run of passes
rewrites them where they stand, so the two agree whatever is done to a module.
-/

set_option autoImplicit false

namespace ShaderIR

theorem Pass.header_run (p : Pass) (f : Function) (m : Metadata) :
    (p.run f m).func.header = f.header := by
  cases p with
  | preserve => exact Preserve.header_run f m
  | validate =>
    rw [Pass.run]
    split <;> rfl

theorem Function.header_after (m : Metadata) (f : Function) (ps : List Pass) :
    (f.after m ps).header = f.header := by
  induction ps generalizing f with
  | nil => rfl
  | cons p ps ih => exact (ih _).trans (p.header_run f m)

namespace Pipeline

theorem index_runPasses (o : RunOptions) (ps : List Pass) (M : Module) :
    (runPasses o ps M).result.index = M.index := by
  induction ps generalizing M with
  | nil => rfl
  | cons p ps ih =>
    have hindex : (p.runOnModule o M).result.index = M.index := by rw [Pass.result_runOnModule]
    cases h : (p.runOnModule o M).verdict with
    | error e => rw [(runPasses_of_error ps h).1, hindex]
    | ok c => rw [(runPasses_of_ok ps h).1, ih, hindex]

theorem exists_after_of_run (P : Pipeline) (o : RunOptions) (M : Module) (i : Nat) :
    ∃ k, (P.run o M).result.functions[i]? =
      M.functions[i]?.map fun f => f.after M.metadataOrEmpty (P.passes.take k) := by
  have hstart : Arrives P.passes o M.workspace 0 0 false M.workspace := .start
  cases stops_runPasses hstart List.drop_zero (Nat.zero_le _) with
  | finished c hcalls hverdict => exact ⟨_, hcalls.functions i⟩
  | failed k j c u p call e hcalls hp hcall hfails hresult hverdict =>
    have hput := Workspace.functions_put hcalls.alike hcalls.functions hp hcall i
    rw [← hresult] at hput
    exact ⟨_, hput⟩
  | invalid k c p e hcalls hp hverify hfault hverdict => exact ⟨_, hcalls.functions i⟩

theorem map_header_run (P : Pipeline) (o : RunOptions) (M : Module) :
    (P.run o M).result.functions.map Function.header = M.functions.map Function.header := by
  refine List.ext_getElem? fun i => ?_
  obtain ⟨k, hk⟩ := P.exists_after_of_run o M i
  rw [List.getElem?_map, List.getElem?_map, hk, Option.map_map]
  congr 1
  funext f
  exact f.header_after _ _

end Pipeline

theorem getElem?_concat_eq_some {α : Type} {l : List α} {a b : α} {n : Nat} :
    (l ++ [a])[n]? = some b ↔ l[n]? = some b ∨ n = l.length ∧ a = b := by
  rcases Nat.lt_trichotomy n l.length with hn | rfl | hn
  · rw [List.getElem?_append_left hn]
    simp [Nat.ne_of_lt hn]
  · rw [List.getElem?_concat_length]
    simp
  · rw [List.getElem?_eq_none (by rw [List.length_append, List.length_singleton]; omega),
      List.getElem?_eq_none (Nat.le_of_lt hn)]
    simp [Nat.ne_of_gt hn]

theorem filter_name_eq_singleton {fs : List Function} (h : (fs.map Function.name).Nodup)
    {s : String} {f : Function} :
    fs.filter (fun g => g.name = s) = [f] ↔ f ∈ fs ∧ f.name = s := by
  constructor
  · intro heq
    have hf : f ∈ fs.filter fun g => g.name = s := heq ▸ List.mem_singleton_self f
    simpa using hf
  · rintro ⟨hf, rfl⟩
    induction fs with
    | nil => cases hf
    | cons g gs ih =>
      obtain ⟨hg, hgs⟩ := List.nodup_cons.mp h
      rcases List.mem_cons.mp hf with rfl | hf
      · have hnone : gs.filter (fun g => g.name = f.name) = [] := by
          rw [List.filter_eq_nil_iff]
          intro g' hg' heq
          exact hg (List.mem_map.mpr ⟨g', hg', of_decide_eq_true heq⟩)
        rw [List.filter_cons_of_pos (by simp), hnone]
      · have hne : g.name ≠ f.name := fun heq => hg (heq ▸ List.mem_map_of_mem hf)
        rw [List.filter_cons_of_neg (by simpa using hne)]
        exact ih hgs hf

namespace Module

def names (m : Module) : List String := m.functions.map Function.name

/-- Numbers and the index agree with the places of the functions. -/
structure Indexed (m : Module) : Prop where
  number : ∀ (n : Nat) (id : FunctionId), (m.functions.map Function.id)[n]? = some id → id = ⟨n⟩
  index : ∀ s n, m.index[s]? = some (FunctionId.mk n) ↔ m.names[n]? = some s

theorem indexed_empty (name : String) : (empty name).Indexed where
  number n id h := by cases h
  index s n := by
    have hnone : (empty name).index[s]? = none := Std.TreeMap.getElem?_emptyc
    rw [hnone]
    exact iff_of_false nofun nofun

theorem add_eq_none {m : Module} {f : Function} :
    m.add f = none ↔ m.index.contains f.name = true := by
  unfold add
  split
  · next h => exact iff_of_true rfl h
  · next h => exact iff_of_false nofun h

theorem add_eq_some {m m' : Module} {f : Function} {id : FunctionId} :
    m.add f = some (id, m') ↔ ¬ m.index.contains f.name = true ∧ id = ⟨m.functions.length⟩ ∧
      m' = { m with
        functions := m.functions ++ [{ f with id := id }]
        index := m.index.insert f.name id } := by
  unfold add
  split
  · next h => exact iff_of_false nofun fun hadded => hadded.1 h
  · next h =>
    constructor
    · rintro ⟨⟩
      exact ⟨h, rfl, rfl⟩
    · rintro ⟨-, rfl, rfl⟩
      rfl

namespace Indexed

variable {m m' : Module} (h : m.Indexed)
include h

theorem contains_iff {s : String} : m.index.contains s = true ↔ s ∈ m.names := by
  rw [Std.TreeMap.contains_eq_isSome_getElem?, Option.isSome_iff_exists, List.mem_iff_getElem?]
  constructor
  · rintro ⟨⟨n⟩, hn⟩
    exact ⟨n, (h.index s n).mp hn⟩
  · rintro ⟨n, hn⟩
    exact ⟨⟨n⟩, (h.index s n).mpr hn⟩

theorem of_add {f : Function} {id : FunctionId} (hadd : m.add f = some (id, m')) :
    m'.Indexed := by
  obtain ⟨hfree, rfl, rfl⟩ := add_eq_some.mp hadd
  rw [h.contains_iff] at hfree
  constructor
  case number =>
    intro n id hid
    rw [List.map_append, List.map_singleton, getElem?_concat_eq_some, List.length_map] at hid
    rcases hid with hid | ⟨rfl, rfl⟩
    · exact h.number n id hid
    · rfl
  case index =>
    intro s n
    have hindex : (m.index.insert f.name ⟨m.functions.length⟩)[s]? =
        if f.name = s then some ⟨m.functions.length⟩ else m.index[s]? := by
      simp [Std.TreeMap.getElem?_insert]
    rw [hindex, names, List.map_append, List.map_singleton, getElem?_concat_eq_some,
      List.length_map]
    constructor
    · intro heq
      split at heq
      · next hs =>
        cases heq
        exact Or.inr ⟨rfl, hs⟩
      · exact Or.inl ((h.index s n).mp heq)
    · rintro (hold | ⟨rfl, hs⟩)
      · -- the name is new, so no function from before has it
        have hne : f.name ≠ s := by
          rintro rfl
          exact hfree (List.mem_of_getElem? hold)
        rw [if_neg hne]
        exact (h.index s n).mpr hold
      · exact if_pos hs

theorem of_headers (hindex : m'.index = m.index)
    (hheaders : m'.functions.map Function.header = m.functions.map Function.header) :
    m'.Indexed := by
  have hids : m'.functions.map Function.id = m.functions.map Function.id := by
    simpa [Function.header, Function.comp_def] using congrArg (List.map Prod.fst) hheaders
  have hnames : m'.names = m.names := by
    simpa [names, Function.header, Function.comp_def] using
      congrArg (List.map fun x => x.2.1) hheaders
  constructor
  · rw [hids]
    exact h.number
  · rw [hindex, hnames]
    exact h.index

end Indexed

/-- What can be done to a module. -/
inductive Command where
  | add (f : Function)
  | attach (d : Metadata)
  | ensureMetadata
  | run (p : Pipeline) (o : RunOptions)

/-- The module that a command leaves behind, whether it succeeds or fails. -/
def step (m : Module) : Command → Module
  | .add f =>
    match m.add f with
    | some (_, m') => m'
    | none => m
  | .attach d => m.attach d
  | .ensureMetadata => m.ensureMetadata
  | .run p o => (p.run o m).result

def after (m : Module) (cmds : List Command) : Module := cmds.foldl step m

theorem indexed_step {m : Module} (h : m.Indexed) (cmd : Command) : (m.step cmd).Indexed := by
  cases cmd with
  | add f =>
    rw [step]
    split
    · next hadd => exact h.of_add hadd
    · exact h
  | attach d => exact h.of_headers rfl rfl
  | ensureMetadata => exact h.of_headers rfl rfl
  | run p o => exact h.of_headers (Pipeline.index_runPasses o p.passes m) (p.map_header_run o m)

theorem indexed_after {m : Module} (h : m.Indexed) (cmds : List Command) :
    (m.after cmds).Indexed := by
  induction cmds generalizing m with
  | nil => exact h
  | cons cmd cmds ih => exact ih (indexed_step h cmd)

section Lookup

variable {m : Module} (h : m.Indexed)
include h

theorem Indexed.id_eq {n : Nat} {f : Function} (hf : m.functions[n]? = some f) : f.id = ⟨n⟩ := by
  apply h.number n f.id
  rw [List.getElem?_map, hf, Option.map_some]

theorem Indexed.place_unique {n n' : Nat} {s : String} (hn : m.names[n]? = some s)
    (hn' : m.names[n']? = some s) : n = n' := by
  have hentry := (h.index s n).mpr hn
  rw [(h.index s n').mpr hn'] at hentry
  cases hentry
  rfl

theorem Indexed.nodup_names : m.names.Nodup := by
  rw [List.nodup_iff_getElem?_ne_getElem?]
  intro i j hij hj heq
  have hi : m.names[i]? = some (m.names.get ⟨i, Nat.lt_trans hij hj⟩) := List.getElem?_eq_getElem _
  exact absurd (h.place_unique hi (heq ▸ hi)) (Nat.ne_of_lt hij)

theorem Indexed.functionByName?_eq_some {s : String} {f : Function} :
    m.functionByName? s = some f ↔ f ∈ m.functions ∧ f.name = s := by
  rw [functionByName?, Option.bind_eq_some_iff]
  constructor
  · rintro ⟨⟨n⟩, hentry, hf⟩
    have hname := (h.index s n).mp hentry
    rw [names, List.getElem?_map, show m.functions[n]? = some f from hf] at hname
    exact ⟨List.mem_of_getElem? hf, Option.some_inj.mp hname⟩
  · rintro ⟨hf, rfl⟩
    obtain ⟨n, hn⟩ := List.mem_iff_getElem?.mp hf
    refine ⟨⟨n⟩, (h.index _ n).mpr ?_, hn⟩
    rw [names, List.getElem?_map, hn, Option.map_some]

theorem Indexed.functionByName?_iff_filter {s : String} {f : Function} :
    m.functionByName? s = some f ↔ m.functions.filter (fun g => g.name = s) = [f] :=
  h.functionByName?_eq_some.trans (filter_name_eq_singleton h.nodup_names).symm

end Lookup

/-- What holds of a module and of every further command on it. -/
structure Orderly (m : Module) : Prop where
  numbered : ∀ (n : Nat) (f : Function), m.functions[n]? = some f → f.id = ⟨n⟩
  distinct : m.names.Nodup
  /-- A name is found if exactly one function has it, and then this function is found. -/
  found : ∀ s f, m.functionByName? s = some f ↔ m.functions.filter (fun g => g.name = s) = [f]
  refused : ∀ f, f.name ∈ m.names → m.add f = none ∧ m.step (.add f) = m
  added : ∀ f, f.name ∉ m.names → ∃ m', m.add f = some (⟨m.functions.length⟩, m') ∧
    m'.functions = m.functions ++ [{ f with id := ⟨m.functions.length⟩ }]
  /-- A run changes what some of its passes change in each function, where it stands. -/
  rewritten : ∀ (P : Pipeline) (o : RunOptions) (i : Nat), ∃ k,
    (P.run o m).result.functions[i]? =
      m.functions[i]?.map fun f => f.after m.metadataOrEmpty (P.passes.take k)
  /-- No run changes the number of functions, their names, parameters or order. -/
  kept : ∀ (P : Pipeline) (o : RunOptions),
    (P.run o m).result.functions.map Function.header = m.functions.map Function.header

theorem Indexed.orderly {m : Module} (h : m.Indexed) : m.Orderly where
  numbered _ _ hf := h.id_eq hf
  distinct := h.nodup_names
  found _ _ := h.functionByName?_iff_filter
  refused f hf := by
    have hnone : m.add f = none := add_eq_none.mpr (h.contains_iff.mpr hf)
    exact ⟨hnone, by rw [step, hnone]⟩
  added f hf := by
    refine ⟨_, add_eq_some.mpr ⟨?_, rfl, rfl⟩, rfl⟩
    rwa [h.contains_iff]
  rewritten P o i := P.exists_after_of_run o m i
  kept P o := P.map_header_run o m

/-- Whatever is done to a new module, its functions are numbered by their places and found by
their names, and a run, however it ends, rewrites each of them in its place. -/
theorem orderly_after (name : String) (cmds : List Command) :
    ((empty name).after cmds).Orderly :=
  (indexed_after (indexed_empty name) cmds).orderly

end Module

end ShaderIR
