import Mathlib.Data.List.Basic
import ShaderIR.Pass.Pipeline
import ShaderIR.Proofs.Outcome
import ShaderIR.Proofs.Text.Division

/-!
# Schedules

Passes are registered under arguments, of which the first registration stays, and scheduled one
after another. The pass that stores every output once can be scheduled once, under whatever
argument, and nothing else is refused. So a text is read as the passes of its segments, up to the
first segment that stands for no pass or for this pass again.
-/

set_option autoImplicit false

namespace ShaderIR

/-- Calls on an object, one after another: the answers, and the object that the calls leave behind.
A call that is refused leaves it as it was. -/
def attempts {σ α ε : Type} (call : σ → α → Except ε σ) (s : σ) :
    List α → List (Except ε Unit) × σ
  | [] => ([], s)
  | a :: as =>
    match call s a with
    | .ok t =>
      let (answers, u) := attempts call t as
      (.ok () :: answers, u)
    | .error e =>
      let (answers, u) := attempts call s as
      (.error e :: answers, u)

section Attempts

variable {σ α ε : Type} {call : σ → α → Except ε σ} {s t : σ} {a : α} (as : List α) {e : ε}

theorem attempts_of_ok (h : call s a = .ok t) : attempts call s (a :: as) =
    (.ok () :: (attempts call t as).1, (attempts call t as).2) := by
  simp only [attempts, h]

theorem attempts_of_error (h : call s a = .error e) : attempts call s (a :: as) =
    (.error e :: (attempts call s as).1, (attempts call s as).2) := by
  simp only [attempts, h]

end Attempts

namespace Registry

def resolve? (s : Registry) (arg : String) : Option Pass := (s.lookup? arg).map Registration.pass

/-- A registry finds the first of some registrations of an argument. -/
def Finds (s : Registry) (rs : List Registration) : Prop :=
  ∀ arg, s.lookup? arg = rs.find? fun r => r.arg == arg

/-- The registrations that a registry starts with. -/
inductive Starts : List Registration → Registry → Prop
  | empty : Starts [] .empty
  | builtin : Starts [own .validate, own .preserve] .builtin

theorem lookup?_insert (s : Registry) (r : Registration) (arg : String) :
    lookup? ⟨s.entries.insert r.arg r⟩ arg = if r.arg = arg then some r else s.lookup? arg := by
  simp [lookup?, Std.TreeMap.getElem?_insert]

theorem contains_eq_isSome (s : Registry) (arg : String) :
    s.entries.contains arg = (s.lookup? arg).isSome :=
  Std.TreeMap.contains_eq_isSome_getElem?

theorem finds_empty : empty.Finds [] := fun _ => Std.TreeMap.getElem?_emptyc

section Register

variable {known : List Registration} {s : Registry} (hs : s.Finds known) {r : Registration}
include hs

theorem register_of_mem (h : ∃ x ∈ known, x.arg = r.arg) :
    s.register r = .error (.duplicateRegistration r.arg) ∧ s.Finds (known ++ [r]) := by
  have hsome : (known.find? fun x => x.arg == r.arg).isSome = true := by
    simpa using h
  constructor
  · rw [register, contains_eq_isSome, hs, if_pos hsome]
  · intro arg
    rw [hs, List.find?_append]
    by_cases harg : r.arg = arg
    · subst harg
      rw [Option.or_of_isSome hsome]
    · rw [List.find?_singleton, if_neg (by simpa using harg), Option.or_none]

theorem register_of_notMem (h : ¬ ∃ x ∈ known, x.arg = r.arg) :
    ∃ t, s.register r = .ok t ∧ t.Finds (known ++ [r]) := by
  have hnone : (known.find? fun x => x.arg == r.arg) = none := by
    simpa using h
  refine ⟨⟨s.entries.insert r.arg r⟩, ?_, fun arg => ?_⟩
  · rw [register, contains_eq_isSome, hs, hnone]
    rfl
  · rw [lookup?_insert, List.find?_append, List.find?_singleton, hs]
    by_cases harg : r.arg = arg
    · subst harg
      rw [hnone, if_pos rfl, if_pos (beq_self_eq_true r.arg), Option.none_or]
    · rw [if_neg harg, if_neg (by simpa using harg), Option.or_none]

end Register

theorem Starts.finds {known : List Registration} {s : Registry} (h : Starts known s) :
    s.Finds known := by
  cases h with
  | empty => exact finds_empty
  | builtin =>
    obtain ⟨t, ht, hfinds⟩ := register_of_notMem finds_empty (r := own .validate) (by simp)
    obtain ⟨u, hu, hfinds⟩ := register_of_notMem hfinds (r := own .preserve) (by simp; decide)
    have hbuiltin := register_builtin
    rw [ht] at hbuiltin
    cases hu.symm.trans hbuiltin
    exact hfinds

def answer (before : List Registration) (r : Registration) : Except PassError Unit :=
  if ∃ x ∈ before, x.arg = r.arg then .error (.duplicateRegistration r.arg) else .ok ()

/-- What calls that register passes answer, and what the registry finds after them: a registration
of a new argument is accepted, and is the one that is found from then on. -/
structure Registered (known rs : List Registration) (r : List (Except PassError Unit) × Registry) :
    Prop where
  answers : r.1 = rs.mapIdx fun n x => answer (known ++ rs.take n) x
  finds : r.2.Finds (known ++ rs)

theorem Registered.cons {known rs : List Registration} {x : Registration}
    {r : List (Except PassError Unit) × Registry} (h : Registered (known ++ [x]) rs r) :
    Registered known (x :: rs) (answer known x :: r.1, r.2) where
  answers := by
    have htail := h.answers
    simp only [List.append_assoc, List.singleton_append] at htail
    rw [List.mapIdx_cons, htail, List.take_zero, List.append_nil]
    rfl
  finds := by
    have hfinds := h.finds
    rwa [List.append_assoc, List.singleton_append] at hfinds

theorem registered_attempts {known : List Registration} {s : Registry} (hs : s.Finds known)
    (rs : List Registration) : Registered known rs (attempts register s rs) := by
  induction rs generalizing known s with
  | nil => exact ⟨rfl, (List.append_nil known).symm ▸ hs⟩
  | cons r rs ih =>
    by_cases hr : ∃ x ∈ known, x.arg = r.arg
    · obtain ⟨hregister, hfinds⟩ := register_of_mem hs hr
      have hanswer : answer known r = .error (.duplicateRegistration r.arg) := if_pos hr
      rw [attempts_of_error rs hregister, ← hanswer]
      exact (ih hfinds).cons
    · obtain ⟨t, hregister, hfinds⟩ := register_of_notMem hs hr
      have hanswer : answer known r = .ok () := if_neg hr
      rw [attempts_of_ok rs hregister, ← hanswer]
      exact (ih hfinds).cons

end Registry

namespace Pipeline

variable {p p' : Pipeline} {q : Pass} {e : PassError}

/-- Only the pass that stores every output once is refused, if it has been scheduled before. -/
theorem add_eq (p : Pipeline) (q : Pass) : p.add q =
    if q = .preserve ∧ .preserve ∈ p.passes then .error (.passScheduledTwice Pass.preserve.name)
    else .ok ⟨p.passes ++ [q]⟩ := by
  cases q with
  | validate => rfl
  | preserve =>
    have hmem : Pass.preserve.name ∈ p.names ↔ .preserve ∈ p.passes := by
      rw [names, List.mem_map]
      constructor
      · rintro ⟨q, hq, hname⟩
        cases q with
        | preserve => exact hq
        | validate => exact absurd hname (by decide)
      · exact fun h => ⟨.preserve, h, rfl⟩
    simp only [add, Pass.isIdempotent, true_and, hmem]

theorem count_le_one_append {ps : List Pass} (hps : ps.count .preserve ≤ 1) :
    (ps ++ [q]).count .preserve ≤ 1 ↔ ¬ (q = .preserve ∧ .preserve ∈ ps) := by
  rw [List.count_append, List.count_singleton]
  by_cases hq : q = .preserve
  · have hmem : .preserve ∈ ps ↔ 0 < ps.count .preserve := List.count_pos_iff.symm
    rw [if_pos (beq_iff_eq.mpr hq), hmem]
    simp only [hq, true_and]
    omega
  · rw [if_neg (by simpa using hq)]
    simp only [hq, false_and, not_false_eq_true, iff_true]
    omega

/-- The passes that arguments stand for, of which one at most stores every output once. -/
structure Schedules (s : Registry) (args : List String) (ps : List Pass) : Prop where
  resolves : args.map s.resolve? = ps.map some
  once : ps.count .preserve ≤ 1

/-- Why an argument cannot be scheduled after some passes. -/
inductive Offends (s : Registry) (ps : List Pass) (arg : String) : PassError → Prop
  | unknown : s.lookup? arg = none → Offends s ps arg (.unknownPass arg)
  | twice : s.resolve? arg = some .preserve → .preserve ∈ ps →
      Offends s ps arg (.passScheduledTwice Pass.preserve.name)

/-- What a list of arguments is read as: their passes, or an error that names the first argument
which cannot be scheduled after those before it. -/
inductive ReadAs (s : Registry) (args : List String) : Except PassError Pipeline → Prop
  | passes (p : Pipeline) (hpasses : Schedules s args p.passes) : ReadAs s args (.ok p)
  | error (before : List String) (arg : String) (after : List String) (ps : List Pass)
      (e : PassError) (hargs : args = before ++ arg :: after) (hbefore : Schedules s before ps)
      (hoffends : Offends s ps arg e) : ReadAs s args (.error e)

theorem Schedules.concat {s : Registry} {args : List String} {ps : List Pass} {arg : String}
    (h : Schedules s args ps) (harg : s.resolve? arg = some q)
    (hq : ¬ (q = .preserve ∧ .preserve ∈ ps)) : Schedules s (args ++ [arg]) (ps ++ [q]) where
  resolves := by
    rw [List.map_append, List.map_append, h.resolves, List.map_singleton, List.map_singleton, harg]
  once := (count_le_one_append h.once).mpr hq

theorem readAs_addAll {s : Registry} {before : List String} {p : Pipeline}
    (hp : Schedules s before p.passes) (args : List String) :
    ReadAs s (before ++ args) (addAll s p args) := by
  -- the arguments before have been scheduled, and `args` are still to come
  induction args generalizing before p with
  | nil => exact .passes p (by rwa [List.append_nil])
  | cons arg args ih =>
    rw [addAll]
    cases hlookup : s.lookup? arg with
    | none => exact .error before arg args p.passes _ rfl hp (.unknown hlookup)
    | some r =>
      have hresolve : s.resolve? arg = some r.pass := by rw [Registry.resolve?, hlookup]; rfl
      dsimp only
      rw [add_eq]
      split
      · next htwice =>
        exact .error before arg args p.passes _ rfl hp (.twice (htwice.1 ▸ hresolve) htwice.2)
      · next honce =>
        have hrest := ih (p := ⟨p.passes ++ [r.pass]⟩) (hp.concat hresolve honce)
        rwa [List.append_assoc, List.singleton_append] at hrest

/-- The reading of a list of arguments: it succeeds exactly if every argument is registered and one
at most stands for the pass that stores every output once. -/
structure Reading (s : Registry) (args : List String) (r : Except PassError Pipeline) : Prop where
  readAs : ReadAs s args r
  ok_iff : (∃ p, r = .ok p) ↔ (∀ arg ∈ args, (s.lookup? arg).isSome = true) ∧
    args.countP (fun arg => s.resolve? arg = some .preserve) ≤ 1
  /-- The names are those of the passes, whatever their arguments are. -/
  names : ∀ p, r = .ok p → (args.map fun arg => (s.resolve? arg).map Pass.name) = p.names.map some

section Reading

variable {s : Registry} {args : List String} {ps : List Pass}

theorem countP_resolve? (h : args.map s.resolve? = ps.map some) :
    args.countP (fun arg => s.resolve? arg = some .preserve) = ps.count .preserve := by
  have hleft : args.countP (fun arg => s.resolve? arg = some .preserve) =
      (args.map s.resolve?).countP fun q => q = some .preserve := by
    rw [List.countP_map]
    rfl
  rw [hleft, h, List.countP_map, List.count]
  refine List.countP_congr fun q _ => ?_
  simp

theorem isSome_lookup?_iff {arg : String} :
    (s.lookup? arg).isSome = true ↔ ∃ q, s.resolve? arg = some q := by
  rw [← Option.isSome_iff_exists, Registry.resolve?, Option.isSome_map]

theorem ReadAs.reading {r : Except PassError Pipeline} (h : ReadAs s args r) :
    Reading s args r := by
  refine ⟨h, ?_, ?_⟩
  case refine_1 =>
    cases h with
    | passes p hp =>
      refine iff_of_true ⟨p, rfl⟩ ⟨fun arg harg => ?_, countP_resolve? hp.resolves ▸ hp.once⟩
      have hmem : s.resolve? arg ∈ p.passes.map some := hp.resolves ▸ List.mem_map_of_mem harg
      obtain ⟨q, -, hq⟩ := List.mem_map.mp hmem
      exact isSome_lookup?_iff.mpr ⟨q, hq.symm⟩
    | error before arg after ps e hargs hps hoffends =>
      refine iff_of_false nofun fun ⟨hall, hcount⟩ => ?_
      subst hargs
      cases hoffends with
      | unknown hnone =>
        have hsome := hall arg (List.mem_append_right _ List.mem_cons_self)
        rw [hnone] at hsome
        cases hsome
      | twice harg hmem =>
        -- the pass is counted before this argument, and here again
        have hbefore := countP_resolve? hps.resolves
        have hpos := List.count_pos_iff.mpr hmem
        rw [List.countP_append, List.countP_cons_of_pos (by simpa using harg), hbefore] at hcount
        omega
  case refine_2 =>
    rintro p rfl
    cases h with
    | passes _ hp =>
      have hnames : (args.map fun arg => (s.resolve? arg).map Pass.name) =
          (args.map s.resolve?).map (Option.map Pass.name) := by rw [List.map_map]; rfl
      rw [hnames, hp.resolves, names, List.map_map, List.map_map]
      rfl

end Reading

def answer (before : List Pass) (q : Pass) : Except PassError Unit :=
  if q = .preserve ∧ .preserve ∈ before then .error (.passScheduledTwice Pass.preserve.name)
  else .ok ()

/-- What calls that add passes answer, and the pipeline that they leave behind: it goes on with
the passes that were accepted. -/
structure Added (p : Pipeline) (qs : List Pass) (r : List (Except PassError Unit) × Pipeline) :
    Prop where
  answers : r.1 = qs.mapIdx fun n q => answer (p.passes ++ qs.take n) q
  passes : r.2.passes = p.passes ++ ((qs.zip r.1).filter fun x => x.2.isOk).map Prod.fst
  once : r.2.passes.count .preserve ≤ 1

theorem added_attempts {p : Pipeline} (hp : p.passes.count .preserve ≤ 1) (qs : List Pass) :
    Added p qs (attempts add p qs) := by
  induction qs generalizing p with
  | nil => exact ⟨rfl, (List.append_nil _).symm, hp⟩
  | cons q qs ih =>
    have hadd := add_eq p q
    by_cases hq : q = .preserve ∧ .preserve ∈ p.passes
    · rw [if_pos hq] at hadd
      have hanswer : answer p.passes q = .error (.passScheduledTwice Pass.preserve.name) :=
        if_pos hq
      -- a pass that is refused has been scheduled already, so it refuses no other
      have hsame : ∀ n x, answer (p.passes ++ (q :: qs).take (n + 1)) x =
          answer (p.passes ++ qs.take n) x := by
        intro n x
        simp only [answer, List.mem_append, hq.2, true_or]
      obtain ⟨hanswers, hpasses, honce⟩ := ih hp
      rw [attempts_of_error qs hadd]
      refine ⟨?_, hpasses, honce⟩
      rw [List.mapIdx_cons, List.take_zero, List.append_nil, hanswer, hanswers]
      simp only [hsame]
    · rw [if_neg hq] at hadd
      have hanswer : answer p.passes q = .ok () := if_neg hq
      obtain ⟨hanswers, hpasses, honce⟩ :=
        ih (p := ⟨p.passes ++ [q]⟩) ((count_le_one_append hp).mpr hq)
      simp only [List.append_assoc, List.singleton_append] at hanswers hpasses
      rw [attempts_of_ok qs hadd]
      refine ⟨?_, hpasses, honce⟩
      rw [List.mapIdx_cons, List.take_zero, List.append_nil, hanswer, hanswers]
      rfl

/-- Whatever has been registered, a text is read segment by segment, and a pipeline, new or read,
takes every pass that is added but the one that it holds already. -/
theorem reading_ofText {known : List Registration} {s : Registry} (hs : Registry.Starts known s)
    (rs : List Registration) (text : String) :
    Registry.Registered known rs (attempts Registry.register s rs) ∧
    (∃ args, (∀ names, Text.Segmented text names ↔ names = args) ∧
      Reading (attempts Registry.register s rs).2 args
        (ofText (attempts Registry.register s rs).2 text)) ∧
    ∀ p, p = .empty ∨ ofText (attempts Registry.register s rs).2 text = .ok p →
      ∀ qs, Added p qs (attempts add p qs) := by
  generalize ht : attempts Registry.register s rs = t
  have hnothing : Schedules t.2 [] empty.passes := ⟨rfl, Nat.zero_le _⟩
  have hread : ReadAs t.2 (Text.segments text) (ofText t.2 text) := readAs_addAll hnothing _
  refine ⟨ht ▸ Registry.registered_attempts hs.finds rs,
    ⟨Text.segments text, fun names => Text.segmented_iff, hread.reading⟩, fun p hp qs => ?_⟩
  refine added_attempts ?_ qs
  rcases hp with rfl | hp
  · exact Nat.zero_le _
  · rw [hp] at hread
    cases hread with
    | passes _ h => exact h.once

/-- The pass that stores every output once under another argument, and a registration of an
argument that is taken. -/
def aliases : List Registration :=
  [⟨"flush", "Store every output once", .preserve⟩, ⟨"validate", "Taken already", .preserve⟩]

/-- Under its other argument the pass cannot be scheduled again. -/
theorem aliases_reading :
    Registry.Starts [Registry.own .validate, Registry.own .preserve] .builtin ∧
    (attempts Registry.register .builtin aliases).1 =
      [.ok (), .error (.duplicateRegistration "validate")] ∧
    ofText (attempts Registry.register .builtin aliases).2
      " flush,, validate , hlsl-dxil-preserve-all-outputs" =
        .error (.passScheduledTwice Pass.preserve.name) ∧
    (∃ args, Text.Segmented " flush,, validate , hlsl-dxil-preserve-all-outputs" args ∧
      Reading (attempts Registry.register .builtin aliases).2 args
        (.error (.passScheduledTwice Pass.preserve.name))) ∧
    Added .empty [.preserve, .validate, .preserve]
      (attempts add .empty [.preserve, .validate, .preserve]) := by
  have htext : ofText (attempts Registry.register .builtin aliases).2
      " flush,, validate , hlsl-dxil-preserve-all-outputs" =
        .error (.passScheduledTwice Pass.preserve.name) := rfl
  obtain ⟨hregistered, ⟨args, hargs, hreading⟩, hadded⟩ := reading_ofText .builtin aliases
    " flush,, validate , hlsl-dxil-preserve-all-outputs"
  rw [htext] at hreading
  exact ⟨.builtin, hregistered.answers, htext, ⟨args, (hargs args).mpr rfl, hreading⟩,
    hadded .empty (Or.inl rfl) _⟩

end Pipeline

end ShaderIR
