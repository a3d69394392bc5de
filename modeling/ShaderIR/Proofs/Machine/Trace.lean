import ShaderIR.Proofs.Machine.Line
import ShaderIR.Proofs.Machine.Origin

/-!
# Traces

A run passes one point after another. A trace lists the points at which it executes an
instruction and goes on, so that what happened on the way can be counted and looked up, however
long the run is and whether or not it ends.
-/

set_option autoImplicit false

namespace ShaderIR

theorem Instr.isTerminator_of_branches {ins : Instr} {target : BlockId} {args : List ValueId}
    (h : (target, args) ∈ ins.branches) : ins.isTerminator = true := by
  cases ins with
  | br | condbr => rfl
  | _ => cases h

def Effect.storesTo? (slot offset : Nat) : Effect → Option Value
  | .write s o x => if slot = s ∧ offset = o then some x else none
  | _ => none

namespace Machine

theorem cell?_apply {m : Machine} {slot : Nat} (hlt : slot < m.slots.size) (e : Effect)
    (offset : Nat) : slot < (m.apply e).slots.size ∧ (m.apply e).cell? slot offset =
      (m.cell? slot offset).map fun x => (e.storesTo? slot offset).getD x := by
  have hsame : ∀ m' : Machine, m'.slots = m.slots →
      slot < m'.slots.size ∧ m'.cell? slot offset = (m.cell? slot offset).map fun x => x := by
    intro m' hslots
    rw [cell?_congr hslots, hslots, Option.map_id']
    exact ⟨hlt, rfl⟩
  cases e with
  | write s o y =>
    refine ⟨?_, ?_⟩
    · rw [apply, write, Array.size_modify]
      exact hlt
    · rw [apply, cell?_write, Effect.storesTo?]
      split
      · next heq =>
        obtain ⟨rfl, rfl⟩ := heq
        rfl
      · exact Option.map_id'.symm
  | allocate v cells =>
    refine ⟨?_, ?_⟩
    · rw [apply, slots_allocate, Array.size_push]
      exact Nat.lt_succ_of_lt hlt
    · rw [apply, cell?, slots_allocate, Array.getElem?_push_lt hlt,
        ← Array.getElem?_eq_getElem hlt]
      exact Option.map_id'.symm
  | jump target bs => exact hsame _ (slots_bindAll m bs)
  | assign | record | ret => exact hsame _ rfl

theorem jump_of_effect {f : Function} {m : Machine} {ins : Instr} {target : BlockId}
    {bs : List (ValueId × Value)} (h : m.effect f ins = .ok (.jump target bs)) :
    ∃ blk, f.block? target = some blk ∧ ∀ b ∈ bs, b.1 ∈ blk.paramIds := by
  cases ht : ins.isTerminator with
  | false =>
    rcases effect_straight ht h with ⟨r, x, -, -, heq⟩ | ⟨r, ty, name, n, -, -, heq⟩ |
      ⟨ptr, w, slot, o, x, -, -, -, -, heq⟩ | ⟨r, callee, args, ty, o, -, -, heq⟩ <;> cases heq
  | true =>
    cases hr : ins.isReturn with
    | false =>
      obtain ⟨target', args, hjump, -⟩ := effect_branch ht hr h
      obtain ⟨blk, xs, hblk, -, heq⟩ := jump_eq_ok.mp hjump
      cases heq
      exact ⟨blk, hblk, fun b hb => (List.of_mem_zip hb).1⟩
    | true =>
      obtain ⟨values, xs, -, -, heq⟩ := effect_return hr h
      cases heq

end Machine

namespace Config

def instr? (c : Config) : Option Instr := c.rest.head?

def defines (v : ValueId) (c : Config) : Bool := c.instr?.bind Instr.result? == some v

end Config

namespace Function

/-- The point of a run after this one, unless the run ends here. -/
def next? (f : Function) : Config → Option Config
  | ⟨_, [], _⟩ => none
  | ⟨block, ins :: rest, m⟩ =>
    match m.effect f ins with
    | .error _ => none
    | .ok (.ret _) => none
    | .ok (.jump target bindings) => some ⟨target, f.code target, m.bindAll bindings⟩
    | .ok e => some ⟨block, rest, m.apply e⟩

/-- Whether a run branches to the entry here. -/
def reenters (f : Function) (c : Config) : Bool :=
  c.instr?.any Instr.isTerminator && (f.next? c).any fun d => d.block == .entry

/-- The points at which a run executes an instruction on the way from one point to another. -/
inductive Trace (f : Function) : Config → List Config → Config → Prop
  | refl (c : Config) : Trace f c [] c
  | step {c d e : Config} {cs : List Config} (head : f.next? c = some d)
      (tail : Trace f d cs e) : Trace f c (c :: cs) e

variable {f : Function}

theorem next?_eq_some {c d : Config} : f.next? c = some d ↔
    ∃ ins rest e, c.rest = ins :: rest ∧ c.machine.effect f ins = .ok e ∧
      (ins.isTerminator = false ∧ d = ⟨c.block, rest, c.machine.apply e⟩ ∨
        ∃ target args bs, (target, args) ∈ ins.branches ∧ e = .jump target bs ∧
          d = ⟨target, f.code target, c.machine.bindAll bs⟩) := by
  obtain ⟨b, is, m⟩ := c
  cases is with
  | nil => simp [next?]
  | cons ins rest =>
    constructor
    · intro h
      rw [next?] at h
      cases he : m.effect f ins with
      | error stop =>
        rw [he] at h
        cases h
      | ok e =>
        refine ⟨ins, rest, e, rfl, he, ?_⟩
        rw [he] at h
        cases ht : ins.isTerminator with
        | false =>
          left
          refine ⟨rfl, ?_⟩
          rcases Machine.effect_straight ht he with ⟨r, x, -, -, rfl⟩ |
            ⟨r, ty, name, n, -, -, rfl⟩ | ⟨ptr, w, slot, o, x, -, -, -, -, rfl⟩ |
            ⟨r, callee, args, ty, o, -, -, rfl⟩ <;>
            exact (Option.some.inj h).symm
        | true =>
          right
          cases hr : ins.isReturn with
          | false =>
            obtain ⟨target, args, hjump, hmem⟩ := Machine.effect_branch ht hr he
            obtain ⟨blk, xs, -, -, rfl⟩ := Machine.jump_eq_ok.mp hjump
            exact ⟨target, args, _, hmem, rfl, (Option.some.inj h).symm⟩
          | true =>
            obtain ⟨values, xs, -, -, rfl⟩ := Machine.effect_return hr he
            cases h
    · rintro ⟨ins', rest', e, heq, he, hcases⟩
      cases heq
      have he' : m.effect f ins = .ok e := he
      rw [next?, he']
      rcases hcases with ⟨hs, rfl⟩ | ⟨target, args, bs, -, rfl, rfl⟩
      · rcases Machine.effect_straight hs he' with ⟨r, x, -, -, rfl⟩ | ⟨r, ty, name, n, -, -, rfl⟩ |
          ⟨ptr, w, slot, o, x, -, -, -, -, rfl⟩ | ⟨r, callee, args, ty, o, -, -, rfl⟩ <;> rfl
      · rfl

theorem effect_of_next? {c d : Config} (h : f.next? c = some d) :
    ∃ ins e, c.instr? = some ins ∧ c.machine.effect f ins = .ok e ∧
      d.machine = c.machine.apply e := by
  obtain ⟨ins, rest, e, hrest, he, hcases⟩ := next?_eq_some.mp h
  refine ⟨ins, e, by rw [Config.instr?, hrest]; rfl, he, ?_⟩
  rcases hcases with ⟨-, rfl⟩ | ⟨target, args, bs, -, rfl, rfl⟩ <;> rfl

namespace Trace

variable {c d e : Config} {cs ds : List Config}

theorem append (h : f.Trace c cs d) (h' : f.Trace d ds e) : f.Trace c (cs ++ ds) e := by
  induction h with
  | refl c => exact h'
  | step head _ ih => exact .step head (ih h')

/-- A run goes the way of its traces. -/
theorem exec_eq (h : f.Trace c cs d) (fuel : Nat) :
    f.exec (cs.length + fuel) c = f.exec fuel d := by
  induction h with
  | refl c => rw [List.length_nil, Nat.zero_add]
  | @step c d e cs head _ ih =>
    obtain ⟨b, is, m⟩ := c
    obtain ⟨ins, rest, eff, rfl, he, hcases⟩ := next?_eq_some.mp head
    rw [List.length_cons, Nat.add_right_comm]
    rcases hcases with ⟨hs, rfl⟩ | ⟨target, args, bs, -, rfl, rfl⟩
    · rw [exec_cons hs he]
      exact ih
    · rw [exec_jump he]
      exact ih

theorem split (h : f.Trace c cs d) (h' : f.Trace c ds e) (hle : ds.length ≤ cs.length) :
    ∃ rest, cs = ds ++ rest ∧ f.Trace e rest d := by
  induction h' generalizing cs with
  | refl c => exact ⟨cs, rfl, h⟩
  | step head _ ih =>
    cases h with
    | refl => exact absurd hle (by simp)
    | step head' tail' =>
      cases head.symm.trans head'
      obtain ⟨rest, rfl, htail⟩ := ih tail' (by simpa using hle)
      exact ⟨rest, rfl, htail⟩

theorem invariant {P : Config → Prop} (h : f.Trace c cs d) (hc : P c)
    (hstep : ∀ a ∈ cs, ∀ b, P a → f.next? a = some b → P b) : P d := by
  induction h with
  | refl c => exact hc
  | @step c d e cs head _ ih =>
    exact ih (hstep c List.mem_cons_self d hc head)
      fun a ha => hstep a (List.mem_cons_of_mem c ha)

end Trace

/-- The point stands in the function: what is left of the block is the end of its code. -/
def At (f : Function) (c : Config) : Prop := ∃ done, f.code c.block = done ++ c.rest

theorem at_start (f : Function) (entry : Block) (args : List Value) : f.At (f.start entry args) :=
  ⟨[], rfl⟩

theorem At.next? {c d : Config} (h : f.At c) (hn : f.next? c = some d) : f.At d := by
  obtain ⟨done, hdone⟩ := h
  obtain ⟨ins, rest, e, hrest, -, ⟨-, rfl⟩ | ⟨target, args, bs, -, -, rfl⟩⟩ := next?_eq_some.mp hn
  · refine ⟨done ++ [ins], ?_⟩
    rw [hdone, hrest]
    simp
  · exact ⟨[], rfl⟩

theorem At.trace {c d : Config} {cs : List Config} (h : f.At c) (ht : f.Trace c cs d) : f.At d :=
  ht.invariant h fun _ _ _ ha hn => ha.next? hn

theorem At.exists_mem {c : Config} (h : f.At c) (hf : f.Consistent) {ins : Instr}
    (hi : c.instr? = some ins) : ∃ i, (i, ins) ∈ f.instrs := by
  obtain ⟨done, hdone⟩ := h
  obtain ⟨rest, hrest⟩ := List.head?_eq_some_iff.mp hi
  have hmem : ins ∈ (f.blockInstrs c.block).map Prod.snd := by
    show ins ∈ f.code c.block
    rw [hdone, hrest]
    simp
  obtain ⟨p, hp, rfl⟩ := List.mem_map.mp hmem
  exact ⟨p.1, hf.mem_instrs.mpr (instr?_of_mem_blockInstrs hp)⟩

theorem Trace.sourced {c d : Config} {cs : List Config} (h : f.Trace c cs d) (hf : f.Consistent)
    (hat : f.At c) (hc : c.machine.Sourced f) : d.machine.Sourced f := by
  refine (h.invariant (P := fun c => f.At c ∧ c.machine.Sourced f) ⟨hat, hc⟩ ?_).2
  rintro a - b ⟨hata, ha⟩ hn
  obtain ⟨ins, e, hi, he, hb⟩ := effect_of_next? hn
  obtain ⟨i, hp⟩ := hata.exists_mem hf hi
  refine ⟨hata.next? hn, ?_⟩
  rw [hb]
  exact ha.apply hp he

theorem sourced_start {entry : Block} {rest : List Block} (hb : f.blocks = entry :: rest)
    (args : List Value) : (f.start entry args).machine.Sourced f :=
  (Machine.sourced_initial f).bindAll (hb ▸ List.mem_cons_self) fun _ h => (List.of_mem_zip h).1

theorem trace_of_exec {fuel : Nat} {c : Config} {xs : List Value}
    (h : (f.exec fuel c).ending = .ok xs) :
    ∃ cs d ins, f.Trace c cs d ∧ cs.length < fuel ∧ d.instr? = some ins ∧
      ins.isReturn = true ∧ d.machine.effect f ins = .ok (.ret xs) ∧
      f.exec fuel c = ⟨d.machine.outputs.toList, .ok xs⟩ := by
  induction fuel generalizing c with
  | zero => obtain ⟨b, _ | ⟨ins, rest⟩, m⟩ := c <;> cases h
  | succ fuel ih =>
    obtain ⟨b, is, m⟩ := c
    cases is with
    | nil => cases h
    | cons ins rest =>
      obtain ⟨e, he⟩ := effect_of_exec h
      cases hr : ins.isReturn with
      | true =>
        obtain ⟨values, ys, -, -, rfl⟩ := Machine.effect_return hr he
        have hexec := exec_ret he fuel b rest
        rw [hexec] at h
        cases h
        exact ⟨[], _, ins, .refl _, Nat.succ_pos fuel, rfl, hr, he, hexec⟩
      | false =>
        obtain ⟨d, hn, hexec⟩ : ∃ d, f.next? ⟨b, ins :: rest, m⟩ = some d ∧
            f.exec (fuel + 1) ⟨b, ins :: rest, m⟩ = f.exec fuel d := by
          cases ht : ins.isTerminator with
          | false =>
            exact ⟨_, next?_eq_some.mpr ⟨ins, rest, e, rfl, he, Or.inl ⟨ht, rfl⟩⟩,
              exec_cons ht he fuel b rest⟩
          | true =>
            obtain ⟨target, args, hjump, hmem⟩ := Machine.effect_branch ht hr he
            obtain ⟨blk, ys, -, -, rfl⟩ := Machine.jump_eq_ok.mp hjump
            exact ⟨_, next?_eq_some.mpr ⟨ins, rest, _, rfl, he,
              Or.inr ⟨target, args, _, hmem, rfl, rfl⟩⟩, exec_jump he fuel b rest⟩
        rw [hexec] at h ⊢
        obtain ⟨cs, e', ins', htrace, hlt, hrest⟩ := ih h
        exact ⟨_, e', ins', .step hn htrace, Nat.succ_lt_succ hlt, hrest⟩

/-- A run that an instruction stops, other than for a limitation, has passed some points before. -/
theorem trace_of_exec_error {fuel : Nat} {c : Config} {e : Stop}
    (h : (f.exec fuel c).ending = .error e) (he : ∀ l, e ≠ .error (.unsupported l)) :
    ∃ cs d ins, f.Trace c cs d ∧ d.instr? = some ins ∧ d.machine.effect f ins = .error e := by
  induction fuel generalizing c with
  | zero =>
    obtain ⟨b, _ | ⟨ins, rest⟩, m⟩ := c <;>
      exact absurd (Except.error.inj h).symm (he _)
  | succ fuel ih =>
    obtain ⟨b, is, m⟩ := c
    cases is with
    | nil => exact absurd (Except.error.inj h).symm (he _)
    | cons ins rest =>
      have hstep : ∀ d, f.next? ⟨b, ins :: rest, m⟩ = some d →
          (f.exec fuel d).ending = .error e → ∃ cs d' ins',
            f.Trace ⟨b, ins :: rest, m⟩ cs d' ∧ d'.instr? = some ins' ∧
              d'.machine.effect f ins' = .error e := by
        intro d hn hd
        obtain ⟨cs, d', ins', htrace, hrest⟩ := ih hd
        exact ⟨_, d', ins', .step hn htrace, hrest⟩
      rw [exec] at h
      cases heff : m.effect f ins with
      | error e' =>
        rw [heff] at h
        cases h
        exact ⟨[], _, ins, .refl _, rfl, heff⟩
      | ok eff =>
        rw [heff] at h
        cases eff with
        | ret xs => cases h
        | assign | allocate | write | record | jump =>
          exact hstep _ (by rw [next?, heff]) h

def stored? (f : Function) (slot offset : Nat) (c : Config) : Option Value :=
  (c.instr?.bind fun ins => (c.machine.effect f ins).toOption).bind (Effect.storesTo? slot offset)

/-- The value that is stored last to a cell on the way. -/
def lastStored (f : Function) (slot offset : Nat) : List Config → Option Value
  | [] => none
  | c :: cs => (f.lastStored slot offset cs).or (f.stored? slot offset c)

theorem stored?_eq {c : Config} {ins : Instr} {e : Effect} (hi : c.instr? = some ins)
    (he : c.machine.effect f ins = .ok e) (slot offset : Nat) :
    f.stored? slot offset c = e.storesTo? slot offset := by
  rw [stored?, hi, Option.bind_some, he]
  rfl

theorem stored?_of_alloca {c : Config} {r : ValueId} {ty : Ty} {name : Option String}
    (hi : c.instr? = some (.alloca r ty name)) (slot offset : Nat) :
    f.stored? slot offset c = none := by
  rw [stored?, hi, Option.bind_some, Machine.effect]
  cases ty.cells? <;> rfl

theorem lastStored_append (slot offset : Nat) (cs ds : List Config) :
    f.lastStored slot offset (cs ++ ds) =
      (f.lastStored slot offset ds).or (f.lastStored slot offset cs) := by
  induction cs with
  | nil => rw [List.nil_append, lastStored, Option.or_none]
  | cons c cs ih => rw [List.cons_append, lastStored, ih, lastStored, Option.or_assoc]

theorem lastStored_eq_none {slot offset : Nat} {cs : List Config}
    (h : ∀ c ∈ cs, f.stored? slot offset c = none) : f.lastStored slot offset cs = none := by
  induction cs with
  | nil => rfl
  | cons c cs ih =>
    rw [lastStored, ih fun d hd => h d (List.mem_cons_of_mem c hd), h c List.mem_cons_self]
    rfl

theorem Trace.cell?_eq {c d : Config} {cs : List Config} (h : f.Trace c cs d) {slot : Nat}
    (hlt : slot < c.machine.slots.size) (offset : Nat) : d.machine.cell? slot offset =
      (c.machine.cell? slot offset).map fun x => (f.lastStored slot offset cs).getD x := by
  induction h with
  | refl c => exact Option.map_id'.symm
  | @step c d e cs head _ ih =>
    obtain ⟨ins, eff, hi, he, hd⟩ := effect_of_next? head
    obtain ⟨hlt', hcell⟩ := Machine.cell?_apply hlt eff offset
    rw [← hd] at hlt' hcell
    rw [ih hlt', hcell, Option.map_map, lastStored, stored?_eq hi he]
    congr 1
    funext x
    cases f.lastStored slot offset cs <;> rfl

theorem Trace.values_eq {c d : Config} {cs : List Config} (h : f.Trace c cs d) {v : ValueId}
    (hparam : ∀ blk ∈ f.blocks, v ∉ blk.paramIds) (hcs : ∀ a ∈ cs, a.defines v = false) :
    d.machine.values[v]? = c.machine.values[v]? := by
  refine h.invariant (P := fun d => d.machine.values[v]? = c.machine.values[v]?) rfl ?_
  intro a ha b hkept hn
  have hdefines := hcs a ha
  obtain ⟨ins, rest, e, hrest, he, hcases⟩ := next?_eq_some.mp hn
  rw [← hkept]
  rcases hcases with ⟨hs, rfl⟩ | ⟨target, args, bs, -, rfl, rfl⟩
  · apply Machine.values_apply hs he
    intro hr
    simp [Config.defines, Config.instr?, hrest, hr] at hdefines
  · obtain ⟨blk, hblk, hbs⟩ := Machine.jump_of_effect he
    rcases Machine.values_bindAll a.machine bs v with ⟨hsame, -⟩ | ⟨x, hx, -⟩
    · exact hsame
    · exact absurd (hbs _ hx) (hparam blk (List.mem_of_getElem? hblk))

/-- An instruction of the entry is executed once at the start and once for each branch to the
entry, at most; `v` is its result. -/
theorem Trace.countP_defines_le {v : ValueId}
    (hv : ∀ b, (f.code b).countP (fun ins => ins.result? == some v) ≤ if b = .entry then 1 else 0)
    {c d : Config} {cs : List Config} (h : f.Trace c cs d) :
    cs.countP (Config.defines v) + d.rest.countP (fun ins => ins.result? == some v) ≤
      c.rest.countP (fun ins => ins.result? == some v) + cs.countP f.reenters := by
  induction h with
  | refl c => simp
  | @step c d e cs head _ ih =>
    obtain ⟨ins, rest, eff, hrest, -, hcases⟩ := next?_eq_some.mp head
    have hdefines : c.defines v = (ins.result? == some v) := by
      rw [Config.defines, Config.instr?, hrest]
      rfl
    rw [List.countP_cons, List.countP_cons, hdefines, hrest, List.countP_cons]
    rcases hcases with ⟨hs, rfl⟩ | ⟨target, args, bs, hmem, -, rfl⟩
    · dsimp only at ih
      omega
    · have htarget := hv target
      have hreenters : f.reenters c = (target == .entry) := by
        rw [reenters, Config.instr?, hrest, head, List.head?_cons, Option.any_some, Option.any_some,
          Instr.isTerminator_of_branches hmem, Bool.true_and]
      rw [hreenters]
      dsimp only at ih
      by_cases hentry : target = .entry
      · rw [if_pos hentry] at htarget
        simp only [hentry, beq_self_eq_true, if_true] at ih ⊢
        subst hentry
        omega
      · rw [if_neg hentry] at htarget
        simp only [beq_eq_false_iff_ne.mpr hentry, Bool.false_eq_true, if_false]
        omega

theorem exists_trace_of_line {m m' : Machine} {code : List Instr} (hs : Straight code)
    (h : f.line m code = .ok m') (b : BlockId) (rest : List Instr) :
    ∃ cs, f.Trace ⟨b, code ++ rest, m⟩ cs ⟨b, rest, m'⟩ ∧ cs.length = code.length ∧
      ∀ c ∈ cs, ∃ ins ∈ code, c.instr? = some ins := by
  induction code generalizing m with
  | nil =>
    cases h
    exact ⟨[], .refl _, rfl, fun _ hc => absurd hc List.not_mem_nil⟩
  | cons ins code ih =>
    obtain ⟨e, he, h⟩ := line_cons_eq_ok.mp h
    obtain ⟨cs, htrace, hlen, hcs⟩ := ih (fun i hi => hs i (List.mem_cons_of_mem ins hi)) h
    refine ⟨_, .step (next?_eq_some.mpr ⟨ins, code ++ rest, e, rfl, he,
      Or.inl ⟨hs ins List.mem_cons_self, rfl⟩⟩) htrace, congrArg Nat.succ hlen, fun c hc => ?_⟩
    rcases List.mem_cons.mp hc with rfl | hc
    · exact ⟨ins, List.mem_cons_self, rfl⟩
    · obtain ⟨i, hi, hci⟩ := hcs c hc
      exact ⟨i, List.mem_cons_of_mem ins hi, hci⟩

/-- The points that a run passes in its first `n` steps, as far as it gets, and where it is then. -/
def walk (f : Function) : Nat → Config → List Config × Config
  | 0, c => ([], c)
  | n + 1, c =>
    match f.next? c with
    | none => ([], c)
    | some d => (c :: (f.walk n d).1, (f.walk n d).2)

theorem trace_walk (f : Function) (n : Nat) (c : Config) :
    f.Trace c (f.walk n c).1 (f.walk n c).2 := by
  induction n generalizing c with
  | zero => exact .refl c
  | succ n ih =>
    rw [walk]
    split
    · exact .refl c
    · next d hn => exact .step hn (ih d)

end Function

end ShaderIR
