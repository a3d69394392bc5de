import ShaderIR.Machine.Run
import ShaderIR.Proofs.Machine.State

/-!
# Straight lines of instructions

Code without terminators is executed one instruction after another, so a run through it is
a fold over its instructions. A run either gets to the end of the line or stops on it.
-/

set_option autoImplicit false

namespace ShaderIR

def Instr.branches : Instr → List (BlockId × List ValueId)
  | .br target args => [(target, args)]
  | .condbr _ thenTo thenArgs elseTo elseArgs => [(thenTo, thenArgs), (elseTo, elseArgs)]
  | _ => []

theorem Instr.mem_successors_of_branches {ins : Instr} {target : BlockId} {args : List ValueId}
    (h : (target, args) ∈ ins.branches) : target ∈ ins.successors := by
  cases ins with
  | br b bs =>
    cases List.mem_singleton.mp h
    exact List.mem_singleton.mpr rfl
  | condbr cond b bs c cs =>
    rcases List.mem_cons.mp h with h | h
    · cases h
      exact List.mem_cons_self
    · cases List.mem_singleton.mp h
      exact List.mem_cons_of_mem _ (List.mem_singleton.mpr rfl)
  | _ => cases h

theorem Machine.effect_straight {f : Function} {m : Machine} {ins : Instr} {e : Effect}
    (hs : ins.isTerminator = false) (h : m.effect f ins = .ok e) :
    (∃ r x, ins.result? = some r ∧ ins.callee? = none ∧ e = .assign r x) ∨
    (∃ r ty name n, ins = .alloca r ty name ∧ ty.cells? = some n ∧ e = .allocate r n) ∨
    (∃ ptr v slot offset x, ins = .store ptr v ∧ m.values[ptr]? = some (.pointer slot offset) ∧
      m.values[v]? = some x ∧ (m.cell? slot offset).isSome = true ∧
      e = .write slot offset x) ∨
    (∃ r callee args ty o, ins = .call r callee args ty ∧ m.call callee args = .ok e ∧
      e = .record o) := by
  cases ins with
  | constInt r n ty =>
    obtain ⟨w, -, h⟩ := bind_eq_ok.mp h
    cases h
    exact Or.inl ⟨r, _, rfl, rfl, rfl⟩
  | constFloat r x ty =>
    obtain ⟨y, -, h⟩ := bind_eq_ok.mp h
    cases h
    exact Or.inl ⟨r, _, rfl, rfl, rfl⟩
  | undef r ty =>
    cases h
    exact Or.inl ⟨r, _, rfl, rfl, rfl⟩
  | binary r op lhs rhs ty =>
    obtain ⟨a, -, h⟩ := bind_eq_ok.mp h
    obtain ⟨b, -, h⟩ := bind_eq_ok.mp h
    obtain ⟨x, -, h⟩ := bind_eq_ok.mp h
    cases h
    exact Or.inl ⟨r, _, rfl, rfl, rfl⟩
  | cast r op v ty =>
    obtain ⟨a, -, h⟩ := bind_eq_ok.mp h
    obtain ⟨x, -, h⟩ := bind_eq_ok.mp h
    cases h
    exact Or.inl ⟨r, _, rfl, rfl, rfl⟩
  | alloca r ty name =>
    simp only [effect] at h
    split at h
    · next n hn =>
      cases h
      exact Or.inr (Or.inl ⟨r, ty, name, n, rfl, hn, rfl⟩)
    · cases h
  | gep r base indices inbounds ty =>
    obtain ⟨⟨slot, o⟩, -, h⟩ := bind_eq_ok.mp h
    obtain ⟨o', -, h⟩ := bind_eq_ok.mp h
    cases h
    exact Or.inl ⟨r, _, rfl, rfl, rfl⟩
  | load r ptr ty =>
    obtain ⟨⟨slot, o⟩, -, h⟩ := bind_eq_ok.mp h
    obtain ⟨x, -, h⟩ := bind_eq_ok.mp h
    cases h
    exact Or.inl ⟨r, _, rfl, rfl, rfl⟩
  | store ptr v =>
    obtain ⟨⟨slot, o⟩, hp, h⟩ := bind_eq_ok.mp h
    obtain ⟨x, hx, h⟩ := bind_eq_ok.mp h
    obtain ⟨old, hold, h⟩ := bind_eq_ok.mp h
    cases h
    refine Or.inr (Or.inr (Or.inl ⟨ptr, v, slot, o, x, rfl, pointer_eq_ok.mp hp,
      get_eq_ok.mp hx, ?_, rfl⟩))
    rw [cell_eq_ok.mp hold]
    rfl
  | call r callee args ty =>
    obtain ⟨v, n, op, o, -, -, -, -, -, rfl⟩ := call_eq_ok.mp h
    exact Or.inr (Or.inr (Or.inr ⟨r, callee, args, ty, o, rfl, h, rfl⟩))
  | br target args => cases hs
  | condbr cond thenTo thenArgs elseTo elseArgs => cases hs
  | ret values => cases hs

theorem Machine.effect_branch {f : Function} {m : Machine} {ins : Instr} {e : Effect}
    (ht : ins.isTerminator = true) (hr : ins.isReturn = false) (h : m.effect f ins = .ok e) :
    ∃ target args, m.jump f target args = .ok e ∧ (target, args) ∈ ins.branches := by
  cases ins with
  | br target args => exact ⟨target, args, h, List.mem_singleton.mpr rfl⟩
  | condbr cond thenTo thenArgs elseTo elseArgs =>
    obtain ⟨x, -, h⟩ := bind_eq_ok.mp h
    cases x with
    | int n =>
      dsimp only at h
      split at h
      · exact ⟨elseTo, elseArgs, h, List.mem_cons_of_mem _ (List.mem_singleton.mpr rfl)⟩
      · exact ⟨thenTo, thenArgs, h, List.mem_cons_self⟩
    | _ => cases h
  | ret values => cases hr
  | _ => cases ht

theorem Machine.effect_return {f : Function} {m : Machine} {ins : Instr} {e : Effect}
    (hr : ins.isReturn = true) (h : m.effect f ins = .ok e) :
    ∃ values xs, ins = .ret values ∧ m.getAll values = .ok xs ∧ e = .ret xs := by
  cases ins with
  | ret values =>
    obtain ⟨xs, hxs, h⟩ := bind_eq_ok.mp h
    cases h
    exact ⟨values, xs, rfl, hxs, rfl⟩
  | _ => cases hr

theorem Machine.jump_eq_ok {f : Function} {m : Machine} {target : BlockId} {args : List ValueId}
    {e : Effect} : m.jump f target args = .ok e ↔ ∃ blk xs, f.block? target = some blk ∧
      m.getAll args = .ok xs ∧ e = .jump target (blk.paramIds.zip xs) := by
  unfold jump
  cases hb : f.block? target with
  | none => simp
  | some blk =>
    simp only [bind_eq_ok]
    constructor
    · rintro ⟨xs, hxs, h⟩
      cases h
      exact ⟨blk, xs, rfl, hxs, rfl⟩
    · rintro ⟨blk', xs, hblk, hxs, rfl⟩
      cases hblk
      exact ⟨xs, hxs, rfl⟩

section Frame

variable {f : Function} {m : Machine} {ins : Instr} {e : Effect}
  (hs : ins.isTerminator = false) (h : m.effect f ins = .ok e)
include hs h

theorem Machine.values_apply {v : ValueId} (hv : ins.result? ≠ some v) :
    (m.apply e).values[v]? = m.values[v]? := by
  rcases effect_straight hs h with ⟨r, x, hr, -, rfl⟩ | ⟨r, ty, name, n, rfl, -, rfl⟩ |
    ⟨ptr, w, slot, o, x, rfl, -, -, -, rfl⟩ | ⟨r, callee, args, ty, o, rfl, -, rfl⟩
  · rw [apply, values_bind, if_neg]
    rintro rfl
    exact hv hr
  · rw [apply, values_allocate, if_neg]
    rintro rfl
    exact hv rfl
  · rfl
  · rfl

theorem Machine.outputs_apply (hc : ins.callee? = none) : (m.apply e).outputs = m.outputs := by
  rcases effect_straight hs h with ⟨r, x, -, -, rfl⟩ | ⟨r, ty, name, n, rfl, -, rfl⟩ |
    ⟨ptr, w, slot, o, x, rfl, -, -, -, rfl⟩ | ⟨r, callee, args, ty, o, rfl, -, rfl⟩
  · rfl
  · rfl
  · rfl
  · cases hc

end Frame

theorem Machine.outputs_apply_of_callee?_none {f : Function} {m : Machine} {ins : Instr}
    {e : Effect} (h : m.effect f ins = .ok e) (hc : ins.callee? = none) :
    (m.apply e).outputs = m.outputs := by
  cases ht : ins.isTerminator with
  | false => exact outputs_apply ht h hc
  | true =>
    cases hr : ins.isReturn with
    | false =>
      obtain ⟨target, args, hjump, -⟩ := effect_branch ht hr h
      obtain ⟨blk, xs, -, -, rfl⟩ := jump_eq_ok.mp hjump
      exact outputs_bindAll m _
    | true =>
      obtain ⟨values, xs, -, -, rfl⟩ := effect_return hr h
      rfl

namespace Function

/-- Executes instructions one after another, as if none of them left the block. -/
def line (f : Function) (m : Machine) : List Instr → Except Stop Machine
  | [] => .ok m
  | ins :: rest => do
    let e ← m.effect f ins
    f.line (m.apply e) rest

def Straight (code : List Instr) : Prop := ∀ ins ∈ code, ins.isTerminator = false

variable {f : Function}

theorem line_cons_eq_ok {m m' : Machine} {ins : Instr} {rest : List Instr} :
    f.line m (ins :: rest) = .ok m' ↔
      ∃ e, m.effect f ins = .ok e ∧ f.line (m.apply e) rest = .ok m' := bind_eq_ok

theorem line_append_eq_ok {m m' : Machine} {code rest : List Instr} :
    f.line m (code ++ rest) = .ok m' ↔
      ∃ u, f.line m code = .ok u ∧ f.line u rest = .ok m' := by
  induction code generalizing m with
  | nil => simp [line]
  | cons ins code ih =>
    rw [List.cons_append, line_cons_eq_ok]
    simp only [ih, line_cons_eq_ok]
    constructor
    · rintro ⟨e, he, u, hu, h⟩
      exact ⟨u, ⟨e, he, hu⟩, h⟩
    · rintro ⟨u, ⟨e, he, hu⟩, h⟩
      exact ⟨e, he, u, hu, h⟩

theorem line_values {m m' : Machine} {code : List Instr} (hs : Straight code)
    (h : f.line m code = .ok m') {v : ValueId} (hv : ∀ ins ∈ code, ins.result? ≠ some v) :
    m'.values[v]? = m.values[v]? := by
  induction code generalizing m with
  | nil =>
    cases h
    rfl
  | cons ins code ih =>
    obtain ⟨e, he, h⟩ := line_cons_eq_ok.mp h
    rw [ih (fun i hi => hs i (List.mem_cons_of_mem ins hi)) h
      fun i hi => hv i (List.mem_cons_of_mem ins hi)]
    exact Machine.values_apply (hs ins List.mem_cons_self) he (hv ins List.mem_cons_self)

theorem line_outputs {m m' : Machine} {code : List Instr} (hs : Straight code)
    (h : f.line m code = .ok m') (hc : ∀ ins ∈ code, ins.callee? = none) :
    m'.outputs = m.outputs := by
  induction code generalizing m with
  | nil =>
    cases h
    rfl
  | cons ins code ih =>
    obtain ⟨e, he, h⟩ := line_cons_eq_ok.mp h
    rw [ih (fun i hi => hs i (List.mem_cons_of_mem ins hi)) h
      fun i hi => hc i (List.mem_cons_of_mem ins hi)]
    exact Machine.outputs_apply (hs ins List.mem_cons_self) he (hc ins List.mem_cons_self)

theorem exec_cons {m : Machine} {ins : Instr} {e : Effect} (hs : ins.isTerminator = false)
    (h : m.effect f ins = .ok e) (fuel : Nat) (b : BlockId) (rest : List Instr) :
    f.exec (fuel + 1) ⟨b, ins :: rest, m⟩ = f.exec fuel ⟨b, rest, m.apply e⟩ := by
  rw [exec, h]
  rcases Machine.effect_straight hs h with ⟨r, x, -, -, rfl⟩ | ⟨r, ty, name, n, -, -, rfl⟩ |
    ⟨ptr, w, slot, o, x, -, -, -, -, rfl⟩ | ⟨r, callee, args, ty, o, -, -, rfl⟩ <;> rfl

theorem exec_jump {m : Machine} {ins : Instr} {target : BlockId}
    {bs : List (ValueId × Value)} (h : m.effect f ins = .ok (.jump target bs)) (fuel : Nat)
    (b : BlockId) (rest : List Instr) :
    f.exec (fuel + 1) ⟨b, ins :: rest, m⟩ = f.exec fuel ⟨target, f.code target, m.bindAll bs⟩ := by
  rw [exec, h]

theorem exec_ret {m : Machine} {ins : Instr} {xs : List Value}
    (h : m.effect f ins = .ok (.ret xs)) (fuel : Nat) (b : BlockId) (rest : List Instr) :
    f.exec (fuel + 1) ⟨b, ins :: rest, m⟩ = ⟨m.outputs.toList, .ok xs⟩ := by
  rw [exec, h]

section Ends

variable {m : Machine} {ins : Instr} {fuel : Nat} {b : BlockId} {rest : List Instr}
  {xs : List Value}

theorem effect_of_exec (h : (f.exec (fuel + 1) ⟨b, ins :: rest, m⟩).ending = .ok xs) :
    ∃ e, m.effect f ins = .ok e := by
  cases he : m.effect f ins with
  | error e =>
    rw [exec, he] at h
    cases h
  | ok e => exact ⟨e, rfl⟩

theorem exec_cons_of_ok (hs : ins.isTerminator = false)
    (h : (f.exec (fuel + 1) ⟨b, ins :: rest, m⟩).ending = .ok xs) :
    ∃ e, m.effect f ins = .ok e ∧
      f.exec (fuel + 1) ⟨b, ins :: rest, m⟩ = f.exec fuel ⟨b, rest, m.apply e⟩ := by
  obtain ⟨e, he⟩ := effect_of_exec h
  exact ⟨e, he, exec_cons hs he fuel b rest⟩

theorem exec_branch_of_ok (ht : ins.isTerminator = true) (hr : ins.isReturn = false)
    (h : (f.exec (fuel + 1) ⟨b, ins :: rest, m⟩).ending = .ok xs) :
    ∃ target bs, f.exec (fuel + 1) ⟨b, ins :: rest, m⟩ =
      f.exec fuel ⟨target, f.code target, m.bindAll bs⟩ := by
  obtain ⟨e, he⟩ := effect_of_exec h
  obtain ⟨target, args, hjump, -⟩ := Machine.effect_branch ht hr he
  obtain ⟨blk, ys, -, -, rfl⟩ := Machine.jump_eq_ok.mp hjump
  exact ⟨target, _, exec_jump he fuel b rest⟩

theorem outputs_of_exec_return (hr : ins.isReturn = true)
    (h : (f.exec fuel ⟨b, ins :: rest, m⟩).ending = .ok xs) :
    (f.exec fuel ⟨b, ins :: rest, m⟩).outputs = m.outputs.toList := by
  cases fuel with
  | zero => cases h
  | succ fuel =>
    obtain ⟨e, he⟩ := effect_of_exec h
    obtain ⟨values, ys, -, -, rfl⟩ := Machine.effect_return hr he
    rw [exec_ret he]

end Ends

theorem mem_outputs_exec {fuel : Nat} {b : BlockId} {rest : List Instr} {m : Machine}
    {r : OutputRecord} (hr : r ∈ m.outputs) : r ∈ (f.exec fuel ⟨b, rest, m⟩).outputs := by
  induction fuel generalizing b rest m with
  | zero => cases rest <;> exact Array.mem_toList_iff.mpr hr
  | succ fuel ih =>
    cases rest with
    | nil => exact Array.mem_toList_iff.mpr hr
    | cons ins rest =>
      rw [exec]
      split
      · exact Array.mem_toList_iff.mpr hr
      · exact Array.mem_toList_iff.mpr hr
      · apply ih
        rw [Machine.outputs_bindAll]
        exact hr
      · next e _ _ _ =>
        apply ih
        cases e with
        | record o => exact Array.mem_push_of_mem _ hr
        | jump target bs =>
          show r ∈ (m.bindAll bs).outputs
          rw [Machine.outputs_bindAll]
          exact hr
        | _ => exact hr

theorem exec_line {m m' : Machine} {code : List Instr} (hs : Straight code)
    (h : f.line m code = .ok m') (fuel : Nat) (b : BlockId) (rest : List Instr) :
    f.exec (code.length + fuel) ⟨b, code ++ rest, m⟩ = f.exec fuel ⟨b, rest, m'⟩ := by
  induction code generalizing m with
  | nil =>
    cases h
    rw [List.length_nil, Nat.zero_add, List.nil_append]
  | cons ins code ih =>
    obtain ⟨e, he, h⟩ := line_cons_eq_ok.mp h
    rw [List.length_cons, Nat.add_right_comm, List.cons_append,
      exec_cons (hs ins List.mem_cons_self) he]
    exact ih (fun i hi => hs i (List.mem_cons_of_mem ins hi)) h

theorem exec_line_short {m m' : Machine} {code : List Instr} (hs : Straight code)
    (h : f.line m code = .ok m') {fuel : Nat} (hlt : fuel < code.length) (b : BlockId)
    (rest : List Instr) :
    (f.exec fuel ⟨b, code ++ rest, m⟩).ending = .error (.error (.unsupported .stepLimit)) := by
  induction code generalizing m fuel with
  | nil => exact absurd hlt (Nat.not_lt_zero fuel)
  | cons ins code ih =>
    obtain ⟨e, he, h⟩ := line_cons_eq_ok.mp h
    cases fuel with
    | zero => rfl
    | succ fuel =>
      rw [List.cons_append, exec_cons (hs ins List.mem_cons_self) he]
      exact ih (fun i hi => hs i (List.mem_cons_of_mem ins hi)) h (Nat.lt_of_succ_lt_succ hlt)

theorem exec_line_cases {m m' : Machine} {code : List Instr} (hs : Straight code)
    (h : f.line m code = .ok m') (fuel : Nat) (b : BlockId) (rest : List Instr) :
    (f.exec fuel ⟨b, code ++ rest, m⟩).ending = .error (.error (.unsupported .stepLimit)) ∨
      ∃ k, f.exec fuel ⟨b, code ++ rest, m⟩ = f.exec k ⟨b, rest, m'⟩ := by
  by_cases hlt : fuel < code.length
  · exact Or.inl (exec_line_short hs h hlt b rest)
  · obtain ⟨k, rfl⟩ := Nat.exists_eq_add_of_le (Nat.not_lt.mp hlt)
    exact Or.inr ⟨k, exec_line hs h k b rest⟩

/-- A run that gets to a return gets to the end of every line on its way. -/
theorem line_of_exec {m : Machine} {code : List Instr} (hs : Straight code) {fuel : Nat}
    {b : BlockId} {rest : List Instr} {xs : List Value}
    (h : (f.exec fuel ⟨b, code ++ rest, m⟩).ending = .ok xs) :
    ∃ m' k, f.line m code = .ok m' ∧ fuel = code.length + k ∧
      f.exec fuel ⟨b, code ++ rest, m⟩ = f.exec k ⟨b, rest, m'⟩ := by
  induction code generalizing m fuel with
  | nil => exact ⟨m, fuel, rfl, (Nat.zero_add fuel).symm, rfl⟩
  | cons ins code ih =>
    cases fuel with
    | zero => cases h
    | succ fuel =>
      cases he : m.effect f ins with
      | error e =>
        rw [List.cons_append, exec, he] at h
        cases h
      | ok e =>
        have hstep := exec_cons (hs ins List.mem_cons_self) he fuel b (code ++ rest)
        rw [List.cons_append, hstep] at h ⊢
        obtain ⟨m', k, hline, rfl, hk⟩ := ih (fun i hi => hs i (List.mem_cons_of_mem ins hi)) h
        refine ⟨m', k, line_cons_eq_ok.mpr ⟨e, he, hline⟩, ?_, hk⟩
        rw [List.length_cons]
        omega

end Function

namespace Machine

def after (s : Machine) (pre : Array OutputRecord) : Machine :=
  { s with outputs := pre ++ s.outputs }

variable (s : Machine) (pre : Array OutputRecord)

end Machine

end ShaderIR
