import ShaderIR.Proofs.Function.Consistent
import ShaderIR.Proofs.Function.Valid
import ShaderIR.Proofs.Machine.Arith
import ShaderIR.Proofs.Machine.Line

/-!
# Where values come from

A run binds the parameters of blocks and the results of instructions, but no results of
calls. In a valid function a value that an integer constant defines is bound to this integer,
whatever the way of the run was.
-/

set_option autoImplicit false

namespace ShaderIR

/-- Where a value that a run has bound comes from. -/
inductive Origin (f : Function) (v : ValueId) (x : Value) : Prop
  | param (blk : Block) (hb : blk ∈ f.blocks) (hv : v ∈ blk.paramIds)
  | result (p : InstrId × Instr) (hp : p ∈ f.instrs) (hv : p.2.result? = some v)
      (hcall : p.2.callee? = none)
      (hconst : ∀ r n ty, p.2 = .constInt r n ty →
        ∃ width, ty.intWidth? = some width ∧ x = .int (Arith.low width n))

/-- The value is an integer constant, which fits its type. -/
def Function.Fixed (f : Function) (v : ValueId) (n : Int64) : Prop :=
  ∃ r ty width, f.definer? v = some (.constInt r n ty) ∧ ty.intWidth? = some width ∧
    0 ≤ n.toInt ∧ n.toInt < 2 ^ width

theorem Function.Fixed.constInt? {f : Function} {v : ValueId} {n : Int64} (h : f.Fixed v n) :
    f.constInt? v = some n := by
  obtain ⟨r, ty, width, hd, -⟩ := h
  unfold Function.constInt?
  rw [hd]

namespace Origin

variable {f : Function} {v : ValueId} {x : Value} (h : Origin f v x)
include h

theorem index_lt (hf : f.Numbered) : v.index < f.nextValue := by
  cases h with
  | param blk hb hv => exact hf.param blk hb v hv
  | result p hp hv hcall hconst => exact hf.result p hp v hv

theorem callee?_eq_none (hf : f.Valid) {q : InstrId × Instr} (hq : q ∈ f.instrs)
    (hqv : q.2.result? = some v) : q.2.callee? = none := by
  cases h with
  | param blk hb hv => exact absurd hv (hf.notMem_paramIds hq hqv hb)
  | result p hp hv hcall hconst =>
    rw [hf.result_unique hq hqv hp hv]
    exact hcall

theorem eq_low (hc : f.Consistent) (hf : f.Valid) {r : ValueId} {n : Int64} {ty : Ty}
    (hd : f.definer? v = some (.constInt r n ty)) :
    ∃ width, ty.intWidth? = some width ∧ x = .int (Arith.low width n) := by
  unfold Function.definer? at hd
  split at hd
  · next i hdef =>
    obtain ⟨ins, hins, hr⟩ := hc.recorded.result v i hdef
    cases hd.symm.trans hins
    have hq := hc.mem_instrs.mpr hd
    cases h with
    | param blk hb hv => exact absurd hv (hf.notMem_paramIds hq hr hb)
    | result p hp hv hcall hconst =>
      have heq := hf.result_unique hp hv hq hr
      exact hconst r n ty (congrArg Prod.snd heq)
  · cases hd

theorem eq_of_fixed (hc : f.Consistent) (hf : f.Valid) {n : Int64} (hn : f.Fixed v n) :
    x = .int n := by
  obtain ⟨r, ty, width, hd, hw, h0, hlt⟩ := hn
  obtain ⟨width', hw', rfl⟩ := h.eq_low hc hf hd
  cases hw.symm.trans hw'
  rw [Arith.low_eq_self h0 hlt]

end Origin

namespace Machine

/-- All that is bound has an origin. -/
def Sourced (f : Function) (s : Machine) : Prop := ∀ v x, s.values[v]? = some x → Origin f v x

theorem sourced_initial (f : Function) : initial.Sourced f := by
  intro v x hx
  simp [initial] at hx

namespace Sourced

variable {f : Function} {s : Machine} (h : s.Sourced f)
include h

theorem bindAll {bs : List (ValueId × Value)} {blk : Block} (hb : blk ∈ f.blocks)
    (hbs : ∀ b ∈ bs, b.1 ∈ blk.paramIds) : (s.bindAll bs).Sourced f := by
  intro v x hx
  rcases values_bindAll s bs v with ⟨hsame, -⟩ | ⟨y, hy, -⟩
  · rw [hsame] at hx
    exact h v x hx
  · exact .param blk hb (hbs (v, y) hy)

theorem bind {v : ValueId} {x : Value} (ho : Origin f v x) : (s.bind v x).Sourced f := by
  intro w y hy
  rw [values_bind] at hy
  split at hy
  · next heq =>
    cases hy
    exact heq ▸ ho
  · exact h w y hy

/-- Whatever an instruction does, what is bound has an origin. -/
theorem apply {p : InstrId × Instr} (hp : p ∈ f.instrs) {e : Effect}
    (he : s.effect f p.2 = .ok e) : (s.apply e).Sourced f := by
  cases ht : p.2.isTerminator with
  | false =>
    rcases effect_straight ht he with ⟨r, x, hr, hc, rfl⟩ | ⟨r, ty, name, n, hins, -, rfl⟩ |
      ⟨ptr, w, slot, o, x, -, -, -, -, rfl⟩ | ⟨r, callee, args, ty, o, -, -, rfl⟩
    · refine h.bind (.result p hp hr hc fun r' n ty hins => ?_)
      rw [hins] at he
      obtain ⟨width, hw, he⟩ := bind_eq_ok.mp he
      cases he
      refine ⟨width, ?_, rfl⟩
      rw [lift_eq_ok] at hw
      unfold Arith.intWidth at hw
      split at hw
      · cases hw
        assumption
      · cases hw
    · have hpointer : Origin f r (.pointer s.slots.size 0) := by
        refine .result p hp (by rw [hins]; rfl) (by rw [hins]; rfl) fun r' k ty' hconst => ?_
        rw [hins] at hconst
        cases hconst
      exact fun w y hy => h.bind hpointer w y hy
    · exact h
    · exact h
  | true =>
    cases hr : p.2.isReturn with
    | false =>
      obtain ⟨target, args, hjump, -⟩ := effect_branch ht hr he
      obtain ⟨blk, xs, hblk, -, rfl⟩ := jump_eq_ok.mp hjump
      exact h.bindAll (List.mem_of_getElem? hblk) fun b hb => (List.of_mem_zip hb).1
    | true =>
      obtain ⟨values, xs, -, -, rfl⟩ := effect_return hr he
      exact h

end Sourced

end Machine

end ShaderIR
