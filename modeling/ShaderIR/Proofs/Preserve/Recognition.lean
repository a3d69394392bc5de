import ShaderIR.Proofs.Machine.Trace
import ShaderIR.Proofs.Preserve.Redirected

/-!
# Recorded and recognized output stores

An output store is read twice: a run records it with the values that its operands are bound to,
and the redirection recognizes it by the constants that define them. A value is a constant cut
to the width of its type, so both readings are the same as long as the constants fit.
-/

set_option autoImplicit false

namespace ShaderIR

/-- The instruction is executed as a store to an element. -/
def Machine.Records (f : Function) (s : Machine) (ins : Instr) (op : OpCode) (id : Nat) : Prop :=
  ∃ r, s.effect f ins = .ok (.record r) ∧ r.opcode = op ∧ r.id = id

/-- The instruction is read as an output store to an element. -/
def Function.Recognizes (f : Function) (p : InstrId × Instr) (op : OpCode) (id : Nat) : Prop :=
  ∃ o, OutputStore.collect f [p] = .ok [o] ∧ o.opcode = op ∧ o.id = id

/-- The operands of an output store are bound, and its row and its column are integers. -/
def Machine.Readable (s : Machine) (args : List ValueId) : Prop :=
  ∃ op id row column value more i j, args = op :: id :: row :: column :: value :: more ∧
    (s.values[op]?).isSome = true ∧ (s.values[id]?).isSome = true ∧
    s.values[row]? = some (.int i) ∧ s.values[column]? = some (.int j) ∧
    (s.values[value]?).isSome = true

namespace OutputStore

theorem collect_singleton {f : Function} {p : InstrId × Instr} {o : OutputStore} :
    collect f [p] = .ok [o] ↔ Reads f p o := by
  rw [collect_eq_ok]
  constructor
  · intro h
    cases hop : f.storeOpcode? p.2 with
    | none => simp [callsOf, hop] at h
    | some op => simpa [callsOf, hop] using h
  · intro hr
    have hcalls : callsOf f [p] = [p] := by simp [callsOf, hr.opcode]
    rw [hcalls]
    exact .cons hr .nil

end OutputStore

section Call

variable {f : Function} {i : InstrId} {r : Option ValueId} {callee : String}
  {args : List ValueId} {ty : Option Ty} (hname : isIntrinsicName callee = true)
  {u v : ValueId} {more : List ValueId} (hargs : args = u :: v :: more)
include hname hargs

theorem Machine.records_iff {s : Machine} {a b : Int64} {op : OpCode} {id : Nat}
    (hu : ∀ x, s.values[u]? = some x → x = .int a) (hv : ∀ x, s.values[v]? = some x → x = .int b) :
    s.Records f (.call r callee args ty) op id ↔
      (OpCode.ofValue? a = some op ∧ elementId? b = some id) ∧ s.Readable args := by
  constructor
  · rintro ⟨record, he, rfl, rfl⟩
    obtain ⟨v', n, op, record', -, hhead, hn, hop, hrecord, heq⟩ := Machine.call_eq_ok.mp he
    cases heq
    obtain ⟨u', id', row, column, value, rest, k, hsame, hk, hid, hop', hrow, hcolumn, hvalue⟩ :=
      Machine.outputRecord_eq_ok.mp hrecord
    cases hargs.symm.trans hsame
    subst hargs
    cases hhead
    cases hu _ hn
    cases hv _ hk
    rw [hop']
    exact ⟨⟨hop, hid⟩, u, v, row, column, value, rest, _, _, rfl, by rw [hn]; rfl,
      by rw [hk]; rfl, hrow, hcolumn, by rw [hvalue]; rfl⟩
  · rintro ⟨⟨hop, hid⟩, u', v', row, column, value, rest, i, j, hsame, hbu, hbv, hrow, hcolumn, hx⟩
    cases hargs.symm.trans hsame
    subst hargs
    obtain ⟨x, hx⟩ := Option.isSome_iff_exists.mp hx
    obtain ⟨y, hy⟩ := Option.isSome_iff_exists.mp hbu
    obtain ⟨z, hz⟩ := Option.isSome_iff_exists.mp hbv
    cases hu y hy
    cases hv z hz
    exact ⟨⟨op, id, i, j, x⟩, Machine.call_eq_ok.mpr ⟨u, a, op, _, hname, rfl, hy, hop,
      Machine.outputRecord_eq_ok.mpr ⟨u, v, row, column, value, rest, b, rfl, hz, hid, rfl, hrow,
        hcolumn, hx⟩, rfl⟩, rfl, rfl⟩

theorem Function.recognizes_iff {a b : Int64} {op : OpCode} {id : Nat}
    (hu : f.constInt? u = some a) (hv : f.constInt? v = some b) (hlen : 5 ≤ args.length) :
    f.Recognizes (i, .call r callee args ty) op id ↔
      OpCode.ofValue? a = some op ∧ elementId? b = some id := by
  have hopcode : f.storeOpcode? (.call r callee args ty) = OpCode.ofValue? a :=
    OutputStore.storeOpcode?_call hname (by rw [hargs]; rfl) hu
  constructor
  · rintro ⟨o, ho, rfl, rfl⟩
    have hr := OutputStore.collect_singleton.mp ho
    obtain ⟨u', v', n, rest, hops, hn, hid⟩ := hr.operands
    cases hargs.symm.trans hops
    cases hv.symm.trans hn
    exact ⟨hopcode.symm.trans hr.opcode, hid⟩
  · rintro ⟨hop, hid⟩
    obtain ⟨u', v', row, column, value, rest, hops⟩ := OutputStore.exists_operands hlen
    cases hargs.symm.trans hops
    exact ⟨⟨i, op, id, row, column, value⟩, OutputStore.collect_singleton.mpr
      ⟨rfl, hopcode.trans hop, u, v, b, rest, hargs, hv, hid⟩, rfl, rfl⟩

end Call

theorem Function.constInt?_of_definer? {f : Function} {v r : ValueId} {n : Int64} {ty : Ty}
    (h : f.definer? v = some (.constInt r n ty)) : f.constInt? v = some n := by
  rw [Function.constInt?, h]

/-- A call of an intrinsic whose first two operands are integer constants, in any state that a run
reaches. The run records it as a store to the element that the constants name once they are cut
to the widths of their types, if it can read the operands. The redirection takes it for a store
to the element that the constants name as they are. If nothing is cut off, both see the same. -/
theorem records_iff_recognizes {f : Function} (hf : f.Made) (hvalid : f.validate = .ok ())
    {entry : Block} {blocks : List Block} (hblocks : f.blocks = entry :: blocks)
    {values : List Value} {cs : List Config} {c : Config}
    (htrace : f.Trace (f.start entry values) cs c) {p : InstrId × Instr} {r : Option ValueId}
    {callee : String} {args : List ValueId} {ty : Option Ty}
    (hcall : p.2 = .call r callee args ty) (hname : isIntrinsicName callee = true)
    (hlen : 5 ≤ args.length) {u v ru rv : ValueId} {more : List ValueId}
    (hargs : args = u :: v :: more) {a b : Int64} {ta tb : Ty} {wa wb : Nat}
    (hu : f.definer? u = some (.constInt ru a ta)) (hwa : ta.intWidth? = some wa)
    (hv : f.definer? v = some (.constInt rv b tb)) (hwb : tb.intWidth? = some wb)
    (op : OpCode) (id : Nat) :
    (c.machine.Records f p.2 op id ↔ (OpCode.ofValue? (Arith.low wa a) = some op ∧
      elementId? (Arith.low wb b) = some id) ∧ c.machine.Readable args) ∧
    (f.Recognizes p op id ↔ OpCode.ofValue? a = some op ∧ elementId? b = some id) ∧
    (Arith.low wa a = a → Arith.low wb b = b →
      (c.machine.Records f p.2 op id ↔ f.Recognizes p op id ∧ c.machine.Readable args)) := by
  have hc := hf.consistent
  have hs := htrace.sourced hc (f.at_start entry values) (Function.sourced_start hblocks values)
  have hbound : ∀ {w rw : ValueId} {n : Int64} {t : Ty} {width : Nat},
      f.definer? w = some (.constInt rw n t) → t.intWidth? = some width →
      ∀ x, c.machine.values[w]? = some x → x = .int (Arith.low width n) := by
    intro w rw n t width hd hwidth x hx
    obtain ⟨width', hwidth', rfl⟩ := (hs w x hx).eq_low hc (Function.validate_eq_ok.mp hvalid) hd
    cases hwidth.symm.trans hwidth'
    rfl
  obtain ⟨i, ins⟩ := p
  obtain rfl : ins = .call r callee args ty := hcall
  have hrecords : c.machine.Records f (.call r callee args ty) op id ↔
      (OpCode.ofValue? (Arith.low wa a) = some op ∧ elementId? (Arith.low wb b) = some id) ∧
        c.machine.Readable args :=
    Machine.records_iff hname hargs (hbound hu hwa) (hbound hv hwb)
  have hrecognizes : f.Recognizes (i, .call r callee args ty) op id ↔
      OpCode.ofValue? a = some op ∧ elementId? b = some id :=
    Function.recognizes_iff hname hargs (Function.constInt?_of_definer? hu)
      (Function.constInt?_of_definer? hv) hlen
  refine ⟨hrecords, hrecognizes, fun ha hb => ?_⟩
  rw [hrecords, hrecognizes, ha, hb]

namespace Preserve

def sparseStore : InstrId × Instr :=
  (⟨5⟩, .call none "dx.op.storeOutput.i32" [⟨0⟩, ⟨1⟩, ⟨2⟩, ⟨3⟩, ⟨4⟩] none)

def startOfSeven (f : Function) : Config := f.start ⟨⟨0⟩, [], handles 0 7, none⟩ []

theorem sparse_records_iff_recognizes :
    (sparse.walk 5 (startOfSeven sparse)).2.instr? = some sparseStore.2 ∧
    ((sparse.walk 5 (startOfSeven sparse)).2.machine.Records sparse sparseStore.2 .storeOutput 0 ↔
      sparse.Recognizes sparseStore .storeOutput 0 ∧
        (sparse.walk 5 (startOfSeven sparse)).2.machine.Readable sparseStore.2.operands) ∧
    sparse.Recognizes sparseStore .storeOutput 0 := by
  have h := records_iff_recognizes made_sparse rfl rfl
    (sparse.trace_walk 5 (startOfSeven sparse)) (p := sparseStore) rfl rfl (by decide) rfl
    (a := 5) (b := 0) rfl (rfl : Ty.i32.intWidth? = some 32) rfl
    (rfl : Ty.i32.intWidth? = some 32) .storeOutput 0
  exact ⟨rfl, h.2.2 rfl rfl, h.2.1.mpr ⟨rfl, rfl⟩⟩

/-- Stores to the element `-1`, an `i32`. -/
def negativeCommands : List Builder.Command :=
  [.createBlock none, .setCurrent ⟨0⟩, .constInt 5 .i32, .constInt (-1) .i32, .constInt 0 .i32,
    .constInt 0 .i8, .constInt 7 .i32,
    .call "dx.op.storeOutput.i32" [⟨0⟩, ⟨1⟩, ⟨2⟩, ⟨3⟩, ⟨4⟩], .ret []]

def negative : Function :=
  match ((Builder.new "main" [] .void).run negativeCommands).2 with
  | .ok s => s.func
  | .error _ => .empty "main" [] .void

theorem made_negative : negative.Made := by
  have hrun : ((Builder.new "main" [] .void).run negativeCommands).2 =
      .ok ⟨negative, some ⟨0⟩⟩ := rfl
  exact .build (Prod.ext rfl hrun) rfl

/-- A run records a store to the largest number there is, where the redirection sees a number
that is none. -/
theorem negative_recorded_not_recognized :
    negative.Made ∧ negative.validate = .ok () ∧
    negative.blocks = [⟨⟨0⟩, [], handles 0 7, none⟩] ∧
    negative.Trace (startOfSeven negative) (negative.walk 5 (startOfSeven negative)).1
      (negative.walk 5 (startOfSeven negative)).2 ∧
    (negative.walk 5 (startOfSeven negative)).2.instr? = some sparseStore.2 ∧
    negative.constInt? ⟨0⟩ = some 5 ∧ negative.constInt? ⟨1⟩ = some (-1) ∧
    (negative.walk 5 (startOfSeven negative)).2.machine.Records negative sparseStore.2 .storeOutput
      4294967295 ∧
    ¬negative.Recognizes sparseStore .storeOutput 4294967295 := by
  refine ⟨made_negative, rfl, rfl, negative.trace_walk 5 _, rfl, rfl, rfl, ?_, ?_⟩
  · exact ⟨⟨.storeOutput, 4294967295, 0, 0, .int 7⟩, rfl, rfl, rfl⟩
  · intro h
    have hread : OpCode.ofValue? 5 = some .storeOutput ∧ elementId? (-1) = some 4294967295 :=
      (Function.recognizes_iff rfl rfl rfl rfl (by decide)).mp h
    exact absurd hread.2 (by decide)

end Preserve

end ShaderIR
