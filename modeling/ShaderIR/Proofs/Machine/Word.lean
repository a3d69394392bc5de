import ShaderIR.Proofs.Machine.Arith

/-!
# Integers as vectors of bits

An integer of the IR is a vector of as many bits as its type is wide, and a run holds it in a
word: zero-extended, or in two's complement if it fills the word. On these words the integer
operations, the comparisons and the conversions compute what they mean on vectors of bits.
-/

set_option autoImplicit false

namespace ShaderIR

/-- The word that holds a vector of bits. -/
def wordOf {w : Nat} (x : BitVec w) : Int64 := .ofBitVec (x.setWidth 64)

/-- What an operation on integers means on vectors of bits. A quotient or a remainder by zero is
undefined, and the operations on floats mean nothing. -/
def BinaryOp.onBits? {w : Nat} (op : BinaryOp) (x y : BitVec w) : Option Value :=
  match op with
  | .add => some (.int (wordOf (x + y)))
  | .sub => some (.int (wordOf (x - y)))
  | .mul => some (.int (wordOf (x * y)))
  | .udiv => some (if y = 0#w then .undef else .int (wordOf (x / y)))
  | .urem => some (if y = 0#w then .undef else .int (wordOf (x % y)))
  | .and => some (.int (wordOf (x &&& y)))
  | .or => some (.int (wordOf (x ||| y)))
  | .xor => some (.int (wordOf (x ^^^ y)))
  | .eq => some (.int (if x = y then 1 else 0))
  | .ne => some (.int (if x = y then 0 else 1))
  | .ult => some (.int (if x.ult y then 1 else 0))
  | .slt => some (.int (if x.slt y then 1 else 0))
  | .fadd | .fsub | .fmul => none

namespace Arith

/-- A word is in the range of a width: zero-extended, if the width is less than its own. -/
def Fits (width : Nat) (n : Int64) : Prop := width < 64 → 0 ≤ n.toInt ∧ n.toInt < 2 ^ width

/-- The low bits are what a mask leaves of a word. -/
theorem low_eq_and {width : Nat} (h : width < 64) (n : Int64) :
    low width n = .ofBitVec (n.toBitVec &&& (1#64 <<< width - 1#64)) := by
  have hpow : 2 ^ width < 2 ^ 64 := Nat.pow_lt_pow_right (by omega) h
  have hmask : (1#64 <<< width - 1#64).toNat = 2 ^ width - 1 := by
    rw [BitVec.toNat_sub, BitVec.toNat_shiftLeft, Nat.shiftLeft_eq, BitVec.toNat_one (by omega),
      Nat.one_mul, Nat.mod_eq_of_lt hpow]
    have := Nat.two_pow_pos width
    omega
  rw [low]
  congr 1
  apply BitVec.eq_of_toNat_eq
  rw [BitVec.toNat_and, hmask, Nat.and_two_pow_sub_one_eq_mod, BitVec.toNat_setWidth,
    BitVec.toNat_setWidth]
  exact Nat.mod_eq_of_lt (Nat.lt_trans (Nat.mod_lt _ (Nat.two_pow_pos width)) hpow)

/-- The sign is extended by two shifts, up to the top of the word and arithmetically down. -/
theorem signed_eq_shift {width : Nat} (hpos : 0 < width) (h : width ≤ 64) (n : Int64) :
    signed width n = .ofBitVec ((n.toBitVec <<< (64 - width)).sshiftRight (64 - width)) := by
  rw [signed]
  congr 1
  apply BitVec.eq_of_getLsbD_eq
  intro i hi
  rw [BitVec.getLsbD_signExtend, BitVec.getLsbD_sshiftRight, BitVec.getLsbD_setWidth,
    BitVec.msb_setWidth, BitVec.msb_shiftLeft, BitVec.getMsbD_eq_getLsbD,
    BitVec.getLsbD_shiftLeft]
  by_cases hlow : i < width
  · have hin : 64 - width + i < 64 := by omega
    simp [hi, hlow, hin, Nat.not_le.mpr hi]
  · have hout : ¬64 - width + i < 64 := by omega
    have htop : 64 - 1 - (64 - width) = width - 1 := by omega
    have hshift : 64 - width < 64 := by omega
    simp [hi, hlow, hout, htop, hpos, hshift, Nat.not_le.mpr hi]

section Words

variable {w : Nat}

@[simp] theorem toBitVec_wordOf (x : BitVec w) : (wordOf x).toBitVec = x.setWidth 64 :=
  Int64.toBitVec_ofBitVec _

theorem setWidth_wordOf (h : w ≤ 64) (x : BitVec w) : (wordOf x).toBitVec.setWidth w = x := by
  rw [toBitVec_wordOf, BitVec.setWidth_setWidth_of_le x h, BitVec.setWidth_eq]

theorem toInt_wordOf_of_lt (h : w < 64) (x : BitVec w) : (wordOf x).toInt = x.toNat := by
  have hlt : x.toNat < 2 ^ 63 :=
    Nat.lt_of_lt_of_le x.isLt (Nat.pow_le_pow_right (by omega) (by omega))
  have hbits : (x.setWidth 64).toNat = x.toNat := by
    rw [BitVec.toNat_setWidth]
    exact Nat.mod_eq_of_lt (by omega)
  rw [← Int64.toInt_toBitVec, toBitVec_wordOf, BitVec.toInt_eq_toNat_of_lt (by omega), hbits]

theorem toNat_wordOf (h : w ≤ 64) (x : BitVec w) : (wordOf x).toBitVec.toNat = x.toNat := by
  rw [toBitVec_wordOf, BitVec.toNat_setWidth]
  exact Nat.mod_eq_of_lt (Nat.lt_of_lt_of_le x.isLt (Nat.pow_le_pow_right (by omega) h))

theorem wordOf_injective (h : w ≤ 64) {x y : BitVec w} (heq : wordOf x = wordOf y) : x = y := by
  rw [← setWidth_wordOf h x, heq, setWidth_wordOf h y]

theorem low_eq_wordOf (n : Int64) : low w n = wordOf (n.toBitVec.setWidth w) := rfl

/-- The words in the range of a width are those that hold a vector of that width. -/
theorem fits_iff (h : w ≤ 64) {n : Int64} : Fits w n ↔ ∃ x : BitVec w, wordOf x = n := by
  constructor
  · intro hn
    refine ⟨n.toBitVec.setWidth w, ?_⟩
    rw [← low_eq_wordOf]
    rcases Nat.lt_or_eq_of_le h with hlt | rfl
    · exact low_eq_self (hn hlt).1 (hn hlt).2
    · rw [low, BitVec.setWidth_eq, BitVec.setWidth_eq, Int64.ofBitVec_toBitVec]
  · rintro ⟨x, rfl⟩ hlt
    have hx := x.isLt
    rw [toInt_wordOf_of_lt hlt]
    exact ⟨by omega, by exact_mod_cast hx⟩

theorem fits_low (h : w ≤ 64) (n : Int64) : Fits w (low w n) :=
  (fits_iff h).mpr ⟨_, (low_eq_wordOf n).symm⟩

theorem toInt_signed_wordOf (h : w ≤ 64) (x : BitVec w) :
    (signed w (wordOf x)).toInt = x.toInt := by
  rw [signed, setWidth_wordOf h, ← Int64.toInt_toBitVec, Int64.toBitVec_ofBitVec,
    BitVec.toInt_signExtend_of_le h]

theorem wordOf_eq_zero (h : w ≤ 64) (x : BitVec w) : wordOf x = 0 ↔ x = 0#w := by
  have hzero : wordOf (0#w) = 0 := by
    rw [wordOf, BitVec.setWidth_zero]
    rfl
  constructor
  · intro hx
    exact wordOf_injective h (hx.trans hzero.symm)
  · rintro rfl
    exact hzero

theorem intBinary_wordOf (h : w ≤ 64) (op : BinaryOp) (x y : BitVec w) :
    intBinary op w (wordOf x) (wordOf y) = op.onBits? x y := by
  cases op with
  | add =>
    have hbits : (wordOf x + wordOf y).toBitVec.setWidth w = x + y := by
      rw [Int64.toBitVec_add, BitVec.setWidth_add _ _ h, setWidth_wordOf h, setWidth_wordOf h]
    rw [intBinary, low_eq_wordOf, hbits, BinaryOp.onBits?]
  | sub =>
    have hbits : (wordOf x - wordOf y).toBitVec.setWidth w = x - y := by
      rw [Int64.toBitVec_sub, BitVec.sub_eq_add_neg, BitVec.setWidth_add _ _ h,
        BitVec.setWidth_neg_of_le h, setWidth_wordOf h, setWidth_wordOf h, BitVec.sub_eq_add_neg]
    rw [intBinary, low_eq_wordOf, hbits, BinaryOp.onBits?]
  | mul =>
    have hbits : (wordOf x * wordOf y).toBitVec.setWidth w = x * y := by
      rw [Int64.toBitVec_mul, BitVec.setWidth_mul _ _ h, setWidth_wordOf h, setWidth_wordOf h]
    rw [intBinary, low_eq_wordOf, hbits, BinaryOp.onBits?]
  | udiv =>
    have hbits : ((wordOf x).toUInt64 / (wordOf y).toUInt64).toInt64.toBitVec.setWidth w =
        x / y := by
      apply BitVec.eq_of_toNat_eq
      rw [UInt64.toBitVec_toInt64, UInt64.toBitVec_div, Int64.toBitVec_toUInt64,
        Int64.toBitVec_toUInt64, BitVec.toNat_setWidth, BitVec.toNat_udiv, BitVec.toNat_udiv,
        toNat_wordOf h, toNat_wordOf h]
      exact Nat.mod_eq_of_lt (Nat.lt_of_le_of_lt (Nat.div_le_self _ _) x.isLt)
    simp only [intBinary, wordOf_eq_zero h, low_eq_wordOf, hbits, BinaryOp.onBits?]
  | urem =>
    have hbits : ((wordOf x).toUInt64 % (wordOf y).toUInt64).toInt64.toBitVec.setWidth w =
        x % y := by
      apply BitVec.eq_of_toNat_eq
      rw [UInt64.toBitVec_toInt64, UInt64.toBitVec_mod, Int64.toBitVec_toUInt64,
        Int64.toBitVec_toUInt64, BitVec.toNat_setWidth, BitVec.toNat_umod, BitVec.toNat_umod,
        toNat_wordOf h, toNat_wordOf h]
      exact Nat.mod_eq_of_lt (Nat.lt_of_le_of_lt (Nat.mod_le _ _) x.isLt)
    simp only [intBinary, wordOf_eq_zero h, low_eq_wordOf, hbits, BinaryOp.onBits?]
  | and =>
    have hbits : (wordOf x &&& wordOf y).toBitVec.setWidth w = x &&& y := by
      rw [Int64.toBitVec_and, BitVec.setWidth_and, setWidth_wordOf h, setWidth_wordOf h]
    rw [intBinary, low_eq_wordOf, hbits, BinaryOp.onBits?]
  | or =>
    have hbits : (wordOf x ||| wordOf y).toBitVec.setWidth w = x ||| y := by
      rw [Int64.toBitVec_or, BitVec.setWidth_or, setWidth_wordOf h, setWidth_wordOf h]
    rw [intBinary, low_eq_wordOf, hbits, BinaryOp.onBits?]
  | xor =>
    have hbits : (wordOf x ^^^ wordOf y).toBitVec.setWidth w = x ^^^ y := by
      rw [Int64.toBitVec_xor, BitVec.setWidth_xor, setWidth_wordOf h, setWidth_wordOf h]
    rw [intBinary, low_eq_wordOf, hbits, BinaryOp.onBits?]
  | eq =>
    have heq : wordOf x = wordOf y ↔ x = y := ⟨wordOf_injective h, congrArg wordOf⟩
    simp only [intBinary, flag, beq_iff_eq, heq, BinaryOp.onBits?]
  | ne =>
    have heq : wordOf x = wordOf y ↔ x = y := ⟨wordOf_injective h, congrArg wordOf⟩
    simp only [intBinary, flag, bne_iff_ne, ne_eq, heq, ite_not, BinaryOp.onBits?]
  | ult =>
    have hlt : (wordOf x).toUInt64 < (wordOf y).toUInt64 ↔ x.ult y = true := by
      rw [UInt64.lt_iff_toBitVec_lt, Int64.toBitVec_toUInt64, Int64.toBitVec_toUInt64,
        BitVec.lt_def, toNat_wordOf h, toNat_wordOf h, BitVec.ult_iff_toNat_lt]
    simp only [intBinary, flag, decide_eq_true_eq, hlt, BinaryOp.onBits?]
  | slt =>
    have hlt : signed w (wordOf x) < signed w (wordOf y) ↔ x.slt y = true := by
      rw [Int64.lt_iff_toInt_lt, toInt_signed_wordOf h, toInt_signed_wordOf h,
        BitVec.slt_iff_toInt_lt]
    simp only [intBinary, flag, decide_eq_true_eq, hlt, BinaryOp.onBits?]
  | fadd | fsub | fmul => rfl

theorem binary_eq_ok {op : BinaryOp} {width : Nat} {x y z : Value} :
    binary op width x y = .ok z ↔ binary? op width x y = some z := by
  unfold binary
  cases binary? op width x y <;> simp

theorem binary_of_none {op : BinaryOp} {width : Nat} {x y : Value}
    (h : binary? op width x y = none) :
    binary op width x y = .error (.typeError (.binary op x y)) := by
  rw [binary, h]

theorem binary_undef (op : BinaryOp) (width : Nat) (v : Value) :
    binary op width .undef v = .ok .undef ∧ binary op width v .undef = .ok .undef := by
  refine ⟨rfl, ?_⟩
  cases v <;> rfl

theorem low_wordOf {v : Nat} (hv : v ≤ 64) (x : BitVec w) :
    low v (wordOf x) = wordOf (x.setWidth v) := by
  rw [low_eq_wordOf, toBitVec_wordOf, BitVec.setWidth_setWidth_of_le x hv]

theorem low_signed_wordOf (h : w ≤ 64) {v : Nat} (hv : v ≤ 64) (x : BitVec w) :
    low v (signed w (wordOf x)) = wordOf (x.signExtend v) := by
  have hbits : (x.signExtend 64).setWidth v = x.signExtend v := by
    apply BitVec.eq_of_getLsbD_eq
    intro i hi
    have hi64 : i < 64 := Nat.lt_of_lt_of_le hi hv
    rw [BitVec.getLsbD_setWidth, BitVec.getLsbD_signExtend, BitVec.getLsbD_signExtend]
    simp [hi, hi64]
  rw [signed, setWidth_wordOf h, low_eq_wordOf, Int64.toBitVec_ofBitVec, hbits]

end Words

theorem intWidth_scalar {s : Scalar} (hs : s.isInt = true) :
    intWidth (.scalar s) = .ok s.width := by
  rw [intWidth, Ty.intWidth?_scalar, if_pos hs]

theorem width_le (s : Scalar) : s.width ≤ 64 := by
  cases s <;> decide

/-- The integer operations of a run are those of vectors of bits, at every integer type: every
operation that has a meaning on vectors computes it, the conversions between integer types
truncate, extend by zeros or extend the sign, and what is undefined stays so. -/
theorem operations_on_bits {s : Scalar} (hs : s.isInt = true) :
    (∀ (op : BinaryOp) (x y : BitVec s.width),
      binary op s.width (.int (wordOf x)) (.int (wordOf y)) =
        match op.onBits? x y with
        | some v => .ok v
        | none => .error (.typeError (.binary op (.int (wordOf x)) (.int (wordOf y))))) ∧
    (∀ (t : Scalar), t.isInt = true → ∀ x : BitVec s.width,
      cast .trunc (.scalar s) (.scalar t) (.int (wordOf x)) =
        .ok (.int (wordOf (x.setWidth t.width))) ∧
      cast .zext (.scalar s) (.scalar t) (.int (wordOf x)) =
        .ok (.int (wordOf (x.setWidth t.width))) ∧
      cast .sext (.scalar s) (.scalar t) (.int (wordOf x)) =
        .ok (.int (wordOf (x.signExtend t.width)))) ∧
    (∀ (op : BinaryOp) (v : Value), binary op s.width .undef v = .ok .undef ∧
      binary op s.width v .undef = .ok .undef) ∧
    ∀ (op : CastOp) (source target : Ty), cast op source target .undef = .ok .undef := by
  refine ⟨fun op x y => ?_, fun t ht x => ⟨?_, ?_, ?_⟩, fun op v => binary_undef op _ v, ?_⟩
  · have hop : binary? op s.width (.int (wordOf x)) (.int (wordOf y)) = op.onBits? x y :=
      intBinary_wordOf (width_le s) op x y
    cases h : op.onBits? x y with
    | some v => exact binary_eq_ok.mpr (hop.trans h)
    | none => exact binary_of_none (hop.trans h)
  · rw [cast, intWidth_scalar ht]
    exact congrArg (fun n => Except.ok (Value.int n)) (low_wordOf (width_le t) x)
  · rw [cast, intWidth_scalar ht]
    exact congrArg (fun n => Except.ok (Value.int n)) (low_wordOf (width_le t) x)
  · rw [cast, intWidth_scalar hs, intWidth_scalar ht]
    exact congrArg (fun n => Except.ok (Value.int n))
      (low_signed_wordOf (width_le s) (width_le t) x)
  · intro op source target
    cases op <;> rfl

/-- Bytes: a sum wraps around, an order depends on the sign, and a byte that is extended by its
sign and read as 16 bits keeps it. -/
theorem operations_on_bytes : Scalar.i8.isInt = true ∧
    binary .add 8 (.int 200) (.int 100) = .ok (.int 44) ∧
    binary .ult 8 (.int 200) (.int 100) = .ok (.int 0) ∧
    binary .slt 8 (.int 200) (.int 100) = .ok (.int 1) ∧
    binary .urem 8 (.int 200) (.int 0) = .ok .undef ∧
    cast .sext (.scalar .i8) (.scalar .i16) (.int 200) = .ok (.int 65480) := by
  obtain ⟨hbinary, hcast, -, -⟩ := operations_on_bits (s := .i8) rfl
  exact ⟨rfl, hbinary .add 200#8 100#8, hbinary .ult 200#8 100#8, hbinary .slt 200#8 100#8,
    hbinary .urem 200#8 0#8, (hcast .i16 rfl 200#8).2.2⟩

end Arith

end ShaderIR
