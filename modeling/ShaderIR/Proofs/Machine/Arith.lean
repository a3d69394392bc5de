import Mathlib.Data.Int.ModEq
import ShaderIR.Machine.Arith

/-!
# The low bits of words

Cutting a word to fewer bits takes the remainder of the integer that it holds, and sums and
products may be cut before or after.
-/

set_option autoImplicit false

namespace ShaderIR.Arith

/-- Wrapping a word around changes no remainder by a smaller power of two. -/
theorem bmod_emod_of_dvd {m n : Nat} (h : n ∣ m) (x : Int) : x.bmod m % n = x % n := by
  have hdvd : (n : Int) ∣ x.bmod m - x :=
    dvd_trans (Int.natCast_dvd_natCast.mpr h) Int.dvd_bmod_sub_self
  exact Int.ModEq.symm (Int.modEq_iff_dvd.mpr hdvd)

theorem toInt_low {width : Nat} (h : width < 64) (n : Int64) :
    (low width n).toInt = n.toInt % 2 ^ width := by
  have hpow : 2 ^ width ≤ 2 ^ 63 := Nat.pow_le_pow_right (by omega) (by omega)
  have hbits : (low width n).toBitVec.toNat = n.toBitVec.toNat % 2 ^ width := by
    rw [low, Int64.toBitVec_ofBitVec, BitVec.toNat_setWidth, BitVec.toNat_setWidth]
    have := Nat.mod_lt n.toBitVec.toNat (Nat.two_pow_pos width)
    exact Nat.mod_eq_of_lt (by omega)
  have hlt := Nat.mod_lt n.toBitVec.toNat (Nat.two_pow_pos width)
  rw [← Int64.toInt_toBitVec, BitVec.toInt_eq_toNat_of_lt (by omega), hbits,
    ← Int64.toInt_toBitVec, BitVec.toInt_eq_toNat_bmod]
  have hcut := bmod_emod_of_dvd (Nat.pow_dvd_pow 2 (Nat.le_of_lt h)) (n.toBitVec.toNat : Int)
  push_cast at hcut ⊢
  exact hcut.symm

theorem toInt_low_of_bmod {width : Nat} (h : width < 64) {n : Int64} {x : Int}
    (hn : n.toInt = x.bmod (2 ^ 64)) : (low width n).toInt = x % 2 ^ width := by
  rw [toInt_low h, hn]
  have hcut := bmod_emod_of_dvd (Nat.pow_dvd_pow 2 (Nat.le_of_lt h)) x
  push_cast at hcut
  exact hcut

theorem toInt_low_add {width : Nat} (h : width < 64) (a b : Int64) :
    (low width (a + b)).toInt = (a.toInt + b.toInt) % 2 ^ width :=
  toInt_low_of_bmod h (Int64.toInt_add a b)

theorem toInt_low_mul {width : Nat} (h : width < 64) (a b : Int64) :
    (low width (a * b)).toInt = (a.toInt * b.toInt) % 2 ^ width :=
  toInt_low_of_bmod h (Int64.toInt_mul a b)

theorem low_eq_self {width : Nat} {n : Int64} (h0 : 0 ≤ n.toInt) (hlt : n.toInt < 2 ^ width) :
    low width n = n := by
  by_cases h : width < 64
  · exact Int64.toInt.inj ((toInt_low h n).trans (Int.emod_eq_of_lt h0 hlt))
  · rw [low, BitVec.setWidth_setWidth_of_le _ (Nat.not_lt.mp h), BitVec.setWidth_eq,
      Int64.ofBitVec_toBitVec]

theorem low_ofNat {width n : Nat} (h : width < 64) (hn : n < 2 ^ width) :
    low width (Int64.ofNat n) = Int64.ofNat n := by
  have hpow : 2 ^ width ≤ 2 ^ 63 := Nat.pow_le_pow_right (by omega) (by omega)
  have htoInt : (Int64.ofNat n).toInt = n := Int64.toInt_ofNat_of_lt (by omega)
  refine low_eq_self ?_ ?_
  · omega
  · rw [htoInt]
    exact_mod_cast hn

end ShaderIR.Arith
