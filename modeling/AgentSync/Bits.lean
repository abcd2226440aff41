import Mathlib.Data.BitVec

/-! Shifts and masks of words, as arithmetic.

A word that digits are shifted into from the right loses its oldest ones on the left. A digit that
is still in it is read with an arithmetic shift and a mask, whatever the sign has become. -/
namespace Bits

variable {w : Nat}

/-- Words with no bit in common are added. -/
theorem toNat_or_of_lt {x y : BitVec w} {k a : Nat} (hx : x.toNat = a * 2 ^ k)
    (hy : y.toNat < 2 ^ k) : (x ||| y).toNat = x.toNat + y.toNat := by
  rw [BitVec.toNat_or, hx, ← Nat.shiftLeft_eq, Nat.shiftLeft_add_eq_or_of_lt hy]

/-- A digit of `k` bits is shifted in. -/
theorem toNat_shiftLeft_or (x : BitVec w) {k v : Nat} (hk : k ≤ w) (hv : v < 2 ^ k) :
    (x <<< k ||| BitVec.ofNat w v).toNat = x.toNat * 2 ^ k % 2 ^ w + v := by
  have hvw : v < 2 ^ w := hv.trans_le (Nat.pow_le_pow_right (by decide) hk)
  have hdigit : (BitVec.ofNat w v).toNat = v := by
    rw [BitVec.toNat_ofNat, Nat.mod_eq_of_lt hvw]
  have hshift : (x <<< k).toNat = x.toNat % 2 ^ (w - k) * 2 ^ k := by
    rw [BitVec.toNat_shiftLeft, Nat.shiftLeft_eq, ← Nat.mul_mod_mul_right, ← pow_add,
      Nat.sub_add_cancel hk]
  have hlow : (BitVec.ofNat w v).toNat < 2 ^ k := by rwa [hdigit]
  rw [toNat_or_of_lt hshift hlow, hdigit, BitVec.toNat_shiftLeft, Nat.shiftLeft_eq]

/-- The `m` bits above the lowest `k` are read, with no sign among them. -/
theorem toNat_sshiftRight_and (x : BitVec w) {k m : Nat} (h : k + m ≤ w) :
    (x.sshiftRight k &&& BitVec.ofNat w (2 ^ m - 1)).toNat = x.toNat / 2 ^ k % 2 ^ m := by
  have hm : 2 ^ m ≤ 2 ^ w := Nat.pow_le_pow_right (by decide) (by omega)
  have hpos : 0 < 2 ^ m := Nat.two_pow_pos m
  rw [BitVec.toNat_and, BitVec.toNat_ofNat, Nat.mod_eq_of_lt (by omega),
    Nat.and_two_pow_sub_one_eq_mod]
  refine Nat.eq_of_testBit_eq fun i => ?_
  rw [Nat.testBit_mod_two_pow, Nat.testBit_mod_two_pow, Nat.testBit_div_two_pow]
  by_cases hi : i < m
  · have hget := BitVec.getLsbD_sshiftRight x k i
    rw [if_pos (by omega), decide_eq_false (by omega), Bool.not_false, Bool.true_and] at hget
    rw [decide_eq_true hi, Bool.true_and, Bool.true_and, Nat.add_comm]
    exact hget
  · rw [decide_eq_false hi, Bool.false_and, Bool.false_and]

/-! ### The lowest bits -/

/-- The lowest `m` bits of a word. -/
def low (x : BitVec w) (m : Nat) : Nat := x.toNat % 2 ^ m

theorem low_mod (x : BitVec w) {m n : Nat} (h : m ≤ n) : low x n % 2 ^ m = low x m :=
  Nat.mod_mod_of_dvd _ (Nat.pow_dvd_pow 2 h)

/-- Shifting a digit in moves the lowest bits up, and they lose nothing to the end of the word. -/
theorem low_shiftLeft_or (x : BitVec w) {k m v : Nat} (h : m + k ≤ w) (hv : v < 2 ^ k) :
    low (x <<< k ||| BitVec.ofNat w v) (m + k) = low x m * 2 ^ k + v := by
  have hlt : x.toNat % 2 ^ m * 2 ^ k + v < 2 ^ (m + k) := by
    have hm : x.toNat % 2 ^ m + 1 ≤ 2 ^ m := Nat.mod_lt _ (Nat.two_pow_pos m)
    calc x.toNat % 2 ^ m * 2 ^ k + v < (x.toNat % 2 ^ m + 1) * 2 ^ k := by
          rw [Nat.succ_mul]
          omega
      _ ≤ 2 ^ m * 2 ^ k := Nat.mul_le_mul_right _ hm
      _ = 2 ^ (m + k) := (pow_add 2 m k).symm
  have hshift : x.toNat * 2 ^ k % 2 ^ w % 2 ^ (m + k) = x.toNat % 2 ^ m * 2 ^ k := by
    rw [Nat.mod_mod_of_dvd _ (Nat.pow_dvd_pow 2 h), pow_add, Nat.mul_mod_mul_right]
  rw [low, toNat_shiftLeft_or x (by omega) hv, Nat.add_mod, hshift, Nat.add_mod_mod,
    Nat.mod_eq_of_lt hlt, low]

/-- A digit in the lowest bits is read from them alone. -/
theorem sshiftRight_and_eq_low (x : BitVec w) {k m : Nat} (h : k + m ≤ w) :
    (x.sshiftRight k &&& BitVec.ofNat w (2 ^ m - 1)).toNat = low x (k + m) / 2 ^ k := by
  rw [toNat_sshiftRight_and x h, low, pow_add, Nat.mod_mul_right_div_self]

end Bits
