import Mathlib.Data.Nat.Basic
import Mathlib.Tactic.Ring

/-!
# Rounding up to a multiple of a power of two

`roundUp p n` is the least multiple of `p` that is at least `n`.  For a power of two the machine
computes it without a division, as `(n + (p - 1)) & ~(p - 1)` on bit vectors; `toNat_maskUp` says
that this is `roundUp` as long as the sum does not wrap.
-/

set_option autoImplicit false

namespace PowerRound

/-- The least multiple of `p` that is at least `n`. -/
def roundUp (p n : Nat) : Nat := (n + (p - 1)) / p * p

theorem dvd_roundUp (p n : Nat) : p ∣ roundUp p n := Nat.dvd_mul_left p _

theorem le_roundUp {p : Nat} (hp : 0 < p) (n : Nat) : n ≤ roundUp p n := by
  have hdiv := Nat.div_add_mod (n + (p - 1)) p
  have hmod := Nat.mod_lt (n + (p - 1)) hp
  rw [Nat.mul_comm] at hdiv
  rw [roundUp]
  omega

theorem roundUp_le (p n : Nat) : roundUp p n ≤ n + (p - 1) := Nat.div_mul_le_self _ _

variable {w : Nat}

/-- `(x + (p - 1)) & ~(p - 1)`, the way the machine rounds up. -/
def maskUp (p x : BitVec w) : BitVec w := (x + (p - 1)) &&& ~~~(p - 1)

/-- Masking off the low `k` bits is a shift to the right and back. -/
theorem and_not_low (x : BitVec w) (k : Nat) :
    x &&& ~~~(BitVec.ofNat w (2 ^ k - 1)) = (x >>> k) <<< k := by
  refine BitVec.eq_of_getLsbD_eq fun i hi ↦ ?_
  rw [BitVec.getLsbD_and, BitVec.getLsbD_not, BitVec.getLsbD_ofNat, Nat.testBit_two_pow_sub_one,
    BitVec.getLsbD_shiftLeft, BitVec.getLsbD_ushiftRight]
  by_cases hk : i < k
  · simp [hi, hk]
  · have hadd : k + (i - k) = i := by omega
    simp [hi, hk, hadd]

theorem toNat_and_not_low (x : BitVec w) (k : Nat) :
    (x &&& ~~~(BitVec.ofNat w (2 ^ k - 1))).toNat = x.toNat / 2 ^ k * 2 ^ k := by
  have hle : x.toNat / 2 ^ k * 2 ^ k ≤ x.toNat := Nat.div_mul_le_self _ _
  have hlt : x.toNat / 2 ^ k * 2 ^ k < 2 ^ w := Nat.lt_of_le_of_lt hle x.isLt
  rw [and_not_low, BitVec.toNat_shiftLeft, BitVec.toNat_ushiftRight, Nat.shiftRight_eq_div_pow,
    Nat.shiftLeft_eq, Nat.mod_eq_of_lt hlt]

/-- One less than a power of two, as a bit vector. -/
theorem ofNat_pow_sub_one (w k : Nat) :
    BitVec.ofNat w (2 ^ k) - 1 = BitVec.ofNat w (2 ^ k - 1) := by
  have hpos : 1 ≤ 2 ^ k := Nat.one_le_two_pow
  have hsplit : BitVec.ofNat w (2 ^ k) = BitVec.ofNat w (2 ^ k - 1) + 1 := by
    rw [show (1 : BitVec w) = BitVec.ofNat w 1 from rfl, ← BitVec.ofNat_add,
      Nat.sub_add_cancel hpos]
  rw [hsplit, BitVec.add_sub_cancel]

/-- **The mask rounds up**, as long as the sum does not wrap. -/
theorem toNat_maskUp {k n : Nat} (h : n + (2 ^ k - 1) < 2 ^ w) :
    (maskUp (BitVec.ofNat w (2 ^ k)) (BitVec.ofNat w n)).toNat = roundUp (2 ^ k) n := by
  rw [maskUp, ofNat_pow_sub_one, toNat_and_not_low, BitVec.toNat_add, BitVec.toNat_ofNat,
    BitVec.toNat_ofNat, ← Nat.add_mod, Nat.mod_eq_of_lt h, roundUp]

end PowerRound
