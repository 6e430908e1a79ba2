import Mathlib.Data.Nat.Digits.Lemmas
import Mathlib.Data.Nat.Log

/-!
# Numerals

`digits b n` are the digits of `n` in base `b` the way they are written: the most significant first,
and a single zero for zero.  A number is determined by its digits (`digits_inj`).

There are two ways to compute them.  From the right, the last digit is split off and goes in front
of the digits that are already there (`digits_snoc`).  From the left, the number is divided by the
greatest power of the base that is not above it, then the remainder by the next lower power, and so
on (`topDown_log`).
-/

set_option autoImplicit false

namespace Numeral

variable {b n m d k : Nat}

/-- The digits of `n` in base `b`, the most significant first. -/
def digits (b n : Nat) : List Nat := if n = 0 then [0] else (Nat.digits b n).reverse

theorem digits_of_pos (hn : 0 < n) : digits b n = (Nat.digits b n).reverse :=
  if_neg (Nat.ne_of_gt hn)

theorem digits_ne_nil (b n : Nat) : digits b n ≠ [] := by
  rw [digits]
  split
  · exact List.cons_ne_nil _ _
  · rename_i hn
    exact fun h ↦ hn (Nat.digits_eq_nil_iff_eq_zero.mp (List.reverse_eq_nil_iff.mp h))

/-- Read back in their base, the digits give the number. -/
theorem ofDigits_reverse_digits (b n : Nat) : Nat.ofDigits b (digits b n).reverse = n := by
  rw [digits]
  split
  · rename_i h
    simp [h]
  · rw [List.reverse_reverse, Nat.ofDigits_digits]

/-- **A number is determined by its digits.** -/
theorem digits_inj : digits b n = digits b m ↔ n = m := by
  refine ⟨fun h ↦ ?_, fun h ↦ h ▸ rfl⟩
  rw [← ofDigits_reverse_digits b n, h, ofDigits_reverse_digits]

/-- Reading the digits from the left, each step shifts what was read by a place. -/
theorem foldl_digits (b n : Nat) : (digits b n).foldl (fun m d ↦ m * b + d) 0 = n := by
  have hread := ofDigits_reverse_digits b n
  rw [Nat.ofDigits_eq_foldr, List.foldr_reverse] at hread
  refine Eq.trans (congrArg (fun f ↦ (digits b n).foldl f 0) ?_) hread
  funext m d
  rw [Nat.cast_id, Nat.add_comm, Nat.mul_comm]

/-- Only zero is written with a leading zero. -/
theorem eq_zero_of_head_digits (h : (digits b n).head? = some 0) : n = 0 := by
  by_contra hn
  have hnil : Nat.digits b n ≠ [] := fun h ↦ hn (Nat.digits_eq_nil_iff_eq_zero.mp h)
  rw [digits, if_neg hn, List.head?_reverse, List.getLast?_eq_getLast_of_ne_nil hnil,
    Option.some_inj] at h
  exact Nat.getLast_digit_ne_zero b hn h

theorem lt_of_mem_digits (hb : 1 < b) (hd : d ∈ digits b n) : d < b := by
  rw [digits] at hd
  split at hd
  · rw [List.mem_singleton] at hd
    omega
  · exact Nat.digits_lt_base hb (List.mem_reverse.mp hd)

theorem digits_of_lt (hn : n < b) : digits b n = [n] := by
  rcases Nat.eq_zero_or_pos n with rfl | hpos
  · rfl
  · rw [digits_of_pos hpos, Nat.digits_of_lt b n (Nat.ne_of_gt hpos) hn, List.reverse_singleton]

/-- The last digit is the remainder. -/
theorem digits_snoc (hb : 1 < b) (hn : b ≤ n) : digits b n = digits b (n / b) ++ [n % b] := by
  have hdiv : 0 < n / b := Nat.div_pos hn (by omega)
  rw [digits_of_pos (by omega), digits_of_pos hdiv, Nat.digits_def' hb (by omega),
    List.reverse_cons]

/-- A number below `b ^ k` has at most `k` digits, or the one of zero. -/
theorem length_digits_le (hb : 1 < b) (hk : 0 < k) (hn : n < b ^ k) : (digits b n).length ≤ k := by
  rw [digits]
  split
  · exact hk
  · rw [List.length_reverse]
    exact (Nat.digits_length_le_iff hb n).mpr hn

/-! ## From the left -/

/-- The quotients of `n` by `b ^ k`, of the remainder by `b ^ (k - 1)`, and so on down to `b ^
0`. -/
def topDown (b : Nat) : Nat → Nat → List Nat
  | 0, n => [n]
  | k + 1, n => n / b ^ (k + 1) :: topDown b k (n % b ^ (k + 1))

/-- The last of the quotients is the remainder of the division by the base. -/
theorem topDown_snoc (b : Nat) : ∀ k n, topDown b (k + 1) n = topDown b k (n / b) ++ [n % b]
  | 0, n => by simp [topDown]
  | k + 1, n => by
    have hq : n / b ^ (k + 2) = n / b / b ^ (k + 1) := by
      rw [Nat.div_div_eq_div_mul, pow_succ' b (k + 1)]
    have hr : n % b ^ (k + 2) / b = n / b % b ^ (k + 1) := by
      rw [pow_succ' b (k + 1), Nat.mod_mul_right_div_self]
    have hl : n % b ^ (k + 2) % b = n % b :=
      Nat.mod_mod_of_dvd n (dvd_pow_self b (by omega))
    rw [topDown, topDown_snoc b k, hr, hl, hq]
    rfl

theorem topDown_eq (hb : 1 < b) : ∀ k n, (k = 0 ∨ b ^ k ≤ n) → n < b ^ (k + 1) →
    topDown b k n = digits b n
  | 0, n, _, hlt => by rw [topDown, digits_of_lt (by simpa using hlt)]
  | k + 1, n, hle, hlt => by
    have hle : b ^ k * b ≤ n := by simpa [pow_succ] using hle
    have hdiv : b ^ k ≤ n / b := (Nat.le_div_iff_mul_le (by omega)).mpr hle
    have hlt' : n / b < b ^ (k + 1) :=
      Nat.div_lt_of_lt_mul (by rwa [← pow_succ'])
    have hpow : 1 * b ≤ b ^ k * b := Nat.mul_le_mul_right b (Nat.pow_pos (by omega))
    rw [topDown_snoc, topDown_eq hb k (n / b) (.inr hdiv) hlt', ← digits_snoc hb (by omega)]

/-- **The digits from the left**, by the greatest power of the base that is not above the number. -/
theorem topDown_log (hb : 1 < b) (n : Nat) : topDown b (Nat.log b n) n = digits b n := by
  refine topDown_eq hb _ n ?_ (Nat.lt_pow_succ_log_self hb n)
  rcases Nat.eq_zero_or_pos n with rfl | hpos
  · exact .inl (Nat.log_zero_right b)
  · exact .inr (Nat.pow_log_le_self b (Nat.ne_of_gt hpos))

end Numeral
