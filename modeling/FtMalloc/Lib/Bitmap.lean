import Mathlib.Logic.Function.Basic

/-!
# Bitmaps kept in arrays of C `char`

An array of signed `char` used as a set of small numbers: member `k` is bit `k % 8` of byte
`k / 8`.  C promotes a `char` to `int` before `&`, `|` and `~`, so a byte whose top bit is set
takes part as a negative number.  `charTest`, `charSet` and `charClear` spell that promotion out,
and `getLsbD_charSet` and its neighbours say that it does no harm: on the eight bits of the byte
the three are test, insert and erase.  `bit_insert` and `bit_erase` lift this to the whole array.
-/

set_option autoImplicit false

namespace CharMap

/-- A `char` array, as a map from its indices. -/
abbrev Map := Nat → BitVec 8

/-- `c & (1 << f)` for a `char c`, as the `int` it is. -/
def charTest (c : BitVec 8) (f : Nat) : BitVec 32 := c.signExtend 32 &&& (1#32 <<< f)

/-- What `c |= (1 << f)` leaves in the `char c`. -/
def charSet (c : BitVec 8) (f : Nat) : BitVec 8 := (c.signExtend 32 ||| (1#32 <<< f)).setWidth 8

/-- What `c &= ~(1 << f)` leaves in the `char c`. -/
def charClear (c : BitVec 8) (f : Nat) : BitVec 8 :=
  (c.signExtend 32 &&& ~~~(1#32 <<< f)).setWidth 8

/-! ## One byte -/

theorem getLsbD_charTest (c : BitVec 8) {f j : Nat} (hf : f < 8) :
    (charTest c f).getLsbD j = (decide (j = f) && c.getLsbD f) := by
  rw [charTest, BitVec.getLsbD_and, BitVec.getLsbD_signExtend, BitVec.getLsbD_shiftLeft,
    BitVec.getLsbD_one]
  by_cases hj : j = f
  · subst hj
    have h32 : j < 32 := by omega
    simp [hf, h32]
  · have hne : ¬ (f ≤ j ∧ j - f = 0) := by omega
    simp only [hj, decide_false, Bool.false_and]
    by_cases hlt : j < f
    · simp [hlt]
    · have h0 : j - f ≠ 0 := by omega
      simp [h0]

/-- `c & (1 << f)` is zero exactly when bit `f` of `c` is clear. -/
theorem charTest_eq_zero_iff (c : BitVec 8) {f : Nat} (hf : f < 8) :
    charTest c f = 0#32 ↔ c.getLsbD f = false := by
  constructor
  · intro h
    have hbit := getLsbD_charTest c (j := f) hf
    rw [h] at hbit
    simpa using hbit.symm
  · intro h
    refine BitVec.eq_of_getLsbD_eq fun j _ ↦ ?_
    rw [getLsbD_charTest c hf, h]
    simp

/-- The same test after the result was narrowed to an `unsigned char`. -/
theorem charTest_narrow_eq_zero_iff (c : BitVec 8) {f : Nat} (hf : f < 8) :
    (charTest c f).setWidth 8 = 0#8 ↔ c.getLsbD f = false := by
  constructor
  · intro h
    have hbit : ((charTest c f).setWidth 8).getLsbD f = c.getLsbD f := by
      rw [BitVec.getLsbD_setWidth, getLsbD_charTest c hf]
      simp [hf]
    rw [← hbit, h]
    simp
  · intro h
    rw [(charTest_eq_zero_iff c hf).mpr h]
    rfl

theorem getLsbD_charSet (c : BitVec 8) {f j : Nat} (hf : f < 8) (hj : j < 8) :
    (charSet c f).getLsbD j = (decide (j = f) || c.getLsbD j) := by
  rw [charSet, BitVec.getLsbD_setWidth, BitVec.getLsbD_or, BitVec.getLsbD_signExtend,
    BitVec.getLsbD_shiftLeft, BitVec.getLsbD_one]
  have h32 : j < 32 := by omega
  by_cases hjf : j = f
  · subst hjf
    simp [hj, h32]
  · by_cases hlt : j < f
    · simp [hjf, hlt, hj, h32]
    · have h0 : j - f ≠ 0 := by omega
      simp [hjf, hj, h32, h0]

theorem getLsbD_charClear (c : BitVec 8) {f j : Nat} (hf : f < 8) (hj : j < 8) :
    (charClear c f).getLsbD j = (!decide (j = f) && c.getLsbD j) := by
  rw [charClear, BitVec.getLsbD_setWidth, BitVec.getLsbD_and, BitVec.getLsbD_signExtend,
    BitVec.getLsbD_not, BitVec.getLsbD_shiftLeft, BitVec.getLsbD_one]
  have h32 : j < 32 := by omega
  by_cases hjf : j = f
  · subst hjf
    simp [hj, h32]
  · by_cases hlt : j < f
    · simp [hjf, hlt, hj, h32]
    · have h0 : j - f ≠ 0 := by omega
      simp [hjf, hj, h32, h0]

/-! ## The whole array -/

/-- Is `k` a member of the set kept in `b`? -/
def bit (b : Map) (k : Nat) : Bool := (b (k / 8)).getLsbD (k % 8)

/-- The array after `b[k / 8] |= (1 << (k % 8))`. -/
def insert (b : Map) (k : Nat) : Map := Function.update b (k / 8) (charSet (b (k / 8)) (k % 8))

/-- The array after `b[k / 8] &= ~(1 << (k % 8))`. -/
def erase (b : Map) (k : Nat) : Map := Function.update b (k / 8) (charClear (b (k / 8)) (k % 8))

theorem bit_insert (b : Map) (k j : Nat) : bit (insert b k) j = (decide (j = k) || bit b j) := by
  by_cases hq : j / 8 = k / 8
  · have hjk : (j % 8 = k % 8) ↔ j = k := by omega
    rw [bit, insert, hq, Function.update_self,
      getLsbD_charSet _ (Nat.mod_lt _ (by omega)) (Nat.mod_lt _ (by omega)), bit, hq]
    simp only [hjk]
  · have hjk : j ≠ k := by rintro rfl; exact hq rfl
    rw [bit, insert, Function.update_of_ne hq, ← bit]
    simp [hjk]

theorem bit_erase (b : Map) (k j : Nat) : bit (erase b k) j = (!decide (j = k) && bit b j) := by
  by_cases hq : j / 8 = k / 8
  · have hjk : (j % 8 = k % 8) ↔ j = k := by omega
    rw [bit, erase, hq, Function.update_self,
      getLsbD_charClear _ (Nat.mod_lt _ (by omega)) (Nat.mod_lt _ (by omega)), bit, hq]
    simp only [hjk]
  · have hjk : j ≠ k := by rintro rfl; exact hq rfl
    rw [bit, erase, Function.update_of_ne hq, ← bit]
    simp [hjk]

@[simp] theorem bit_zero (k : Nat) : bit (fun _ ↦ 0#8) k = false := by simp [bit]

/-- Arrays with the same members are the same. -/
theorem ext_bit {b b' : Map} (h : ∀ k, bit b k = bit b' k) : b = b' := by
  funext i
  refine BitVec.eq_of_getLsbD_eq fun j hj ↦ ?_
  have hi : (8 * i + j) / 8 = i := by omega
  have hj' : (8 * i + j) % 8 = j := by omega
  have hbit := h (8 * i + j)
  rwa [bit, bit, hi, hj'] at hbit

/-! ## The least absent number -/

/-- `k` is the least number below `n` that is not in the set. -/
def LeastClear (b : Map) (n k : Nat) : Prop :=
  k < n ∧ bit b k = false ∧ ∀ j, j < k → bit b j = true

/-- Every number below `n` is in the set. -/
def Full (b : Map) (n : Nat) : Prop := ∀ j, j < n → bit b j = true

theorem LeastClear.unique {b : Map} {n j k : Nat} (h : LeastClear b n j) (h' : LeastClear b n k) :
    j = k := by
  rcases Nat.lt_trichotomy j k with hlt | heq | hgt
  · exact absurd (h'.2.2 j hlt) (by simp [h.2.1])
  · exact heq
  · exact absurd (h.2.2 k hgt) (by simp [h'.2.1])

theorem LeastClear.not_full {b : Map} {n k : Nat} (h : LeastClear b n k) : ¬ Full b n :=
  fun hf ↦ absurd (hf k h.1) (by simp [h.2.1])

theorem full_or_leastClear (b : Map) (n : Nat) : Full b n ∨ ∃ k, LeastClear b n k := by
  induction n with
  | zero => exact .inl fun j hj ↦ absurd hj (by omega)
  | succ n ih =>
    rcases ih with hfull | ⟨k, hk, hclear, hbelow⟩
    · cases hn : bit b n with
      | false => exact .inr ⟨n, by omega, hn, hfull⟩
      | true =>
        refine .inl fun j hj ↦ ?_
        rcases Nat.lt_succ_iff_lt_or_eq.mp hj with h | rfl
        · exact hfull j h
        · exact hn
    · exact .inr ⟨k, by omega, hclear, hbelow⟩

end CharMap
