import Mathlib.Data.Nat.Basic
import Mathlib.Tactic.Ring

/-!
# Byte memories

A memory is a function from addresses to bytes.  Integers are laid out little-endian:
`load m a n` reads the `n` bytes from `a` on as one natural number and `store m a n v` writes the
low `n` bytes of `v` there.  `fill` and `copy` are the closed forms of the two block operations.

Everything a program proof needs about them is a *frame* statement, and all of those are phrased
with `Agree m m' a n`: the two memories have the same `n` bytes from `a` on.  A load sees nothing
else (`Agree.load`), and a write changes nothing outside its own interval (`agree_store`,
`agree_fill`, `agree_copy`).
-/

set_option autoImplicit false

namespace ByteMemory

/-- A byte of memory. -/
abbrev Byte := BitVec 8

/-- A memory: one byte at every address. -/
abbrev Memory := Nat → Byte

/-- The `n` bytes from `a` on, read as a little-endian number. -/
def load (m : Memory) : Nat → Nat → Nat
  | _, 0 => 0
  | a, n + 1 => (m a).toNat + 256 * load m (a + 1) n

/-- The memory after the low `n` bytes of `v` were written from `a` on, little-endian. -/
def store (m : Memory) (a n v : Nat) : Memory := fun x ↦
  if a ≤ x ∧ x < a + n then BitVec.ofNat 8 (v / 256 ^ (x - a)) else m x

/-- The memory after `n` bytes from `a` on were set to `v`. -/
def fill (m : Memory) (a n : Nat) (v : Byte) : Memory := fun x ↦
  if a ≤ x ∧ x < a + n then v else m x

/-- The memory after `n` bytes from `s` on were copied to `d`. -/
def copy (m : Memory) (d s n : Nat) : Memory := fun x ↦
  if d ≤ x ∧ x < d + n then m (s + (x - d)) else m x

/-- The memory after the single byte at `a` was set to `v`. -/
def poke (m : Memory) (a : Nat) (v : Byte) : Memory := fun x ↦ if x = a then v else m x

/-! ## Agreement on an interval -/

/-- `m'` has the same bytes as `m` on the `n` addresses from `a` on. -/
def Agree (m m' : Memory) (a n : Nat) : Prop := ∀ x, a ≤ x → x < a + n → m' x = m x

variable {m m' m'' : Memory} {a n b k : Nat}

theorem Agree.refl (m : Memory) (a n : Nat) : Agree m m a n := fun _ _ _ ↦ rfl

theorem Agree.trans (h : Agree m m' a n) (h' : Agree m' m'' a n) : Agree m m'' a n :=
  fun x h1 h2 ↦ (h' x h1 h2).trans (h x h1 h2)

theorem Agree.mono (h : Agree m m' a n) (hab : a ≤ b) (hk : b + k ≤ a + n) : Agree m m' b k :=
  fun x h1 h2 ↦ h x (by omega) (by omega)

theorem Agree.offset (h : Agree m m' a n) (hk : k < n) : m' (a + k) = m (a + k) :=
  h _ (Nat.le_add_right _ _) (Nat.add_lt_add_left hk _)

/-- A load reads nothing outside its own bytes. -/
theorem Agree.load (h : Agree m m' a n) : load m' a n = load m a n := by
  induction n generalizing a with
  | zero => rfl
  | succ n ih =>
    have hrest : Agree m m' (a + 1) n := h.mono (by omega) (by omega)
    rw [ByteMemory.load, ByteMemory.load, ih hrest, h a (by omega) (by omega)]

theorem Agree.load_of_le (h : Agree m m' a n) (hab : a ≤ b) (hk : b + k ≤ a + n) :
    ByteMemory.load m' b k = ByteMemory.load m b k :=
  (h.mono hab hk).load

/-- **A number determines its bytes.** -/
theorem agree_of_load (h : load m' a n = load m a n) : Agree m m' a n := by
  induction n generalizing a with
  | zero => exact fun x h1 h2 ↦ absurd h2 (by omega)
  | succ n ih =>
    rw [load, load] at h
    have hlt := (m a).isLt
    have hlt' := (m' a).isLt
    have hbyte : (m' a).toNat = (m a).toNat := by omega
    have hrest : load m' (a + 1) n = load m (a + 1) n := by omega
    intro x h1 h2
    rcases Nat.eq_or_lt_of_le h1 with rfl | h1
    · exact BitVec.eq_of_toNat_eq hbyte
    · exact ih hrest x h1 (by omega)

/-- A store is felt only inside its own interval. -/
theorem agree_store (v : Nat) (h : b + k ≤ a ∨ a + n ≤ b) : Agree m (store m a n v) b k := by
  intro x h1 h2
  rw [store, if_neg (by omega)]

theorem agree_fill (v : Byte) (h : b + k ≤ a ∨ a + n ≤ b) : Agree m (fill m a n v) b k := by
  intro x h1 h2
  rw [fill, if_neg (by omega)]

theorem agree_copy (s : Nat) (h : b + k ≤ a ∨ a + n ≤ b) : Agree m (copy m a s n) b k := by
  intro x h1 h2
  rw [copy, if_neg (by omega)]

theorem agree_poke (v : Byte) (h : a < b ∨ b + k ≤ a) : Agree m (poke m a v) b k := by
  intro x h1 h2
  rw [poke, if_neg (by omega)]

/-! ## Reading back what was written -/

/-- The bytes of a stored number, from its `j`-th byte on, are the number without its low `j`
bytes. -/
theorem load_store_suffix (m : Memory) (a v : Nat) {j r n : Nat} (h : j + r = n) :
    load (store m a n v) (a + j) r = v / 256 ^ j % 256 ^ r := by
  induction r generalizing j with
  | zero => simp [load, Nat.mod_one]
  | succ r ih =>
    have hbyte : store m a n v (a + j) = BitVec.ofNat 8 (v / 256 ^ j) := by
      rw [store, if_pos (by omega), Nat.add_sub_cancel_left]
    have hdiv : v / 256 ^ (j + 1) = v / 256 ^ j / 256 := by
      rw [Nat.div_div_eq_div_mul, pow_succ]
    have htail : load (store m a n v) (a + j + 1) r = v / 256 ^ j / 256 % 256 ^ r := by
      rw [Nat.add_assoc, ih (by omega), hdiv]
    rw [load, hbyte, htail, pow_succ', Nat.mod_mul, BitVec.toNat_ofNat]

/-- **A load reads back what was stored**, up to the bytes there was room for. -/
theorem load_store (m : Memory) (a n v : Nat) : load (store m a n v) a n = v % 256 ^ n := by
  have h := load_store_suffix m a v (j := 0) (r := n) (Nat.zero_add n)
  simpa using h

theorem load_store_of_lt (m : Memory) (a : Nat) {n v : Nat} (h : v < 256 ^ n) :
    load (store m a n v) a n = v := by
  rw [load_store, Nat.mod_eq_of_lt h]

theorem load_store_of_disjoint (v : Nat) (h : b + k ≤ a ∨ a + n ≤ b) :
    load (store m a n v) b k = load m b k :=
  (agree_store v h).load

end ByteMemory
