import FtMalloc.Code

/-!
# The search for a free slot

`find_free_zone` scans thirteen bytes of a bitmap bit by bit, stops at the hundredth bit by an
8-bit counter, sets the first clear bit it meets and packs the place of it into one byte: the byte
index in the high nibble, the bit position in the low one.  `malloc_impl` unpacks the slot index
from that byte.

`findFreeZone_eq` says what comes of it: when slots `0, …, 99` are all taken the answer is `0xFF`
and nothing changes, and otherwise the least free slot `k` is taken and the answer unpacks to `k`.
-/

set_option autoImplicit false

namespace FtMalloc

open ByteMemory CharMap

variable {b : Map}

/-! ## The scan -/

/-- What a loop may answer that has seen the bits below `stop` set and nothing else. -/
def Scan.Sound (b : Map) (stop : Nat) : Scan → Prop
  | .found idx fos => fos < 8 ∧ LeastClear b 100 (8 * idx + fos)
  | .full => Full b 100
  | .next cnt => cnt.toNat = stop ∧ stop ≤ 100 ∧ ∀ j, j < stop → bit b j = true

/-- The inner loop, `n` rounds before its end.  The invariant is that every bit in front of the
loop is set, that `cnt` counts them, and that there are at most a hundred. -/
theorem scanFos_sound (idx : Nat) : ∀ (n fos : Nat) (cnt : BitVec 8),
    fos + n = 8 → cnt.toNat = 8 * idx + fos → 8 * idx + fos ≤ 100 →
    (∀ j, j < 8 * idx + fos → bit b j = true) →
    (scanFos b idx (List.range' fos n) cnt).Sound b (8 * (idx + 1)) := by
  intro n
  induction n with
  | zero =>
    intro fos cnt hfos hcnt hle hset
    obtain rfl : fos = 8 := by omega
    exact ⟨hcnt, hle, hset⟩
  | succ n ih =>
    intro fos cnt hfos hcnt hle hset
    have hfos8 : fos < 8 := by omega
    have hbit : bit b (8 * idx + fos) = (b idx).getLsbD fos := by
      rw [bit]
      congr 2 <;> omega
    have hstep : (cnt + 1#8).toNat = 8 * idx + (fos + 1) := by
      rw [BitVec.toNat_add, hcnt]
      simp
      omega
    have hstop : 100#8 ≤ cnt ↔ 100 ≤ 8 * idx + fos := by rw [BitVec.le_def, hcnt]; rfl
    rw [List.range'_succ, scanFos]
    simp only [charTest_narrow_eq_zero_iff (b idx) hfos8, ← hbit, hstop]
    split
    · exact fun j hj ↦ hset j (by omega)
    · split
      · rename_i hlt hclear
        exact ⟨hfos8, by omega, hclear, hset⟩
      · rename_i hlt hne
        refine ih (fos + 1) (cnt + 1#8) (by omega) hstep (by omega) fun j hj ↦ ?_
        rcases Nat.lt_or_eq_of_le (show j ≤ 8 * idx + fos by omega) with h | rfl
        · exact hset j h
        · simpa using hne

/-- The outer loop, `n` rounds before its end.  It never ends by running out of rounds: the
hundredth bit is in its last byte. -/
theorem scanIdx_sound : ∀ (n idx : Nat) (cnt : BitVec 8), idx + n = 13 →
    cnt.toNat = 8 * idx → 8 * idx ≤ 100 → (∀ j, j < 8 * idx → bit b j = true) →
    (scanIdx b (List.range' idx n) cnt).Sound b 104 := by
  intro n
  induction n with
  | zero => intro idx cnt hidx hcnt hle; omega
  | succ n ih =>
    intro idx cnt hidx hcnt hle hset
    have h := scanFos_sound (b := b) idx 8 0 cnt rfl hcnt hle hset
    rw [List.range'_succ, scanIdx, List.range_eq_range']
    cases hs : scanFos b idx (List.range' 0 8) cnt with
    | found i f => rw [hs] at h; exact h
    | full => rw [hs] at h; exact h
    | next c =>
      rw [hs] at h
      exact ih (idx + 1) c (by omega) h.1 h.2.1 h.2.2

theorem scan_sound (b : Map) : (scanIdx b (List.range 0x0D) 0#8).Sound b 104 := by
  rw [List.range_eq_range']
  exact scanIdx_sound 13 0 0#8 rfl rfl (by decide) fun j hj ↦ absurd hj (by omega)

/-- The scan gives up exactly when the first hundred bits are set. -/
theorem scan_eq_full (h : Full b 100) : scanIdx b (List.range 0x0D) 0#8 = .full := by
  have hs := scan_sound b
  cases hscan : scanIdx b (List.range 0x0D) 0#8 with
  | found i f => rw [hscan] at hs; exact absurd h hs.2.not_full
  | full => rfl
  | next c => rw [hscan] at hs; exact absurd hs.2.1 (by decide)

/-- The scan finds the least clear bit. -/
theorem scan_eq_found {k : Nat} (h : LeastClear b 100 k) :
    scanIdx b (List.range 0x0D) 0#8 = .found (k / 8) (k % 8) := by
  have hs := scan_sound b
  cases hscan : scanIdx b (List.range 0x0D) 0#8 with
  | found i f =>
    rw [hscan] at hs
    obtain rfl := h.unique hs.2
    have hf := hs.1
    congr 1 <;> omega
  | full => rw [hscan] at hs; exact absurd hs h.not_full
  | next c => rw [hscan] at hs; exact absurd hs.2.1 (by decide)

/-! ## The packed answer -/

/-- Slot `k` packed into a byte: its byte index in the high nibble, its bit position in the low
one. -/
def packSlot (k : Nat) : BitVec 8 := (BitVec.ofNat 8 (k / 8) <<< 4) ||| BitVec.ofNat 8 (k % 8)

/-- `malloc_impl` unpacks what `find_free_zone` packed, and the packed byte is never `0xFF`. -/
theorem packSlot_spec : ∀ k < 100, (slotIndex (packSlot k)).toNat = k ∧ packSlot k ≠ 0xFF#8 := by
  decide

theorem toNat_slotIndex_packSlot {k : Nat} (hk : k < 100) : (slotIndex (packSlot k)).toNat = k :=
  (packSlot_spec k hk).1

theorem packSlot_ne {k : Nat} (hk : k < 100) : packSlot k ≠ 0xFF#8 := (packSlot_spec k hk).2

/-! ## `find_free_zone` -/

/-- The state with slot `k` of the pool marked as taken. -/
def Heap.mark (h : Heap) (z : Pool) (k : Nat) : Heap :=
  { h with bitmap := Function.update h.bitmap z (CharMap.insert (h.bitmap z) k) }

theorem findFreeZone_stride (z : Pool) : findFreeZone z.stride = findFreeSlot z := by
  cases z <;> rfl

/-- A full pool answers `0xFF` and is left alone. -/
theorem findFreeZone_full {h : Heap} {z : Pool} (hfull : Full (h.bitmap z) 100) :
    findFreeZone z.stride h = .ok 0xFF#8 h := by
  rw [findFreeZone_stride, findFreeSlot, get_bind, scan_eq_full hfull]
  rfl

/-- **The least free slot is taken**, and the answer names it. -/
theorem findFreeZone_eq {h : Heap} {z : Pool} {k : Nat} (hk : LeastClear (h.bitmap z) 100 k) :
    findFreeZone z.stride h = .ok (packSlot k) (h.mark z k) := by
  rw [findFreeZone_stride, findFreeSlot, get_bind, scan_eq_found hk]
  rfl

end FtMalloc
