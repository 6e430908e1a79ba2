import FtMalloc.Layout

/-!
# Reading and writing headers

What the three fields of a header read as after each of the writes the program makes to memory, and
the closed forms of its loops over memory: `initHeaders` fills in the headers of an arena and
touches nothing else (`agree_initHeaders`), `ftMemset` is `fill` and `ftMemcpy` is `copy`.

`Heap.WF.of_mem` is the frame rule of the invariant: memory may change in any way that leaves the
first nine bytes of every header alone and keeps the recorded sizes in range.
-/

set_option autoImplicit false

namespace FtMalloc

open ByteMemory CharMap PowerRound

variable {m m' : Memory} {p q : Nat}

/-! ## One header -/

/-- The fields `size` and `position` are the first nine bytes of a header. -/
theorem metaSize_congr (h : Agree m m' p 9) : metaSize m' p = metaSize m p :=
  h.load_of_le (le_refl p) (by omega)

theorem metaPosition_congr (h : Agree m m' p 9) : metaPosition m' p = metaPosition m p := by
  rw [metaPosition, metaPosition, h (p + 8) (by omega) (by omega)]

theorem metaClientSize_congr (h : Agree m m' (p + 12) 4) :
    metaClientSize m' p = metaClientSize m p := by
  rw [metaClientSize, metaClientSize, h.load]

theorem agree_setMetaClientSize (v : Nat) {a n : Nat} (h : a + n ≤ p + 12 ∨ p + 16 ≤ a) :
    Agree m (setMetaClientSize m p v) a n :=
  agree_store v (by omega)

/-- A size that was recorded is read back as an `int`. -/
theorem metaClientSize_set (m : Memory) (p v : Nat) :
    metaClientSize (setMetaClientSize m p v) p = asInt v := by
  have hmod : BitVec.ofNat 32 (v % 256 ^ 4) = BitVec.ofNat 32 v := by
    rw [← BitVec.toNat_inj, BitVec.toNat_ofNat, BitVec.toNat_ofNat]
    omega
  rw [metaClientSize, setMetaClientSize, load_store, hmod, asInt, BitVec.ofInt_natCast]

/-- An `int` holds a size below `2 ^ 31` as it is. -/
theorem asInt_of_lt {v : Nat} (hv : v < 2 ^ 31) : asInt v = (v : Int) := by
  rw [asInt, BitVec.toInt_ofInt]
  simp only [Int.bmod]
  omega

theorem metaPosition_setMetaPosition {v : Nat} (hv : v < 128) :
    metaPosition (setMetaPosition m p v) p = (v : Int) := by
  have hb : setMetaPosition m p v (p + 8) = BitVec.ofNat 8 v := by
    rw [setMetaPosition, store, if_pos (by omega), Nat.sub_self, Nat.pow_zero, Nat.div_one]
  rw [metaPosition, hb, BitVec.toInt_ofNat']
  simp only [Int.bmod]
  omega

/-- A fresh header is felt in its own sixteen bytes only. -/
theorem agree_writeMeta (size position : Nat) {a n : Nat} (h : a + n ≤ p ∨ p + METASIZE ≤ a) :
    Agree m (writeMeta m p size position) a n := by
  rw [METASIZE] at h
  have h1 : Agree m (setMetaSize m p size) a n := agree_store size (by omega)
  have h2 : Agree (setMetaSize m p size) (setMetaPosition (setMetaSize m p size) p position) a n :=
    agree_store position (by omega)
  exact (h1.trans h2).trans (agree_store 0 (by omega))

theorem metaSize_writeMeta {size : Nat} (position : Nat) (hs : size < 2 ^ 64) :
    metaSize (writeMeta m p size position) p = size := by
  rw [metaSize, writeMeta, setMetaClientSize, load_store_of_disjoint 0 (by omega),
    setMetaPosition, load_store_of_disjoint position (by omega), setMetaSize,
    load_store_of_lt m p (by omega)]

theorem metaPosition_writeMeta (size : Nat) {position : Nat} (hp : position < 128) :
    metaPosition (writeMeta m p size position) p = (position : Int) := by
  have hag : Agree (setMetaPosition (setMetaSize m p size) p position)
      (writeMeta m p size position) p 9 := agree_setMetaClientSize 0 (by omega)
  rw [metaPosition_congr hag, metaPosition_setMetaPosition hp]

/-! ## The loops -/

/-- Filling in the headers of an arena touches nothing outside of it. -/
theorem agree_initHeaders {stride : Nat} (hs : METASIZE ≤ stride) {a k : Nat} :
    ∀ n, (a + k ≤ p ∨ p + stride * n ≤ a) → Agree m (initHeaders p stride n m) a k
  | 0, _ => Agree.refl m a k
  | n + 1, h => by
    have hmul : stride * (n + 1) = stride * n + stride := Nat.mul_succ _ _
    have hrest : Agree m (initHeaders p stride n m) a k := agree_initHeaders hs n (by omega)
    exact hrest.trans (agree_writeMeta _ _ (by omega))

/-- **Each header of a fresh arena** names the stride and the place of its slot. -/
theorem initHeaders_spec {stride : Nat} (hs : METASIZE ≤ stride) (hlt : stride < 2 ^ 32) :
    ∀ n ≤ 100, ∀ k < n,
      metaSize (initHeaders p stride n m) (p + stride * k) = stride ||| (k >>> 3) ∧
        metaPosition (initHeaders p stride n m) (p + stride * k)
          = ((k &&& POS_MASK : Nat) : Int) := by
  intro n
  induction n with
  | zero => intro _ k hk; exact absurd hk (by omega)
  | succ n ih =>
    intro hn k hk
    rcases Nat.lt_succ_iff_lt_or_eq.mp hk with hlt' | rfl
    · have hmul : stride * k + stride ≤ stride * n := by
        rw [← Nat.mul_succ]
        exact Nat.mul_le_mul_left _ hlt'
      have hag : Agree (initHeaders p stride n m) (initHeaders p stride (n + 1) m)
          (p + stride * k) 9 := agree_writeMeta _ _ (by rw [METASIZE] at *; omega)
      rw [metaSize_congr hag, metaPosition_congr hag]
      exact ih (by omega) k hlt'
    · have hsize : stride ||| (k >>> 3) < 2 ^ 64 := by
        refine Nat.or_lt_two_pow (by omega) ?_
        have := Nat.shiftRight_le k 3
        omega
      have hpos : k &&& POS_MASK < 128 :=
        Nat.lt_of_le_of_lt Nat.and_le_right (by decide)
      exact ⟨metaSize_writeMeta _ hsize, metaPosition_writeMeta _ hpos⟩

/-- The loop of `ft_memset` fills. -/
theorem ftMemset_eq_fill (m : Memory) (s : Nat) (c : Byte) (n : Nat) :
    ftMemset m s c n = fill m s n c := by
  induction n with
  | zero =>
    funext x
    rw [ftMemset, fill, if_neg (by omega)]
  | succ n ih =>
    funext x
    rw [ftMemset, ih]
    simp only [poke, fill]
    split_ifs <;> first | rfl | omega

/-- The loop of `ft_memcpy` copies, when source and destination share no byte. -/
theorem ftMemcpy_eq_copy (m : Memory) (d s : Nat) {n k : Nat} (hk : k ≤ n)
    (h : s + n ≤ d ∨ d + n ≤ s) : ftMemcpy m d s k = copy m d s k := by
  induction k with
  | zero =>
    funext x
    rw [ftMemcpy, copy, if_neg (by omega)]
  | succ k ih =>
    funext x
    have hsrc : copy m d s k (s + k) = m (s + k) := by rw [copy, if_neg (by omega)]
    simp only [ftMemcpy, ih (by omega), poke, hsrc]
    by_cases hx : x = d + k
    · subst hx
      rw [if_pos rfl, copy, if_pos (by omega), Nat.add_sub_cancel_left]
    · rw [if_neg hx, copy, copy]
      by_cases hin : d ≤ x ∧ x < d + k
      · rw [if_pos hin, if_pos (by omega)]
      · rw [if_neg hin, if_neg (by omega)]

/-! ## Capacities -/

/-- The room `realloc_impl` computes from the `size` field of a LARGE header. -/
theorem capacity_large {len : Nat} (h : metaSize m p = len) (hdvd : 16 ∣ len) (hge : 16 ≤ len)
    (hlt : len < 2 ^ 64) : capacity m p = len - METASIZE := by
  have hmask : (BitVec.ofNat 64 len &&& ~~~(BitVec.ofNat 64 INDEX_MASK)).toNat = len := by
    have hx := toNat_and_not_low (BitVec.ofNat 64 len) 4
    rw [BitVec.toNat_ofNat, Nat.mod_eq_of_lt hlt] at hx
    rw [show INDEX_MASK = 2 ^ 4 - 1 from rfl, hx]
    exact Nat.div_mul_cancel hdvd
  have h16 : (BitVec.ofNat 64 METASIZE).toNat = METASIZE := rfl
  rw [capacity, h, BitVec.toNat_sub_of_le, hmask, h16]
  rw [BitVec.le_def, hmask, h16]
  exact hge

/-- The room `realloc_impl` computes from the `size` field of a pool header: the index in its low
bits is masked off. -/
theorem capacity_pool {z : Pool} {k : Nat} (h : metaSize m p = z.stride ||| (k >>> 3))
    (hk : k < 100) : capacity m p = z.stride - METASIZE := by
  have hall : ∀ j < 13, ((BitVec.ofNat 64 (z.stride ||| j) &&& ~~~(BitVec.ofNat 64 INDEX_MASK))
      - BitVec.ofNat 64 METASIZE).toNat = z.stride - METASIZE := by cases z <;> decide
  have hj : k >>> 3 < 13 := by
    rw [Nat.shiftRight_eq_div_pow]
    omega
  rw [capacity, h]
  exact hall _ hj

namespace Heap.WF

variable {pl : Platform} {h : Heap} {s : Slot}

/-- **`realloc_impl` decodes the room of a slot** from its header. -/
theorem capacity_eq (hi : h.WF pl) (hs : h.Exists s) :
    capacity h.mem (h.extent s).base = (h.extent s).len - METASIZE := by
  cases s with
  | pool z k => exact capacity_pool (hi.header z k hs.1 hs.2).1 hs.2
  | large i =>
    have hm := hi.extent_mapped (s := .large i) hs
    have hge : METASIZE < (h.extent (.large i)).len := hm.2
    have hbase := hm.1.base_pos
    have hstop := hm.1.stop_le
    refine capacity_large rfl (hi.large_header i hs).1 ?_ ?_
    · exact Nat.le_of_lt hge
    · show (h.extent (.large i)).len < 2 ^ 64
      omega

/-! ## The frame rule -/

/-- **Memory may change**, and with it the sizes on record, as long as the first nine bytes of every
header stay, and with them the lengths and places they name, and the sizes stay in range. -/
theorem of_mem (hi : h.WF pl) {m' : Memory} {sizes : Nat → Nat}
    (hfix : ∀ s, h.Exists s → Agree h.mem m' (h.extent s).base 9)
    (hsize : ∀ z k, bit (h.bitmap z) k = true → 0 < metaClientSize m' (h.slotAddr z k) ∧
      metaClientSize m' (h.slotAddr z k) + METASIZE ≤ z.stride)
    (hsizes : ∀ i, h.large i ≠ 0 → 0 < sizes i ∧
      sizes i + METASIZE ≤ metaSize h.mem (h.large i) ∧
      metaClientSize m' (h.large i) = asInt (sizes i))
    (hnone : ∀ i, h.large i = 0 → sizes i = 0) :
    ({ h with mem := m', largeRequestSizes := sizes } : Heap).WF pl := by
  have hlarge : ∀ i, h.large i ≠ 0 → metaSize m' (h.large i) = metaSize h.mem (h.large i) :=
    fun i hl ↦ metaSize_congr (hfix (.large i) hl)
  have hregion : ({ h with mem := m', largeRequestSizes := sizes } : Heap).region pl
      = h.region pl := by
    funext o
    cases o with
    | arena z => rfl
    | large i =>
      simp only [Heap.region]
      split
      · rename_i hl
        rw [hlarge i hl]
      · rfl
  have howned := hi.owned
  rw [← hregion] at howned
  exact {
    cache := hi.cache
    flags := hi.flags
    bit_lt := hi.bit_lt
    header := fun z k hz hk ↦ by
      have hag := hfix (.pool z k) ⟨hz, hk⟩
      have hhd := hi.header z k hz hk
      exact ⟨(metaSize_congr hag).trans hhd.1, (metaPosition_congr hag).trans hhd.2⟩
    clientSize := hsize
    large_lt := hi.large_lt
    large_flag := hi.large_flag
    large_header := fun i hl ↦ by
      have hhd := hi.large_header i hl
      exact ⟨(hlarge i hl).symm ▸ hhd.1, (metaPosition_congr (hfix (.large i) hl)).trans hhd.2⟩
    large_size := fun i hl ↦ ⟨(hsizes i hl).1, (hlarge i hl).symm ▸ (hsizes i hl).2.1⟩
    large_client := fun i hl ↦ (hsizes i hl).2.2
    large_free := hnone
    large_cnt := hi.large_cnt
    region_mapped := howned.kind
    region_apart := howned.apart
    mem_mapped := howned.mem
    mapped_nodup := howned.nodup }

/-- Memory may change in any way that leaves every header alone. -/
theorem of_payload (hi : h.WF pl) {m' : Memory}
    (hfix : ∀ s, h.Exists s → Agree h.mem m' (h.extent s).base METASIZE) :
    ({ h with mem := m' } : Heap).WF pl := by
  have hclient : ∀ s, h.Exists s →
      metaClientSize m' (h.extent s).base = metaClientSize h.mem (h.extent s).base :=
    fun s hs ↦ metaClientSize_congr ((hfix s hs).mono (by omega) (by rw [METASIZE]))
  refine hi.of_mem (fun s hs ↦ (hfix s hs).mono (le_refl _) (by rw [METASIZE]; omega)) ?_ ?_
    hi.large_free
  · intro z k hb
    have hcs := hclient (.pool z k) (hi.bit_lt z k hb)
    simp only [Heap.extent] at hcs
    rw [hcs]
    exact hi.clientSize z k hb
  · intro i hl
    have hsz := hi.large_size i hl
    exact ⟨hsz.1, hsz.2, (hclient (.large i) hl).trans (hi.large_client i hl)⟩

end Heap.WF

/-- A change of memory that leaves every header alone changes no cell. -/
theorem Heap.cell_of_payload {pl : Platform} {h : Heap} (hi : h.WF pl) {m' : Memory}
    (hfix : ∀ s, h.Exists s → Agree h.mem m' (h.extent s).base METASIZE) :
    ({ h with mem := m' } : Heap).cell = h.cell := by
  funext s
  by_cases ht : h.Taken s
  · have hag := hfix s (hi.exists_of_taken ht)
    cases s with
    | pool z k =>
      have hag' : Agree h.mem m' (h.slotAddr z k + 12) 4 := hag.mono
        (by simp only [Heap.extent]; omega) (by simp only [Heap.extent, METASIZE]; omega)
      rw [Heap.cell_of_taken ht, Heap.cell_of_taken (h := { h with mem := m' }) (s := .pool z k) ht]
      simp only [Heap.extent, Heap.recorded, Heap.slotAddr] at hag' ⊢
      rw [metaClientSize_congr hag']
    | large i =>
      have hag' : Agree h.mem m' (h.large i) 9 := hag.mono (le_refl _)
        (by simp only [Heap.extent, METASIZE]; omega)
      rw [Heap.cell_of_taken ht, Heap.cell_of_taken (h := { h with mem := m' }) (s := .large i) ht]
      simp only [Heap.extent, Heap.recorded]
      rw [metaSize_congr hag']
  · rw [Heap.cell_eq_none.mpr ht]
    exact Heap.cell_eq_none.mpr (by cases s <;> exact ht)

end FtMalloc
