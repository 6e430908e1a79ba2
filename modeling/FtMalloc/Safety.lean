import FtMalloc.World

/-!
# Safety of the payloads, and exact bookkeeping

Two results about every world the library can get into, whatever its clients pass to it and
whatever `mmap` answers.

* `payloads_safe` — the payload of a live block is aligned, mapped, and shares no byte with another
  live block or with a header the allocator relies on.
* `bookkeeping_exact` — the five records the allocator keeps (bitmaps, LARGE table, counter, side
  table of sizes, headers) say the same thing, and it is what the clients know.
-/

set_option autoImplicit false

namespace FtMalloc

open ByteMemory CharMap

variable {pl : Platform} {w : World}

/-! ## Payloads -/

/-- A header that a live block or a slot of an arena relies on. -/
inductive World.ReliesOn (w : World) : Nat → Prop
  | block {b : Block} (hb : b ∈ w.live) {q : Nat} (hq : q + METASIZE = b.ptr) : w.ReliesOn q
  | slot {z : Pool} {k : Nat} (hz : w.heap.poolFlag z = true) (hk : k < 100) :
      w.ReliesOn (w.heap.slotAddr z k)

/-- A header that is relied on is the header of a slot whose memory is there. -/
theorem World.WF.exists_of_reliesOn (hw : w.WF pl) {q : Nat} (hq : w.ReliesOn q) :
    ∃ s, w.heap.Exists s ∧ q = (w.heap.extent s).base := by
  cases hq with
  | block hb hq =>
    obtain ⟨s, c, hc, hat⟩ := hw.cell_of_live hb
    have he := (hw.heap.extent_of_cell hc).1
    have hp := hat.ptr
    exact ⟨s, hw.heap.exists_of_taken (Heap.taken_of_cell hc), by omega⟩
  | @slot z k hz hk => exact ⟨.pool z k, ⟨hz, hk⟩, rfl⟩

/-- The payload a holder may use is part of the payload of the cell. -/
theorem World.WF.payload_within (hw : w.WF pl) {b : Block} {s : Slot} {c : Cell}
    (hc : w.heap.cell s = some c) (hat : b.At s c w.heap.mem) : b.payload.Within c.payload := by
  have hle := (hw.heap.cell_size_le hc).2
  have hp := hat.ptr
  have hs := hat.size
  simp only [Region.Within, Block.payload, Cell.payload]
  omega

/-- Different live blocks share no byte. -/
theorem World.WF.payloads_apart (hw : w.WF pl) {b b' : Block} (hb : b ∈ w.live)
    (hb' : b' ∈ w.live) (hne : b.ptr ≠ b'.ptr) : b.payload.Apart b'.payload := by
  obtain ⟨s, c, hc, hat⟩ := hw.cell_of_live hb
  obtain ⟨s', c', hc', hat'⟩ := hw.cell_of_live hb'
  have hss : s ≠ s' := by
    rintro rfl
    rw [hc, Option.some_inj] at hc'
    subst hc'
    exact hne (hat.ptr.symm.trans hat'.ptr)
  exact (hw.heap.payloads_apart hc hc' hss).mono (hw.payload_within hc hat)
    (hw.payload_within hc' hat')

/-- **The payloads of the live blocks are safe.**  In every world a run leads to, a live payload is
16-byte aligned, lies in one mapping that was not given back, meets no header the allocator relies
on and meets no other live payload. -/
theorem payloads_safe {m : Memory} {as : List Action}
    (hrun : Run (Step pl) (World.initial m) as w) :
    (∀ b ∈ w.live, 16 ∣ b.ptr ∧ (∃ r ∈ w.heap.mapped, b.payload.Within r) ∧
      ∀ q, w.ReliesOn q → b.payload.Apart ⟨q, METASIZE⟩) ∧
      w.live.Pairwise fun b b' ↦ b.payload.Apart b'.payload := by
  have hw : w.WF pl := World.Reachable.wf ⟨_, as, ⟨m, rfl⟩, hrun⟩
  refine ⟨fun b hb ↦ ?_, ?_⟩
  · obtain ⟨s, c, hc, hat⟩ := hw.cell_of_live hb
    have hs := hw.heap.exists_of_taken (Heap.taken_of_cell hc)
    have hpw := hw.payload_within hc hat
    refine ⟨?_, ?_, fun q hq ↦ ?_⟩
    · rw [← hat.ptr, (hw.heap.extent_of_cell hc).1]
      exact Nat.dvd_add (hw.heap.extent_mapped hs).1.aligned (by decide)
    · obtain ⟨r, hr, hrw⟩ := Heap.WF.extent_within pl hs
      exact ⟨r, (hw.heap.mem_mapped r).mpr ⟨_, hr⟩,
        hpw.trans ((hw.heap.payload_within hc).trans hrw)⟩
    · obtain ⟨t, ht, rfl⟩ := hw.exists_of_reliesOn hq
      exact (hw.heap.payload_apart_header hc ht).mono hpw (Region.Within.refl _)
  · refine (List.pairwise_map.mp hw.tracks.nodup).imp_of_mem fun hb hb' hne ↦ ?_
    exact hw.payloads_apart hb hb' hne

/-- The payloads at `0x4010` and `0x1010` are safe. -/
theorem payloads_safe_twoBlocks : World.twoBlocks.live.map Block.ptr = [0x4010, 0x1010] ∧
    (∀ b ∈ World.twoBlocks.live, 16 ∣ b.ptr ∧
      (∃ r ∈ World.twoBlocks.heap.mapped, b.payload.Within r) ∧
      ∀ q, World.twoBlocks.ReliesOn q → b.payload.Apart ⟨q, METASIZE⟩) ∧
      World.twoBlocks.live.Pairwise fun b b' ↦ b.payload.Apart b'.payload :=
  ⟨by decide +kernel, payloads_safe World.run_twoBlocks⟩

/-! ## Bookkeeping -/

/-- `size & ~INDEX_MASK`, the stride in the `size` field of a pool header. -/
def sizeType (size : Nat) : Nat := (BitVec.ofNat 64 size &&& ~~~BitVec.ofNat 64 INDEX_MASK).toNat

/-- What the `size` field of slot `k` decodes to. -/
theorem sizeType_pool (z : Pool) {k : Nat} (hk : k < 100) :
    sizeType (z.stride ||| (k >>> 3)) = z.stride ∧
      (z.stride ||| (k >>> 3)) &&& INDEX_MASK = k / 8 := by
  have hall :
      ∀ j < 13, sizeType (z.stride ||| j) = z.stride ∧ (z.stride ||| j) &&& INDEX_MASK = j := by
    cases z <;> decide
  rw [Nat.shiftRight_eq_div_pow]
  exact hall (k / 8) (by omega)

/-- `idx & POS_MASK` is the position of the bit in its byte. -/
theorem and_posMask (k : Nat) : k &&& POS_MASK = k % 8 := Nat.and_two_pow_sub_one_eq_mod k 3

/-- The records of the allocator say what its clients know. -/
structure World.Bookkeeping (w : World) : Prop where
  /-- Bit `k` of a pool is set exactly when slot `k` is a live block; no bit is set from 100 on. -/
  bit : ∀ z k, bit (w.heap.bitmap z) k = true ↔
    k < 100 ∧ ∃ b ∈ w.live, b.zone = .pool z ∧ b.ptr = w.heap.slotAddr z k + METASIZE
  /-- The entries of the LARGE table in use are headers of live LARGE blocks, … -/
  entry : ∀ i, w.heap.large i ≠ 0 → i < 100 ∧
    ∃ b ∈ w.live, b.zone = .large ∧ b.ptr = w.heap.large i + METASIZE
  /-- … every live LARGE block has one, … -/
  entry_of_live : ∀ b ∈ w.live, b.zone = .large →
    ∃ i < 100, w.heap.large i ≠ 0 ∧ b.ptr = w.heap.large i + METASIZE
  /-- … and they are distinct. -/
  entry_inj : ∀ i j, w.heap.large i ≠ 0 → w.heap.large i = w.heap.large j → i = j
  /-- Entry 100 is never used. -/
  entry_last : w.heap.large 100 = 0
  /-- `large_cnt` is the number of live LARGE blocks. -/
  cnt : w.heap.largeCnt = (w.count .large : Int)
  /-- The header of a live pool block decodes to its stride, bitmap byte and bit, and holds the last
  requested size. -/
  poolHeader : ∀ b ∈ w.live, ∀ z k, b.zone = .pool z → k < 100 →
    b.ptr = w.heap.slotAddr z k + METASIZE →
    sizeType (metaSize w.heap.mem (w.heap.slotAddr z k)) = z.stride ∧
      metaSize w.heap.mem (w.heap.slotAddr z k) &&& INDEX_MASK = k / 8 ∧
      metaPosition w.heap.mem (w.heap.slotAddr z k) = (k % 8 : Nat) ∧
      metaClientSize w.heap.mem (w.heap.slotAddr z k) = b.size
  /-- The header of a live LARGE block holds its table index and the length of its mapping, and the
  side table holds the last requested size. -/
  largeHeader : ∀ b ∈ w.live, ∀ i, b.zone = .large → w.heap.large i ≠ 0 →
    b.ptr = w.heap.large i + METASIZE →
    metaPosition w.heap.mem (w.heap.large i) = i ∧
      ⟨w.heap.large i, metaSize w.heap.mem (w.heap.large i)⟩ ∈ w.heap.mapped ∧
      w.heap.largeRequestSizes i = b.size
  /-- No size is on record for a free entry. -/
  sizeFree : ∀ i, w.heap.large i = 0 → w.heap.largeRequestSizes i = 0
  /-- A LARGE request that is let in by `large_cnt` finds a free entry below 100. -/
  search : w.heap.largeCnt < 100 → freeTableIndex w.heap.initTable.large 100 0 < 100

/-- A live pool block is the slot whose payload it starts at. -/
theorem World.WF.slot_of_pool (hw : w.WF pl) {b : Block} (hb : b ∈ w.live) {z : Pool}
    (hz : b.zone = .pool z) :
    ∃ k c, w.heap.cell (.pool z k) = some c ∧ b.At (.pool z k) c w.heap.mem := by
  obtain ⟨s, c, hc, hat⟩ := hw.cell_of_live hb
  have hsz := hat.zone
  rw [hz] at hsz
  cases s with
  | pool y k => cases hsz; exact ⟨k, c, hc, hat⟩
  | large i => cases hsz

/-- A live LARGE block is the table entry whose payload it starts at. -/
theorem World.WF.entry_of_large (hw : w.WF pl) {b : Block} (hb : b ∈ w.live)
    (hz : b.zone = .large) :
    ∃ i c, w.heap.cell (.large i) = some c ∧ b.At (.large i) c w.heap.mem := by
  obtain ⟨s, c, hc, hat⟩ := hw.cell_of_live hb
  have hsz := hat.zone
  rw [hz] at hsz
  cases s with
  | pool y k => cases hsz
  | large i => exact ⟨i, c, hc, hat⟩

/-- The cell of a live block, when its slot is known by the payload address. -/
theorem World.WF.cell_at (hw : w.WF pl) {b : Block} (hb : b ∈ w.live) {s : Slot}
    (ht : w.heap.Taken s) (hp : b.ptr = (w.heap.extent s).base + METASIZE) :
    ∃ c, w.heap.cell s = some c ∧ b.At s c w.heap.mem ∧ c.size = w.heap.recorded s := by
  obtain ⟨t, c, hc, hat⟩ := hw.cell_of_live hb
  obtain rfl := hw.heap.ptr_inj hc (Heap.cell_of_taken ht) (hat.ptr.trans hp)
  exact ⟨c, hc, hat, by rw [(Heap.cell_eq_some.mp hc).2]⟩

/-- **The bookkeeping is exactly the live set**, in every world a run leads to. -/
theorem bookkeeping_exact {m : Memory} {as : List Action}
    (hrun : Run (Step pl) (World.initial m) as w) : w.Bookkeeping := by
  have hw : w.WF pl := World.Reachable.wf ⟨_, as, ⟨m, rfl⟩, hrun⟩
  have hbit : ∀ z k, bit (w.heap.bitmap z) k = true ↔
      k < 100 ∧ ∃ b ∈ w.live, b.zone = .pool z ∧ b.ptr = w.heap.slotAddr z k + METASIZE := by
    intro z k
    constructor
    · intro hb
      obtain ⟨b, hbl, hat⟩ := hw.tracks.complete (.pool z k) _ (Heap.cell_of_taken hb)
      exact ⟨(hw.heap.bit_lt z k hb).2, b, hbl, hat.zone.symm, hat.ptr.symm⟩
    · rintro ⟨hk, b, hb, hz, hp⟩
      obtain ⟨j, c, hc, hat⟩ := hw.slot_of_pool hb hz
      have he := (hw.heap.extent_of_cell hc).1
      rw [hat.ptr, hp] at he
      have hs := z.stride_bounds
      have hjk : z.stride * k = z.stride * j := by
        simp only [Heap.extent, Heap.slotAddr] at he
        omega
      rw [Nat.eq_of_mul_eq_mul_left (by omega) hjk]
      exact Heap.taken_of_cell hc
  refine {
    bit := hbit
    entry := fun i hi ↦ ?_
    entry_of_live := fun b hb hz ↦ ?_
    entry_inj := fun i j hi hij ↦ ?_
    entry_last := ?_
    cnt := hw.largeCnt_eq
    poolHeader := fun b hb z k hz hk hp ↦ ?_
    largeHeader := fun b hb i hz hi hp ↦ ?_
    sizeFree := hw.heap.large_free
    search := fun hcnt ↦ ?_ }
  · obtain ⟨b, hb, hat⟩ := hw.tracks.complete (.large i) _ (Heap.cell_of_taken hi)
    exact ⟨hw.heap.large_lt i hi, b, hb, hat.zone.symm, hat.ptr.symm⟩
  · obtain ⟨i, c, hc, hat⟩ := hw.entry_of_large hb hz
    have ht : w.heap.large i ≠ 0 := Heap.taken_of_cell hc
    exact ⟨i, hw.heap.large_lt i ht, ht, by rw [← hat.ptr, (hw.heap.extent_of_cell hc).1]; rfl⟩
  · have hj : w.heap.large j ≠ 0 := hij ▸ hi
    have hslot := hw.heap.ptr_inj (s := .large i) (t := .large j) (Heap.cell_of_taken hi)
      (Heap.cell_of_taken hj) (congrArg (· + METASIZE) hij)
    simpa using hslot
  · by_contra h100
    exact absurd (hw.heap.large_lt 100 h100) (by decide)
  · have hset := (hbit z k).mpr ⟨hk, b, hb, hz, hp⟩
    obtain ⟨c, hc, hat, hrec⟩ := hw.cell_at hb (s := .pool z k) hset hp
    have hhdr := hw.heap.header z k (hw.heap.bit_lt z k hset).1 hk
    have hdec := sizeType_pool z hk
    have hsz := hw.heap.clientSize z k hset
    rw [hhdr.1, hhdr.2, and_posMask]
    refine ⟨hdec.1, hdec.2, rfl, ?_⟩
    rw [← hat.size, hrec, Heap.recorded]
    omega
  · obtain ⟨c, hc, hat, hrec⟩ := hw.cell_at hb (s := .large i) hi hp
    refine ⟨(hw.heap.large_header i hi).2, ?_, ?_⟩
    · exact (hw.heap.mem_mapped _).mpr ⟨.large i, if_pos hi⟩
    · rw [← hat.size, hrec]
      rfl
  · rw [hw.heap.initTable_eq]
    exact (hw.heap.freeTableIndex_lt hcnt).1

/-- The bookkeeping of the two blocks. -/
theorem bookkeeping_exact_twoBlocks : World.twoBlocks.live.map Block.zone = [.large, .pool .tiny] ∧
    World.twoBlocks.Bookkeeping :=
  ⟨by decide +kernel, bookkeeping_exact World.run_twoBlocks⟩

end FtMalloc
