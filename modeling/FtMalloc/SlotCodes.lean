import FtMalloc.ShowAllocMem
import FtMalloc.World

/-!
# One slot, four codings of it

Four places of the program turn a slot of an arena into a bit or back.  `find_free_zone` packs the
byte index and the bit position into the two nibbles of a byte, `malloc_impl` computes `front * 8 +
back` from that byte, `live_pool_slot` and `free_impl` go back to the bit by `slot / 8` and `slot %
8`, and `show_alloc_mem` numbers the slots by `idx * 8 + fos`.

`slot_codes` says that for any content of a bitmap the four mean the same slot.  What
the bitmap holds is arbitrary (`Heap.withBitmap`), the rest of the state is one the library can get
into.
-/

set_option autoImplicit false

namespace FtMalloc

open ByteMemory CharMap

variable {pl : Platform} {os : OS} {h h' g : Heap} {z : Pool} {b : Map} {k n r : Nat} {w : World}

/-! ## Any content of a bitmap -/

/-- The state with `b` in the bitmap of a pool. -/
def Heap.withBitmap (h : Heap) (z : Pool) (b : Map) : Heap :=
  { h with bitmap := Function.update h.bitmap z b }

@[simp] theorem Heap.bitmap_withBitmap : (h.withBitmap z b).bitmap z = b := by
  simp [Heap.withBitmap]

theorem Heap.bitmap_withBitmap_of_ne {y : Pool} (hy : y ≠ z) :
    (h.withBitmap z b).bitmap y = h.bitmap y := by
  simp [Heap.withBitmap, hy]

theorem Heap.mark_withBitmap (h : Heap) (z : Pool) (b : Map) (k : Nat) :
    (h.withBitmap z b).mark z k = h.withBitmap z (CharMap.insert b k) := by
  simp [Heap.mark, Heap.withBitmap]

theorem Heap.unmark_withBitmap (h : Heap) (z : Pool) (b : Map) (k : Nat) :
    (h.withBitmap z b).unmark z k = h.withBitmap z (CharMap.erase b k) := by
  simp [Heap.unmark, Heap.withBitmap]

/-- `find_free_zone` answers `0xFF`, and changes nothing, exactly when slots `0, …, 99` are
taken. -/
theorem findFreeZone_full_iff :
    findFreeZone z.stride h = .ok 0xFF#8 h ↔ Full (h.bitmap z) 100 := by
  refine ⟨fun hrun ↦ ?_, findFreeZone_full⟩
  rcases full_or_leastClear (h.bitmap z) 100 with hfull | ⟨k, hk⟩
  · exact hfull
  · rw [findFreeZone_eq hk] at hrun
    injection hrun with hzone
    exact absurd hzone (packSlot_ne hk.1)

/-! ## The pointer to a slot -/

/-- `live_pool_slot` tests bit `k` for the payload address of slot `k`. -/
theorem livePoolSlot_slot {base stride : Nat} (hs : 0 < stride)
    (hbase : base ≠ 0 ∧ base ≠ MAP_FAILED) (hk : k < 100) (b : Map) :
    livePoolSlot (base + stride * k + METASIZE) base stride b
      = if bit b k = true then some k else none := by
  split
  · rename_i hbit
    exact (livePoolSlot_eq_some hs).mpr ⟨hbase.1, hbase.2, rfl, hk, hbit⟩
  · rename_i hbit
    cases hlive : livePoolSlot (base + stride * k + METASIZE) base stride b with
    | none => rfl
    | some j =>
      obtain ⟨-, -, hj, -, hset⟩ := (livePoolSlot_eq_some hs).mp hlive
      obtain rfl : k = j := Nat.eq_of_mul_eq_mul_left hs (by omega)
      exact absurd hset hbit

/-- No other slot that is handed out has the payload address of slot `k`. -/
theorem Heap.WF.slotAddr_ne (hg : g.WF pl) (hopen : g.poolFlag z = true) (hk : k < 100) {s : Slot}
    (hs : g.Taken s) (hne : s ≠ .pool z k) :
    g.slotAddr z k + METASIZE ≠ (g.extent s).base + METASIZE := by
  have hap := hg.extent_apart (hg.exists_of_taken hs) (t := .pool z k) ⟨hopen, hk⟩ hne
  have hs := hg.extent_mapped (hg.exists_of_taken hs)
  have hz := hg.extent_mapped (s := .pool z k) ⟨hopen, hk⟩
  simp only [Region.Apart, Heap.extent] at hap hs hz ⊢
  omega

/-- **`find_live_allocation` on the payload address of slot `k`** goes by bit `k` alone: neither the
other arena nor the LARGE table has an entry there. -/
theorem findLiveAllocation_slot (hg : g.WF pl) (hopen : g.poolFlag z = true) (hk : k < 100)
    (hbase : h'.base = g.base) (hlarge : h'.large = g.large)
    (hother : ∀ y, y ≠ z → h'.bitmap y = g.bitmap y) :
    findLiveAllocation h' (g.slotAddr z k + METASIZE)
      = if bit (h'.bitmap z) k = true then some (g.slotAddr z k, ⟨some z, k⟩) else none := by
  have hne := fun s hs ↦ hg.slotAddr_ne hopen hk (s := s) hs
  have hself : livePoolSlot (g.slotAddr z k + METASIZE) (h'.base z) z.stride (h'.bitmap z)
      = if bit (h'.bitmap z) k = true then some k else none := by
    rw [hbase]
    exact livePoolSlot_slot (by have := z.stride_bounds; omega) (hg.base_ne hopen) hk _
  have hpool : ∀ y, y ≠ z →
      livePoolSlot (g.slotAddr z k + METASIZE) (h'.base y) y.stride (h'.bitmap y) = none := by
    intro y hy
    rw [hbase, hother y hy]
    cases hlive : livePoolSlot (g.slotAddr z k + METASIZE) (g.base y) y.stride (g.bitmap y) with
    | none => rfl
    | some j =>
      obtain ⟨ht, hp⟩ := (hg.livePoolSlot_iff y j).mp hlive
      exact absurd hp (hne _ ht (by simp [hy]))
  have htable : liveLargeSlot h'.large (g.slotAddr z k + METASIZE) 100 0 = none := by
    rw [hlarge]
    cases hlive : liveLargeSlot g.large (g.slotAddr z k + METASIZE) 100 0 with
    | none => rfl
    | some i =>
      obtain ⟨ht, hp⟩ := liveLargeSlot_sound 100 0 hlive
      exact absurd hp (hne (.large i) ht (by simp))
  have hpos : g.slotAddr z k + METASIZE ≠ 0 := by rw [METASIZE]; omega
  have haddr : h'.base z + z.stride * k = g.slotAddr z k := by rw [hbase]; rfl
  rw [findLiveAllocation, if_neg hpos]
  cases z with
  | tiny =>
    have htiny : livePoolSlot _ (h'.base .tiny) TINY (h'.bitmap .tiny) = _ := hself
    have hsmall : livePoolSlot _ (h'.base .small) SMALL (h'.bitmap .small) = _ :=
      hpool .small (by decide)
    rw [htiny, hsmall, htable, ← haddr]
    split_ifs <;> rfl
  | small =>
    have htiny : livePoolSlot _ (h'.base .tiny) TINY (h'.bitmap .tiny) = _ :=
      hpool .tiny (by decide)
    have hsmall : livePoolSlot _ (h'.base .small) SMALL (h'.bitmap .small) = _ := hself
    rw [htiny, hsmall, htable, ← haddr]
    split_ifs <;> rfl

/-- The pointer `r` is the one to slot `k` of the pool, whatever the bitmap of the pool holds: this
is what the four places make of it. -/
structure Heap.CodesSlot (h : Heap) (z : Pool) (k r : Nat) : Prop where
  /-- `malloc_impl` returns the address behind the header of slot `k`. -/
  ptr : r = h.base z + z.stride * k + METASIZE
  /-- `live_pool_slot` tests bit `k`. -/
  tests : ∀ c, livePoolSlot r (h.base z) z.stride c = if bit c k = true then some k else none
  /-- `free_impl` clears bit `k`, if it is set. -/
  clears : ∀ os c, freeImpl os r (h.withBitmap z c)
    = .ok ⟨⟩ (h.withBitmap z (if bit c k = true then CharMap.erase c k else c))
  /-- `show_alloc_mem` goes by bit `k` for slot `k`, one slot after the other. -/
  reads : ∀ c total, showIdx (h.withBitmap z c) z (List.range 0x0D) 0#8 total
    = showSlots (h.withBitmap z c) z (List.range 100) total

/-- **The slots of an arena that is there** are coded the same way in the four places. -/
theorem Heap.WF.codesSlot (hg : g.WF pl) (hopen : g.poolFlag z = true) (hk : k < 100)
    (hbase : h'.base = g.base) (hlarge : h'.large = g.large)
    (hother : ∀ y, y ≠ z → h'.bitmap y = g.bitmap y) :
    h'.CodesSlot z k (g.slotAddr z k + METASIZE) where
  ptr := by rw [hbase]; rfl
  tests := fun c ↦ by
    rw [hbase]
    exact livePoolSlot_slot (by have := z.stride_bounds; omega) (hg.base_ne hopen) hk c
  clears := fun os c ↦ by
    have hrest : ∀ y, y ≠ z → (h'.withBitmap z c).bitmap y = g.bitmap y :=
      fun y hy ↦ (Heap.bitmap_withBitmap_of_ne hy).trans (hother y hy)
    have hbase' : (h'.withBitmap z c).base = g.base := hbase
    have hfind := findLiveAllocation_slot hg hopen hk hbase' hlarge hrest
    rw [Heap.bitmap_withBitmap] at hfind
    by_cases hbit : bit c k = true
    · rw [if_pos hbit] at hfind ⊢
      rw [freeImpl, get_bind, hfind, ← Heap.unmark_withBitmap]
      rfl
    · rw [if_neg hbit] at hfind ⊢
      exact freeImpl_none hfind
  reads := fun c total ↦ showIdx_eq (h'.withBitmap z c) z total

/-! ## `malloc_impl` -/

/-- **`malloc_impl` takes the least free slot**, whatever the bitmap of the pool holds, unless the
arena cannot be set up. -/
theorem mallocImpl_slot (hos : os.On pl) (hi : h.WF pl) (hk : LeastClear b 100 k)
    (hz : zoneOf (reqSize n) = .pool z) :
    (∃ h', mallocImpl os n (h.withBitmap z b) = .ok 0 h' ∧ h.poolFlag z = false) ∨
      ∃ r h', mallocImpl os n (h.withBitmap z b) = .ok r h' ∧ r ≠ 0 ∧ h'.CodesSlot z k r ∧
        h'.bitmap = (h.withBitmap z (CharMap.insert b k)).bitmap := by
  have hbit : LeastClear ((h.withBitmap z b).bitmap z) 100 k := by
    rw [Heap.bitmap_withBitmap]
    exact hk
  have hmark :
      ((h.withBitmap z b).mark z k).bitmap = (h.withBitmap z (CharMap.insert b k)).bitmap := by
    rw [Heap.mark_withBitmap]
  have hother : ∀ y, y ≠ z → (h.withBitmap z (CharMap.insert b k)).bitmap y = h.bitmap y :=
    fun y hy ↦ Heap.bitmap_withBitmap_of_ne hy
  rw [mallocImpl_eq, hz]
  cases hopen : h.poolFlag z with
  | true =>
    refine .inr ⟨_, _, mallocPool_slot (setupArena_open hopen) hbit, by rw [METASIZE]; omega, ?_,
      hmark⟩
    exact hi.codesSlot hopen hk.1 rfl rfl fun y hy ↦ (congrFun hmark y).trans (hother y hy)
  | false =>
    by_cases hpage : h.pageFlag z = 0#32
    · cases hans : os.answer h.mapped (pl.arenaLen z) with
      | none =>
        refine .inl ⟨_, mallocPool_null (setupArena_failed hos hi.cache hi.flags hopen hpage hans),
          rfl⟩
      | some ptr =>
        have hset :=
          setupArena_opened (h := h.withBitmap z b) hos hi.cache hi.flags hopen hpage hans
        have hg := (Heap.becomes_openArena hi hopen hpage (OS.answer_eq_some hans)).wf
        refine .inr ⟨_, _, mallocPool_slot hset hbit, by rw [METASIZE]; omega, ?_, hmark⟩
        exact hg.codesSlot (by simp [Heap.openArena]) hk.1 rfl rfl
          fun y hy ↦ (congrFun hmark y).trans (hother y hy)
    · exact .inl ⟨_,
        mallocPool_null (setupArena_refused (h := h.withBitmap z b) hi.flags hopen hpage),
        rfl⟩

/-! ## The codings agree -/

/-- **For any content of a bitmap the four codings of a slot agree.**  When bits `0, …, 99` are set
`find_free_zone` answers `0xFF` and changes nothing.  Otherwise the least clear bit `k` is set, and
no other; the byte that is returned is not `0xFF` and unpacks to `k`; and a request that is served
gets the pointer for which `live_pool_slot` tests bit `k`, `free_impl` clears it and
`show_alloc_mem` reads it. -/
theorem slot_codes (hw : w.Reachable pl) (z : Pool) (b : Map) :
    (findFreeZone z.stride (w.heap.withBitmap z b) = .ok 0xFF#8 (w.heap.withBitmap z b) ↔
      ∀ j < 100, bit b j = true) ∧
    ∀ k, LeastClear b 100 k →
      (∃ zone, findFreeZone z.stride (w.heap.withBitmap z b)
          = .ok zone (w.heap.withBitmap z (CharMap.insert b k)) ∧
        zone ≠ 0xFF#8 ∧ (slotIndex zone).toNat = k) ∧
      (∀ j, bit (CharMap.insert b k) j = (decide (j = k) || bit b j)) ∧
      (∀ c j, bit (CharMap.erase c k) j = (!decide (j = k) && bit c j)) ∧
      ∀ os n, os.On pl → zoneOf (reqSize n) = .pool z →
        ∃ r h', mallocImpl os n (w.heap.withBitmap z b) = .ok r h' ∧
          (w.heap.poolFlag z = true → r ≠ 0) ∧
          (r ≠ 0 → h'.CodesSlot z k r ∧ h'.bitmap z = CharMap.insert b k ∧
            ∀ y, y ≠ z → h'.bitmap y = w.heap.bitmap y) := by
  have hi := hw.wf.heap
  refine ⟨findFreeZone_full_iff.trans (by rw [Heap.bitmap_withBitmap]; rfl), fun k hk ↦ ⟨?_,
    bit_insert b k, fun c j ↦ bit_erase c k j, fun os n hos hz ↦ ?_⟩⟩
  · have hbit : LeastClear ((w.heap.withBitmap z b).bitmap z) 100 k := by
      rw [Heap.bitmap_withBitmap]
      exact hk
    refine ⟨packSlot k, ?_, packSlot_ne hk.1, toNat_slotIndex_packSlot hk.1⟩
    rw [findFreeZone_eq hbit, Heap.mark_withBitmap]
  · rcases mallocImpl_slot hos hi hk hz with ⟨h', hrun, hclosed⟩ |
      ⟨r, h', hrun, hr, hcodes, hbitmap⟩
    · refine ⟨0, h', hrun, fun hopen ↦ ?_, fun h0 ↦ absurd rfl h0⟩
      rw [hclosed] at hopen
      exact absurd hopen (by decide)
    · refine ⟨r, h', hrun, fun _ ↦ hr, fun _ ↦ ⟨hcodes, ?_, fun y hy ↦ ?_⟩⟩
      · rw [hbitmap, Heap.bitmap_withBitmap]
      · rw [hbitmap, Heap.bitmap_withBitmap_of_ne hy]

/-- A bitmap whose first byte is full but for its top bit. -/
def topBitClear : Map := fun idx ↦ if idx = 0 then 0x7F#8 else 0#8

/-- The free slot is found, handed out, and freed again. -/
theorem slot_codes_topBit : LeastClear topBitClear 100 7 ∧
    (∃ zone, findFreeZone TINY (World.twoBlocks.heap.withBitmap .tiny topBitClear)
      = .ok zone (World.twoBlocks.heap.withBitmap .tiny (CharMap.insert topBitClear 7)) ∧
      zone ≠ 0xFF#8 ∧ (slotIndex zone).toNat = 7) ∧
    ∃ r h', mallocImpl (Platform.pages4k.os none true) 1
        (World.twoBlocks.heap.withBitmap .tiny topBitClear) = .ok r h' ∧ r ≠ 0 ∧
      livePoolSlot r (h'.base .tiny) TINY (h'.bitmap .tiny) = some 7 ∧
      freeImpl (Platform.pages4k.os none true) r h'
        = .ok ⟨⟩ (h'.withBitmap .tiny (CharMap.erase (h'.bitmap .tiny) 7)) := by
  have hk : LeastClear topBitClear 100 7 := ⟨by decide, by decide, by decide⟩
  obtain ⟨hfind, -, -, hserve⟩ :=
    (slot_codes World.reachable_twoBlocks .tiny topBitClear).2 7 hk
  obtain ⟨r, h', hrun, hopen, hcodes⟩ :=
    hserve (Platform.pages4k.os none true) 1 (Platform.pages4k.os_on none true) (by decide)
  have hr := hopen (by decide +kernel)
  obtain ⟨hslot, hbitmap, -⟩ := hcodes hr
  have hset : bit (h'.bitmap .tiny) 7 = true := by
    rw [hbitmap, bit_insert]
    rfl
  have hself : h'.withBitmap .tiny (h'.bitmap .tiny) = h' := by
    rw [Heap.withBitmap, Function.update_eq_self]
  have htests := hslot.tests (h'.bitmap .tiny)
  have hclears := hslot.clears (Platform.pages4k.os none true) (h'.bitmap .tiny)
  rw [if_pos hset] at htests hclears
  rw [hself] at hclears
  exact ⟨hk, hfind, r, h', hrun, hr, htests, hclears⟩

end FtMalloc
