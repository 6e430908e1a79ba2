import FtMalloc.Headers

/-!
# What `malloc_impl` does

`MallocStep pl os h n r h'` lists the ways a call of `malloc_impl` for `n` bytes can end: with the
answer `r`, in the state `h'`.  There are nine, one for each path through the code, and the states
they end in are written down as explicit changes of `h` (`Heap.takeSlot`, `Heap.openArena`,
`Heap.failArena`, `Heap.openLarge`).  `mallocImpl_step` is the only place where the code of
`malloc_impl` is unfolded on well-formed states; everything later is a case analysis of
`MallocStep`.
-/

set_option autoImplicit false

namespace FtMalloc

open ByteMemory CharMap PowerRound

/-! ## The states `malloc_impl` ends in -/

/-- The size `malloc_impl` works with: a request for nothing counts as a request for one byte. -/
def reqSize (size : Nat) : Nat := if size < 1 then 1 else size

theorem reqSize_pos (n : Nat) : 0 < reqSize n := by
  rw [reqSize]
  split <;> omega

theorem le_reqSize (n : Nat) : n ≤ reqSize n := by
  rw [reqSize]
  split <;> omega

/-- The class `malloc_impl` serves a request from. -/
def zoneOf (n : Nat) : Zone :=
  if n ≤ TINY - METASIZE then .pool .tiny
  else if n ≤ SMALL - METASIZE then .pool .small
  else .large

/-- A request of a pool's class fits its slots. -/
theorem le_of_zoneOf_pool {n : Nat} {z : Pool} (h : zoneOf n = .pool z) :
    n + METASIZE ≤ z.stride := by
  rw [zoneOf] at h
  split_ifs at h with h1 h2
  · cases h
    rw [TINY, METASIZE] at h1
    show n + 0x10 ≤ 0x60
    omega
  · cases h
    rw [SMALL, METASIZE] at h2
    show n + 0x10 ≤ 0x200
    omega

/-- A request of the LARGE class is above 496 bytes. -/
theorem lt_of_zoneOf_large {n : Nat} (h : zoneOf n = .large) : SMALL - METASIZE < n := by
  rw [zoneOf] at h
  split_ifs at h with h1 h2
  omega

namespace Heap

variable (h : Heap)

/-- Slot `k` of the pool handed out for `n` bytes. -/
def takeSlot (z : Pool) (k n : Nat) : Heap :=
  { h.mark z k with mem := setMetaClientSize h.mem (h.slotAddr z k) n }

/-- The arena of the pool set up at `ptr`. -/
def openArena (pl : Platform) (z : Pool) (ptr : Nat) : Heap :=
  { ((h.cachePage pl).reserve z).map ptr (pl.arenaLen z) with
    base := Function.update h.base z ptr
    mem := initHeaders ptr z.stride 100 (fill h.mem ptr (pl.arenaLen z) 0#8)
    poolFlag := Function.update h.poolFlag z true }

/-- The arena of the pool not set up, because `mmap` failed. -/
def failArena (pl : Platform) (z : Pool) : Heap :=
  { ((h.cachePage pl).reserve z).refuse (pl.arenaLen z) with
    base := Function.update h.base z MAP_FAILED }

/-- The first LARGE request was made. -/
def touchTable : Heap := { h with largeFlag := true }

/-- A LARGE block of `n` bytes at `ptr`, entered in the table at `i`. -/
def openLarge (pl : Platform) (n ptr i : Nat) : Heap :=
  { (h.touchTable.cachePage pl).map ptr (pl.largeLen n) with
    large := Function.update h.large i ptr
    mem := setMetaClientSize
      (writeMeta (fill h.mem ptr (pl.largeLen n) 0#8) ptr (pl.largeLen n) i) ptr n
    largeRequestSizes := Function.update h.largeRequestSizes i n
    largeCnt := h.largeCnt + 1 }

end Heap

/-- Entry `i` is the first free one of the LARGE table. -/
def LeastFree (large : Nat → Nat) (i : Nat) : Prop :=
  i < 100 ∧ large i = 0 ∧ ∀ j, j < i → large j ≠ 0

/-- The ways `malloc_impl` serves or refuses a request for `n` bytes. -/
inductive MallocStep (pl : Platform) (os : OS) (h : Heap) (n : Nat) : Nat → Heap → Prop
  /-- All slots of the arena are taken. -/
  | poolFull {z : Pool} (hz : zoneOf n = .pool z) (hopen : h.poolFlag z = true)
      (hfull : Full (h.bitmap z) 100) : MallocStep pl os h n 0 h
  /-- The least free slot is handed out. -/
  | poolSlot {z : Pool} {k : Nat} (hz : zoneOf n = .pool z) (hopen : h.poolFlag z = true)
      (hk : LeastClear (h.bitmap z) 100 k) :
      MallocStep pl os h n (h.slotAddr z k + METASIZE) (h.takeSlot z k n)
  /-- The arena is not there, and was asked for before. -/
  | arenaRefused {z : Pool} (hz : zoneOf n = .pool z) (hclosed : h.poolFlag z = false)
      (hflag : h.pageFlag z ≠ 0#32) : MallocStep pl os h n 0 h
  /-- The `mmap` of the arena fails. -/
  | arenaFailed {z : Pool} (hz : zoneOf n = .pool z) (hclosed : h.poolFlag z = false)
      (hflag : h.pageFlag z = 0#32) (hno : os.answer h.mapped (pl.arenaLen z) = none) :
      MallocStep pl os h n 0 (h.failArena pl z)
  /-- The arena is set up, and its first slot handed out. -/
  | arenaOpened {z : Pool} {ptr : Nat} (hz : zoneOf n = .pool z) (hclosed : h.poolFlag z = false)
      (hflag : h.pageFlag z = 0#32) (hyes : os.answer h.mapped (pl.arenaLen z) = some ptr) :
      MallocStep pl os h n (ptr + METASIZE) ((h.openArena pl z ptr).takeSlot z 0 n)
  /-- The LARGE table is full. -/
  | tableFull (hz : zoneOf n = .large) (hcnt : ¬ h.largeCnt < 100) : MallocStep pl os h n 0 h
  /-- The size checks fail. -/
  | tooLarge {h' : Heap} (hz : zoneOf n = .large) (hcnt : h.largeCnt < 100) (hbig : ¬ pl.Fits n)
      (hh' : h' = { h.touchTable with errno := ENOMEM } ∨
        h' = { h.touchTable.cachePage pl with errno := ENOMEM }) : MallocStep pl os h n 0 h'
  /-- The `mmap` of the block fails. -/
  | largeFailed (hz : zoneOf n = .large) (hcnt : h.largeCnt < 100) (hfits : pl.Fits n)
      (hno : os.answer h.mapped (pl.largeLen n) = none) :
      MallocStep pl os h n 0 ((h.touchTable.cachePage pl).refuse (pl.largeLen n))
  /-- The block is mapped and entered in the table. -/
  | largeOpened {ptr i : Nat} (hz : zoneOf n = .large) (hcnt : h.largeCnt < 100)
      (hfits : pl.Fits n) (hyes : os.answer h.mapped (pl.largeLen n) = some ptr)
      (hi : LeastFree h.large i) :
      MallocStep pl os h n (ptr + METASIZE) (h.openLarge pl n ptr i)

/-! ## System calls -/

variable {pl : Platform} {os : OS} {h : Heap}

/-- What a placed mapping is known to be. -/
theorem OS.answer_eq_some {mapped : List Region} {len ptr : Nat}
    (h : os.answer mapped len = some ptr) : Grants mapped len ptr := by
  rw [OS.answer, Option.filter_eq_some_iff] at h
  exact of_decide_eq_true h.2

/-- The kernel does not place a mapping at `MAP_FAILED`. -/
theorem OS.answer_ne {mapped : List Region} {len ptr : Nat}
    (h : os.answer mapped len = some ptr) : ptr ≠ MAP_FAILED := by
  rintro rfl
  exact absurd (OS.answer_eq_some h).2.2.1 (by decide)

theorem mmap_some {len ptr : Nat} (hyes : os.answer h.mapped len = some ptr) :
    mmap os len h = .ok ptr (h.map ptr len) := by
  rw [mmap, get_bind, hyes]
  rfl

theorem mmap_none {len : Nat} (hno : os.answer h.mapped len = none) :
    mmap os len h = .ok MAP_FAILED (h.refuse len) := by
  rw [mmap, get_bind, hno]
  rfl

/-! ## The arenas -/

theorem toNat_ofNat_arenaLen (z : Pool) :
    (BitVec.ofNat 64 (pl.arenaLen z)).toNat = pl.arenaLen z := by
  have := pl.arenaLen_lt z
  rw [BitVec.toNat_ofNat, Nat.mod_eq_of_lt (by omega)]

theorem ofNat_ne_neg_one {n : Nat} (h : n ≤ LONG_MAX) : BitVec.ofNat 64 n ≠ -1#64 := by
  intro he
  have h1 := congrArg BitVec.toNat he
  have h2 : (-1#64 : BitVec 64).toNat = SIZE_MAX := by decide
  rw [LONG_MAX] at h
  rw [h2, BitVec.toNat_ofNat, Nat.mod_eq_of_lt (by omega), SIZE_MAX] at h1
  omega

theorem ofNat_arenaLen_ne (z : Pool) : BitVec.ofNat 64 (pl.arenaLen z) ≠ -1#64 := by
  have hlen := pl.arenaLen_lt z
  exact ofNat_ne_neg_one (by rw [LONG_MAX]; omega)

theorem initMetaData_stride (ptr : Nat) (z : Pool) :
    initMetaData ptr z.stride h = .ok ⟨⟩ { h with mem := initHeaders ptr z.stride 100 h.mem } := by
  cases z <;> rfl

theorem setupArena_open {z : Pool} (hopen : h.poolFlag z = true) :
    setupArena os z h = .ok true h := by
  rw [setupArena, get_bind, if_pos hopen, pure_apply]

theorem setupArena_refused {z : Pool} (hf : PageFlags h) (hclosed : h.poolFlag z = false)
    (hflag : h.pageFlag z ≠ 0#32) : setupArena os z h = .ok false h := by
  rw [setupArena, get_bind, if_neg (by rw [hclosed]; decide),
    bind_ok (calculaterPageSize_refused hf hflag), if_pos rfl, pure_apply]

theorem setupArena_failed {z : Pool} (hos : os.On pl) (hc : PageCached pl h) (hf : PageFlags h)
    (hclosed : h.poolFlag z = false) (hflag : h.pageFlag z = 0#32)
    (hno : os.answer h.mapped (pl.arenaLen z) = none) :
    setupArena os z h = .ok false (h.failArena pl z) := by
  rw [setupArena, get_bind, if_neg (by rw [hclosed]; decide),
    bind_ok (calculaterPageSize_arena hos hc hf hflag), if_neg (ofNat_arenaLen_ne z),
    toNat_ofNat_arenaLen, bind_ok (mmap_none (h := (h.cachePage pl).reserve z) hno), modify_bind,
    if_pos rfl]
  rfl

theorem setupArena_opened {z : Pool} {ptr : Nat} (hos : os.On pl) (hc : PageCached pl h)
    (hf : PageFlags h) (hclosed : h.poolFlag z = false) (hflag : h.pageFlag z = 0#32)
    (hyes : os.answer h.mapped (pl.arenaLen z) = some ptr) :
    setupArena os z h = .ok true (h.openArena pl z ptr) := by
  rw [setupArena, get_bind, if_neg (by rw [hclosed]; decide),
    bind_ok (calculaterPageSize_arena hos hc hf hflag), if_neg (ofNat_arenaLen_ne z),
    toNat_ofNat_arenaLen, bind_ok (mmap_some (h := (h.cachePage pl).reserve z) hyes), modify_bind,
    if_neg (OS.answer_ne hyes), bind_ok (initMetaData_stride ptr z)]
  rfl

/-! ## The pools -/

/-- The end of `malloc_impl` for a pool, once the arena is there and has a free slot. -/
theorem mallocPool_slot {h₁ : Heap} {z : Pool} {k n : Nat}
    (hset : setupArena os z h = .ok true h₁) (hk : LeastClear (h₁.bitmap z) 100 k) :
    mallocPool os z n h = .ok (h₁.slotAddr z k + METASIZE) (h₁.takeSlot z k n) := by
  rw [mallocPool, bind_ok hset, if_pos rfl, bind_ok (findFreeZone_eq hk),
    if_neg (packSlot_ne hk.1), get_bind, modify_bind, toNat_slotIndex_packSlot hk.1]
  rfl

theorem mallocPool_full {h₁ : Heap} {z : Pool} {n : Nat}
    (hset : setupArena os z h = .ok true h₁) (hfull : Full (h₁.bitmap z) 100) :
    mallocPool os z n h = .ok 0 h₁ := by
  rw [mallocPool, bind_ok hset, if_pos rfl, bind_ok (findFreeZone_full hfull), if_pos rfl,
    pure_apply]

theorem mallocPool_null {h₁ : Heap} {z : Pool} {n : Nat}
    (hset : setupArena os z h = .ok false h₁) : mallocPool os z n h = .ok 0 h₁ := by
  rw [mallocPool, bind_ok hset, if_neg (by decide), pure_apply]

/-- **A request of a pool's class.** -/
theorem mallocPool_step (hos : os.On pl) (hi : h.WF pl) {z : Pool} {n : Nat}
    (hz : zoneOf n = .pool z) :
    ∃ r h', mallocPool os z n h = .ok r h' ∧ MallocStep pl os h n r h' := by
  cases hflag : h.poolFlag z with
  | true =>
    rcases full_or_leastClear (h.bitmap z) 100 with hfull | ⟨k, hk⟩
    · exact ⟨_, _, mallocPool_full (setupArena_open hflag) hfull, .poolFull hz hflag hfull⟩
    · exact ⟨_, _, mallocPool_slot (setupArena_open hflag) hk, .poolSlot hz hflag hk⟩
  | false =>
    by_cases hpage : h.pageFlag z = 0#32
    · cases hans : os.answer h.mapped (pl.arenaLen z) with
      | none =>
        exact ⟨_, _, mallocPool_null (setupArena_failed hos hi.cache hi.flags hflag hpage hans),
          .arenaFailed hz hflag hpage hans⟩
      | some ptr =>
        -- no bit of a closed arena is set, so the first slot is free
        have hclear : bit (h.bitmap z) 0 = false := by
          by_contra hb
          have := (hi.bit_lt z 0 (by simpa using hb)).1
          simp [hflag] at this
        have hk : LeastClear ((h.openArena pl z ptr).bitmap z) 100 0 :=
          ⟨by decide, hclear, fun j hj ↦ absurd hj (by omega)⟩
        have hset := setupArena_opened hos hi.cache hi.flags hflag hpage hans
        have haddr : (h.openArena pl z ptr).slotAddr z 0 = ptr := by
          simp [Heap.slotAddr, Heap.openArena]
        refine ⟨_, _, mallocPool_slot hset hk, ?_⟩
        rw [haddr]
        exact .arenaOpened hz hflag hpage hans
    · exact ⟨_, _, mallocPool_null (setupArena_refused hi.flags hflag hpage),
        .arenaRefused hz hflag hpage⟩

/-! ## LARGE blocks -/

/-- The search for a free entry ends at the first one there is, or behind the last. -/
theorem freeTableIndex_spec (large : Nat → Nat) : ∀ left idx,
    (∀ j, j < idx → large j ≠ 0) →
    (LeastFree large (freeTableIndex large left idx) ∧ freeTableIndex large left idx < idx + left) ∨
      (∀ j, j < idx + left → large j ≠ 0) ∨ 100 < idx + left
  | 0, idx, hset => .inr (.inl hset)
  | left + 1, idx, hset => by
    rw [freeTableIndex]
    split
    · rename_i hz
      by_cases hlt : 100 < idx + (left + 1)
      · exact .inr (.inr hlt)
      · exact .inl ⟨⟨by omega, hz, hset⟩, by omega⟩
    · rename_i hne
      have hset' : ∀ j, j < idx + 1 → large j ≠ 0 := by
        intro j hj
        rcases Nat.lt_succ_iff_lt_or_eq.mp hj with h | rfl
        · exact hset j h
        · exact hne
      have h := freeTableIndex_spec large left (idx + 1) hset'
      rw [show idx + 1 + left = idx + (left + 1) by omega] at h
      exact h

/-- **The search of `init_meta_data` does not fall through** while `large_cnt` is below a
hundred. -/
theorem Heap.WF.freeTableIndex_lt (hi : h.WF pl) (hcnt : h.largeCnt < 100) :
    LeastFree h.large (freeTableIndex h.large 100 0) := by
  rcases freeTableIndex_spec h.large 100 0 fun j hj ↦ absurd hj (by omega) with hl | hfull | hlt
  · exact hl.1
  · exfalso
    have hall : h.tableSet = Finset.range 100 := by
      refine Finset.filter_true_of_mem fun j hj ↦ hfull j ?_
      simpa using hj
    have := hi.large_cnt
    rw [hall, Finset.card_range] at this
    omega
  · exact absurd hlt (by decide)

/-- On well-formed states clearing the table on the first LARGE request changes nothing in it. -/
theorem Heap.WF.initTable_eq (hi : h.WF pl) : h.initTable = h.touchTable := by
  rw [Heap.initTable, Heap.touchTable]
  split
  · rename_i hf
    rw [← hf]
  · rename_i hf
    have hzero := hi.large_flag (by simpa using hf)
    have hl : (fun i ↦ if i < 101 then 0 else h.large i) = h.large := by
      funext i
      rw [hzero i, ite_self]
    rw [hl]

/-- What the LARGE path writes to a fresh mapping names the table index. -/
theorem metaPosition_openLarge {m : Memory} {ptr len i n : Nat} (hlt : i < 100) :
    (metaPosition (setMetaClientSize (writeMeta m ptr len i) ptr n) ptr % 2 ^ 64).toNat = i := by
  have hag :
      Agree (writeMeta m ptr len i) (setMetaClientSize (writeMeta m ptr len i) ptr n) ptr 9 :=
    agree_setMetaClientSize n (by omega)
  rw [metaPosition_congr hag, metaPosition_writeMeta len (by omega)]
  omega

/-- The end of `malloc_impl` for a LARGE block, once `mmap` has succeeded. -/
theorem initMetaData_large (h₁ : Heap) (ptr : Nat) {len i : Nat} (hlen : SMALL < len)
    (hleast : LeastFree h₁.large (freeTableIndex h₁.large 100 0))
    (hi : LeastFree h₁.large i) :
    initMetaData ptr len h₁ = .ok ⟨⟩ { h₁ with
      large := Function.update h₁.large i ptr
      mem := writeMeta h₁.mem ptr len i } := by
  have hidx : freeTableIndex h₁.large 100 0 = i := by
    rcases Nat.lt_trichotomy (freeTableIndex h₁.large 100 0) i with hlt | heq | hgt
    · exact absurd hleast.2.1 (hi.2.2 _ hlt)
    · exact heq
    · exact absurd hi.2.1 (hleast.2.2 _ hgt)
  have ht : ¬ len = TINY := by rw [SMALL] at hlen; rw [TINY]; omega
  have hs : ¬ len = SMALL := by omega
  have h512 : 512 < len := hlen
  rw [initMetaData, if_neg ht, if_neg hs, if_pos h512, modify_apply, Heap.initLarge, hidx,
    if_pos hi.1]

/-- Once the size checks have passed, the block is mapped and entered in the table, or `mmap`
fails. -/
theorem mallocLargeFrom_step (hi : h.WF pl) {n : Nat} (hz : zoneOf n = .large)
    (hcnt : h.largeCnt < 100) (hfits : pl.Fits n) :
    ∃ r h', mallocLargeFrom os n (BitVec.ofNat 64 (pl.largeLen n)) (h.touchTable.cachePage pl)
      = .ok r h' ∧ MallocStep pl os h n r h' := by
  have hlen : pl.largeLen n ≤ LONG_MAX := pl.largeLen_le hfits
  have hnat : (BitVec.ofNat 64 (pl.largeLen n)).toNat = pl.largeLen n := by
    rw [LONG_MAX] at hlen
    rw [BitVec.toNat_ofNat, Nat.mod_eq_of_lt (by omega)]
  cases hans : os.answer h.mapped (pl.largeLen n) with
  | none =>
    refine ⟨0, _, ?_, .largeFailed hz hcnt hfits hans⟩
    rw [mallocLargeFrom, if_neg (ofNat_ne_neg_one hlen), hnat,
      bind_ok (mmap_none (h := h.touchTable.cachePage pl) hans), if_pos rfl, pure_apply]
  | some ptr =>
    have hleast := hi.freeTableIndex_lt hcnt
    have hge : SMALL < pl.largeLen n := by
      have h1 := lt_of_zoneOf_large hz
      have h2 := pl.largeLen_ge n
      simp only [SMALL, METASIZE] at *
      omega
    have hinit := initMetaData_large ((h.touchTable.cachePage pl).map ptr (pl.largeLen n))
      ptr hge hleast hleast
    refine ⟨_, _, ?_, .largeOpened hz hcnt hfits hans hleast⟩
    rw [mallocLargeFrom, if_neg (ofNat_ne_neg_one hlen), hnat,
      bind_ok (mmap_some (h := h.touchTable.cachePage pl) hans), if_neg (OS.answer_ne hans),
      bind_ok hinit, modify_bind, modify_bind, modify_bind, metaPosition_openLarge hleast.1]
    rfl

/-- Behind the check against `SIZE_MAX`, the sum with the header does not wrap. -/
theorem toNat_withMetadata {n : Nat} (hn : ¬ SIZE_MAX - METASIZE < n) :
    (withMetadata n).toNat = n + METASIZE := by
  simp only [SIZE_MAX, METASIZE] at hn ⊢
  rw [withMetadata, METASIZE, ← BitVec.ofNat_add, BitVec.toNat_ofNat, Nat.mod_eq_of_lt (by omega)]

/-- **A request of the LARGE class.** -/
theorem mallocLarge_step (hos : os.On pl) (hi : h.WF pl) {n : Nat} (hz : zoneOf n = .large) :
    ∃ r h', mallocLarge os n h = .ok r h' ∧ MallocStep pl os h n r h' := by
  have hn := lt_of_zoneOf_large hz
  by_cases hcnt : h.largeCnt < 100
  · by_cases hbig : SIZE_MAX - METASIZE < n
    · refine ⟨0, { h.touchTable with errno := ENOMEM }, ?_, .tooLarge hz hcnt ?_ (.inl rfl)⟩
      · rw [mallocLarge, get_bind, if_pos hcnt, modify_bind, hi.initTable_eq, if_pos hbig]
        rfl
      · simp only [Platform.Fits, SIZE_MAX, LONG_MAX, METASIZE] at *
        omega
    · have hsum : n + METASIZE < 2 ^ 64 := by
        simp only [SIZE_MAX, METASIZE] at *
        omega
      have hlarge : SMALL < n + METASIZE := by
        simp only [SMALL, METASIZE] at *
        omega
      have hcalc := calculaterPageSize_large (h := h.touchTable) hos hi.cache hi.flags hlarge hsum
      -- the code up to the answer of `calculater_page_size`
      have hstart : ∀ {x : BitVec 64} {h₁ : Heap},
          calculaterPageSize os (n + METASIZE) h.touchTable = .ok x h₁ →
          mallocLarge os n h = mallocLargeFrom os n x h₁ := by
        intro x h₁ hx
        rw [mallocLarge, get_bind, if_pos hcnt, modify_bind, hi.initTable_eq, if_neg hbig,
          toNat_withMetadata hbig, bind_ok hx]
      by_cases hfits : n + METASIZE ≤ LONG_MAX - (pl.page - 1)
      · rw [if_pos hfits] at hcalc
        rw [hstart hcalc]
        exact mallocLargeFrom_step hi hz hcnt hfits
      · rw [if_neg hfits] at hcalc
        refine ⟨0, _, ?_, .tooLarge hz hcnt hfits (.inr rfl)⟩
        rw [hstart hcalc, mallocLargeFrom, if_pos rfl]
        rfl
  · refine ⟨0, h, ?_, .tableFull hz hcnt⟩
    rw [mallocLarge, get_bind, if_neg hcnt, pure_apply]

/-- `malloc_impl` branches on the class of the request. -/
theorem mallocImpl_eq (os : OS) (size : Nat) :
    mallocImpl os size = match zoneOf (reqSize size) with
      | .pool z => mallocPool os z (reqSize size)
      | .large => mallocLarge os (reqSize size) := by
  simp only [mallocImpl, zoneOf, reqSize]
  split_ifs <;> rfl

/-- **Every call of `malloc_impl` returns**, in one of the ways of `MallocStep`. -/
theorem mallocImpl_step (hos : os.On pl) (hi : h.WF pl) (size : Nat) :
    ∃ r h', mallocImpl os size h = .ok r h' ∧ MallocStep pl os h (reqSize size) r h' := by
  rw [mallocImpl_eq]
  cases hz : zoneOf (reqSize size) with
  | pool z => exact mallocPool_step hos hi hz
  | large => exact mallocLarge_step hos hi hz

end FtMalloc
