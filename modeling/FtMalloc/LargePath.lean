import FtMalloc.World

/-!
# The arithmetic of the LARGE path

A request above 496 bytes goes through two range checks, one in `malloc_impl` against `SIZE_MAX` and
one in `calculater_page_size` against `LONG_MAX` less a page, and then through a mask.  Here the
page size is whatever power of two `return_sc_pagesize` returns as a `long`, and the state is any in
which the two flags of `calculater_page_size` hold what they can hold.

* `ExactSums` — every sum of the path is the sum of the integers, as far as the path computes it.
* `large_path` — the path refuses exactly the sizes that do not fit a `long` once the header and the
  rounding are added, and asks for whole pages otherwise.
-/

set_option autoImplicit false

namespace FtMalloc

open ByteMemory PowerRound

variable {os : OS} {h h₁ g : Heap} {n e : Nat} {p : BitVec 64}

/-! ## The page size -/

/-- A `long` that is a power of two. -/
theorem eq_ofNat_two_pow (hp : p.toInt = 2 ^ e) : e < 63 ∧ p = BitVec.ofNat 64 (2 ^ e) := by
  have hlt : (2 ^ e : Int) < 2 ^ 63 := by
    rw [← hp]
    exact BitVec.toInt_lt
  have hnat : 2 ^ e < 2 ^ 63 := by exact_mod_cast hlt
  have he : e < 63 := (Nat.pow_lt_pow_iff_right (by decide : 1 < 2)).mp hnat
  have hn : (BitVec.ofNat 64 (2 ^ e)).toNat = 2 ^ e := by
    rw [BitVec.toNat_ofNat, Nat.mod_eq_of_lt (by omega)]
  refine ⟨he, BitVec.eq_of_toInt_eq ?_⟩
  rw [hp, BitVec.toInt_eq_toNat_of_lt (by omega), hn, Nat.cast_pow, Nat.cast_ofNat]

/-- The state with `p` in the cache of `return_sc_pagesize`. -/
def Heap.cacheSize (h : Heap) (p : BitVec 64) : Heap := { h with scPageSizeCache := p }

/-- `return_sc_pagesize` leaves in the cache what it returns, and looks at nothing but the cache. -/
theorem returnScPagesize_of_cache (hpage : returnScPagesize os h = .ok p h₁)
    (hg : g.scPageSizeCache = h.scPageSizeCache) :
    returnScPagesize os g = .ok p (g.cacheSize p) := by
  rw [Heap.cacheSize]
  simp only [returnScPagesize, bind_apply, get_apply, ite_apply_heap, modify_apply, pure_apply,
    printError, throw_apply] at hpage ⊢
  rw [hg]
  split at hpage
  · rename_i hc
    rw [if_pos hc]
    split at hpage
    · exact absurd hpage (by simp)
    · rename_i hne
      rw [if_neg hne]
      injection hpage with hp
      rw [hp]
  · rename_i hc
    rw [if_neg hc]
    injection hpage with hp
    rw [← hp, ← hg]

/-! ## The sums -/

/-- The sums that the LARGE path computes for `n` bytes with the page size `p = 2 ^ e`.  Each is the
sum of the integers where the path computes it. -/
structure ExactSums (n e : Nat) (p : BitVec 64) : Prop where
  /-- `size + sizeof(METADATA_t)`, behind the check against `SIZE_MAX`. -/
  header : ¬ SIZE_MAX - METASIZE < n → (withMetadata n).toNat = n + METASIZE
  /-- `PAGE_SIZE - 1`, a `long`. -/
  pred : (p - 1#64).toInt = 2 ^ e - 1
  /-- `(size_t)LONG_MAX - (PAGE_SIZE - 1)`. -/
  limit : ((sizeLimit p).toNat : Int) = LONG_MAX - (2 ^ e - 1)
  /-- `size + (PAGE_SIZE - 1)`, behind the check against `LONG_MAX`. -/
  sum : ((n + METASIZE : Nat) : Int) ≤ LONG_MAX - (2 ^ e - 1) →
    ((withMetadata n + (p - 1#64)).toNat : Int) = n + METASIZE + (2 ^ e - 1)
  /-- `PAGE_COUNT`, a `long`. -/
  count : ((n + METASIZE : Nat) : Int) ≤ LONG_MAX - (2 ^ e - 1) →
    (maskUp p (withMetadata n)).toInt = roundUp (2 ^ e) (n + METASIZE)

/-- The check against `LONG_MAX`, over the integers and as the code makes it. -/
theorem fits_iff (he : e < 63) :
    ((n : Int) ≤ LONG_MAX - (2 ^ e - 1)) ↔ n ≤ LONG_MAX - (2 ^ e - 1) := by
  have hp := two_pow_le he
  have hcast : ((2 ^ e : Nat) : Int) = 2 ^ e := by norm_cast
  rw [LONG_MAX]
  omega

/-- What fits is rounded up to something that is still a `long`. -/
theorem roundUp_fits (he : e < 63) (hle : n ≤ LONG_MAX - (2 ^ e - 1)) :
    2 ^ e ∣ roundUp (2 ^ e) n ∧ n ≤ roundUp (2 ^ e) n ∧ roundUp (2 ^ e) n < n + 2 ^ e ∧
      roundUp (2 ^ e) n ≤ LONG_MAX := by
  have hp := two_pow_le he
  have hup := roundUp_le (2 ^ e) n
  refine ⟨dvd_roundUp _ _, le_roundUp hp.1 n, by omega, ?_⟩
  rw [LONG_MAX] at *
  omega

/-- A number of bytes that is a `long` is the same as a `size_t`. -/
theorem toNat_ofNat_of_le (hle : n ≤ LONG_MAX) :
    (BitVec.ofNat 64 n).toNat = n ∧ (BitVec.ofNat 64 n).toInt = n := by
  rw [LONG_MAX] at hle
  refine ⟨by rw [BitVec.toNat_ofNat, Nat.mod_eq_of_lt (by omega)], ?_⟩
  rw [BitVec.toInt_ofNat', Int.bmod_eq_of_le] <;> omega

theorem exactSums (he : e < 63) (n : Nat) : ExactSums n e (BitVec.ofNat 64 (2 ^ e)) := by
  have hp := two_pow_le he
  have hcast : ((2 ^ e : Nat) : Int) = 2 ^ e := by norm_cast
  have hpred := toNat_page_pred he
  have hheader : withMetadata n = BitVec.ofNat 64 (n + METASIZE) :=
    (BitVec.ofNat_add n METASIZE).symm
  refine ⟨toNat_withMetadata, ?_, ?_, fun hfit ↦ ?_, fun hfit ↦ ?_⟩
  · rw [BitVec.toInt_eq_toNat_of_lt (by omega), hpred]
    omega
  · rw [toNat_sizeLimit he, LONG_MAX]
    omega
  · have hle := (fits_iff he).mp hfit
    rw [LONG_MAX] at hle
    rw [hheader, BitVec.toNat_add, hpred, BitVec.toNat_ofNat, Nat.mod_eq_of_lt (by omega),
      Nat.mod_eq_of_lt (by omega)]
    omega
  · have hle := (fits_iff he).mp hfit
    have hround := roundUp_fits he hle
    rw [LONG_MAX] at hle
    rw [hheader, maskUp_page (by omega), (toNat_ofNat_of_le hround.2.2.2).2]

/-! ## The calls of `mmap` -/

/-- The state once a LARGE block of `n` bytes was mapped at `ptr` and entered in the table. -/
def Heap.enterLarge (h : Heap) (n ptr len : Nat) : Heap :=
  let g := (h.map ptr len).initLarge ptr len
  let mem := setMetaClientSize g.mem ptr n
  { g with
    mem := mem
    largeRequestSizes := Function.update g.largeRequestSizes (metaPosition mem ptr % 2 ^ 64).toNat n
    largeCnt := g.largeCnt + 1 }

/-- What comes of a LARGE request that asks `mmap` for `len` bytes and is answered by `answer`: the
address behind the header, which names the length; or `NULL`. -/
def Heap.HandsOut (h' : Heap) (len : Nat) (answer : Option Nat) (r : Nat) : Prop :=
  (answer = none → r = 0) ∧
    ∀ base, answer = some base → r = base + METASIZE ∧ metaSize h'.mem base = len

/-- The LARGE path from the answer of `calculater_page_size` on: one `mmap`, and a header that names
the length of it. -/
theorem mallocLargeFrom_calls (os : OS) (n : Nat) {len : Nat} (h : Heap) (hgt : SMALL < len)
    (hle : len ≤ LONG_MAX) : ∃ r h',
      mallocLargeFrom os n (BitVec.ofNat 64 len) h = .ok r h' ∧
        h'.calls = .mmap len (os.answer h.mapped len) :: h.calls ∧
        h'.HandsOut len (os.answer h.mapped len) r := by
  have hlt : len < 2 ^ 64 := by
    rw [LONG_MAX] at hle
    omega
  rw [mallocLargeFrom, if_neg (ofNat_ne_neg_one hle), (toNat_ofNat_of_le hle).1]
  cases hans : os.answer h.mapped len with
  | none =>
    refine ⟨0, h.refuse len, ?_, rfl, fun _ ↦ rfl, fun _ hsome ↦ absurd hsome (by simp)⟩
    rw [bind_ok (mmap_none hans), if_pos rfl, pure_apply]
  | some ptr =>
    have ht : ¬ len = TINY := by rw [SMALL] at hgt; rw [TINY]; omega
    have hs : ¬ len = SMALL := by omega
    have hinit :
        initMetaData ptr len (h.map ptr len) = .ok ⟨⟩ ((h.map ptr len).initLarge ptr len) := by
      rw [initMetaData, if_neg ht, if_neg hs, if_pos (show 512 < len from hgt), modify_apply]
    refine ⟨ptr + METASIZE, h.enterLarge n ptr len, ?_, rfl, fun hnone ↦ absurd hnone (by simp),
      fun base hbase ↦ ?_⟩
    · rw [bind_ok (mmap_some hans), if_neg (OS.answer_ne hans), bind_ok hinit]
      rfl
    · obtain rfl := Option.some_inj.mp hbase
      exact ⟨rfl,
        (metaSize_congr (agree_setMetaClientSize n (by omega))).trans (metaSize_writeMeta _ hlt)⟩

/-- What clearing the table leaves alone. -/
theorem Heap.initTable_frame (h : Heap) : h.initTable.scPageSizeCache = h.scPageSizeCache ∧
    h.initTable.calls = h.calls ∧ h.initTable.pageFlag = h.pageFlag ∧
      h.initTable.mapped = h.mapped := by
  rw [Heap.initTable]
  split <;> exact ⟨rfl, rfl, rfl, rfl⟩

/-- `calculater_page_size` in the LARGE path. -/
theorem calculaterPageSize_initTable (he : e < 63)
    (hpage : returnScPagesize os h = .ok (BitVec.ofNat 64 (2 ^ e)) h₁) (hf : PageFlags h)
    (hn : SMALL - METASIZE < n) (hmax : ¬ SIZE_MAX - METASIZE < n) :
    calculaterPageSize os (withMetadata n).toNat h.initTable
      = if n + METASIZE ≤ LONG_MAX - (2 ^ e - 1) then
          .ok (BitVec.ofNat 64 (roundUp (2 ^ e) (n + METASIZE)))
            (h.initTable.cacheSize (BitVec.ofNat 64 (2 ^ e)))
        else .ok (-1#64)
          { h.initTable.cacheSize (BitVec.ofNat 64 (2 ^ e)) with errno := ENOMEM } := by
  obtain ⟨hcache, -, hflag, -⟩ := h.initTable_frame
  have hf' : PageFlags h.initTable := fun z ↦ by rw [hflag]; exact hf z
  rw [toNat_withMetadata hmax]
  refine calculaterPageSize_large_of_page he (returnScPagesize_of_cache hpage hcache) hf' ?_ ?_
  · rw [SMALL, METASIZE] at *
    omega
  · rw [SIZE_MAX, METASIZE] at *
    omega

/-- **The LARGE path refuses what does not fit.** -/
theorem mallocLarge_refused (he : e < 63)
    (hpage : returnScPagesize os h = .ok (BitVec.ofNat 64 (2 ^ e)) h₁) (hf : PageFlags h)
    (hn : SMALL - METASIZE < n) (hcnt : h.largeCnt < 100)
    (hbig : ¬ n + METASIZE ≤ LONG_MAX - (2 ^ e - 1)) :
    ∃ h', mallocLarge os n h = .ok 0 h' ∧ h'.calls = h.calls ∧ h'.errno = ENOMEM := by
  rw [mallocLarge, get_bind, if_pos hcnt, modify_bind]
  by_cases hmax : SIZE_MAX - METASIZE < n
  · refine ⟨{ h.initTable with errno := ENOMEM }, ?_, h.initTable_frame.2.1, rfl⟩
    rw [if_pos hmax, modify_bind, pure_apply]
  · have hcalc := calculaterPageSize_initTable he hpage hf hn hmax
    rw [if_neg hbig] at hcalc
    refine ⟨{ h.initTable.cacheSize (BitVec.ofNat 64 (2 ^ e)) with errno := ENOMEM }, ?_,
      h.initTable_frame.2.1, rfl⟩
    rw [if_neg hmax, bind_ok hcalc, mallocLargeFrom, if_pos rfl, pure_apply]

/-- **The LARGE path asks for whole pages** when they fit. -/
theorem mallocLarge_asks (he : e < 63)
    (hpage : returnScPagesize os h = .ok (BitVec.ofNat 64 (2 ^ e)) h₁) (hf : PageFlags h)
    (hn : SMALL - METASIZE < n) (hcnt : h.largeCnt < 100)
    (hle : n + METASIZE ≤ LONG_MAX - (2 ^ e - 1)) :
    let len := roundUp (2 ^ e) (n + METASIZE)
    ∃ r h', mallocLarge os n h = .ok r h' ∧
      h'.calls = .mmap len (os.answer h.mapped len) :: h.calls ∧
      h'.HandsOut len (os.answer h.mapped len) r := by
  intro len
  have hround := roundUp_fits he hle
  have hmax : ¬ SIZE_MAX - METASIZE < n := by
    rw [LONG_MAX] at hle
    rw [SIZE_MAX, METASIZE] at *
    omega
  have hcalc := calculaterPageSize_initTable he hpage hf hn hmax
  rw [if_pos hle] at hcalc
  obtain ⟨r, h', hrun, hcalls, hout⟩ := mallocLargeFrom_calls os n
    (h.initTable.cacheSize (BitVec.ofNat 64 (2 ^ e)))
    (by rw [SMALL, METASIZE] at *; omega) hround.2.2.2
  obtain ⟨-, hlog, -, hmapped⟩ := h.initTable_frame
  have hmapped : (h.initTable.cacheSize (BitVec.ofNat 64 (2 ^ e))).mapped = h.mapped := hmapped
  rw [hmapped] at hcalls hout
  refine ⟨r, h', ?_, hcalls.trans (congrArg _ hlog), hout⟩
  rw [mallocLarge, get_bind, if_pos hcnt, modify_bind, if_neg hmax, bind_ok hcalc, hrun]

/-- Setting up an arena makes one `mmap`, of whole pages with room for a hundred slots. -/
theorem setupArena_asks (he : e < 63)
    (hpage : returnScPagesize os h = .ok (BitVec.ofNat 64 (2 ^ e)) h₁) (hf : PageFlags h)
    {z : Pool} (hclosed : h.poolFlag z = false) (hflag : h.pageFlag z = 0#32)
    (hle : roundUp (2 ^ e) (z.stride * 100) ≤ LONG_MAX) :
    ∃ b h' answer, setupArena os z h = .ok b h' ∧
      h'.calls = .mmap (roundUp (2 ^ e) (z.stride * 100)) answer :: h.calls := by
  have hcalc := calculaterPageSize_arena_of_page he (returnScPagesize_of_cache hpage rfl) hf hflag
  rw [setupArena, get_bind, if_neg (by rw [hclosed]; decide), bind_ok hcalc,
    if_neg (ofNat_ne_neg_one hle), (toNat_ofNat_of_le hle).1]
  generalize hg : (h.cacheSize (BitVec.ofNat 64 (2 ^ e))).reserve z = g
  generalize roundUp (2 ^ e) (z.stride * 100) = len
  have hcalls : h.calls = g.calls := by rw [← hg]; rfl
  rw [hcalls]
  cases hans : os.answer g.mapped len with
  | none =>
    refine ⟨false, { g.refuse len with base := Function.update g.base z MAP_FAILED }, none, ?_, rfl⟩
    rw [bind_ok (mmap_none hans), modify_bind, if_pos rfl, pure_apply]
    rfl
  | some ptr =>
    let opened : Heap := { g.map ptr len with base := Function.update g.base z ptr }
    refine ⟨true, { opened with
      mem := initHeaders ptr z.stride 100 opened.mem
      poolFlag := Function.update opened.poolFlag z true }, some ptr, ?_, rfl⟩
    rw [bind_ok (mmap_some hans), modify_bind, if_neg (OS.answer_ne hans),
      bind_ok (initMetaData_stride ptr z)]
    rfl

/-- **The first request for an arena** asks for whole pages with room for a hundred slots. -/
theorem mallocPool_asks (he : e < 63)
    (hpage : returnScPagesize os h = .ok (BitVec.ofNat 64 (2 ^ e)) h₁) (hf : PageFlags h)
    {z : Pool} (hclosed : h.poolFlag z = false) (hflag : h.pageFlag z = 0#32) (n : Nat)
    (hle : roundUp (2 ^ e) (z.stride * 100) ≤ LONG_MAX) :
    ∃ r h' answer, mallocPool os z n h = .ok r h' ∧
      h'.calls = .mmap (roundUp (2 ^ e) (z.stride * 100)) answer :: h.calls := by
  obtain ⟨b, h', answer, hset, hcalls⟩ := setupArena_asks he hpage hf hclosed hflag hle
  cases b with
  | false => exact ⟨0, h', answer, mallocPool_null hset, hcalls⟩
  | true =>
    rcases CharMap.full_or_leastClear (h'.bitmap z) 100 with hfull | ⟨k, hk⟩
    · exact ⟨0, h', answer, mallocPool_full hset hfull, hcalls⟩
    · exact ⟨_, _, answer, mallocPool_slot hset hk, hcalls⟩

/-! ## The LARGE path -/

/-- **The LARGE path fits together** for every size above 496 bytes and every page size.  No sum
wraps and no `long` overflows.  With an entry of the table free the request is turned down without
an `mmap`, with `ENOMEM`, exactly when the header and the rounding take it past `LONG_MAX`.
Otherwise the flags let it through and `mmap` is asked for whole pages.  If it grants them the block
starts behind their header, and `realloc_impl` finds all of them but the header in the `size` field
as it was stored.  The arenas are whole pages as well, with room for a hundred slots. -/
theorem large_path (hn : SMALL - METASIZE < n) (hf : PageFlags h) (he : 4 ≤ e)
    (hpage : returnScPagesize os h = .ok p h₁) (hp : p.toInt = 2 ^ e) :
    ExactSums n e p ∧
    (h.largeCnt < 100 →
      ((∃ h', mallocImpl os n h = .ok 0 h' ∧ h'.calls = h.calls ∧ h'.errno = ENOMEM) ↔
        (LONG_MAX : Int) - (2 ^ e - 1) < n + METASIZE) ∧
      ((n : Int) + METASIZE ≤ LONG_MAX - (2 ^ e - 1) →
        (∀ z, masked (h.pageFlag z) (n + METASIZE) = false) ∧
        ∃ L, 2 ^ e ∣ L ∧ n + METASIZE ≤ L ∧ L < n + METASIZE + 2 ^ e ∧ L ≤ LONG_MAX ∧
          ∃ r h', mallocImpl os n h = .ok r h' ∧
            h'.calls = .mmap L (os.answer h.mapped L) :: h.calls ∧
            (os.answer h.mapped L = none → r = 0) ∧
            ∀ base, os.answer h.mapped L = some base →
              r = base + METASIZE ∧ metaSize h'.mem base = L ∧
              ∀ m, metaSize m base = metaSize h'.mem base → capacity m base = L - METASIZE)) ∧
    ∀ z k, zoneOf (reqSize k) = .pool z → h.poolFlag z = false → h.pageFlag z = 0#32 →
      ∃ L, 2 ^ e ∣ L ∧ 100 * z.stride ≤ L ∧ L ≤ LONG_MAX ∧
        ∃ r h' answer, mallocImpl os k h = .ok r h' ∧ h'.calls = .mmap L answer :: h.calls := by
  obtain ⟨he63, rfl⟩ := eq_ofNat_two_pow hp
  have hlarge : mallocImpl os n h = mallocLarge os n h := by
    have hreq : reqSize n = n := reqSize_eq (by omega)
    have hz : zoneOf n = .large := by
      rw [zoneOf, if_neg (by rw [SMALL, TINY, METASIZE] at *; omega), if_neg (by omega)]
    rw [mallocImpl_eq, hreq, hz]
  refine ⟨exactSums he63 n, fun hcnt ↦ ⟨?_, fun hfit ↦ ?_⟩, fun z k hz hclosed hflag ↦ ?_⟩
  · rw [hlarge]
    constructor
    · rintro ⟨h', hrun, hcalls, -⟩
      by_contra hfit
      have hle := (fits_iff (n := n + METASIZE) he63).mp (by push_cast; omega)
      obtain ⟨r, h'', hrun', hcalls', -⟩ := mallocLarge_asks he63 hpage hf hn hcnt hle
      rw [hrun] at hrun'
      injection hrun' with _ hsame
      rw [← hsame, hcalls] at hcalls'
      exact absurd hcalls'.symm (List.cons_ne_self _ _)
    · intro hbig
      have hnot := mt (fits_iff (n := n + METASIZE) he63).mpr (by push_cast; omega)
      exact mallocLarge_refused he63 hpage hf hn hcnt hnot
  · have hle := (fits_iff (n := n + METASIZE) he63).mp (by push_cast; omega)
    obtain ⟨hdvd, hge, hlt', hmax⟩ := roundUp_fits he63 hle
    obtain ⟨r, h', hrun, hcalls, hnone, hsome⟩ := mallocLarge_asks he63 hpage hf hn hcnt hle
    refine ⟨hf.not_masked_large ?_ ?_, _, hdvd, hge, hlt', hmax, r, h', ?_, hcalls, hnone,
      fun base hbase ↦ ?_⟩
    · rw [SMALL, METASIZE] at *
      omega
    · rw [LONG_MAX] at hle
      omega
    · rw [hlarge, hrun]
    · obtain ⟨hr, hsize⟩ := hsome base hbase
      refine ⟨hr, hsize, fun m hm ↦ ?_⟩
      refine capacity_large (hm.trans hsize) ((Nat.pow_dvd_pow 2 he).trans hdvd) ?_ ?_
      · exact Nat.le_trans (Nat.le_add_left METASIZE n) hge
      · rw [LONG_MAX] at hmax
        omega
  · have hs : z.stride ≤ 512 := by cases z <;> decide
    have htwo := two_pow_le he63
    obtain ⟨hdvd, hge, -, hmax⟩ := roundUp_fits (n := z.stride * 100) he63 (by rw [LONG_MAX]; omega)
    obtain ⟨r, h', answer, hrun, hcalls⟩ :=
      mallocPool_asks he63 hpage hf hclosed hflag (reqSize k) hmax
    refine ⟨_, hdvd, by omega, hmax, r, h', answer, ?_, hcalls⟩
    rw [mallocImpl_eq, hz]
    exact hrun

/-- A request that the kernel grants, and one that is too large by a byte. -/
theorem large_path_pages4k :
    let os := Platform.pages4k.os (some 0x10000) true
    let h := Heap.initial fun _ ↦ 0#8
    (∃ h', mallocImpl os 5000 h = .ok 0x10010 h' ∧
        h'.calls = [.mmap 0x2000 (some 0x10000)] ∧ metaSize h'.mem 0x10000 = 0x2000 ∧
        capacity h'.mem 0x10000 = 0x1FF0) ∧
      ∃ h', mallocImpl os (LONG_MAX - 0xFFF - 15) h = .ok 0 h' ∧ h'.calls = [] ∧
        h'.errno = ENOMEM := by
  intro os h
  have hpage : returnScPagesize os h = .ok 0x1000#64 (h.cacheSize 0x1000#64) := by rfl
  have hflags : PageFlags h := fun _ ↦ .inl rfl
  refine ⟨?_, ?_⟩
  · obtain ⟨-, hlarge, -⟩ :=
      large_path (n := 5000) (e := 12) (by decide) hflags (by decide) hpage (by decide)
    obtain ⟨-, L, hdvd, hge, hlt, -, r, h', hrun, hcalls, -, hsome⟩ :=
      (hlarge (by decide)).2 (by decide)
    obtain rfl : L = 0x2000 := by
      rw [METASIZE] at hge hlt
      omega
    have hans : os.answer h.mapped 0x2000 = some 0x10000 := by decide
    obtain ⟨rfl, hsize, hroom⟩ := hsome _ hans
    exact ⟨h', hrun, by rw [hcalls, hans]; rfl, hsize, hroom _ rfl⟩
  · obtain ⟨-, hlarge, -⟩ := large_path (n := LONG_MAX - 0xFFF - 15) (e := 12) (by decide) hflags
      (by decide) hpage (by decide)
    exact (hlarge (by decide)).1.mpr (by decide)

end FtMalloc
