import FtMalloc.Heap
import FtMalloc.Lib.PowerRound

/-!
# Page sizes

`return_sc_pagesize` and `calculater_page_size`, and what they compute on a `Platform`: a machine
whose page size, as the program receives it in an `int`, is a power of two and at least 16.

`calculater_page_size` keeps two static flags of its own.  It sets `flag_tiny` the first time it is
asked for the TINY arena and `flag_small` the first time it is asked for the SMALL one, and the
guard at its top refuses every later request for the same arena (`calculaterPageSize_refused`) —
whatever became of the mapping the first one was for.  Requests of the LARGE path are above 512
bytes, so neither flag can mask them (`calculaterPageSize_large`).
-/

set_option autoImplicit false

namespace FtMalloc

open ByteMemory PowerRound

/-! ## The code -/

/-- `return_sc_pagesize`: ask `sysconf` once and cache the answer. -/
def returnScPagesize (os : OS) : M (BitVec 64) := do
  if (← get).scPageSizeCache = 0#64 then
    if os.page = -1#32 then
      printError "return_sc_pagesize"
    else
      modify fun h ↦ { h with scPageSizeCache := os.page.signExtend 64 }
      return (← get).scPageSizeCache
  else
    return (← get).scPageSizeCache

/-- `!(~flag & size)`: every bit of `size` is a bit of the sign-extended `flag`. -/
def masked (flag : BitVec 32) (size : Nat) : Bool :=
  (~~~flag).signExtend 64 &&& BitVec.ofNat 64 size == 0#64

/-- The state after `flag_tiny |= TINY` or `flag_small |= SMALL`. -/
def Heap.reserve (h : Heap) (z : Pool) : Heap :=
  { h with pageFlag :=
      Function.update h.pageFlag z (h.pageFlag z ||| BitVec.ofNat 32 z.stride) }

/-- The branch of `calculater_page_size` for the first request for an arena: the room for 100
slots, and the flag. -/
def reservePages (z : Pool) (PAGE_SIZE : BitVec 64) : M (BitVec 64) := do
  modify fun h ↦ h.reserve z
  return maskUp PAGE_SIZE (BitVec.ofNat 64 (z.stride * 0x64))

/-- `(size_t)LONG_MAX - (PAGE_SIZE - 1)`. -/
def sizeLimit (PAGE_SIZE : BitVec 64) : BitVec 64 :=
  BitVec.ofNat 64 LONG_MAX - (PAGE_SIZE - 1#64)

/-- `calculater_page_size`: the length of a mapping with room for `size` bytes, as a `long`. -/
def calculaterPageSize (os : OS) (size : Nat) : M (BitVec 64) := do
  let h ← get
  if masked (h.pageFlag .tiny) size ∨ masked (h.pageFlag .small) size ∨ size < 1 then
    return -1#64
  else
    let PAGE_SIZE ← returnScPagesize os
    if (sizeLimit PAGE_SIZE).toNat < size then
      modify fun h ↦ { h with errno := ENOMEM }
      return -1#64
    else if size = TINY ∧ h.pageFlag .tiny = 0#32 then
      reservePages .tiny PAGE_SIZE
    else if size = SMALL ∧ h.pageFlag .small = 0#32 then
      reservePages .small PAGE_SIZE
    else
      return maskUp PAGE_SIZE (BitVec.ofNat 64 size)

/-! ## Platforms -/

/-- A machine whose page size is a power of two and at least 16.  The page size is `sysconf`'s
answer as `int flag` in `return_sc_pagesize` receives it. -/
structure Platform where
  /-- What `sysconf(_SC_PAGESIZE)` answers. -/
  sysconf : Int
  /-- The page size is `2 ^ exp`. -/
  exp : Nat
  /-- A page has at least 16 bytes. -/
  four_le : 4 ≤ exp
  /-- The `int` the program works with is the page size. -/
  page_eq : (BitVec.ofInt 32 sysconf).toInt = 2 ^ exp

namespace Platform

/-- The page size. -/
def page (pl : Platform) : Nat := 2 ^ pl.exp

/-- The length of the mapping of an arena. -/
def arenaLen (pl : Platform) (z : Pool) : Nat := roundUp pl.page (z.stride * 0x64)

/-- The length of the mapping of a LARGE block of `n` bytes. -/
def largeLen (pl : Platform) (n : Nat) : Nat := roundUp pl.page (n + METASIZE)

/-- The size checks of the LARGE path: the header and the rounding still fit a `long`. -/
def Fits (pl : Platform) (n : Nat) : Prop := n + METASIZE ≤ LONG_MAX - (pl.page - 1)

instance (pl : Platform) (n : Nat) : Decidable (pl.Fits n) := inferInstanceAs (Decidable (_ ≤ _))

variable (pl : Platform)

theorem exp_lt : pl.exp < 31 := by
  have hlt : (2 ^ pl.exp : Int) < 2 ^ 31 := by
    rw [← pl.page_eq]
    exact BitVec.toInt_lt
  have hnat : 2 ^ pl.exp < 2 ^ 31 := by exact_mod_cast hlt
  exact (Nat.pow_lt_pow_iff_right (by decide : 1 < 2)).mp hnat

theorem page_lt : pl.page < 2 ^ 31 := Nat.pow_lt_pow_right (by decide) pl.exp_lt

theorem page_pos : 0 < pl.page := Nat.two_pow_pos _

theorem sixteen_dvd_page : 16 ∣ pl.page := Nat.pow_dvd_pow 2 pl.four_le

theorem arenaLen_ge (z : Pool) : z.stride * 100 ≤ pl.arenaLen z := le_roundUp pl.page_pos _

theorem arenaLen_lt (z : Pool) : pl.arenaLen z < 2 ^ 32 := by
  have hle := roundUp_le pl.page (z.stride * 0x64)
  have hp := pl.page_lt
  have hs : z.stride ≤ 512 := by cases z <;> decide
  simp only [arenaLen]
  omega

theorem sixteen_dvd_largeLen (n : Nat) : 16 ∣ pl.largeLen n :=
  pl.sixteen_dvd_page.trans (dvd_roundUp _ _)

theorem largeLen_ge (n : Nat) : n + METASIZE ≤ pl.largeLen n := le_roundUp pl.page_pos _

theorem largeLen_le {n : Nat} (h : pl.Fits n) : pl.largeLen n ≤ LONG_MAX := by
  have hle := roundUp_le pl.page (n + METASIZE)
  have hp := pl.page_lt
  simp only [Fits, largeLen, METASIZE, LONG_MAX] at *
  omega

end Platform

/-- The answers of an operating system that runs on the platform. -/
def OS.On (os : OS) (pl : Platform) : Prop := os.sysconf = pl.sysconf

theorem OS.On.toInt_page {os : OS} {pl : Platform} (h : os.On pl) :
    os.page.toInt = (pl.page : Int) := by
  rw [OS.page, h, pl.page_eq, Platform.page]
  norm_cast

/-! ## What the two functions compute -/

/-- The page size cache is empty or right. -/
def PageCached (pl : Platform) (h : Heap) : Prop :=
  h.scPageSizeCache = 0#64 ∨ h.scPageSizeCache = BitVec.ofNat 64 pl.page

/-- The state with the page size in the cache. -/
def Heap.cachePage (h : Heap) (pl : Platform) : Heap :=
  { h with scPageSizeCache := BitVec.ofNat 64 pl.page }

variable {pl : Platform} {os : OS} {h : Heap}

theorem OS.On.signExtend_page (hos : os.On pl) :
    os.page.signExtend 64 = BitVec.ofNat 64 pl.page := by
  refine BitVec.eq_of_toInt_eq ?_
  have hp := pl.page_lt
  rw [BitVec.toInt_signExtend_of_le (by decide), hos.toInt_page, BitVec.toInt_ofNat']
  simp only [Int.bmod]
  omega

theorem OS.On.page_ne (hos : os.On pl) : os.page ≠ -1#32 := by
  intro h
  have h1 := hos.toInt_page
  rw [h] at h1
  have h2 : (-1#32 : BitVec 32).toInt = -1 := by decide
  omega

theorem ofNat_page_ne_zero : BitVec.ofNat 64 pl.page ≠ 0#64 := by
  intro h
  have hp := pl.page_lt
  have hpos := pl.page_pos
  have h0 := congrArg BitVec.toNat h
  rw [BitVec.toNat_ofNat, Nat.mod_eq_of_lt (by omega)] at h0
  simp at h0
  omega

/-- On a platform `return_sc_pagesize` answers the page size, and leaves it in the cache. -/
theorem returnScPagesize_eq (hos : os.On pl) (hc : PageCached pl h) :
    returnScPagesize os h = .ok (BitVec.ofNat 64 pl.page) (h.cachePage pl) := by
  simp only [returnScPagesize, bind_apply, get_apply, ite_apply_heap, modify_apply, pure_apply,
    if_neg hos.page_ne, hos.signExtend_page]
  rcases hc with hc | hc
  · rw [if_pos hc]
    rfl
  · have hne : h.scPageSizeCache ≠ 0#64 := by rw [hc]; exact ofNat_page_ne_zero
    rw [if_neg hne, Heap.cachePage, ← hc]

/-- The flags of `calculater_page_size` only ever hold their own arena's size type. -/
def PageFlags (h : Heap) : Prop :=
  ∀ z, h.pageFlag z = 0#32 ∨ h.pageFlag z = BitVec.ofNat 32 z.stride

theorem toNat_le_of_and_not {w : Nat} {x c : BitVec w} (h : ~~~c &&& x = 0#w) :
    x.toNat ≤ c.toNat := by
  have hx : x = x &&& c := by
    refine BitVec.eq_of_getLsbD_eq fun i hi ↦ ?_
    have hb := congrArg (fun y ↦ y.getLsbD i) h
    simp only [BitVec.getLsbD_and, BitVec.getLsbD_not, hi, decide_true, Bool.true_and,
      BitVec.getLsbD_zero] at hb ⊢
    revert hb
    cases x.getLsbD i <;> cases c.getLsbD i <;> simp
  rw [hx, BitVec.toNat_and]
  exact Nat.and_le_right

/-- A flag that holds a size type masks no larger size. -/
theorem masked_stride {z : Pool} {n : Nat} (hn : z.stride < n) (hlt : n < 2 ^ 64) :
    masked (BitVec.ofNat 32 z.stride) n = false := by
  have hext : (~~~(BitVec.ofNat 32 z.stride)).signExtend 64 = ~~~(BitVec.ofNat 64 z.stride) := by
    cases z <;> decide
  rw [masked, hext, beq_eq_false_iff_ne]
  intro h
  have hle := toNat_le_of_and_not h
  have hs : z.stride < 2 ^ 64 := by cases z <;> decide
  rw [BitVec.toNat_ofNat, BitVec.toNat_ofNat, Nat.mod_eq_of_lt hlt, Nat.mod_eq_of_lt hs] at hle
  omega

theorem masked_zero {n : Nat} (hn : 0 < n) (hlt : n < 2 ^ 64) : masked 0#32 n = false := by
  have hext : (~~~(0#32)).signExtend 64 = ~~~(0#64) := by decide
  rw [masked, hext, beq_eq_false_iff_ne]
  intro h
  have hle := toNat_le_of_and_not h
  rw [BitVec.toNat_ofNat, Nat.mod_eq_of_lt hlt] at hle
  simp at hle
  omega

/-- No flag masks a request above 512 bytes. -/
theorem PageFlags.not_masked_large (hf : PageFlags h) {n : Nat} (hn : SMALL < n)
    (hlt : n < 2 ^ 64) (z : Pool) : masked (h.pageFlag z) n = false := by
  have hs : z.stride ≤ SMALL := by cases z <;> decide
  rcases hf z with hz | hz
  · rw [hz]; exact masked_zero (by omega) hlt
  · rw [hz]; exact masked_stride (by omega) hlt

/-- An arena's request is masked by its own flag and by no other. -/
theorem PageFlags.masked_arena (hf : PageFlags h) (y z : Pool) :
    masked (h.pageFlag y) z.stride = decide (y = z ∧ h.pageFlag y ≠ 0#32) := by
  rcases hf y with hy | hy <;> rw [hy] <;> cases y <;> cases z <;> decide

/-- No flag masks the first request for an arena. -/
theorem PageFlags.not_masked_arena (hf : PageFlags h) {z : Pool} (hz : h.pageFlag z = 0#32)
    (y : Pool) : masked (h.pageFlag y) z.stride = false := by
  rw [hf.masked_arena, decide_eq_false_iff_not]
  rintro ⟨rfl, hne⟩
  exact hne hz

/-- A power of two that is a `long`. -/
theorem two_pow_le {e : Nat} (he : e < 63) : 0 < 2 ^ e ∧ 2 ^ e ≤ 2 ^ 62 :=
  ⟨Nat.two_pow_pos e, Nat.pow_le_pow_right (by decide) (by omega)⟩

/-- `PAGE_SIZE - 1`. -/
theorem toNat_page_pred {e : Nat} (he : e < 63) :
    (BitVec.ofNat 64 (2 ^ e) - 1#64).toNat = 2 ^ e - 1 := by
  have hp := two_pow_le he
  rw [BitVec.toNat_sub_of_le]
  · simp only [BitVec.toNat_ofNat]
    omega
  · simp only [BitVec.le_def, BitVec.toNat_ofNat]
    omega

/-- The largest size whose rounding still fits a `long`. -/
theorem toNat_sizeLimit {e : Nat} (he : e < 63) :
    (sizeLimit (BitVec.ofNat 64 (2 ^ e))).toNat = LONG_MAX - (2 ^ e - 1) := by
  have hp := two_pow_le he
  have hL : (BitVec.ofNat 64 LONG_MAX).toNat = LONG_MAX := by decide
  rw [sizeLimit, BitVec.toNat_sub_of_le, toNat_page_pred he, hL]
  rw [BitVec.le_def, toNat_page_pred he, hL]
  rw [LONG_MAX]
  omega

/-- `(n + (PAGE_SIZE - 1)) & PAGE_MASK`. -/
theorem maskUp_page {e n : Nat} (hn : n + (2 ^ e - 1) < 2 ^ 64) :
    maskUp (BitVec.ofNat 64 (2 ^ e)) (BitVec.ofNat 64 n) = BitVec.ofNat 64 (roundUp (2 ^ e) n) := by
  have hle := roundUp_le (2 ^ e) n
  refine BitVec.eq_of_toNat_eq ?_
  rw [toNat_maskUp hn, BitVec.toNat_ofNat, Nat.mod_eq_of_lt]
  exact Nat.lt_of_le_of_lt hle hn

/-! The page size is `2 ^ e` here, whatever `sysconf` answers: it is what `return_sc_pagesize`
returns. -/

section PageSize

variable {e n : Nat} {h₁ : Heap}

/-- The guard at the top of `calculater_page_size` lets the request through. -/
theorem calculaterPageSize_of_page (he : e < 63)
    (hpage : returnScPagesize os h = .ok (BitVec.ofNat 64 (2 ^ e)) h₁)
    (hn : 0 < n) (hm : ∀ z, masked (h.pageFlag z) n = false) :
    calculaterPageSize os n h
      = if n ≤ LONG_MAX - (2 ^ e - 1) then
          (if n = TINY ∧ h.pageFlag .tiny = 0#32 then
            reservePages .tiny (BitVec.ofNat 64 (2 ^ e))
          else if n = SMALL ∧ h.pageFlag .small = 0#32 then
            reservePages .small (BitVec.ofNat 64 (2 ^ e))
          else pure (maskUp (BitVec.ofNat 64 (2 ^ e)) (BitVec.ofNat 64 n))) h₁
        else .ok (-1#64) { h₁ with errno := ENOMEM } := by
  have hguard : ¬ (masked (h.pageFlag .tiny) n ∨ masked (h.pageFlag .small) n ∨ n < 1) := by
    rw [hm, hm]
    simp only [Bool.false_eq_true, false_or]
    omega
  simp only [calculaterPageSize, bind_apply, get_apply, ite_apply_heap, if_neg hguard, hpage,
    toNat_sizeLimit he]
  by_cases hle : n ≤ LONG_MAX - (2 ^ e - 1)
  · rw [if_pos hle, if_neg (Nat.not_lt.mpr hle)]
  · rw [if_neg hle, if_pos (Nat.not_le.mp hle)]
    rfl

theorem calculaterPageSize_arena_of_page (he : e < 63)
    (hpage : returnScPagesize os h = .ok (BitVec.ofNat 64 (2 ^ e)) h₁) (hf : PageFlags h)
    {z : Pool} (hz : h.pageFlag z = 0#32) :
    calculaterPageSize os z.stride h
      = .ok (BitVec.ofNat 64 (roundUp (2 ^ e) (z.stride * 0x64))) (h₁.reserve z) := by
  have hm := hf.not_masked_arena hz
  have hp := two_pow_le he
  have hs : z.stride ≤ 512 ∧ 0 < z.stride := by cases z <;> decide
  have hle : z.stride ≤ LONG_MAX - (2 ^ e - 1) := by
    rw [LONG_MAX]
    omega
  have hlen := maskUp_page (e := e) (n := z.stride * 0x64) (by omega)
  rw [calculaterPageSize_of_page he hpage hs.2 hm, if_pos hle]
  cases z with
  | tiny =>
    rw [if_pos ⟨rfl, hz⟩, reservePages, hlen]
    rfl
  | small =>
    have hne : ¬ (Pool.stride .small = TINY ∧ h.pageFlag .tiny = 0#32) := fun h ↦
      absurd h.1 (by decide)
    rw [if_neg hne, if_pos ⟨rfl, hz⟩, reservePages, hlen]
    rfl

theorem calculaterPageSize_large_of_page (he : e < 63)
    (hpage : returnScPagesize os h = .ok (BitVec.ofNat 64 (2 ^ e)) h₁) (hf : PageFlags h)
    (hn : SMALL < n) (hlt : n < 2 ^ 64) :
    calculaterPageSize os n h
      = if n ≤ LONG_MAX - (2 ^ e - 1) then .ok (BitVec.ofNat 64 (roundUp (2 ^ e) n)) h₁
        else .ok (-1#64) { h₁ with errno := ENOMEM } := by
  rw [calculaterPageSize_of_page he hpage (by omega) (hf.not_masked_large hn hlt)]
  split
  · rename_i hle
    have hp := two_pow_le he
    have ht : ¬ (n = TINY ∧ h.pageFlag .tiny = 0#32) := by
      rw [SMALL] at hn
      rw [TINY]
      omega
    have hs : ¬ (n = SMALL ∧ h.pageFlag .small = 0#32) := by omega
    rw [if_neg ht, if_neg hs, maskUp_page (by rw [LONG_MAX] at hle; omega), pure_apply]
  · rfl

end PageSize

/-- **The first request for an arena** gets the arena's length, and sets the flag. -/
theorem calculaterPageSize_arena (hos : os.On pl) (hc : PageCached pl h) (hf : PageFlags h)
    {z : Pool} (hz : h.pageFlag z = 0#32) :
    calculaterPageSize os z.stride h
      = .ok (BitVec.ofNat 64 (pl.arenaLen z)) ((h.cachePage pl).reserve z) :=
  calculaterPageSize_arena_of_page (by have := pl.exp_lt; omega) (returnScPagesize_eq hos hc) hf hz

/-- **Every later request for the same arena is refused**, whatever became of the first. -/
theorem calculaterPageSize_refused (hf : PageFlags h) {z : Pool} (hz : h.pageFlag z ≠ 0#32) :
    calculaterPageSize os z.stride h = .ok (-1#64) h := by
  have hguard : masked (h.pageFlag .tiny) z.stride ∨ masked (h.pageFlag .small) z.stride ∨
      z.stride < 1 := by
    simp only [hf.masked_arena, decide_eq_true_eq]
    cases z with
    | tiny => exact .inl ⟨rfl, hz⟩
    | small => exact .inr (.inl ⟨rfl, hz⟩)
  rw [calculaterPageSize, get_bind, if_pos hguard, pure_apply]

/-- **A LARGE request** is rounded up to whole pages, or refused when that does not fit a
`long`. -/
theorem calculaterPageSize_large (hos : os.On pl) (hc : PageCached pl h) (hf : PageFlags h)
    {n : Nat} (hn : SMALL < n) (hlt : n < 2 ^ 64) :
    calculaterPageSize os n h
      = if n ≤ LONG_MAX - (pl.page - 1) then
          .ok (BitVec.ofNat 64 (roundUp pl.page n)) (h.cachePage pl)
        else .ok (-1#64) { h.cachePage pl with errno := ENOMEM } :=
  calculaterPageSize_large_of_page (by have := pl.exp_lt; omega) (returnScPagesize_eq hos hc) hf hn
    hlt

end FtMalloc
