import FtMalloc.PageSize

/-!
# The functions of `ft_malloc.c`

One definition for each function, in the order of the source.  Where the source says the same
thing twice, once for TINY and once for SMALL, the definition takes the `Pool` (`mallocPool`,
`setupArena`); the loops are recursions on the number of rounds.

Each function is followed here by the code only.  What the functions compute on well-formed states
is the business of the modules that import this one.
-/

set_option autoImplicit false

namespace FtMalloc

open ByteMemory CharMap

/-! ## Blocks of bytes -/

/-- `ft_memset`: `cnt` rounds of its loop. -/
def ftMemset (m : Memory) (s : Nat) (c : Byte) : Nat → Memory
  | 0 => m
  | cnt + 1 => poke (ftMemset m s c cnt) (s + cnt) c

/-- `ft_memcpy`: `cnt` rounds of its loop. -/
def ftMemcpy (m : Memory) (dest src : Nat) : Nat → Memory
  | 0 => m
  | cnt + 1 =>
    let m' := ftMemcpy m dest src cnt
    poke m' (dest + cnt) (m' (src + cnt))

/-! ## `init_meta_data` -/

/-- The loop of `init_meta_data` over the slots of an arena, for its first `n` slots. -/
def initHeaders (ptr stride : Nat) : Nat → Memory → Memory
  | 0, m => m
  | idx + 1, m =>
    writeMeta (initHeaders ptr stride idx m) (ptr + stride * idx) (stride ||| (idx >>> 3))
      (idx &&& POS_MASK)

/-- The search of `init_meta_data` for a free entry of the LARGE table: `left` rounds from `idx`
on.  It answers the index past the last one it tried when there is none. -/
def freeTableIndex (large : Nat → Nat) : Nat → Nat → Nat
  | 0, idx => idx
  | left + 1, idx => if large idx = 0 then idx else freeTableIndex large left (idx + 1)

/-- The LARGE branch of `init_meta_data`. -/
def Heap.initLarge (h : Heap) (ptr size : Nat) : Heap :=
  let idx := freeTableIndex h.large 100 0
  { h with
    large := if idx < 100 then Function.update h.large idx ptr else h.large
    mem := writeMeta h.mem ptr size idx }

/-- `init_meta_data`. -/
def initMetaData (ptr size : Nat) : M Unit :=
  if size = TINY then
    modify fun h ↦ { h with mem := initHeaders ptr TINY 100 h.mem }
  else if size = SMALL then
    modify fun h ↦ { h with mem := initHeaders ptr SMALL 100 h.mem }
  else if 512 < size then
    modify fun h ↦ h.initLarge ptr size
  else
    printError "do Error"

/-! ## `find_free_zone` -/

/-- How a loop of `find_free_zone` ends: with the place of a clear bit, with the `return` at the
hundredth slot, or by running out of rounds. -/
inductive Scan
  | found (idx fos : Nat)
  | full
  | next (cnt : BitVec 8)
  deriving DecidableEq, Repr

/-- The inner loop of `find_free_zone`, over the bit positions `fos` still to come. -/
def scanFos (bitmap : Map) (idx : Nat) : List Nat → BitVec 8 → Scan
  | [], cnt => .next cnt
  | fos :: rest, cnt =>
    if 100#8 ≤ cnt then .full
    else if (charTest (bitmap idx) fos).setWidth 8 = 0#8 then .found idx fos
    else scanFos bitmap idx rest (cnt + 1#8)

/-- The outer loop of `find_free_zone`, over the bytes `idx` still to come. -/
def scanIdx (bitmap : Map) : List Nat → BitVec 8 → Scan
  | [], cnt => .next cnt
  | idx :: rest, cnt =>
    match scanFos bitmap idx (List.range 0x08) cnt with
    | .next cnt => scanIdx bitmap rest cnt
    | found => found

/-- One of the two branches of `find_free_zone`: the scan of the pool's bitmap, the bit that is
set, and the place packed into a byte. -/
def findFreeSlot (z : Pool) : M (BitVec 8) := do
  let bitmap := (← get).bitmap z
  match scanIdx bitmap (List.range 0x0D) 0#8 with
  | .found idx fos =>
    modify fun h ↦ { h with
      bitmap := Function.update h.bitmap z (Function.update bitmap idx (charSet (bitmap idx) fos)) }
    return (BitVec.ofNat 8 idx <<< 4) ||| BitVec.ofNat 8 fos
  | _ => return 0xFF#8

/-- `find_free_zone`. -/
def findFreeZone (sizeType : Nat) : M (BitVec 8) :=
  if sizeType = TINY then findFreeSlot .tiny
  else if sizeType = SMALL then findFreeSlot .small
  else return 0xFF#8

/-! ## `malloc_impl` -/

/-- The slot index that `malloc_impl` reads out of the byte of `find_free_zone`. -/
def slotIndex (zone : BitVec 8) : BitVec 8 :=
  let front := zone >>> 4
  let back := zone &&& ((1#8 <<< 4) - 1#8)
  front * 8#8 + back

/-- The start of `malloc_impl` for a pool: set the arena up unless that was done before.  `false`
stands for `return (NULL)`. -/
def setupArena (os : OS) (z : Pool) : M Bool := do
  if (← get).poolFlag z then
    return true
  else
    let page_size ← calculaterPageSize os z.stride
    if page_size = -1#64 then
      return false
    else
      let ptr ← mmap os page_size.toNat
      modify fun h ↦ { h with base := Function.update h.base z ptr }
      if ptr = MAP_FAILED then
        return false
      else
        initMetaData ptr z.stride
        modify fun h ↦ { h with poolFlag := Function.update h.poolFlag z true }
        return true

/-- The TINY and the SMALL branch of `malloc_impl`. -/
def mallocPool (os : OS) (z : Pool) (size : Nat) : M Nat := do
  if ← setupArena os z then
    let zone ← findFreeZone z.stride
    if zone = 0xFF#8 then
      return 0
    else
      let temp := (← get).base z + z.stride * (slotIndex zone).toNat
      modify fun h ↦ { h with mem := setMetaClientSize h.mem temp size }
      return temp + METASIZE
  else
    return 0

/-- `if (large_flag == 0)`: clear the table on the first LARGE request. -/
def Heap.initTable (h : Heap) : Heap :=
  if h.largeFlag then h
  else { h with large := fun i ↦ if i < 101 then 0 else h.large i, largeFlag := true }

/-- The LARGE branch of `malloc_impl`, from the answer of `calculater_page_size` on. -/
def mallocLargeFrom (os : OS) (size : Nat) (page_size : BitVec 64) : M Nat := do
  if page_size = -1#64 then
    return 0
  else
    let ptr ← mmap os page_size.toNat
    if ptr = MAP_FAILED then
      return 0
    else
      initMetaData ptr page_size.toNat
      modify fun h ↦ { h with mem := setMetaClientSize h.mem ptr size }
      modify fun h ↦ { h with
        largeRequestSizes :=
          Function.update h.largeRequestSizes (metaPosition h.mem ptr % 2 ^ 64).toNat size }
      modify fun h ↦ { h with largeCnt := h.largeCnt + 1 }
      return ptr + METASIZE

/-- `size + sizeof(METADATA_t)`, a `size_t`. -/
def withMetadata (size : Nat) : BitVec 64 := BitVec.ofNat 64 size + BitVec.ofNat 64 METASIZE

/-- The LARGE branch of `malloc_impl`. -/
def mallocLarge (os : OS) (size : Nat) : M Nat := do
  if (← get).largeCnt < 100 then
    modify Heap.initTable
    if SIZE_MAX - METASIZE < size then
      modify fun h ↦ { h with errno := ENOMEM }
      return 0
    else
      let page_size ← calculaterPageSize os (withMetadata size).toNat
      mallocLargeFrom os size page_size
  else
    return 0

/-- `malloc_impl`. -/
def mallocImpl (os : OS) (size : Nat) : M Nat :=
  let size := if size < 1 then 1 else size
  if size ≤ TINY - METASIZE then mallocPool os .tiny size
  else if size ≤ SMALL - METASIZE then mallocPool os .small size
  else mallocLarge os size

/-! ## `find_live_allocation` -/

/-- `allocation_owner_t`. -/
structure AllocationOwner where
  /-- The pool whose bitmap `bitmap` points to, `none` for `NULL`. -/
  bitmap : Option Pool
  /-- The slot of the pool, or the index in the LARGE table. -/
  slot : Nat
  deriving DecidableEq, Repr

/-- `live_pool_slot`, with `none` for `-1`. -/
def livePoolSlot (ptr base stride : Nat) (bitmap : Map) : Option Nat :=
  if base = 0 ∨ base = MAP_FAILED ∨ ptr < base ∨ ptr - base < METASIZE then none
  else
    let offset := ptr - base - METASIZE
    if offset % stride ≠ 0 ∨ 100 ≤ offset / stride then none
    else
      let slot := offset / stride
      if charTest (bitmap (slot / 8)) (slot % 8) ≠ 0#32 then some slot else none

/-- The loop of `find_live_allocation` over the LARGE table: `left` rounds from `slot` on. -/
def liveLargeSlot (large : Nat → Nat) (ptr : Nat) : Nat → Nat → Option Nat
  | 0, _ => none
  | left + 1, slot =>
    if large slot ≠ 0 ∧ ptr = large slot + METASIZE then some slot
    else liveLargeSlot large ptr left (slot + 1)

/-- `find_live_allocation`: the header of the allocation and its owner.  It reads the tables of
the allocator only, never the memory in front of the pointer. -/
def findLiveAllocation (h : Heap) (ptr : Nat) : Option (Nat × AllocationOwner) :=
  if ptr = 0 then none
  else
    match livePoolSlot ptr (h.base .tiny) TINY (h.bitmap .tiny) with
    | some slot => some (h.base .tiny + TINY * slot, ⟨some .tiny, slot⟩)
    | none =>
      match livePoolSlot ptr (h.base .small) SMALL (h.bitmap .small) with
      | some slot => some (h.base .small + SMALL * slot, ⟨some .small, slot⟩)
      | none =>
        match liveLargeSlot h.large ptr 100 0 with
        | some slot => some (h.large slot, ⟨none, slot⟩)
        | none => none

/-! ## `free_impl`, `realloc_impl`, `callo_imp` -/

/-- `free_impl`. -/
def freeImpl (os : OS) (ptr : Nat) : M Unit := do
  match findLiveAllocation (← get) ptr with
  | none => return ()
  | some (hdr, owner) =>
    match owner.bitmap with
    | some z =>
      modify fun h ↦ { h with
        bitmap := Function.update h.bitmap z (CharMap.erase (h.bitmap z) owner.slot) }
    | none =>
      if ← munmap os hdr (metaSize (← get).mem hdr) then
        modify fun h ↦ { h with
          large := Function.update h.large owner.slot 0
          largeRequestSizes := Function.update h.largeRequestSizes owner.slot 0
          largeCnt := h.largeCnt - 1 }
      else
        printError "munmap Fail"

/-- `(meta->size & ~(size_t)INDEX_MASK) - sizeof(*meta)`. -/
def capacity (m : Memory) (hdr : Nat) : Nat :=
  ((BitVec.ofNat 64 (metaSize m hdr) &&& ~~~(BitVec.ofNat 64 INDEX_MASK))
    - BitVec.ofNat 64 METASIZE).toNat

/-- The state after `meta->client_size = size` and, for a LARGE block,
`large_request_sizes[owner.slot] = size`. -/
def Heap.resize (h : Heap) (hdr : Nat) (owner : AllocationOwner) (size : Nat) : Heap :=
  { h with
    mem := setMetaClientSize h.mem hdr size
    largeRequestSizes :=
      if owner.bitmap = none then Function.update h.largeRequestSizes owner.slot size
      else h.largeRequestSizes }

/-- `owner.bitmap ? (size_t)meta->client_size : large_request_sizes[owner.slot]`. -/
def Heap.copySize (h : Heap) (hdr : Nat) (owner : AllocationOwner) : Nat :=
  if owner.bitmap = none then h.largeRequestSizes owner.slot
  else (metaClientSize h.mem hdr % 2 ^ 64).toNat

/-- `realloc_impl`. -/
def reallocImpl (os : OS) (ptr size : Nat) : M Nat := do
  if ptr = 0 then
    mallocImpl os size
  else if size = 0 then
    freeImpl os ptr
    return 0
  else
    match findLiveAllocation (← get) ptr with
    | none => return 0
    | some (hdr, owner) =>
      if size ≤ capacity (← get).mem hdr then
        modify fun h ↦ h.resize hdr owner size
        return ptr
      else
        let replacement ← mallocImpl os size
        if replacement = 0 then
          return 0
        else
          modify fun h ↦ { h with
            mem := ftMemcpy h.mem replacement ptr (h.copySize hdr owner) }
          freeImpl os ptr
          return replacement

/-- `callo_imp`. -/
def calloImp (os : OS) (nmemb size : Nat) : M Nat := do
  if nmemb ≠ 0 ∧ SIZE_MAX / nmemb < size then
    modify fun h ↦ { h with errno := ENOMEM }
    return 0
  else
    let total := nmemb * size % 2 ^ 64
    let ptr ← mallocImpl os total
    if ptr ≠ 0 then
      modify fun h ↦ { h with mem := ftMemset h.mem ptr 0#8 total }
    return ptr

/-! ## The public functions

Each takes the mutex, runs its implementation and releases the mutex.  `self` is the calling
thread. -/

/-- `ft_malloc`. -/
def ftMalloc (os : OS) (self size : Nat) : M Nat := do
  manageFreeMutexLock self
  let reptr ← mallocImpl os size
  manageFreeMutexUnlock
  return reptr

/-- `ft_free`. -/
def ftFree (os : OS) (self ptr : Nat) : M Unit := do
  manageFreeMutexLock self
  freeImpl os ptr
  manageFreeMutexUnlock

/-- `ft_realloc`. -/
def ftRealloc (os : OS) (self ptr size : Nat) : M Nat := do
  manageFreeMutexLock self
  let reptr ← reallocImpl os ptr size
  manageFreeMutexUnlock
  return reptr

/-- `ft_calloc2`. -/
def ftCalloc2 (os : OS) (self nmemb size : Nat) : M Nat := do
  manageFreeMutexLock self
  let reptr ← calloImp os nmemb size
  manageFreeMutexUnlock
  return reptr

/-- The arguments of a public call. -/
inductive Call
  | malloc (size : Nat)
  | free (ptr : Nat)
  | realloc (ptr size : Nat)
  | calloc (nmemb size : Nat)
  deriving DecidableEq, Repr

/-- What a public call runs between `lock` and `unlock`.  `free_impl` returns nothing, here `0`. -/
def Call.impl (os : OS) : Call → M Nat
  | .malloc size => mallocImpl os size
  | .free ptr => do freeImpl os ptr; return 0
  | .realloc ptr size => reallocImpl os ptr size
  | .calloc nmemb size => calloImp os nmemb size

/-- A public call by thread `self`. -/
def Call.run (os : OS) (self : Nat) : Call → M Nat
  | .malloc size => ftMalloc os self size
  | .free ptr => do ftFree os self ptr; return 0
  | .realloc ptr size => ftRealloc os self ptr size
  | .calloc nmemb size => ftCalloc2 os self nmemb size

end FtMalloc
