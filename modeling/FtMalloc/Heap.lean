import Mathlib.Logic.Function.Basic
import FtMalloc.Lib.Memory
import FtMalloc.Lib.Region
import FtMalloc.Lib.Bitmap

/-!
# The state of the allocator

The constants of `ft_malloc.h`, the state every function of `ft_malloc.c` reads and writes, and
the monad the functions are written in.

* **Two pools.**  The TINY and SMALL halves of the program are the same code over different
  variables (`_tiny` and `_small`, `tiny[16]` and `small[16]`, `tiny_flag` and `small_flag`,
  `flag_tiny` and `flag_small`).  `Pool` names the half, and each such pair of variables is one
  field of `Heap` indexed by it.
* **Numbers.**  Addresses and `size_t` values are natural numbers; where the program computes
  with a wrap, a mask or a sign (page sizes, flags, bitmaps, header fields) the value is a bit
  vector of the width it has in C.
* **Memory.**  Headers live in memory in front of the payloads, as the 16 bytes of a `METADATA_t`:
  `size` at offset 0, `position` at 8, `client_size` at 12.
* **Control.**  `M` is state and abrupt end: `print_error` calls `exit`, which is
  `throw (Halt.exit …)` and keeps the state it happened in.
-/

set_option autoImplicit false

namespace FtMalloc

open ByteMemory

/-! ## Constants -/

/-- `TINY`, the stride of the TINY arena. -/
def TINY : Nat := 0x60

/-- `SMALL`, the stride of the SMALL arena. -/
def SMALL : Nat := 0x200

/-- `METASIZE`, which is also `sizeof(METADATA_t)`. -/
def METASIZE : Nat := 0x10

/-- `INDEX_MASK`, the bits of a pool header's `size` that hold the bitmap byte. -/
def INDEX_MASK : Nat := 0x0F

/-- `POS_MASK`. -/
def POS_MASK : Nat := 0x07

/-- `MAP_FAILED`, that is `(void *) -1`. -/
def MAP_FAILED : Nat := 0xFFFFFFFFFFFFFFFF

/-- `SIZE_MAX`. -/
def SIZE_MAX : Nat := 0xFFFFFFFFFFFFFFFF

/-- `LONG_MAX`. -/
def LONG_MAX : Nat := 0x7FFFFFFFFFFFFFFF

/-- `ENOMEM`. -/
def ENOMEM : Nat := 12

/-- The two arenas of fixed-size slots. -/
inductive Pool
  | tiny
  | small
  deriving DecidableEq, Repr

/-- The size type of a pool, `TINY` or `SMALL`: the length of one of its slots. -/
def Pool.stride : Pool → Nat
  | .tiny => TINY
  | .small => SMALL

/-! ## The operating system -/

/-- What the operating system answers to the system calls of one public call.  No public call
makes more than one `mmap`. -/
structure OS where
  /-- The `long` that `sysconf(_SC_PAGESIZE)` answers, `-1` on failure. -/
  sysconf : Int
  /-- Where `mmap` places the mapping, if it is willing to make one. -/
  mmap : Option Nat
  /-- Does `munmap` succeed? -/
  munmap : Bool
  deriving DecidableEq, Repr

/-- The page size as `int flag = sysconf(_SC_PAGESIZE)` receives it. -/
def OS.page (os : OS) : BitVec 32 := BitVec.ofInt 32 os.sysconf

/-- A system call, with its answer. -/
inductive Syscall
  /-- `mmap` of `len` bytes, answered by an address or by `MAP_FAILED`. -/
  | mmap (len : Nat) (answer : Option Nat)
  /-- `munmap` of `len` bytes from `addr` on. -/
  | munmap (addr len : Nat) (ok : Bool)
  deriving DecidableEq, Repr

/-! ## The state -/

/-- Everything the allocator reads and writes: `manage_free`, the other file-scope and static
variables, the memory of the process and its mappings. -/
structure Heap where
  /-- `manage_free._tiny` and `manage_free._small`. -/
  base : Pool → Nat
  /-- `manage_free.tiny` and `manage_free.small`, arrays of 16 `char`. -/
  bitmap : Pool → CharMap.Map
  /-- `manage_free.large`, an array of 101 addresses. -/
  large : Nat → Nat
  /-- `manage_free.large_cnt`. -/
  largeCnt : Int
  /-- `large_request_sizes`, an array of 101 `size_t`. -/
  largeRequestSizes : Nat → Nat
  /-- `_sc_page_size_cache`, a static `long` of `return_sc_pagesize`. -/
  scPageSizeCache : BitVec 64
  /-- `flag_tiny` and `flag_small`, static `int`s of `calculater_page_size`. -/
  pageFlag : Pool → BitVec 32
  /-- `tiny_flag` and `small_flag`, static truth values of `malloc_impl`. -/
  poolFlag : Pool → Bool
  /-- `large_flag`, a static truth value of `malloc_impl`. -/
  largeFlag : Bool
  /-- `errno` of the calling thread. -/
  errno : Nat
  /-- The thread that holds `manage_free_mutex`. -/
  mutex : Option Nat
  /-- The memory of the process. -/
  mem : Memory
  /-- The mappings the process has obtained through the allocator and not given back. -/
  mapped : List Region
  /-- The system calls made so far, most recent first. -/
  calls : List Syscall

/-- The state the library is loaded in: every variable is zero.  What the memory of the process
holds is not the allocator's business. -/
def Heap.initial (mem : Memory) : Heap where
  base := fun _ ↦ 0
  bitmap := fun _ _ ↦ 0#8
  large := fun _ ↦ 0
  largeCnt := 0
  largeRequestSizes := fun _ ↦ 0
  scPageSizeCache := 0#64
  pageFlag := fun _ ↦ 0#32
  poolFlag := fun _ ↦ false
  largeFlag := false
  errno := 0
  mutex := none
  mem := mem
  mapped := []
  calls := []

/-! ## Headers -/

/-- A wider number as an `int` holds it: its low 32 bits, the top one of them as the sign. -/
def asInt (i : Int) : Int := (BitVec.ofInt 32 i).toInt

/-- `meta->size`. -/
def metaSize (m : Memory) (p : Nat) : Nat := load m p 8

/-- `meta->position`, a signed `char`. -/
def metaPosition (m : Memory) (p : Nat) : Int := (m (p + 8)).toInt

/-- `meta->client_size`, an `int`. -/
def metaClientSize (m : Memory) (p : Nat) : Int := (BitVec.ofNat 32 (load m (p + 12) 4)).toInt

/-- `meta->size = v`. -/
def setMetaSize (m : Memory) (p v : Nat) : Memory := store m p 8 v

/-- `meta->position = v`. -/
def setMetaPosition (m : Memory) (p v : Nat) : Memory := store m (p + 8) 1 v

/-- `meta->client_size = v`. -/
def setMetaClientSize (m : Memory) (p v : Nat) : Memory := store m (p + 12) 4 v

/-- The three assignments that fill in a fresh header. -/
def writeMeta (m : Memory) (p size position : Nat) : Memory :=
  setMetaClientSize (setMetaPosition (setMetaSize m p size) p position) p 0

/-! ## The monad -/

/-- The ways a call can fail to come back. -/
inductive Halt
  /-- `print_error` was called, and has called `exit`. -/
  | exit (str : String)
  /-- `pthread_mutex_lock` was called while `holder` has the mutex. -/
  | blocked (holder : Nat)
  deriving DecidableEq, Repr

/-- A piece of the program: it reads and changes the state, and returns a value or halts. -/
abbrev M := EStateM Halt Heap

section Apply

variable {α β : Type} (h : Heap)

@[simp] theorem pure_apply (a : α) : (pure a : M α) h = .ok a h := rfl

@[simp] theorem bind_apply (x : M α) (f : α → M β) :
    (x >>= f) h = match x h with
      | .ok a h' => f a h'
      | .error e h' => .error e h' := by
  show EStateM.bind x f h = _
  unfold EStateM.bind
  cases x h <;> rfl

/-- A sequence whose first part returns goes on with its second. -/
theorem bind_ok {x : M α} {a : α} {h h' : Heap} (hx : x h = .ok a h') (f : α → M β) :
    (x >>= f) h = f a h' := by
  rw [bind_apply, hx]

/-- A sequence whose first part halts has halted. -/
theorem bind_error {x : M α} {e : Halt} {h h' : Heap} (hx : x h = .error e h') (f : α → M β) :
    (x >>= f) h = .error e h' := by
  rw [bind_apply, hx]

theorem get_bind (f : Heap → M β) : ((get : M Heap) >>= f) h = f h h := rfl

theorem modify_bind (g : Heap → Heap) (f : PUnit → M β) :
    ((modify g : M PUnit) >>= f) h = f ⟨⟩ (g h) := rfl

@[simp] theorem get_apply : (get : M Heap) h = .ok h h := rfl

@[simp] theorem set_apply (h' : Heap) : (set h' : M PUnit) h = .ok ⟨⟩ h' := rfl

@[simp] theorem modify_apply (f : Heap → Heap) : (modify f : M PUnit) h = .ok ⟨⟩ (f h) := rfl

@[simp] theorem throw_apply (e : Halt) : (throw e : M α) h = .error e h := rfl

@[simp] theorem ite_apply_heap (c : Prop) [Decidable c] (x y : M α) :
    (if c then x else y) h = if c then x h else y h := by
  split <;> rfl

end Apply

/-! ## System calls and the mutex -/

/-- `print_error`: report on descriptor 2 and `exit(EXIT_FAILURE)`. -/
def printError {α : Type} (str : String) : M α := throw (.exit str)

/-- The kernel only ever places a mapping of `len` bytes at a non-null multiple of the page size,
and so of 16, apart from everything that is still mapped. -/
def Grants (mapped : List Region) (len base : Nat) : Prop :=
  0 < len ∧ 0 < base ∧ 16 ∣ base ∧ base + len ≤ 2 ^ 64 ∧ ∀ r ∈ mapped, r.Apart ⟨base, len⟩

instance (mapped : List Region) (len base : Nat) : Decidable (Grants mapped len base) :=
  inferInstanceAs (Decidable (_ ∧ _ ∧ _ ∧ _ ∧ _))

/-- The answer `mmap` gives to a request for `len` bytes. -/
def OS.answer (os : OS) (mapped : List Region) (len : Nat) : Option Nat :=
  os.mmap.filter fun base ↦ Grants mapped len base

/-- The state after a successful `mmap`: the new mapping is there and reads as zero. -/
def Heap.map (h : Heap) (base len : Nat) : Heap :=
  { h with
    mem := fill h.mem base len 0#8
    mapped := ⟨base, len⟩ :: h.mapped
    calls := .mmap len (some base) :: h.calls }

/-- The state after a failed `mmap`. -/
def Heap.refuse (h : Heap) (len : Nat) : Heap :=
  { h with errno := ENOMEM, calls := .mmap len none :: h.calls }

/-- `mmap(NULL, len, PROT_READ | PROT_WRITE, MAP_ANONYMOUS | MAP_PRIVATE, -1, 0)`. -/
def mmap (os : OS) (len : Nat) : M Nat := do
  match os.answer (← get).mapped len with
  | some base =>
    modify fun h ↦ h.map base len
    return base
  | none =>
    modify fun h ↦ h.refuse len
    return MAP_FAILED

/-- `munmap(addr, len)`; `false` is the answer `-1`. -/
def munmap (os : OS) (addr len : Nat) : M Bool := do
  modify fun h ↦ { h with
    mapped := if os.munmap then Region.punch ⟨addr, len⟩ h.mapped else h.mapped
    calls := .munmap addr len os.munmap :: h.calls }
  return os.munmap

/-- `manage_free_mutex_lock`, called by thread `self`.  The mutex is a plain one: whoever holds
it, the caller included, has to release it first. -/
def manageFreeMutexLock (self : Nat) : M Unit := do
  match (← get).mutex with
  | none => modify fun h ↦ { h with mutex := some self }
  | some holder => throw (.blocked holder)

/-- `manage_free_mutex_unlock`. -/
def manageFreeMutexUnlock : M Unit := modify fun h ↦ { h with mutex := none }

end FtMalloc
