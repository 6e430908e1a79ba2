import FtMalloc.Headers
import FtMalloc.Lib.SameWrites

/-!
# Following the code once

Several facts about the allocator say that two runs of it keep in step, each in a sense of its own:
with one memory or another, with the mappings listed in one order or another, with one answer of
`sysconf` or another.  What such a sense has to be closed under is listed here, one rule for each
way the code is put together, and the functions are followed once for all of them.

* `MallocRules` — rules for a sense that is blind to memory; `malloc_impl` and `callo_imp` keep to
  any such sense.
* `CallRules` — rules for a sense that looks at memory; every implementation keeps to any such
  sense (`CallRules.impl`).
-/

set_option autoImplicit false

namespace FtMalloc

open ByteMemory CharMap

variable {os os' : OS} {m n m' n' : Memory}

/-! ## The same writes -/

theorem sameWrites_writeMeta (hw : SameWrites m n m' n') (ptr size position : Nat) :
    SameWrites m n (writeMeta m' ptr size position) (writeMeta n' ptr size position) :=
  ((hw.store _ _ _).store _ _ _).store _ _ _

theorem sameWrites_initHeaders (hw : SameWrites m n m' n') (ptr stride : Nat) :
    ∀ k, SameWrites m n (initHeaders ptr stride k m') (initHeaders ptr stride k n')
  | 0 => hw
  | k + 1 => sameWrites_writeMeta (sameWrites_initHeaders hw ptr stride k) _ _ _

theorem sameWrites_ftMemset (hw : SameWrites m n m' n') (ptr : Nat) (v : Byte) (k : Nat) :
    SameWrites m n (ftMemset m' ptr v k) (ftMemset n' ptr v k) := by
  rw [ftMemset_eq_fill, ftMemset_eq_fill]
  exact hw.fill _ _ _

/-! ## What the code does to the state -/

/-- The change is about the tables, `errno` and memory: it leaves the mutex and the page size in the
cache alone, and has nothing to do with the mappings and the log. -/
structure Inner (g : Heap → Heap) : Prop where
  mutex : ∀ h, (g h).mutex = h.mutex := by
    intro h; rfl
  cache : ∀ h, (g h).scPageSizeCache = h.scPageSizeCache := by
    intro h; rfl
  traffic : ∀ h l c,
      g { h with mapped := l, calls := c } = { g h with mapped := l, calls := c } := by
    intro h l c; rfl

/-- Such a change that does not look at memory, and writes the same to any two. -/
structure BlindInner (g : Heap → Heap) : Prop extends Inner g where
  mem : ∀ {h m n n'}, SameWrites m n h.mem n' →
      ∃ n'', g { h with mem := n' } = { g h with mem := n'' } ∧ SameWrites m n (g h).mem n'' := by
    intro h m n n' hw; exact ⟨n', rfl, hw⟩

theorem BlindInner.initTable : BlindInner Heap.initTable where
  mutex h := by rw [Heap.initTable]; split <;> rfl
  cache h := by rw [Heap.initTable]; split <;> rfl
  traffic h l c := by simp only [Heap.initTable]; split <;> rfl
  mem {h m n n'} hw := by
    refine ⟨n', ?_, ?_⟩
    · simp only [Heap.initTable]
      split <;> rfl
    · rw [Heap.initTable]
      split
      · exact hw
      · exact hw

/-- What is read of the state is neither the mappings nor the log. -/
def Untraced {α : Type} (f : Heap → α) : Prop := ∀ h l c, f { h with mapped := l, calls := c } = f h

/-- Nor is it memory. -/
def Unseen {α : Type} (f : Heap → α) : Prop :=
  ∀ h l c n, f { h with mapped := l, calls := c, mem := n } = f h

/-- The LARGE branch of `malloc_impl`, once there is a mapping at `ptr`. -/
def enterLarge (ptr size len : Nat) : M Nat := do
  initMetaData ptr len
  modify fun h ↦ { h with mem := setMetaClientSize h.mem ptr size }
  modify fun h ↦ { h with
    largeRequestSizes :=
      Function.update h.largeRequestSizes (metaPosition h.mem ptr % 2 ^ 64).toNat size }
  modify fun h ↦ { h with largeCnt := h.largeCnt + 1 }
  return ptr + METASIZE

/-! ## Code that does not look at memory -/

/-- `R` is closed under the ways in which code is put together that does not look at memory. -/
structure BlindRules (R : ∀ {α : Type}, M α → M α → Prop) : Prop where
  pure : ∀ {α : Type} (a : α), R (pure a) (pure a)
  printError : ∀ {α : Type} (str : String), R (printError str : M α) (printError str)
  bind : ∀ {α β : Type} {x y : M α} {f g : α → M β}, R x y → (∀ a, R (f a) (g a)) →
    R (x >>= f) (y >>= g)
  get_bind : ∀ {β : Type} {f g : Heap → M β}, Unseen g → (∀ h, R (f h) (g h)) →
    R (get >>= f) (get >>= g)
  modify : ∀ {g : Heap → Heap}, BlindInner g → R (modify g : M PUnit) (modify g)

namespace BlindRules

variable {R : ∀ {α : Type}, M α → M α → Prop}

theorem ite {α : Type} {c : Prop} [Decidable c] {x y x' y' : M α} (_ : BlindRules R) (hx : R x y)
    (hx' : R x' y') : R (if c then x else x') (if c then y else y') := by
  split
  · exact hx
  · exact hx'

theorem initMetaData (hR : BlindRules R) (ptr size : Nat) :
    R (initMetaData ptr size) (initMetaData ptr size) := by
  refine hR.ite (hR.modify ?_) (hR.ite (hR.modify ?_) (hR.ite (hR.modify ?_) (hR.printError _)))
  · exact { mem := fun hw ↦ ⟨_, rfl, sameWrites_initHeaders hw _ _ _⟩ }
  · exact { mem := fun hw ↦ ⟨_, rfl, sameWrites_initHeaders hw _ _ _⟩ }
  · exact { mem := fun hw ↦ ⟨_, rfl, sameWrites_writeMeta hw _ _ _⟩ }

theorem findFreeZone (hR : BlindRules R) (sizeType : Nat) :
    R (findFreeZone sizeType) (findFreeZone sizeType) := by
  have hslot : ∀ z, R (findFreeSlot z) (findFreeSlot z) := by
    refine fun z ↦ hR.get_bind (fun _ _ _ _ ↦ rfl) fun h ↦ ?_
    dsimp only
    split
    · exact hR.bind (hR.modify {}) fun _ ↦ hR.pure _
    · exact hR.pure _
  exact hR.ite (hslot _) (hR.ite (hslot _) (hR.pure _))

end BlindRules

/-- `R` is closed under what `malloc_impl` is put together from; `os` and `os'` may differ in what
`R` leaves open. -/
structure MallocRules (os os' : OS) (R : ∀ {α : Type}, M α → M α → Prop) : Prop
    extends BlindRules R where
  mmap : ∀ len, R (mmap os len) (mmap os' len)
  returnScPagesize : R (returnScPagesize os) (returnScPagesize os')
  enterLarge : ∀ ptr size len, R (enterLarge ptr size len) (enterLarge ptr size len)

namespace MallocRules

variable {R : ∀ {α : Type}, M α → M α → Prop}

theorem calculaterPageSize (hR : MallocRules os os' R) (size : Nat) :
    R (calculaterPageSize os size) (calculaterPageSize os' size) := by
  have hreserve : ∀ z page, R (reservePages z page) (reservePages z page) :=
    fun z page ↦ hR.bind (hR.modify {}) fun _ ↦ hR.pure _
  refine hR.get_bind (fun _ _ _ _ ↦ rfl) fun h ↦
    hR.ite (hR.pure _) (hR.bind hR.returnScPagesize fun page ↦ hR.ite ?_ ?_)
  · exact hR.bind (hR.modify {}) fun _ ↦ hR.pure _
  · exact hR.ite (hreserve _ _) (hR.ite (hreserve _ _) (hR.pure _))

theorem setupArena (hR : MallocRules os os' R) (z : Pool) :
    R (setupArena os z) (setupArena os' z) := by
  refine hR.get_bind (fun _ _ _ _ ↦ rfl) fun h ↦ hR.ite (hR.pure _)
    (hR.bind (hR.calculaterPageSize _) fun page ↦ hR.ite (hR.pure _) ?_)
  refine hR.bind (hR.mmap _) fun ptr ↦ hR.bind (hR.modify {}) fun _ ↦ hR.ite (hR.pure _) ?_
  exact hR.bind (hR.initMetaData ptr _) fun _ ↦ hR.bind (hR.modify {}) fun _ ↦ hR.pure _

theorem mallocPool (hR : MallocRules os os' R) (z : Pool) (size : Nat) :
    R (mallocPool os z size) (mallocPool os' z size) := by
  refine hR.bind (hR.setupArena z) fun b ↦ hR.ite ?_ (hR.pure _)
  refine hR.bind (hR.findFreeZone _) fun zone ↦ hR.ite (hR.pure _)
    (hR.get_bind (fun _ _ _ _ ↦ rfl) fun h ↦ hR.bind (hR.modify ?_) fun _ ↦ hR.pure _)
  exact { mem := fun hw ↦ ⟨_, rfl, hw.store _ _ _⟩ }

theorem mallocLarge (hR : MallocRules os os' R) (size : Nat) :
    R (mallocLarge os size) (mallocLarge os' size) := by
  have hfrom : ∀ page, R (mallocLargeFrom os size page) (mallocLargeFrom os' size page) :=
    fun page ↦ hR.ite (hR.pure _) (hR.bind (hR.mmap _) fun ptr ↦
      hR.ite (hR.pure _) (hR.enterLarge ptr size _))
  refine hR.get_bind (fun _ _ _ _ ↦ rfl) fun h ↦
    hR.ite (hR.bind (hR.modify .initTable) fun _ ↦ hR.ite ?_ ?_) (hR.pure _)
  · exact hR.bind (hR.modify {}) fun _ ↦ hR.pure _
  · exact hR.bind (hR.calculaterPageSize _) hfrom

/-- **`malloc_impl` keeps to `R`.** -/
theorem mallocImpl (hR : MallocRules os os' R) (size : Nat) :
    R (mallocImpl os size) (mallocImpl os' size) :=
  hR.ite (hR.mallocPool _ _) (hR.ite (hR.mallocPool _ _) (hR.mallocLarge _))

theorem calloImp (hR : MallocRules os os' R) (nmemb size : Nat) :
    R (calloImp os nmemb size) (calloImp os' nmemb size) := by
  refine hR.ite (hR.bind (hR.modify {}) fun _ ↦ hR.pure _) ?_
  refine hR.bind (hR.mallocImpl _) fun ptr ↦ ?_
  split
  · refine hR.bind (hR.modify ?_) fun _ ↦ hR.pure _
    exact { mem := fun hw ↦ ⟨_, rfl, sameWrites_ftMemset hw _ _ _⟩ }
  · exact hR.pure _

end MallocRules

/-! ## Code that looks at memory -/

/-- `R` is closed under what the implementations are put together from, whatever they read of
memory. -/
structure CallRules (os os' : OS) (R : ∀ {α : Type}, M α → M α → Prop) : Prop where
  pure : ∀ {α : Type} (a : α), R (pure a) (pure a)
  printError : ∀ {α : Type} (str : String), R (printError str : M α) (printError str)
  bind : ∀ {α β : Type} {x y : M α} {f g : α → M β}, R x y → (∀ a, R (f a) (g a)) →
    R (x >>= f) (y >>= g)
  get_bind : ∀ {β : Type} {f g : Heap → M β}, Untraced g → (∀ h, R (f h) (g h)) →
    R (get >>= f) (get >>= g)
  modify : ∀ {g : Heap → Heap}, Inner g → R (modify g : M PUnit) (modify g)
  mmap : ∀ len, R (mmap os len) (mmap os' len)
  munmap : ∀ addr len, R (munmap os addr len) (munmap os' addr len)
  returnScPagesize : R (returnScPagesize os) (returnScPagesize os')

namespace CallRules

variable {R : ∀ {α : Type}, M α → M α → Prop}

theorem blind (hR : CallRules os os' R) : BlindRules R where
  pure := hR.pure
  printError := hR.printError
  bind := hR.bind
  get_bind hg := hR.get_bind fun h l c ↦ hg h l c h.mem
  modify hg := hR.modify hg.toInner

theorem malloc (hR : CallRules os os' R) : MallocRules os os' R where
  toBlindRules := hR.blind
  mmap := hR.mmap
  returnScPagesize := hR.returnScPagesize
  enterLarge ptr size len :=
    hR.bind (hR.blind.initMetaData ptr len) fun _ ↦ hR.bind (hR.modify {}) fun _ ↦
      hR.bind (hR.modify {}) fun _ ↦ hR.bind (hR.modify {}) fun _ ↦ hR.pure _

theorem freeImpl (hR : CallRules os os' R) (ptr : Nat) :
    R (freeImpl os ptr) (freeImpl os' ptr) := by
  refine hR.get_bind (fun _ _ _ ↦ rfl) fun h ↦ ?_
  split
  · exact hR.pure _
  · split
    · exact hR.modify {}
    · exact hR.get_bind (fun _ _ _ ↦ rfl) fun h ↦ hR.bind (hR.munmap _ _) fun b ↦
        hR.blind.ite (hR.modify {}) (hR.printError _)

theorem reallocImpl (hR : CallRules os os' R) (ptr size : Nat) :
    R (reallocImpl os ptr size) (reallocImpl os' ptr size) := by
  refine hR.blind.ite (hR.malloc.mallocImpl size)
    (hR.blind.ite (hR.bind (hR.freeImpl ptr) fun _ ↦ hR.pure _) ?_)
  refine hR.get_bind (fun _ _ _ ↦ rfl) fun h ↦ ?_
  split
  · exact hR.pure _
  · refine hR.get_bind (fun _ _ _ ↦ rfl) fun h ↦
      hR.blind.ite (hR.bind (hR.modify {}) fun _ ↦ hR.pure _) ?_
    refine hR.bind (hR.malloc.mallocImpl size) fun r ↦ hR.blind.ite (hR.pure _) ?_
    exact hR.bind (hR.modify {}) fun _ ↦ hR.bind (hR.freeImpl ptr) fun _ ↦ hR.pure _

/-- **Every implementation keeps to `R`.** -/
theorem impl (hR : CallRules os os' R) (call : Call) : R (call.impl os) (call.impl os') := by
  cases call with
  | malloc size => exact hR.malloc.mallocImpl size
  | free ptr => exact hR.bind (hR.freeImpl ptr) fun _ ↦ hR.pure _
  | realloc ptr size => exact hR.reallocImpl ptr size
  | calloc nmemb size => exact hR.malloc.calloImp nmemb size

end CallRules

end FtMalloc
