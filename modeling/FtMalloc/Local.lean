import FtMalloc.Alike
import FtMalloc.ExitPaths
import FtMalloc.Threads

/-!
# What a call sees of memory

The allocator shares its memory with its clients: headers stand between the payloads.  Here each
function is run from two memories side by side (`Heap.Beside`).  `malloc` and `calloc` see nothing
of memory, `free` sees the size in the header of the LARGE block it is given, and `realloc` sees the
size in the header of its block and, when the block moves, the bytes it copies and how many they are
(`Heap.Reads`).  Whatever else memory holds, the answer is the same and so are the writes
(`call_local`).

So a write to a live block may be done before or after any call that is not about that block: the
answers, the blocks and every byte come out the same (`writes_commute`).
-/

set_option autoImplicit false

namespace FtMalloc

open ByteMemory CharMap

variable {pl : Platform} {os : OS} {h h' h₁ : Heap} {m n m' n' : Memory} {p k r t : Nat} {s : Slot}
  {c : Cell} {call : Call}

/-! ## Two memories -/

/-- The two states are the same but for memory, and the same was written to both since memory was
`m` for the one and `n` for the other. -/
def Heap.Beside (m n : Memory) (h h' : Heap) : Prop :=
  ∃ n', h' = { h with mem := n' } ∧ SameWrites m n h.mem n'

theorem Heap.Beside.start (h : Heap) (n : Memory) : h.Beside h.mem n { h with mem := n } :=
  ⟨n, rfl, .refl _ _⟩

/-- A change of the state that has nothing to do with memory. -/
theorem Heap.Beside.map {g : Heap → Heap}
    (hg : ∀ h n, g { h with mem := n } = { g h with mem := n })
    (hb : h.Beside m n h') : (g h).Beside m n (g h') := by
  obtain ⟨n', rfl, hw⟩ := hb
  have hself := congrArg Heap.mem (hg h h.mem)
  have hkeep : (g h).mem = h.mem := hself
  exact ⟨n', hg h n', hkeep ▸ hw⟩

/-- Where the memories agreed at first, they still do. -/
theorem Heap.Beside.agree (hb : h.Beside m n h') (hag : Agree m n p k) :
    Agree h.mem h'.mem p k := by
  obtain ⟨n', rfl, hw⟩ := hb
  exact hw.agree hag

/-! ## The functions of the program -/

/-- `x` sees nothing of memory. -/
def Blind {α : Type} (x : M α) : Prop := ∀ m n, Together (Heap.Beside m n) x x

namespace Blind

variable {α β : Type} {x y : M α} {f : α → M β}

theorem pure (a : α) : Blind (pure a) := fun _ _ ↦ Together.pure a

theorem printError (str : String) : Blind (printError str : M α) := fun _ _ ↦ Together.throw _

theorem modify {g : Heap → Heap} (hg : ∀ h n, g { h with mem := n } = { g h with mem := n }) :
    Blind (modify g : M PUnit) := fun _ _ ↦ Together.modify fun _ _ hb ↦ hb.map hg

theorem bind (hx : Blind x) (hf : ∀ a, Blind (f a)) : Blind (x >>= f) :=
  fun m n ↦ Together.bind (hx m n) fun a ↦ hf a m n

theorem get_bind {f g : Heap → M β} (hg : ∀ h n, g { h with mem := n } = g h)
    (hf : ∀ h m n, Together (Heap.Beside m n) (f h) (g h)) (m n : Memory) :
    Together (Heap.Beside m n) (get >>= f) (get >>= g) :=
  Together.get_bind fun h _ ⟨n', he, _⟩ ↦ by
    rw [he, hg h n']
    exact hf h m n

theorem ite {c : Prop} [Decidable c] (hx : Blind x) (hy : Blind y) :
    Blind (if c then x else y) := fun m n ↦ Together.ite (hx m n) (hy m n)

theorem mmap (os : OS) (len : Nat) : Blind (mmap os len) := by
  refine get_bind (fun _ _ ↦ rfl) fun h ↦ ?_
  split
  · refine bind (fun m n ↦ Together.modify ?_) fun _ ↦ pure _
    rintro h _ ⟨n', rfl, hw⟩
    exact ⟨_, rfl, hw.fill _ _ _⟩
  · exact bind (modify fun _ _ ↦ rfl) fun _ ↦ pure _

theorem munmap (os : OS) (addr len : Nat) : Blind (munmap os addr len) :=
  bind (modify fun _ _ ↦ rfl) fun _ ↦ pure _

theorem returnScPagesize (os : OS) : Blind (returnScPagesize os) := by
  refine get_bind (fun _ _ ↦ rfl) fun h ↦ ite (ite (printError _) ?_) ?_
  · exact bind (modify fun _ _ ↦ rfl) fun _ ↦ get_bind (fun _ _ ↦ rfl) fun _ ↦ pure _
  · exact get_bind (fun _ _ ↦ rfl) fun _ ↦ pure _

/-- To be blind is closed under the ways in which code is put together. -/
theorem blindRules : BlindRules fun x y ↦ ∀ m n, Together (Heap.Beside m n) x y where
  pure := pure
  printError := printError
  bind hx hf m n := Together.bind (hx m n) fun a ↦ hf a m n
  get_bind hg hf := get_bind (fun h n ↦ hg h h.mapped h.calls n) hf
  modify hg m n := Together.modify fun h _ ⟨n', he, hw⟩ ↦ by
    rw [he]
    exact hg.mem hw

end Blind

/-- The position that a fresh header holds does not depend on what was there before. -/
theorem metaPosition_writeMeta_congr (m n : Memory) (ptr size position : Nat) :
    metaPosition (writeMeta n ptr size position) ptr
      = metaPosition (writeMeta m ptr size position) ptr := by
  simp [metaPosition, writeMeta, setMetaClientSize, setMetaPosition, store]

theorem metaPosition_initHeaders_congr (m n : Memory) (ptr : Nat) (z : Pool) :
    metaPosition (initHeaders ptr z.stride 100 n) ptr
      = metaPosition (initHeaders ptr z.stride 100 m) ptr := by
  have hz := z.stride_bounds
  have hfirst : ∀ m, metaPosition (initHeaders ptr z.stride 100 m) ptr
      = ((0 &&& POS_MASK : Nat) : Int) :=
    fun m ↦ (initHeaders_spec (by omega) (by rw [SMALL] at hz; omega) 100 (by omega) 0 (by omega)).2
  rw [hfirst, hfirst]

/-- `init_meta_data` leaves the same position in front, whatever memory held before. -/
theorem initMetaData_header {ptr size : Nat} {n : Memory} {u : Unit}
    (hrun : initMetaData ptr size h = .ok u h₁)
    (hrun' : initMetaData ptr size { h with mem := n } = .ok u h') :
    metaPosition h'.mem ptr = metaPosition h₁.mem ptr := by
  rw [initMetaData] at hrun hrun'
  split at hrun <;> rename_i htiny
  · rw [if_pos htiny] at hrun'
    cases hrun
    cases hrun'
    exact metaPosition_initHeaders_congr _ _ ptr .tiny
  rw [if_neg htiny] at hrun'
  split at hrun <;> rename_i hsmall
  · rw [if_pos hsmall] at hrun'
    cases hrun
    cases hrun'
    exact metaPosition_initHeaders_congr _ _ ptr .small
  rw [if_neg hsmall] at hrun'
  split at hrun <;> rename_i hlarge
  · rw [if_pos hlarge] at hrun'
    cases hrun
    cases hrun'
    exact metaPosition_writeMeta_congr _ _ ptr _ _
  · cases hrun

theorem Blind.enterLarge (ptr size len : Nat) : Blind (enterLarge ptr size len) := by
  rintro m n h₀ _ ⟨n₀, rfl, hw₀⟩
  refine (Blind.blindRules.initMetaData ptr len m n _ _ ⟨n₀, rfl, hw₀⟩).bind ?_
  rintro _ h _ hrun hrun' ⟨n', rfl, hw⟩
  -- the entry of the side table is the one the header was given
  have hsame : metaPosition (setMetaClientSize n' ptr size) ptr
      = metaPosition (setMetaClientSize h.mem ptr size) ptr := by
    rw [metaPosition_congr (agree_setMetaClientSize size (by omega)),
      metaPosition_congr (agree_setMetaClientSize size (by omega))]
    exact initMetaData_header hrun hrun'
  refine .ok _ ⟨_, ?_, hw.store _ _ _⟩
  simp only [hsame]
  rfl

theorem Blind.rules (os : OS) :
    MallocRules os os fun x y ↦ ∀ m n, Together (Heap.Beside m n) x y where
  toBlindRules := Blind.blindRules
  mmap := Blind.mmap os
  returnScPagesize := Blind.returnScPagesize os
  enterLarge := Blind.enterLarge

/-- **`malloc_impl` sees nothing of memory.** -/
theorem Blind.mallocImpl (os : OS) (size : Nat) : Blind (mallocImpl os size) :=
  (Blind.rules os).mallocImpl size

theorem Blind.calloImp (os : OS) (nmemb size : Nat) : Blind (calloImp os nmemb size) :=
  (Blind.rules os).calloImp nmemb size

/-! ## What `free` and `realloc` see -/

/-- The call reads the byte at `a`.  `free` reads `size` in the header of a LARGE block, and so
does `realloc` to nothing; any other `realloc` reads `size` in the header of its block.  When it has
to move the block, and gets a new one, it also reads `client_size` of a TINY or SMALL block, and the
bytes it copies. -/
inductive Heap.Reads (pl : Platform) (os : OS) (h : Heap) (a : Nat) : Call → Prop
  | free {p i : Nat} {c : Cell} (hc : h.cell (.large i) = some c) (hp : c.ptr = p)
      (hle : p ≤ a + METASIZE) (hlt : a + 8 < p) : Reads pl os h a (.free p)
  | size {p n : Nat} {s : Slot} {c : Cell} (hc : h.cell s = some c) (hp : c.ptr = p)
      (hn : n ≠ 0 ∨ ∃ i, s = .large i) (hle : p ≤ a + METASIZE) (hlt : a + 8 < p) :
      Reads pl os h a (.realloc p n)
  | clientSize {p n k : Nat} {z : Pool} {c : Cell} (hc : h.cell (.pool z k) = some c)
      (hp : c.ptr = p) (hbig : c.room < n) (hserves : h.Serves pl os n) (hle : p ≤ a + 4)
      (hlt : a < p) : Reads pl os h a (.realloc p n)
  | payload {p n : Nat} {s : Slot} {c : Cell} (hc : h.cell s = some c) (hp : c.ptr = p)
      (hbig : c.room < n) (hserves : h.Serves pl os n) (hle : p ≤ a) (hlt : a < p + c.size) :
      Reads pl os h a (.realloc p n)

/-- What is read is in the header and the payload of the block that the call names. -/
theorem Heap.Reads.within {a : Nat} (ha : h.Reads pl os a call) : ∃ s c, h.cell s = some c ∧
    call.names = some c.ptr ∧ c.ptr ≤ a + METASIZE ∧ a < c.ptr + c.size := by
  cases ha with
  | free hc hp hle hlt => exact ⟨_, _, hc, congrArg some hp.symm, by omega, by omega⟩
  | size hc hp hn hle hlt => exact ⟨_, _, hc, congrArg some hp.symm, by omega, by omega⟩
  | clientSize hc hp hbig hserves hle hlt =>
    exact ⟨_, _, hc, congrArg some hp.symm, by rw [METASIZE]; omega, by omega⟩
  | payload hc hp hbig hserves hle hlt =>
    exact ⟨_, _, hc, congrArg some hp.symm, by omega, by omega⟩

/-- `free_impl` sees the size in the header of a LARGE block. -/
theorem freeImpl_beside (hb : h.Beside m n h')
    (hsize : ∀ hdr i, findLiveAllocation h p = some (hdr, ⟨none, i⟩) →
      metaSize h'.mem hdr = metaSize h.mem hdr) :
    EndsTogether (Heap.Beside m n) (freeImpl os p h) (freeImpl os p h') := by
  obtain ⟨n', rfl, hw⟩ := hb
  have hsame : findLiveAllocation { h with mem := n' } p = findLiveAllocation h p := rfl
  rw [freeImpl, get_bind, get_bind, hsame]
  cases hfind : findLiveAllocation h p with
  | none => exact .ok _ ⟨n', rfl, hw⟩
  | some found =>
    obtain ⟨hdr, bitmap, i⟩ := found
    cases bitmap with
    | some z => exact .ok _ ⟨n', rfl, hw⟩
    | none =>
      have hlen := hsize hdr i hfind
      dsimp only at hlen ⊢
      rw [get_bind, get_bind, hlen]
      refine (Blind.munmap os hdr (metaSize h.mem hdr) m n _ _ ⟨n', rfl, hw⟩).bind ?_
      rintro ok h₁ h₁' - - hb₁
      exact (Blind.ite (.modify fun _ _ ↦ rfl) (.printError _)) m n _ _ hb₁

/-- `free_impl` of a cell whose header is the same in both memories. -/
theorem Heap.WF.freeImpl_beside (hi : h.WF pl) (hb : h.Beside m n h')
    (hag : ∀ i c, h.cell (.large i) = some c → c.ptr = p →
      Agree h.mem h'.mem (h.extent (.large i)).base 8) :
    EndsTogether (Heap.Beside m n) (freeImpl os p h) (freeImpl os p h') := by
  refine FtMalloc.freeImpl_beside hb fun hdr i hfind ↦ ?_
  obtain ⟨s, c, hc, hp, rfl, hs⟩ := hi.findLiveAllocation_eq_some.mp hfind
  cases s with
  | pool z k => exact absurd hs (by simp [Slot.allocationOwner])
  | large j => exact (hag j c hc hp).load

/-- What `realloc_impl` copies, and how much, is the same in both memories. -/
theorem Heap.Beside.copied (hb : h.Beside m n h') {hdr src : Nat} {owner : AllocationOwner}
    (hlen : h.copySize hdr owner = k)
    (hhdr : ∀ z, owner.bitmap = some z → Agree h.mem h'.mem (hdr + 12) 4) (dest : Nat)
    (hsrc : Agree h.mem h'.mem src k) (hap : src + k ≤ dest ∨ dest + k ≤ src) :
    { h with mem := ftMemcpy h.mem dest src (h.copySize hdr owner) } = h.copyTo dest src k ∧
      (h.copyTo dest src k).Beside m n
        { h' with mem := ftMemcpy h'.mem dest src (h'.copySize hdr owner) } := by
  obtain ⟨n', rfl, hw⟩ := hb
  have hlen' : ({ h with mem := n' } : Heap).copySize hdr owner = k := by
    rw [← hlen, Heap.copySize, Heap.copySize]
    cases howner : owner.bitmap with
    | none => rw [if_pos rfl, if_pos rfl]
    | some z => rw [if_neg (by simp), if_neg (by simp), metaClientSize_congr (hhdr z howner)]
  rw [hlen', hlen, ftMemcpy_eq_copy _ _ _ (Nat.le_refl _) hap,
    ftMemcpy_eq_copy _ _ _ (Nat.le_refl _) hap]
  exact ⟨rfl, _, rfl, hw.copy hsrc dest⟩

/-- The moving half of `realloc_impl` sees nothing unless it gets a new block. -/
theorem Heap.WF.reallocMove_beside (hos : os.On pl) (hi : h.WF pl) (hc : h.cell s = some c)
    (hbig : c.room < k) (hag : ∀ a, h.Reads pl os a (.realloc c.ptr k) → n a = h.mem a) :
    EndsTogether (Heap.Beside h.mem n)
      (reallocMove os c.ptr k (h.extent s).base s.allocationOwner h)
      (reallocMove os c.ptr k (h.extent s).base s.allocationOwner { h with mem := n }) := by
  have hptr := (hi.extent_of_cell hc).1
  rw [reallocMove]
  refine (Blind.mallocImpl os k h.mem n _ _ (.start h n)).bind ?_
  rintro r h₁ h₁' hrun - hb₁
  obtain ⟨_, _, hrun', hm⟩ := mallocImpl_step hos hi k
  cases hrun.symm.trans hrun'
  rw [reqSize_eq (by omega)] at hm
  by_cases hr : r = 0
  · rw [if_pos hr]
    exact .ok _ hb₁
  rw [if_neg hr, modify_bind, modify_bind]
  obtain ⟨s', c', -, -, -, rfl, -, hle, hb, hcs, hcs', hap⟩ := hm.copy_spec hi hc hbig hr
  have hptr₁ := (hb.wf.extent_of_cell hcs).1
  have hcr := (hi.cell_size_le hc).2
  have hlen : h₁.copySize (h.extent s).base s.allocationOwner = c.size := by
    have hext : (h.extent s).base = (h₁.extent s).base := by omega
    rw [hext, hb.wf.copySize_eq hcs]
  have hserves := hm.serves_iff.mpr hr
  have hhdr : ∀ z, s.allocationOwner.bitmap = some z →
      Agree h₁.mem h₁'.mem ((h.extent s).base + 12) 4 := by
    intro z howner
    refine hb₁.agree fun a h1 h2 ↦ hag a ?_
    rw [METASIZE] at hptr
    cases s with
    | pool z k => exact .clientSize hc rfl hbig hserves (by omega) (by omega)
    | large i => exact absurd howner (by simp [Slot.allocationOwner])
  have hsrc : Agree h₁.mem h₁'.mem c.ptr c.size :=
    hb₁.agree fun a h1 h2 ↦ hag a (.payload hc rfl hbig hserves h1 h2)
  have hapart : c.ptr + c.size ≤ c'.ptr ∨ c'.ptr + c.size ≤ c.ptr := by
    simp only [Region.Apart, Cell.payload] at hap
    omega
  -- the first run has got to a state that is well formed
  obtain ⟨hcopied, hb₂⟩ := hb₁.copied hlen hhdr c'.ptr hsrc hapart
  rw [hcopied]
  have hwf := (hb.wf.copyTo hcs' (by omega : c.size ≤ c'.room) c.ptr).1
  refine (hwf.freeImpl_beside hb₂ fun i d hd hp ↦ ?_).bind fun _ _ _ _ _ hb₃ ↦ .ok _ hb₃
  have hptr₂ := (hwf.extent_of_cell hd).1
  refine hb₂.agree fun a h1 h2 ↦ hag a (.size hc rfl (.inl (by omega)) (by omega) ?_)
  rw [METASIZE] at hptr₂
  omega

/-- `realloc_impl`. -/
theorem Heap.WF.reallocImpl_beside (hos : os.On pl) (hi : h.WF pl)
    (hag : ∀ a, h.Reads pl os a (.realloc p k) → n a = h.mem a) :
    EndsTogether (Heap.Beside h.mem n) (reallocImpl os p k h)
      (reallocImpl os p k { h with mem := n }) := by
  have hsame : findLiveAllocation { h with mem := n } p = findLiveAllocation h p := rfl
  by_cases hp : p = 0
  · rw [reallocImpl, if_pos hp]
    exact Blind.mallocImpl os k h.mem n _ _ (.start h n)
  rcases hi.stray_or_cell p with hstray | ⟨s, c, hc, rfl⟩
  · have hnone := hi.findLiveAllocation_eq_none.mpr hstray
    rw [reallocImpl_none hp hnone, reallocImpl_none hp (hsame.trans hnone)]
    exact .ok _ (.start h n)
  have hptr := (hi.extent_of_cell hc).1
  have hsize : (k ≠ 0 ∨ ∃ i, s = .large i) → Agree h.mem n (h.extent s).base 8 := by
    refine fun hn a h1 h2 ↦ hag a (.size hc rfl hn (by omega) ?_)
    rw [METASIZE] at hptr
    omega
  by_cases hk : k = 0
  · rw [reallocImpl, if_neg hp, if_pos hk]
    refine (hi.freeImpl_beside (.start h n) fun i d hd hdp ↦ ?_).bind
      fun _ _ _ _ _ hb ↦ .ok _ hb
    obtain rfl := hi.ptr_inj hd hc hdp
    exact hsize (.inr ⟨i, rfl⟩)
  have hfind := hi.findLiveAllocation_of_cell hc
  have hcap : capacity n (h.extent s).base = capacity h.mem (h.extent s).base := by
    have hmeta : metaSize n (h.extent s).base = metaSize h.mem (h.extent s).base :=
      (hsize (.inl hk)).load
    rw [capacity, capacity, hmeta]
  rw [reallocImpl, if_neg hp, if_neg hk, get_bind, get_bind, hsame, hfind]
  dsimp only
  rw [get_bind, get_bind, hcap]
  split
  · exact .ok _ ⟨_, rfl, (SameWrites.refl _ _).store _ _ _⟩
  · rename_i hbig
    have hroom := hi.capacity_eq (hi.exists_of_taken (Heap.taken_of_cell hc))
    have hlen := (hi.extent_of_cell hc).2
    exact hi.reallocMove_beside hos hc (by omega) hag

/-- Implementations see of memory what `Heap.Reads` says. -/
theorem Call.impl_beside (hos : os.On pl) (hi : h.WF pl)
    (hag : ∀ a, h.Reads pl os a call → n a = h.mem a) :
    EndsTogether (Heap.Beside h.mem n) (call.impl os h) (call.impl os { h with mem := n }) := by
  cases call with
  | malloc size => exact Blind.mallocImpl os size h.mem n _ _ (.start h n)
  | free p =>
    refine (hi.freeImpl_beside (.start h n) fun i c hc hp ↦ ?_).bind fun _ _ _ _ _ hb ↦ .ok _ hb
    have hptr := (hi.extent_of_cell hc).1
    rw [METASIZE] at hptr
    exact fun a h1 h2 ↦ hag a (.free hc hp (by rw [METASIZE]; omega) (by omega))
  | realloc p size => exact hi.reallocImpl_beside hos hag
  | calloc nmemb size => exact Blind.calloImp os nmemb size h.mem n _ _ (.start h n)

/-- Public calls see of memory what `Heap.Reads` says. -/
theorem Call.run_beside (hos : os.On pl) (hi : h.WF pl) (hfree : h.mutex = none)
    (hag : ∀ a, h.Reads pl os a call → n a = h.mem a) :
    EndsTogether (Heap.Beside h.mem n) (call.run os t h) (call.run os t { h with mem := n }) := by
  have hfree' : ({ h with mem := n } : Heap).mutex = none := hfree
  rw [call.run_eq t hfree, call.run_eq t hfree']
  have himpl : EndsTogether (Heap.Beside h.mem n) (call.impl os (h.lock t))
      (call.impl os (({ h with mem := n } : Heap).lock t)) := by
    refine Call.impl_beside hos (hi.lock t) fun a ha ↦ hag a ?_
    cases ha with
    | free hc hp hle hlt => exact .free hc hp hle hlt
    | size hc hp hn hle hlt => exact .size hc hp hn hle hlt
    | clientSize hc hp hbig hserves hle hlt => exact .clientSize hc hp hbig hserves hle hlt
    | payload hc hp hbig hserves hle hlt => exact .payload hc hp hbig hserves hle hlt
  revert himpl
  generalize call.impl os (h.lock t) = x
  generalize call.impl os (({ h with mem := n } : Heap).lock t) = y
  rintro (⟨r, hb⟩ | ⟨e, hb⟩)
  · exact .ok _ (hb.map fun _ _ ↦ rfl)
  · exact .error _ hb

variable {w w' : World} {mmap : Option Nat} {munmap : Bool}

/-- **What a call sees of memory.**  From every world the library can get into, whatever else memory
holds — the headers and payloads of all other blocks included — a call ends the same way: with the
same answer, the same state, the same mappings and system calls, and each byte either the same or
left alone. -/
theorem call_local (hw : w.Reachable pl)
    (hag : ∀ a, w.heap.Reads pl (pl.os mmap munmap) a call → n a = w.heap.mem a) :
    EndsTogether (Heap.Beside w.heap.mem n) (call.run (pl.os mmap munmap) t w.heap)
      (call.run (pl.os mmap munmap) t { w.heap with mem := n }) :=
  Call.run_beside (pl.os_on mmap munmap) hw.wf.heap hw.wf.unlocked hag

/-- The TINY block is written to, and the header in front of it, before the LARGE one is freed.  And
all of it but `size` is written to, before it is resized where it is. -/
theorem call_local_twoBlocks :
    let h := World.twoBlocks.heap
    let os := Platform.pages4k.os none true
    let n := fill h.mem 0x1000 17 7#8
    let n' := fill h.mem 0x1008 88 7#8
    EndsTogether (Heap.Beside h.mem n) (Call.run os 1 (.free 0x4010) h)
        (Call.run os 1 (.free 0x4010) { h with mem := n }) ∧
      EndsTogether (Heap.Beside h.mem n') (Call.run os 1 (.realloc 0x1010 40) h)
        (Call.run os 1 (.realloc 0x1010 40) { h with mem := n' }) := by
  intro h os n n'
  constructor
  · refine call_local World.reachable_twoBlocks fun a ha ↦ ?_
    cases ha with
    | free hc hp hle hlt =>
      rw [METASIZE] at hle
      exact if_neg (by omega)
  · have hc : h.cell (.pool .tiny 0) = some ⟨0x1010, 80, 1⟩ := by decide +kernel
    have hi : h.WF .pages4k := World.reachable_twoBlocks.wf.heap
    -- the block has room for 40 bytes
    have hfits : ∀ {s d}, h.cell s = some d → d.ptr = 0x1010 → ¬ d.room < 40 := by
      intro s d hd hdp
      obtain rfl := hi.ptr_inj hd hc hdp
      obtain rfl := Option.some_inj.mp (hd.symm.trans hc)
      decide
    refine call_local World.reachable_twoBlocks fun a ha ↦ ?_
    cases ha with
    | size hd hdp hn hle hlt =>
      rw [METASIZE] at hle
      exact if_neg (by omega)
    | clientSize hd hdp hbig => exact absurd hbig (hfits hd hdp)
    | payload hd hdp hbig => exact absurd hbig (hfits hd hdp)

/-! ## Writes and calls, in either order -/

/-- The block with another byte in it. -/
def Block.put (b : Block) (i : Nat) (v : Byte) : Block :=
  { b with bytes := Function.update b.bytes i (some v) }

theorem map_ptr_alter {live : List Block} {p : Nat} {f : Block → Block}
    (hf : ∀ b, (f b).ptr = b.ptr) : (alter live p f).map Block.ptr = live.map Block.ptr := by
  rw [alter, List.map_map]
  refine List.map_congr_left fun b _ ↦ ?_
  show (if b.ptr = p then f b else b).ptr = b.ptr
  split
  · exact hf b
  · rfl

theorem handOut_put {live : List Block} {q i k : Nat} {v : Byte} {bytes : Nat → Option Byte}
    (hr : r ≠ q) : handOut (alter live q fun b ↦ b.put i v) t r k bytes
      = alter (handOut live t r k bytes) q fun b ↦ b.put i v := by
  rw [handOut, handOut]
  split
  · rfl
  · rw [alter, alter, List.map_cons, if_neg hr]

theorem giveBack_put {live : List Block} {q i : Nat} {v : Byte} (p : Nat) :
    giveBack (alter live q fun b ↦ b.put i v) p
      = alter (giveBack live p) q fun b ↦ b.put i v := by
  rw [giveBack, giveBack, alter, alter, List.filter_map]
  congr 1
  refine List.filter_congr fun b _ ↦ ?_
  simp only [Function.comp_apply]
  split <;> rfl

theorem Block.carry_congr {b : Block} (hag : Agree m n b.ptr b.size) :
    b.carry n t r k = b.carry m t r k := by
  rw [Block.carry, Block.carry, Block.mk.injEq]
  refine ⟨rfl, rfl, rfl, rfl, funext fun j ↦ ?_⟩
  split
  · rw [hag _ (by omega) (by omega)]
  · rfl

theorem carry_put {live : List Block} {q i : Nat} {v : Byte} (hp : p ≠ q) (hr : r ≠ q)
    (hmem : ∀ b ∈ live, b.ptr = p → Agree m n b.ptr b.size) :
    alter (alter live q fun b ↦ b.put i v) p (fun b ↦ b.carry n t r k)
      = alter (alter live p fun b ↦ b.carry m t r k) q fun b ↦ b.put i v := by
  rw [alter, alter, alter, alter, List.map_map, List.map_map]
  refine List.map_congr_left fun b hb ↦ ?_
  simp only [Function.comp_apply]
  by_cases hbp : b.ptr = p
  · have hbq : b.ptr ≠ q := hbp ▸ hp
    have hcarry : (b.carry m t r k).ptr ≠ q := hr
    rw [if_neg hbq, if_pos hbp, if_pos hbp, if_neg hcarry, Block.carry_congr (hmem b hb hbp)]
  · have hput : (if b.ptr = q then b.put i v else b).ptr ≠ p := by
      split
      · exact hbp
      · exact hbp
    rw [if_neg hbp, if_neg hput]

/-- What the clients know after a call is the same whether a byte of a block it does not name was
written before the call or after it. -/
theorem liveAfter_put {live : List Block} {q i : Nat} {v : Byte} (hname : call.names ≠ some q)
    (hr : r ≠ q) (hmem : ∀ b ∈ live, call.names = some b.ptr → Agree m n b.ptr b.size) :
    liveAfter n (alter live q fun b ↦ b.put i v) t call r
      = alter (liveAfter m live t call r) q fun b ↦ b.put i v := by
  cases call with
  | malloc size => exact handOut_put hr
  | free p => exact giveBack_put p
  | realloc p size =>
    have hp : p ≠ q := fun e ↦ hname (congrArg some e)
    rw [liveAfter, liveAfter]
    split
    · exact handOut_put hr
    · split
      · exact giveBack_put p
      · split
        · rfl
        · exact carry_put hp hr fun b hb hbp ↦ hmem b hb (congrArg some hbp.symm)
  | calloc nmemb size => exact handOut_put hr

/-- A new block is not where another one is. -/
theorem MallocStep.ne_ptr (hi : h.WF pl) (hk : 0 < k) (hm : MallocStep pl os h k r h')
    (hc : h.cell s = some c) : r ≠ c.ptr := by
  rcases hm.effect hi hk with ⟨rfl, -⟩ | ⟨_, _, -, hfree, -, rfl, -, hb⟩
  · exact (hi.ptr_ne_zero hc).symm
  · exact (hb.ptr_new hfree hc).symm

/-- No call answers with the address of a block that it does not name. -/
theorem CallStep.ne_ptr (hi : h.WF pl) (hstep : CallStep pl os h call r h')
    (hc : h.cell s = some c) (hname : call.names ≠ some c.ptr) : r ≠ c.ptr := by
  have hnull := (hi.ptr_ne_zero hc).symm
  cases hstep with
  | malloc hm => exact hm.ne_ptr hi (reqSize_pos _) hc
  | free hf => exact hnull
  | realloc hr =>
    cases hr with
    | null _ hm => exact hm.ne_ptr hi (reqSize_pos _) hc
    | free => exact hnull
    | stray => exact hnull
    | inPlace => exact fun e ↦ hname (congrArg some e)
    | failed => exact hnull
    | moved _ _ hbig _ hm => exact hm.ne_ptr hi (by omega) hc
  | calloc hz =>
    cases hz with
    | overflow => exact hnull
    | failed => exact hnull
    | zeroed _ _ hm => exact hm.ne_ptr hi (reqSize_pos _) hc

section Exchange

variable {b : Block} {i : Nat} {v : Byte}

/-- What a call sees is not in the block of another. -/
theorem World.WF.reads_apart (hw : w.WF pl) (hb : b ∈ w.live) (hname : call.names ≠ some b.ptr)
    {a : Nat} (ha : w.heap.Reads pl os a call) : a < b.ptr ∨ b.ptr + b.size ≤ a := by
  obtain ⟨s, c, hc, hat⟩ := hw.cell_of_live hb
  have hsize := hat.size
  have hptr := hat.ptr
  have hle := (hw.heap.cell_size_le hc).2
  obtain ⟨t, d, hd, hcall, hlow, hhigh⟩ := ha.within
  have hap : c.payload.Apart (w.heap.extent t) := by
    refine hw.heap.payload_apart hc (hw.heap.exists_of_taken (Heap.taken_of_cell hd)) ?_
    rintro rfl
    rw [hc, Option.some_inj] at hd
    subst hd
    exact hname (hptr ▸ hcall)
  obtain ⟨hdp, hdl⟩ := hw.heap.extent_of_cell hd
  have hds := (hw.heap.cell_size_le hd).2
  simp only [Region.Apart, Cell.payload] at hap
  omega

/-- **A byte of a block may be written before a call or after it**, if the call does not name the
block. -/
theorem World.WF.write_call (hw : w.WF pl) (hb : b ∈ w.live) (hname : call.names ≠ some b.ptr)
    (hi : i < b.size) (v : Byte) (t : Nat) (mmap : Option Nat) (munmap : Bool) :
    (w.write b.ptr i v).answer pl t call mmap munmap = w.answer pl t call mmap munmap ∧
      ∀ r, w.answer pl t call mmap munmap = some r →
        (w.write b.ptr i v).after pl t call mmap munmap
          = (w.after pl t call mmap munmap).write b.ptr i v := by
  have hrun : EndsTogether (Heap.Beside w.heap.mem (poke w.heap.mem (b.ptr + i) v))
      (call.run (pl.os mmap munmap) t w.heap)
      (call.run (pl.os mmap munmap) t (w.write b.ptr i v).heap) := by
    refine Call.run_beside (pl.os_on mmap munmap) hw.heap hw.unlocked fun a ha ↦ ?_
    have hout := hw.reads_apart hb hname ha
    rw [poke, if_neg (by omega)]
  rw [World.answer, World.answer, World.after, World.after]
  have hwf := hw.write hb hi v
  have hb' : b.put i v ∈ (w.write b.ptr i v).live := List.mem_map.mpr ⟨b, hb, if_pos rfl⟩
  generalize hx : call.run (pl.os mmap munmap) t w.heap = x at hrun
  generalize hy : call.run (pl.os mmap munmap) t (w.write b.ptr i v).heap = y at hrun
  cases hrun with
  | error e hbeside => exact ⟨rfl, fun _ h ↦ absurd h (by simp)⟩
  | ok r' hbeside =>
    obtain ⟨n', rfl, hsame⟩ := hbeside
    refine ⟨rfl, fun _ _ ↦ ?_⟩
    obtain ⟨s, c, hc, hat⟩ := hw.cell_of_live hb
    obtain ⟨h₁, hstep, rfl⟩ := hw.call_step hx
    have hkeep := (Step.undisturbed hw (.call hx) hb hname).2
    have hkeep' := (Step.undisturbed hwf (.call hy) hb' hname).2
    have hmem : n' = poke h₁.unlock.mem (b.ptr + i) v := by
      refine hsame.poke_eq (hkeep _ (by omega) (by omega)) ?_
      refine (Agree.offset hkeep' hi).trans ?_
      exact if_pos rfl
    have hne : r' ≠ b.ptr := hat.ptr ▸ hstep.ne_ptr (hw.heap.lock t) hc (hat.ptr ▸ hname)
    have hlive : liveAfter (w.write b.ptr i v).heap.mem (w.write b.ptr i v).live t call r'
        = alter (liveAfter w.heap.mem w.live t call r') b.ptr fun b ↦ b.put i v := by
      refine liveAfter_put hname hne fun x hx hcall ↦ ?_
      have hxb : x.ptr ≠ b.ptr := fun e ↦ hname (e ▸ hcall)
      have hap := hw.payloads_apart hx hb hxb
      simp only [Region.Apart, Block.payload] at hap
      exact agree_poke v (by omega)
    rw [hmem]
    exact congrArg (World.mk _) hlive

/-- A write to a block that is live, and that the call does not name. -/
def World.WritesApart (w : World) (call : Call) (a : Action) : Prop :=
  ∃ t b i v, b ∈ w.live ∧ call.names ≠ some b.ptr ∧ a = .write t b.ptr i v

/-- One write and a call, in either order. -/
theorem World.WF.exchange {a : Action} (hw : w.WF pl) (ha : w.WritesApart call a) :
    (∃ u, Step pl w a u ∧ Answered pl u (.call t call mmap munmap, some r) w') ↔
      ∃ u, Answered pl w (.call t call mmap munmap, some r) u ∧ Step pl u a w' := by
  obtain ⟨t', b, i, v, hb, hname, rfl⟩ := ha
  have hboth := fun hi ↦ hw.write_call (i := i) hb hname hi v t mmap munmap
  simp only [Answered.call_iff]
  constructor
  · rintro ⟨_, hwrite, hr, rfl⟩
    cases hwrite with
    | write hx hxp hi =>
      obtain rfl := hw.tracks.ptr_inj hx hb hxp
      obtain ⟨hans, hafter⟩ := hboth hi
      rw [hans] at hr
      obtain ⟨hlive, -⟩ := (Step.of_answer hr).undisturbed hw hb hname
      rw [hafter r hr]
      exact ⟨_, ⟨hr, rfl⟩, .write hlive rfl hi⟩
  · rintro ⟨_, ⟨hr, rfl⟩, hwrite⟩
    have hstep := Step.of_answer hr
    obtain ⟨hlive, -⟩ := hstep.undisturbed hw hb hname
    cases hwrite with
    | write hx hxp hi =>
      obtain rfl := (hstep.wf hw).tracks.ptr_inj hx hlive hxp
      obtain ⟨hans, hafter⟩ := hboth hi
      exact ⟨_, .write hb rfl hi, hans.trans hr, (hafter r hr).symm⟩

/-- **Writes and calls commute.**  In every world the library can get into, writes to blocks that a
call does not name, by any threads and in any number, may all be done before the call or all after
it: the same answers are possible, and they leave the same world. -/
theorem writes_commute {as : List Action} (hw : w.Reachable pl)
    (has : ∀ a ∈ as, w.WritesApart call a) :
    (∃ u, Run (Step pl) w as u ∧ Answered pl u (.call t call mmap munmap, some r) w') ↔
      ∃ u, Answered pl w (.call t call mmap munmap, some r) u ∧ Run (Step pl) u as w' := by
  -- the blocks stay where they are while they are written to
  have hkeep : ∀ u a u', w.WritesApart call a →
      u.WF pl ∧ u.live.map Block.ptr = w.live.map Block.ptr → Step pl u a u' →
        u'.WF pl ∧ u'.live.map Block.ptr = w.live.map Block.ptr := by
    rintro u a u' ⟨_, _, _, _, -, -, rfl⟩ ⟨hu, hptrs⟩ hstep
    refine ⟨hstep.wf hu, ?_⟩
    cases hstep with
    | write => exact (map_ptr_alter (f := fun b ↦ b.put _ _) fun _ ↦ rfl).trans hptrs
  refine Run.exchange_iff hkeep (fun u a u' ha hu ↦ hu.1.exchange ?_) as has w w' ⟨hw.wf, rfl⟩
  obtain ⟨t', b, i, v, hb, hname, rfl⟩ := ha
  obtain ⟨x, hx, hxp⟩ : ∃ x ∈ u.live, x.ptr = b.ptr := by
    have hmem : b.ptr ∈ u.live.map Block.ptr := hu.2 ▸ List.mem_map_of_mem hb
    exact List.mem_map.mp hmem
  exact ⟨t', x, i, v, hx, hxp ▸ hname, by rw [hxp]⟩

/-- The TINY block is written to twice, and the LARGE one freed. -/
theorem writes_commute_twoBlocks :
    let w := World.twoBlocks
    let as := [.write 1 0x1010 0 7#8, .write 1 0x1010 0 9#8]
    let w' := ((w.write 0x1010 0 7#8).write 0x1010 0 9#8).after .pages4k 2 (.free 0x4010) none true
    (∃ u, Run (Step .pages4k) w as u ∧
        Answered .pages4k u (.call 2 (.free 0x4010) none true, some 0) w') ↔
      ∃ u, Answered .pages4k w (.call 2 (.free 0x4010) none true, some 0) u ∧
        Run (Step .pages4k) u as w' := by
  obtain ⟨b, hb, hp⟩ : ∃ b ∈ World.twoBlocks.live, b.ptr = 0x1010 := by decide +kernel
  have hwrite : ∀ v, World.twoBlocks.WritesApart (.free 0x4010) (.write 1 0x1010 0 v) :=
    fun v ↦ ⟨1, b, 0, v, hb, by rw [hp]; decide, by rw [hp]⟩
  intro w as w'
  refine writes_commute World.reachable_twoBlocks fun a ha ↦ ?_
  rcases List.mem_cons.mp ha with rfl | ha
  · exact hwrite _
  · obtain rfl := List.mem_singleton.mp ha
    exact hwrite _

end Exchange

end FtMalloc
