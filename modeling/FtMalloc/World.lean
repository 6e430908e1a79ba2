import Mathlib.Data.Finset.Image
import FtMalloc.Calls
import FtMalloc.Lib.Run

/-!
# The allocator and its clients

A `World` is the state of the allocator together with the blocks its clients hold.  The list of live
blocks is not the allocator's: it is what the clients know from the calls they made and the answers
they got (`liveAfter`), and each block carries the bytes its holder has reason to expect in it.

A step of the world is a public call of some thread, a byte some thread writes into a live block, or
anything the host program does to its own memory and to `errno`.  Each public call is one step,
since its whole body runs under `manage_free_mutex`; a call that does not come back is not a step.

`World.WF` is the invariant of the allocator (`Heap.WF`) and the statement that the cells of the
allocator are the blocks of the clients (`Tracks`).  `Step.wf` is the one step lemma,
`World.wf_of_reach` the run lemma.
-/

set_option autoImplicit false

namespace FtMalloc

open ByteMemory CharMap

/-! ## Blocks and worlds -/

/-- A live block, as its holder sees it. -/
structure Block where
  /-- The thread that obtained the block. -/
  holder : Nat
  /-- The address that was returned. -/
  ptr : Nat
  /-- The class that served the request. -/
  zone : Zone
  /-- The last requested size. -/
  size : Nat
  /-- The bytes the holder wrote to the block, or that `realloc` carried over, or the zeros that
  `calloc` stored; `none` where nothing was stored since the block was obtained. -/
  bytes : Nat → Option Byte

/-- The bytes of a block its holder may use. -/
def Block.payload (b : Block) : Region := ⟨b.ptr, b.size⟩

/-- The allocator, and the blocks that are live. -/
structure World where
  heap : Heap
  live : List Block

/-- The world when the library is loaded. -/
def World.initial (m : Memory) : World := ⟨Heap.initial m, []⟩

/-! ## What the clients know after a call -/

/-- A request for `n` bytes by thread `t` was answered by `r`. -/
def handOut (live : List Block) (t r n : Nat) (bytes : Nat → Option Byte) : List Block :=
  if r = 0 then live else ⟨t, r, zoneOf n, n, bytes⟩ :: live

/-- The block at `p` was freed. -/
def giveBack (live : List Block) (p : Nat) : List Block := live.filter fun b ↦ b.ptr ≠ p

/-- The block after thread `t` had it resized to `n` bytes, with the answer `r`.  The first bytes,
as many as the block had, are what memory held before the call. -/
def Block.carry (b : Block) (m : Memory) (t r n : Nat) : Block where
  holder := t
  ptr := r
  zone := if r = b.ptr then b.zone else zoneOf n
  size := n
  bytes := fun i ↦
    if i < b.size then some (m (b.ptr + i)) else if r = b.ptr then b.bytes i else none

theorem Block.carry_bytes (b : Block) (m : Memory) (t r n i : Nat) : (b.carry m t r n).bytes i
    = if i < b.size then some (m (b.ptr + i)) else if r = b.ptr then b.bytes i else none := rfl

/-- The block at `p` becomes `f` of it, the others stay. -/
def alter (live : List Block) (p : Nat) (f : Block → Block) : List Block :=
  live.map fun b ↦ if b.ptr = p then f b else b

/-- The live blocks after thread `t` made a call and got the answer `r`; `m` is memory before the
call. -/
def liveAfter (m : Memory) (live : List Block) (t : Nat) : Call → Nat → List Block
  | .malloc n, r => handOut live t r (reqSize n) fun _ ↦ none
  | .free p, _ => giveBack live p
  | .realloc p n, r =>
    if p = 0 then handOut live t r (reqSize n) fun _ ↦ none
    else if n = 0 then giveBack live p
    else if r = 0 then live
    else alter live p fun b ↦ b.carry m t r n
  | .calloc nmemb size, r =>
    handOut live t r (reqSize (nmemb * size)) fun i ↦ if i < nmemb * size then some 0#8 else none

/-! ## Steps -/

/-- A step of the world. -/
inductive Action
  /-- Thread `t` makes a public call; `mmap` and `munmap` are what the kernel will answer. -/
  | call (t : Nat) (call : Call) (mmap : Option Nat) (munmap : Bool)
  /-- Thread `t` writes `v` to byte `i` of the block at `p`. -/
  | write (t p i : Nat) (v : Byte)
  /-- The host program changes memory of its own, and `errno`. -/
  | host (m : Memory) (errno : Nat)

/-- The operating system of the platform, with its answers to one call. -/
def Platform.os (pl : Platform) (mmap : Option Nat) (munmap : Bool) : OS :=
  ⟨pl.sysconf, mmap, munmap⟩

theorem Platform.os_on (pl : Platform) (mmap : Option Nat) (munmap : Bool) :
    (pl.os mmap munmap).On pl := rfl

/-- The world after byte `i` of the block at `p` was written. -/
def World.write (w : World) (p i : Nat) (v : Byte) : World where
  heap := { w.heap with mem := poke w.heap.mem (p + i) v }
  live := alter w.live p fun b ↦ { b with bytes := Function.update b.bytes i (some v) }

/-- The steps of the world.  Clients may pass any address to any call; what they write stays inside
the last requested size of a live block. -/
inductive Step (pl : Platform) : World → Action → World → Prop
  | call {w : World} {t : Nat} {call : Call} {mmap : Option Nat} {munmap : Bool} {r : Nat}
      {h' : Heap}
      (hrun : call.run (pl.os mmap munmap) t w.heap = .ok r h') :
      Step pl w (.call t call mmap munmap) ⟨h', liveAfter w.heap.mem w.live t call r⟩
  | write {w : World} {t p i : Nat} {v : Byte} {b : Block} (hb : b ∈ w.live) (hp : b.ptr = p)
      (hi : i < b.size) : Step pl w (.write t p i v) (w.write p i v)
  | host {w : World} {m : Memory} {errno : Nat}
      (hm : ∀ r ∈ w.heap.mapped, Agree w.heap.mem m r.base r.len) :
      Step pl w (.host m errno) { w with heap := { w.heap with mem := m, errno := errno } }

/-- The worlds the library can get into. -/
def World.Reachable (pl : Platform) (w : World) : Prop :=
  Reach (Step pl) (fun w₀ ↦ ∃ m, w₀ = World.initial m) w

/-! ## The blocks are the cells -/

/-- The block `b` is what the slot `s` offers, and its bytes are in memory. -/
structure Block.At (b : Block) (s : Slot) (c : Cell) (m : Memory) : Prop where
  ptr : c.ptr = b.ptr
  zone : s.zone = b.zone
  size : c.size = b.size
  bytes : ∀ i < c.room, ∀ v, b.bytes i = some v → m (c.ptr + i) = v

/-- The live blocks are the cells, each at its own address. -/
structure Tracks (live : List Block) (cells : Slot → Option Cell) (m : Memory) : Prop where
  sound : ∀ b ∈ live, ∃ s c, cells s = some c ∧ b.At s c m
  complete : ∀ s c, cells s = some c → ∃ b ∈ live, b.At s c m
  nodup : (live.map Block.ptr).Nodup

variable {live : List Block} {cells cells' : Slot → Option Cell} {m m' : Memory} {s s' : Slot}
  {c c' : Cell} {b : Block}

theorem Block.At.agree (hat : b.At s c m) (hag : Agree m m' c.ptr c.room) : b.At s c m' :=
  { hat with
    bytes := fun i hi v hv ↦
      (hag (c.ptr + i) (by omega) (by omega)).trans (hat.bytes i hi v hv) }

namespace Tracks

theorem nil (m : Memory) : Tracks [] (fun _ ↦ none) m where
  sound := fun b hb ↦ absurd hb (by simp)
  complete := fun s c hc ↦ absurd hc (by simp)
  nodup := List.nodup_nil

/-- Memory outside the payloads is of no consequence. -/
theorem agree (ht : Tracks live cells m)
    (hag : ∀ s c, cells s = some c → Agree m m' c.ptr c.room) : Tracks live cells m' where
  sound := fun b hb ↦ by
    obtain ⟨s, c, hc, hat⟩ := ht.sound b hb
    exact ⟨s, c, hc, hat.agree (hag s c hc)⟩
  complete := fun s c hc ↦ by
    obtain ⟨b, hb, hat⟩ := ht.complete s c hc
    exact ⟨b, hb, hat.agree (hag s c hc)⟩
  nodup := ht.nodup

/-- A new cell at a new address, and its block. -/
theorem add (ht : Tracks live cells m) (hfree : cells s = none)
    (hnew : ∀ t d, cells t = some d → d.ptr ≠ c.ptr) (hat : b.At s c m) :
    Tracks (b :: live) (Function.update cells s (some c)) m where
  sound := fun x hx ↦ by
    rcases List.mem_cons.mp hx with rfl | hx
    · exact ⟨s, c, Function.update_self _ _ _, hat⟩
    · obtain ⟨t, d, hd, hatx⟩ := ht.sound x hx
      have hts : t ≠ s := by
        rintro rfl
        exact absurd (hfree.symm.trans hd) (by simp)
      exact ⟨t, d, by rw [Function.update_of_ne hts, hd], hatx⟩
  complete := fun t d hd ↦ by
    by_cases hts : t = s
    · subst hts
      rw [Function.update_self, Option.some_inj] at hd
      subst hd
      exact ⟨b, List.mem_cons_self, hat⟩
    · rw [Function.update_of_ne hts] at hd
      obtain ⟨x, hx, hatx⟩ := ht.complete t d hd
      exact ⟨x, List.mem_cons_of_mem _ hx, hatx⟩
  nodup := by
    rw [List.map_cons, List.nodup_cons]
    refine ⟨fun hmem ↦ ?_, ht.nodup⟩
    obtain ⟨x, hx, hxp⟩ := List.mem_map.mp hmem
    obtain ⟨t, d, hd, hatx⟩ := ht.sound x hx
    exact hnew t d hd (by rw [hatx.ptr, hxp, hat.ptr])

/-- A cell is gone, and its block is freed. -/
theorem drop (ht : Tracks live cells m) (hc : cells s = some c)
    (huniq : ∀ t d, cells t = some d → d.ptr = c.ptr → t = s) :
    Tracks (giveBack live c.ptr) (Function.update cells s none) m where
  sound := fun x hx ↦ by
    rw [giveBack, List.mem_filter] at hx
    obtain ⟨t, d, hd, hatx⟩ := ht.sound x hx.1
    have hts : t ≠ s := by
      rintro rfl
      rw [hc, Option.some_inj] at hd
      subst hd
      exact absurd hatx.ptr.symm (by simpa using hx.2)
    exact ⟨t, d, by rw [Function.update_of_ne hts, hd], hatx⟩
  complete := fun t d hd ↦ by
    by_cases hts : t = s
    · subst hts
      rw [Function.update_self] at hd
      exact absurd hd (by simp)
    · rw [Function.update_of_ne hts] at hd
      obtain ⟨x, hx, hatx⟩ := ht.complete t d hd
      refine ⟨x, List.mem_filter.mpr ⟨hx, ?_⟩, hatx⟩
      have hne : x.ptr ≠ c.ptr := fun e ↦ hts (huniq t d hd (hatx.ptr.trans e))
      simpa using hne
  nodup := ht.nodup.sublist (List.filter_sublist.map _)

/-- Different blocks have different addresses. -/
theorem ptr_inj (ht : Tracks live cells m) {x y : Block} (hx : x ∈ live) (hy : y ∈ live)
    (hxy : x.ptr = y.ptr) : x = y := List.inj_on_of_nodup_map ht.nodup hx hy hxy

/-- One cell makes way for another, in the same slot or in one that was free, and the block at its
address is altered to match. -/
theorem swap (s' : Slot) (c' : Cell) (ht : Tracks live cells m) (hc : cells s = some c)
    (huniq : ∀ t d, cells t = some d → d.ptr = c.ptr → t = s)
    (hcells : ∀ t d, cells' t = some d ↔ (t = s' ∧ d = c') ∨ (t ≠ s ∧ cells t = some d))
    (hnew : ∀ t d, cells t = some d → t ≠ s → d.ptr ≠ c'.ptr)
    (hag : ∀ t d, cells t = some d → t ≠ s → Agree m m' d.ptr d.room) {f : Block → Block}
    (hf : ∀ b ∈ live, b.At s c m → (f b).At s' c' m') : Tracks (alter live c.ptr f) cells' m' := by
  -- a block at the address of `c` is the block of `c`
  have hhit : ∀ x ∈ live, x.ptr = c.ptr → x.At s c m := by
    intro x hx hxp
    obtain ⟨t, d, hd, hatx⟩ := ht.sound x hx
    obtain rfl := huniq t d hd (hatx.ptr.trans hxp)
    rw [hc, Option.some_inj] at hd
    subst hd
    exact hatx
  have hmiss : ∀ x ∈ live, x.ptr ≠ c.ptr → ∃ t d, t ≠ s ∧ cells t = some d ∧ x.At t d m := by
    intro x hx hxp
    obtain ⟨t, d, hd, hatx⟩ := ht.sound x hx
    refine ⟨t, d, ?_, hd, hatx⟩
    rintro rfl
    rw [hc, Option.some_inj] at hd
    subst hd
    exact hxp hatx.ptr.symm
  refine ⟨fun y hy ↦ ?_, fun t d hd ↦ ?_, ?_⟩
  · obtain ⟨x, hx, rfl⟩ := List.mem_map.mp hy
    by_cases hxp : x.ptr = c.ptr
    · rw [if_pos hxp]
      exact ⟨s', c', (hcells s' c').mpr (.inl ⟨rfl, rfl⟩), hf x hx (hhit x hx hxp)⟩
    · rw [if_neg hxp]
      obtain ⟨t, d, hts, hd, hatx⟩ := hmiss x hx hxp
      exact ⟨t, d, (hcells t d).mpr (.inr ⟨hts, hd⟩), hatx.agree (hag t d hd hts)⟩
  · rcases (hcells t d).mp hd with ⟨rfl, rfl⟩ | ⟨hts, hd⟩
    · obtain ⟨x, hx, hatx⟩ := ht.complete s c hc
      refine ⟨f x, List.mem_map.mpr ⟨x, hx, if_pos hatx.ptr.symm⟩, hf x hx hatx⟩
    · obtain ⟨x, hx, hatx⟩ := ht.complete t d hd
      have hxp : x.ptr ≠ c.ptr := fun e ↦ hts (huniq t d hd (hatx.ptr.trans e))
      exact ⟨x, List.mem_map.mpr ⟨x, hx, if_neg hxp⟩, hatx.agree (hag t d hd hts)⟩
  · rw [alter, List.map_map]
    refine List.Nodup.map_on (fun x hx y hy hxy ↦ ?_) (List.Nodup.of_map _ ht.nodup)
    simp only [Function.comp_apply] at hxy
    have hcross : ∀ x ∈ live, ∀ y ∈ live, x.ptr = c.ptr → y.ptr ≠ c.ptr → (f x).ptr ≠ y.ptr := by
      intro x hx y hy hxp hyp e
      obtain ⟨t, d, hts, hd, haty⟩ := hmiss y hy hyp
      exact hnew t d hd hts (by rw [haty.ptr, ← e, (hf x hx (hhit x hx hxp)).ptr])
    by_cases hxp : x.ptr = c.ptr <;> by_cases hyp : y.ptr = c.ptr
    · exact ht.ptr_inj hx hy (hxp.trans hyp.symm)
    · rw [if_pos hxp, if_neg hyp] at hxy
      exact absurd hxy (hcross x hx y hy hxp hyp)
    · rw [if_neg hxp, if_pos hyp] at hxy
      exact absurd hxy.symm (hcross y hy x hx hyp hxp)
    · rw [if_neg hxp, if_neg hyp] at hxy
      exact ht.ptr_inj hx hy hxy

end Tracks

/-! ## One call -/

section Calls

variable {pl : Platform} {os : OS} {h h' h₁ : Heap} {t p n r : Nat} {call : Call}
  {bytes : Nat → Option Byte}

/-- A state that has one cell more is tracked by one block more. -/
theorem Heap.Becomes.tracks_add (ht : Tracks live h.cell h.mem)
    (hb : h.Becomes pl (Function.update h.cell s (some c)) h₁) (hfree : h.cell s = none)
    (hat : b.At s c h₁.mem) : Tracks (b :: live) h₁.cell h₁.mem := by
  rw [hb.cell]
  exact (ht.agree hb.payloads).add hfree (fun t d hd ↦ hb.ptr_new hfree hd) hat

theorem MallocStep.tracks (hi : h.WF pl) (ht : Tracks live h.cell h.mem)
    (hn : 0 < n) (hm : MallocStep pl os h n r h') :
    h'.WF pl ∧ Tracks (handOut live t r n fun _ ↦ none) h'.cell h'.mem := by
  rcases hm.effect hi hn with ⟨rfl, hb⟩ | ⟨s, c, hr, hfree, hz, hp, hsz, hb⟩
  · refine ⟨hb.wf, ?_⟩
    rw [handOut, if_pos rfl, hb.cell]
    exact ht.agree hb.payloads
  · refine ⟨hb.wf, ?_⟩
    rw [handOut, if_neg hr]
    exact hb.tracks_add ht hfree ⟨hp, hz, hsz, fun i _ v hv ↦ absurd hv (by simp)⟩

theorem FreeStep.tracks (hi : h.WF pl) (ht : Tracks live h.cell h.mem) (hf : FreeStep h p h') :
    h'.WF pl ∧ Tracks (giveBack live p) h'.cell h'.mem := by
  rcases hf.effect hi with ⟨hstray, rfl⟩ | ⟨s, c, hc, rfl, hb⟩
  · refine ⟨hi, ?_⟩
    have hall : giveBack live p = live := by
      refine List.filter_eq_self.mpr fun b hb ↦ ?_
      obtain ⟨s, c, hc, hat⟩ := ht.sound b hb
      have hne : b.ptr ≠ p := hat.ptr ▸ hstray s c hc
      simpa using hne
    rw [hall]
    exact ht
  · refine ⟨hb.wf, ?_⟩
    rw [hb.cell, hf.mem]
    exact ht.drop hc fun t d hd hp ↦ hi.ptr_inj hd hc hp

/-- A block that is resized in place. -/
theorem Heap.WF.tracks_record (hi : h.WF pl) (ht : Tracks live h.cell h.mem)
    (hc : h.cell s = some c) (hn : n ≠ 0) (hfit : n ≤ c.room) : (h.record n s).WF pl ∧
      Tracks (alter live c.ptr fun b ↦ b.carry h.mem t c.ptr n) (h.record n s).cell
        (h.record n s).mem := by
  have hs := Heap.taken_of_cell hc
  have hroom := (hi.extent_of_cell hc).2
  have huniq : ∀ t d, h.cell t = some d → d.ptr = c.ptr → t = s :=
    fun _ _ hd hp ↦ hi.ptr_inj hd hc hp
  have hkeep := Heap.keepsPayloads_record hi (hi.exists_of_taken hs) n
  refine ⟨hi.record hs (by omega) (by omega), ?_⟩
  rw [Heap.cell_record hi hc hfit]
  refine ht.swap s { c with size := n } hc huniq (fun t d ↦ ?_)
    (fun t d hd hts e ↦ hts (huniq t d hd e)) (fun t d hd _ ↦ hkeep t d hd) ?_
  · by_cases hts : t = s
    · subst hts
      simp [eq_comm]
    · simp [hts]
  · intro b _ hat
    have hcr := (hi.cell_size_le hc).2
    refine ⟨rfl, ?_, rfl, fun i hir v hv ↦ ?_⟩
    · rw [hat.zone, Block.carry, if_pos hat.ptr]
    · rw [Block.carry_bytes] at hv
      have hlt : i < c.room := hir
      rw [hkeep s c hc (c.ptr + i) (by omega) (show c.ptr + i < c.ptr + c.room by omega)]
      split at hv
      · rw [← hat.ptr, Option.some_inj] at hv
        exact hv
      · rw [if_pos hat.ptr] at hv
        exact hat.bytes i hir v hv

/-- A block that is moved. -/
theorem ReallocStep.tracks_moved (hi : h.WF pl) (ht : Tracks live h.cell h.mem)
    (hc : h.cell s = some c) (hbig : c.room < n) (hr : r ≠ 0) (hm : MallocStep pl os h n r h₁)
    (hf : FreeStep (h₁.copyTo r c.ptr c.size) c.ptr h') :
    h'.WF pl ∧ Tracks (alter live c.ptr fun b ↦ b.carry h.mem t r n) h'.cell h'.mem := by
  have huniq : ∀ t d, h.cell t = some d → d.ptr = c.ptr → t = s :=
    fun _ _ hd hp ↦ hi.ptr_inj hd hc hp
  obtain ⟨s', c', hne, hfree, hz, hptr, hsz, hwf, hcell, hkeep, hnew, hcopy⟩ :=
    ReallocStep.moved_effect hi hc hbig hr hm hf
  rw [hcell]
  refine ⟨hwf, ht.swap s' c' hc huniq (fun t d ↦ ?_)
    (fun t d hd _ ↦ hptr ▸ hnew t d hd) (fun t d hd _ ↦ hkeep t d hd) ?_⟩
  · by_cases hts : t = s
    · subst hts
      simp [hne.symm]
    · by_cases hts' : t = s'
      · subst hts'
        simp [hts, hfree, eq_comm]
      · simp [hts, hts']
  · intro b _ hat
    have hbr : r ≠ b.ptr := hat.ptr ▸ (hnew s c hc).symm
    refine ⟨hptr, ?_, hsz, fun i _ v hv ↦ ?_⟩
    · rw [hz, Block.carry, if_neg hbr]
    · rw [Block.carry_bytes, if_neg hbr] at hv
      split at hv
      · rename_i hib
        rw [← hat.size] at hib
        rw [hptr, hcopy i hib, hat.ptr]
        exact Option.some_inj.mp hv
      · exact absurd hv (by simp)

theorem ReallocStep.tracks (hi : h.WF pl) (ht : Tracks live h.cell h.mem)
    (hstep : ReallocStep pl os h p n r h') :
    h'.WF pl ∧ Tracks (liveAfter h.mem live t (.realloc p n) r) h'.cell h'.mem := by
  have hnull : ∀ {s c}, h.cell s = some c → c.ptr ≠ 0 := fun hc ↦ hi.ptr_ne_zero hc
  cases hstep with
  | null hp hm =>
    rw [liveAfter, if_pos hp]
    exact hm.tracks hi ht (reqSize_pos n)
  | free hp hn hf =>
    rw [liveAfter, if_neg hp, if_pos hn]
    exact hf.tracks hi ht
  | stray hp hn hstray =>
    rw [liveAfter, if_neg hp, if_neg hn, if_pos rfl]
    exact ⟨hi, ht⟩
  | @inPlace s c hn hc hp hfit =>
    subst hp
    rw [liveAfter, if_neg (hnull hc), if_neg hn, if_neg (hnull hc)]
    exact hi.tracks_record ht hc hn hfit
  | @failed s c _ hc hp hbig hm =>
    subst hp
    rcases hm.effect hi (by omega) with ⟨-, hb⟩ | ⟨_, _, h0, -⟩
    · rw [liveAfter, if_neg (hnull hc), if_neg (by omega), if_pos rfl, hb.cell]
      exact ⟨hb.wf, ht.agree hb.payloads⟩
    · exact absurd rfl h0
  | @moved s c _ h₁ _ hc hp hbig hr hm hf =>
    subst hp
    rw [liveAfter, if_neg (hnull hc), if_neg (by omega), if_neg hr]
    exact ReallocStep.tracks_moved hi ht hc hbig hr hm hf

theorem CallocStep.tracks (hi : h.WF pl) (ht : Tracks live h.cell h.mem)
    {nmemb size : Nat} (hstep : CallocStep pl os h nmemb size r h') :
    h'.WF pl ∧ Tracks (liveAfter h.mem live t (.calloc nmemb size) r) h'.cell h'.mem := by
  rw [liveAfter]
  cases hstep with
  | overflow =>
    rw [handOut, if_pos rfl]
    exact ⟨hi.setErrno _, ht⟩
  | failed _ hm =>
    rcases hm.effect hi (reqSize_pos _) with ⟨-, hb⟩ | ⟨_, _, h0, -⟩
    · rw [handOut, if_pos rfl, hb.cell]
      exact ⟨hb.wf, ht.agree hb.payloads⟩
    · exact absurd rfl h0
  | zeroed _ hr hm =>
    obtain ⟨s, c, hfree, hz, hp, hsz, hb, -, hzero⟩ := hm.zero_effect hi hr
    refine ⟨hb.wf, ?_⟩
    rw [handOut, if_neg hr]
    refine hb.tracks_add ht hfree ⟨hp, hz, hsz, fun i _ v hv ↦ ?_⟩
    simp only at hv
    split at hv
    · rename_i hlt
      rw [hp, hzero i hlt]
      exact Option.some_inj.mp hv
    · exact absurd hv (by simp)

/-- **After a call the live blocks are again the cells.** -/
theorem CallStep.tracks (hi : h.WF pl) (ht : Tracks live h.cell h.mem)
    (hstep : CallStep pl os h call r h') :
    h'.WF pl ∧ Tracks (liveAfter h.mem live t call r) h'.cell h'.mem := by
  cases hstep with
  | malloc hm => exact hm.tracks hi ht (reqSize_pos _)
  | free hf => exact hf.tracks hi ht
  | realloc hr => exact hr.tracks hi ht
  | calloc hc => exact hc.tracks hi ht

end Calls

/-! ## Runs -/

/-- The invariant of the world. -/
structure World.WF (pl : Platform) (w : World) : Prop where
  heap : w.heap.WF pl
  unlocked : w.heap.mutex = none
  tracks : Tracks w.live w.heap.cell w.heap.mem

theorem World.WF.initial (pl : Platform) (m : Memory) : (World.initial m).WF pl where
  heap := .initial pl m
  unlocked := rfl
  tracks := by
    have hcell : (Heap.initial m).cell = fun _ ↦ none := funext (Heap.cell_initial m)
    show Tracks [] (Heap.initial m).cell m
    rw [hcell]
    exact .nil m

variable {pl : Platform} {w w' : World} {a : Action}

/-- A live block of a well-formed world is a cell of its heap. -/
theorem World.WF.cell_of_live (hw : w.WF pl) (hb : b ∈ w.live) :
    ∃ s c, w.heap.cell s = some c ∧ b.At s c w.heap.mem := hw.tracks.sound b hb

/-- An address is stray when no live block starts there. -/
theorem World.WF.stray_iff (hw : w.WF pl) {p : Nat} :
    w.heap.Stray p ↔ ∀ b ∈ w.live, b.ptr ≠ p := by
  constructor
  · intro hstray b hb
    obtain ⟨s, c, hc, hat⟩ := hw.cell_of_live hb
    rw [← hat.ptr]
    exact hstray s c hc
  · intro hlive s c hc
    obtain ⟨b, hb, hat⟩ := hw.tracks.complete s c hc
    rw [hat.ptr]
    exact hlive b hb

/-- A write to a live block changes no cell, and no payload but that of the block. -/
theorem World.WF.cell_write (hw : w.WF pl) (hc : w.heap.cell s = some c) (hat : b.At s c w.heap.mem)
    {i : Nat} (hi : i < b.size) (v : Byte) :
    (w.write b.ptr i v).heap.WF pl ∧ (w.write b.ptr i v).heap.cell = w.heap.cell ∧
      ∀ t d, w.heap.cell t = some d → t ≠ s →
        Agree w.heap.mem (poke w.heap.mem (b.ptr + i) v) d.ptr d.room := by
  have hle := (hw.heap.cell_size_le hc).2
  have hsize := hat.size
  refine hw.heap.of_cell_payload hc fun a k hap ↦ ?_
  simp only [Region.Apart, Cell.payload, hat.ptr] at hap
  exact agree_poke v (by omega)

/-- A write to a live block. -/
theorem World.WF.write (hw : w.WF pl) (hb : b ∈ w.live) {i : Nat} (hi : i < b.size) (v : Byte) :
    (w.write b.ptr i v).WF pl := by
  obtain ⟨s, c, hc, hat⟩ := hw.cell_of_live hb
  obtain ⟨hwf, hcell, hkeep⟩ := hw.cell_write hc hat hi v
  refine ⟨hwf, hw.unlocked, ?_⟩
  show Tracks (alter w.live b.ptr _) (w.write b.ptr i v).heap.cell _
  rw [hcell, ← hat.ptr]
  have huniq : ∀ t d, w.heap.cell t = some d → d.ptr = c.ptr → t = s :=
    fun t d hd hp ↦ hw.heap.ptr_inj hd hc hp
  refine hw.tracks.swap s c hc huniq (fun t d ↦ ?_)
    (fun t d hd hts e ↦ hts (huniq t d hd e)) (fun t d hd hts ↦ ?_) fun x _ hatx ↦ ?_
  · by_cases hts : t = s
    · subst hts
      simp [hc, eq_comm]
    · simp [hts]
  · rw [hat.ptr]
    exact hkeep t d hd hts
  · refine ⟨hatx.ptr, hatx.zone, hatx.size, fun j hj u hu ↦ ?_⟩
    by_cases hji : j = i
    · subst hji
      simp only [Function.update_self, Option.some_inj] at hu
      simp only [World.write, poke, hat.ptr, if_true, hu]
    · simp only [Function.update_of_ne hji] at hu
      have hne : c.ptr + j ≠ c.ptr + i := by omega
      simp only [World.write, poke, if_neg hne]
      exact hatx.bytes j hj u hu

/-- What the host does to its own memory stays out of the slots. -/
theorem World.WF.agree_host (hw : w.WF pl) {m : Memory}
    (hm : ∀ r ∈ w.heap.mapped, Agree w.heap.mem m r.base r.len) (hs : w.heap.Exists s) :
    Agree w.heap.mem m (w.heap.extent s).base (w.heap.extent s).len := by
  obtain ⟨r, hr, hrw⟩ := Heap.WF.extent_within pl hs
  exact (hm r ((hw.heap.mem_mapped r).mpr ⟨_, hr⟩)).mono hrw.1 hrw.2

/-- What the host does to its own memory stays out of the headers. -/
theorem World.WF.agree_host_header (hw : w.WF pl) {m : Memory}
    (hm : ∀ r ∈ w.heap.mapped, Agree w.heap.mem m r.base r.len) (hs : w.heap.Exists s) :
    Agree w.heap.mem m (w.heap.extent s).base METASIZE := by
  have hlen := (hw.heap.extent_mapped hs).2
  exact (hw.agree_host hm hs).mono (Nat.le_refl _) (by omega)

/-- What the host does to its own memory changes no cell. -/
theorem World.WF.cell_host (hw : w.WF pl) {m : Memory} (e : Nat)
    (hm : ∀ r ∈ w.heap.mapped, Agree w.heap.mem m r.base r.len) :
    ({ w.heap with mem := m, errno := e } : Heap).cell = w.heap.cell :=
  Heap.cell_of_payload hw.heap fun _ hs ↦ hw.agree_host_header hm hs

/-- Anything the host does to its own memory. -/
theorem World.WF.host (hw : w.WF pl) {m : Memory} (e : Nat)
    (hm : ∀ r ∈ w.heap.mapped, Agree w.heap.mem m r.base r.len) :
    (⟨{ w.heap with mem := m, errno := e }, w.live⟩ : World).WF pl := by
  have hfix : ∀ s, w.heap.Exists s → Agree w.heap.mem m (w.heap.extent s).base METASIZE :=
    fun _ hs ↦ hw.agree_host_header hm hs
  refine ⟨(hw.heap.of_payload hfix).setErrno e, hw.unlocked, ?_⟩
  show Tracks w.live ({ w.heap with mem := m, errno := e } : Heap).cell m
  rw [hw.cell_host e hm]
  refine hw.tracks.agree fun s c hc ↦ ?_
  have hpw := hw.heap.payload_within hc
  exact (hw.agree_host hm (hw.heap.exists_of_taken (Heap.taken_of_cell hc))).mono hpw.1 hpw.2

/-- A call that comes back, in a well-formed world: what it did is a `CallStep` of the locked
heap. -/
theorem World.WF.call_step (hw : w.WF pl) {t r : Nat} {call : Call} {mmap : Option Nat}
    {munmap : Bool} {h' : Heap} (hrun : call.run (pl.os mmap munmap) t w.heap = .ok r h') :
    ∃ h₁, CallStep pl (pl.os mmap munmap) (w.heap.lock t) call r h₁ ∧ h' = h₁.unlock :=
  call.run_step (pl.os_on mmap munmap) hw.heap hw.unlocked t hrun

/-- **Every step keeps the invariant.** -/
theorem Step.wf (hw : w.WF pl) (hstep : Step pl w a w') : w'.WF pl := by
  cases hstep with
  | @call t call mmap munmap r h' hrun =>
    obtain ⟨h₁, hcall, rfl⟩ := hw.call_step hrun
    obtain ⟨hwf, htr⟩ := hcall.tracks (t := t) (hw.heap.lock t) hw.tracks
    exact ⟨hwf.unlock, rfl, htr⟩
  | write hb hp hi =>
    subst hp
    exact hw.write hb hi _
  | host hm => exact hw.host _ hm

/-- **The invariant holds in every world the library can get into.** -/
theorem World.Reachable.wf (hw : w.Reachable pl) : w.WF pl := by
  refine hw.invariant ?_ fun _ _ _ hw hstep ↦ hstep.wf hw
  rintro _ ⟨m, rfl⟩
  exact .initial pl m

/-! ## Counting -/

/-- The number of live blocks of a class. -/
def World.count (w : World) (Z : Zone) : Nat := w.live.countP fun b ↦ b.zone = Z

/-- **As many blocks of a class are live as slots of it are handed out.** -/
theorem World.WF.count_eq (hw : w.WF pl) (Z : Zone) : w.count Z = (w.heap.takenSet Z).card := by
  have hptrs : ((w.live.filter fun b ↦ b.zone = Z).map Block.ptr).toFinset
      = (w.heap.takenSet Z).image fun k ↦ (w.heap.extent (Z.slot k)).base + METASIZE := by
    ext p
    simp only [List.mem_toFinset, List.mem_map, List.mem_filter, Finset.mem_image,
      decide_eq_true_eq, hw.heap.mem_takenSet]
    constructor
    · rintro ⟨b, ⟨hb, rfl⟩, rfl⟩
      obtain ⟨s, c, hc, hat⟩ := hw.cell_of_live hb
      refine ⟨s.index, ?_, ?_⟩ <;> rw [← hat.zone, Zone.slot_index]
      · exact Heap.taken_of_cell hc
      · rw [← hat.ptr, (hw.heap.extent_of_cell hc).1]
    · rintro ⟨k, ht, rfl⟩
      obtain ⟨b, hb, hat⟩ := hw.tracks.complete _ _ (Heap.cell_of_taken ht)
      exact ⟨b, ⟨hb, by rw [← hat.zone, Zone.zone_slot]⟩, hat.ptr.symm⟩
  have hnodup : ((w.live.filter fun b ↦ b.zone = Z).map Block.ptr).Nodup :=
    hw.tracks.nodup.sublist (List.filter_sublist.map _)
  have hinj : Set.InjOn (fun k ↦ (w.heap.extent (Z.slot k)).base + METASIZE)
      (w.heap.takenSet Z : Set Nat) := by
    intro j hj k hk hjk
    have hj' := Heap.cell_of_taken (hw.heap.mem_takenSet.mp hj)
    have hk' := Heap.cell_of_taken (hw.heap.mem_takenSet.mp hk)
    simpa using congrArg Slot.index (hw.heap.ptr_inj hj' hk' hjk)
  rw [World.count, List.countP_eq_length_filter, ← List.length_map (f := Block.ptr),
    ← List.toFinset_card_of_nodup hnodup, hptrs, Finset.card_image_of_injOn hinj]

/-- A class has fewer than a hundred live blocks exactly when one of its slots is free. -/
theorem World.WF.count_lt_iff (hw : w.WF pl) (Z : Zone) :
    w.count Z < 100 ↔ ∃ k < 100, ¬ w.heap.Taken (Z.slot k) := by
  have hle : w.heap.takenSet Z ⊆ Finset.range 100 := Finset.filter_subset _ _
  rw [hw.count_eq]
  constructor
  · intro hlt
    by_contra hall
    push Not at hall
    have heq : w.heap.takenSet Z = Finset.range 100 :=
      Finset.filter_true_of_mem fun k hk ↦ hall k (Finset.mem_range.mp hk)
    rw [heq, Finset.card_range] at hlt
    exact absurd hlt (by decide)
  · rintro ⟨k, hk, hfree⟩
    have hss : w.heap.takenSet Z ⊂ Finset.range 100 := by
      refine (Finset.ssubset_iff_of_subset hle).mpr ⟨k, Finset.mem_range.mpr hk, ?_⟩
      rwa [hw.heap.mem_takenSet]
    simpa using Finset.card_lt_card hss

/-- `large_cnt` is the number of live LARGE blocks. -/
theorem World.WF.largeCnt_eq (hw : w.WF pl) : w.heap.largeCnt = (w.count .large : Int) := by
  rw [hw.count_eq, hw.heap.large_cnt]
  rfl

/-! ## Running the model -/

/-- The answer of a call, if it comes back. -/
def World.answer (pl : Platform) (w : World) (t : Nat) (call : Call) (mmap : Option Nat)
    (munmap : Bool) : Option Nat :=
  match call.run (pl.os mmap munmap) t w.heap with
  | .ok r _ => some r
  | .error _ _ => none

/-- The world a call leaves. -/
def World.after (pl : Platform) (w : World) (t : Nat) (call : Call) (mmap : Option Nat)
    (munmap : Bool) : World :=
  match call.run (pl.os mmap munmap) t w.heap with
  | .ok r h' => ⟨h', liveAfter w.heap.mem w.live t call r⟩
  | .error _ h' => ⟨h', w.live⟩

/-- A call that comes back is a step. -/
theorem Step.of_answer {t r : Nat} {call : Call} {mmap : Option Nat} {munmap : Bool}
    (h : w.answer pl t call mmap munmap = some r) :
    Step pl w (.call t call mmap munmap) (w.after pl t call mmap munmap) := by
  rw [World.answer] at h
  rw [World.after]
  cases hrun : call.run (pl.os mmap munmap) t w.heap with
  | ok r h' => exact .call hrun
  | error e h' =>
    rw [hrun] at h
    exact absurd h (by simp)

/-- A machine with pages of 4096 bytes. -/
def Platform.pages4k : Platform where
  sysconf := 4096
  exp := 12
  four_le := by decide
  page_eq := by decide

/-- The world after thread 1 obtained a TINY block and thread 2 a LARGE one. -/
def World.twoBlocks : World :=
  ((World.initial fun _ ↦ 0#8).after .pages4k 1 (.malloc 1) (some 0x1000) true).after
    .pages4k 2 (.malloc 600) (some 0x4000) true

theorem World.run_twoBlocks : Run (Step .pages4k) (World.initial fun _ ↦ 0#8)
    [.call 1 (.malloc 1) (some 0x1000) true, .call 2 (.malloc 600) (some 0x4000) true]
    World.twoBlocks :=
  (Run.single (Step.of_answer (r := 0x1010) (by decide +kernel))).snoc
    (Step.of_answer (r := 0x4010) (by decide +kernel))

theorem World.reachable_twoBlocks : World.twoBlocks.Reachable .pages4k :=
  ⟨_, _, ⟨_, rfl⟩, World.run_twoBlocks⟩

end FtMalloc
