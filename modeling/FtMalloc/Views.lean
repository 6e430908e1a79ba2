import FtMalloc.FreeOrder

/-!
# What a class sees

`Heap.view` cuts out of the state what the code of one size class works with: the cells of the class
and, for a pool, its arena.  Everything a public call does to that part, and the call's answer, is a
function of that part alone and of what the kernel says to `mmap` (`ClassView.exec`), and a call of
another class leaves that part as it is.

* `MallocStep.view` and `MallocStep.view_of_ne` are the two halves for `malloc_impl`.
* `CallStep.view` and `CallStep.view_of_ne` are the same for every public call of one class or of
  none (`Call.zone`).  A `realloc` that moves a block has two classes and is not one of them
  (`Call.moves`).
-/

set_option autoImplicit false

namespace FtMalloc

open ByteMemory CharMap FirstFree

variable {pl : Platform} {os : OS} {h h' h₁ : Heap} {n r p k : Nat} {Z C D : Zone} {z y : Pool}
  {s t : Slot} {c d : Cell} {call : Call}

/-! ## Views -/

/-- What the code of one class works with. -/
structure ClassView where
  /-- What each slot of the class offers. -/
  cells : Nat → Option Cell
  /-- The base address of the arena. -/
  base : Nat
  /-- Has the arena been set up? -/
  opened : Bool
  /-- The flag of the class in `calculater_page_size`. -/
  pageFlag : BitVec 32

/-- The class has nothing, as when the library is loaded. -/
def ClassView.fresh : ClassView := ⟨fun _ ↦ none, 0, false, 0#32⟩

/-- What the class sees of the state.  The LARGE class has no arena. -/
def Heap.view (h : Heap) : Zone → ClassView
  | .pool z => ⟨fun k ↦ h.cell (.pool z k), h.base z, h.poolFlag z, h.pageFlag z⟩
  | .large => ⟨fun i ↦ h.cell (.large i), 0, false, 0#32⟩

theorem Heap.cells_view (h : Heap) (Z : Zone) (k : Nat) :
    (h.view Z).cells k = h.cell (Z.slot k) := by
  cases Z <;> rfl

/-- A class that has the same cells and the same arena in both states sees no difference. -/
theorem Heap.view_congr (hcell : ∀ k, h'.cell (Z.slot k) = h.cell (Z.slot k))
    (harena : ∀ z, Z = .pool z →
      h'.base z = h.base z ∧ h'.poolFlag z = h.poolFlag z ∧ h'.pageFlag z = h.pageFlag z) :
    h'.view Z = h.view Z := by
  cases Z with
  | pool z =>
    obtain ⟨hbase, hopen, hflag⟩ := harena z rfl
    simp only [Heap.view, ClassView.mk.injEq]
    exact ⟨funext hcell, hbase, hopen, hflag⟩
  | large =>
    simp only [Heap.view, ClassView.mk.injEq, and_true]
    exact funext hcell

/-- A change that keeps the cells and the arenas is seen by no class. -/
theorem Heap.SameArenas.view (ha : h.SameArenas h') (hcell : h'.cell = h.cell) (Z : Zone) :
    h'.view Z = h.view Z :=
  Heap.view_congr (fun k ↦ by rw [hcell]) fun z _ ↦ by
    rw [ha.base, ha.poolFlag, ha.pageFlag]
    exact ⟨rfl, rfl, rfl⟩

/-- Equal views have equal cells. -/
theorem cell_eq_of_view (hview : h'.view Z = h.view Z) (hs : s.zone = Z) :
    h'.cell s = h.cell s := by
  have hk := congrArg (fun v ↦ v.cells s.index) hview
  simp only [Heap.cells_view, ← hs, Zone.slot_index] at hk
  exact hk

theorem Heap.view_initial (m : Memory) (Z : Zone) : (Heap.initial m).view Z = .fresh := by
  cases Z <;> simp only [Heap.view, Heap.cell_initial] <;> rfl

/-! ## What is in a view -/

/-- The bitmap of a pool is in its view. -/
theorem bitmap_eq_of_view (hview : h'.view (.pool z) = h.view (.pool z)) :
    h'.bitmap z = h.bitmap z := by
  refine ext_bit fun k ↦ Bool.eq_iff_iff.mpr ?_
  show h'.Taken (.pool z k) ↔ h.Taken (.pool z k)
  rw [taken_iff, taken_iff, cell_eq_of_view hview rfl]

/-- The extent of every slot of a class is in its view. -/
theorem Heap.WF.extent_eq_of_view (hi : h.WF pl) (hi' : h'.WF pl)
    (hview : h'.view s.zone = h.view s.zone)
    (ht : h.Taken s) : h'.extent s = h.extent s :=
  hi.extent_eq_of_cell hi' (Heap.cell_of_taken ht)
    ((cell_eq_of_view hview rfl).trans (Heap.cell_of_taken ht))

/-- The table is in the view of the LARGE class. -/
theorem Heap.WF.large_eq_of_view (hi : h.WF pl) (hi' : h'.WF pl)
    (hview : h'.view .large = h.view .large) :
    h'.large = h.large := by
  funext i
  have htaken : h'.Taken (.large i) ↔ h.Taken (.large i) := by
    rw [taken_iff, taken_iff, cell_eq_of_view hview rfl]
  by_cases ht : h.Taken (.large i)
  · exact congrArg Region.base (hi.extent_eq_of_view (s := .large i) hi' hview ht)
  · exact (not_not.mp (mt htaken.mp ht)).trans (not_not.mp ht).symm

/-- The class a mapping was made for. -/
def Owner.zone : Owner → Zone
  | .arena z => .pool z
  | .large _ => .large

/-- The mappings of a class are in its view. -/
theorem Heap.WF.region_eq_of_view {o : Owner} (hi : h.WF pl) (hi' : h'.WF pl)
    (hview : h'.view o.zone = h.view o.zone) : h'.region pl o = h.region pl o := by
  cases o with
  | arena z =>
    have hbase := congrArg ClassView.base hview
    have hopen := congrArg ClassView.opened hview
    simp only [Owner.zone, Heap.view] at hbase hopen
    simp only [Heap.region, hbase, hopen]
  | large i =>
    have hlarge := congrFun (hi.large_eq_of_view hi' hview) i
    show (if h'.large i ≠ 0 then some (h'.extent (.large i)) else none)
      = if h.large i ≠ 0 then some (h.extent (.large i)) else none
    rw [hlarge]
    split
    · rename_i ht
      rw [hi.extent_eq_of_view (s := .large i) hi' hview ht]
    · rfl

/-- A class that has nothing has no mapping. -/
theorem region_eq_none_of_fresh {o : Owner} (hview : h.view o.zone = .fresh) :
    h.region pl o = none := by
  cases o with
  | arena z =>
    have hopen : h.poolFlag z = false := congrArg ClassView.opened hview
    simp [Heap.region, hopen]
  | large i =>
    have hcell : h.cell (.large i) = none := congrFun (congrArg ClassView.cells hview) i
    have hl : h.large i = 0 := not_not.mp (Heap.cell_eq_none.mp hcell)
    simp [Heap.region, hl]

/-! ## A class on its own -/

/-- The length `malloc_impl` asks `mmap` for when it serves `n` bytes. -/
def Platform.reqLen (pl : Platform) (n : Nat) : Nat :=
  match zoneOf n with
  | .pool z => pl.arenaLen z
  | .large => pl.largeLen n

namespace ClassView

variable (v : ClassView)

/-- The slots in use. -/
def taken : Finset Nat := (Finset.range 100).filter fun k ↦ (v.cells k).isSome

/-- The cell `c` in slot `k`. -/
def put (k : Nat) (c : Cell) : ClassView := { v with cells := Function.update v.cells k (some c) }

/-- Every slot offers what `f` makes of it. -/
def mapCells (f : Option Cell → Option Cell) : ClassView :=
  { v with cells := fun k ↦ f (v.cells k) }

/-- The block at `p` is given back. -/
def release (p : Nat) : ClassView := v.mapCells fun o ↦ o.filter fun c ↦ c.ptr ≠ p

/-- The size `n` is put on record for the block at `p`. -/
def resize (p n : Nat) : ClassView :=
  v.mapCells fun o ↦ o.map fun c ↦ if c.ptr = p then { c with size := n } else c

/-- A pool serves `n` bytes; `answer` is what `mmap` says if the arena is still to be set up. -/
def servePool (z : Pool) (n : Nat) (answer : Option Nat) : Nat × ClassView :=
  if v.opened then
    match least 100 v.taken with
    | none => (0, v)
    | some k =>
      let ptr := v.base + z.stride * k + METASIZE
      (ptr, v.put k ⟨ptr, z.stride - METASIZE, n⟩)
  else if v.pageFlag ≠ 0#32 then (0, v)
  else
    let asked := { v with pageFlag := BitVec.ofNat 32 z.stride }
    match answer with
    | none => (0, { asked with base := MAP_FAILED })
    | some ptr =>
      (ptr + METASIZE, { asked with base := ptr, opened := true }.put 0
        ⟨ptr + METASIZE, z.stride - METASIZE, n⟩)

/-- The LARGE class serves `n` bytes. -/
def serveLarge (pl : Platform) (n : Nat) (answer : Option Nat) : Nat × ClassView :=
  match least 100 v.taken, answer with
  | some i, some ptr =>
    if pl.Fits n then (ptr + METASIZE, v.put i ⟨ptr + METASIZE, pl.largeLen n - METASIZE, n⟩)
    else (0, v)
  | _, _ => (0, v)

/-- The class of `n` bytes serves them. -/
def serve (pl : Platform) (n : Nat) (answer : Option Nat) : Nat × ClassView :=
  match zoneOf n with
  | .pool z => v.servePool z n answer
  | .large => v.serveLarge pl n answer

/-- A public call of one class or of none, as the class sees it. -/
def exec (pl : Platform) (answer : Option Nat) : Call → Nat × ClassView
  | .malloc n => v.serve pl (reqSize n) answer
  | .calloc nmemb size =>
    if SIZE_MAX < nmemb * size then (0, v) else v.serve pl (reqSize (nmemb * size)) answer
  | .free p => (0, v.release p)
  | .realloc p n =>
    if p = 0 then v.serve pl (reqSize n) answer
    else if n = 0 then (0, v.release p)
    else if ∃ k ∈ v.taken, ∃ c ∈ v.cells k, c.ptr = p then (p, v.resize p n)
    else (0, v)

end ClassView

namespace ClassView

variable {v : ClassView} {ptr : Nat}

theorem servePool_full (hopen : v.opened = true) (hfull : least 100 v.taken = none)
    (answer : Option Nat) : v.servePool z n answer = (0, v) := by
  rw [servePool, if_pos hopen, hfull]

theorem servePool_slot (hopen : v.opened = true) (hk : least 100 v.taken = some k)
    (answer : Option Nat) :
    v.servePool z n answer = (v.base + z.stride * k + METASIZE,
      v.put k ⟨v.base + z.stride * k + METASIZE, z.stride - METASIZE, n⟩) := by
  rw [servePool, if_pos hopen, hk]

theorem servePool_refused (hclosed : v.opened = false) (hflag : v.pageFlag ≠ 0#32)
    (answer : Option Nat) :
    v.servePool z n answer = (0, v) := by
  rw [servePool, if_neg (by rw [hclosed]; decide), if_pos hflag]

theorem servePool_failed (hclosed : v.opened = false) (hflag : v.pageFlag = 0#32) :
    v.servePool z n none = (0, ⟨v.cells, MAP_FAILED, v.opened, BitVec.ofNat 32 z.stride⟩) := by
  rw [servePool, if_neg (by rw [hclosed]; decide), if_neg (not_not.mpr hflag)]

theorem servePool_opened (hclosed : v.opened = false) (hflag : v.pageFlag = 0#32) :
    v.servePool z n (some ptr) = (ptr + METASIZE,
      ClassView.put ⟨v.cells, ptr, true, BitVec.ofNat 32 z.stride⟩ 0
        ⟨ptr + METASIZE, z.stride - METASIZE, n⟩) := by
  rw [servePool, if_neg (by rw [hclosed]; decide), if_neg (not_not.mpr hflag)]

theorem serveLarge_null {answer : Option Nat}
    (hno : least 100 v.taken = none ∨ answer = none ∨ ¬ pl.Fits n) :
    v.serveLarge pl n answer = (0, v) := by
  unfold serveLarge
  split
  · rename_i i ptr hi
    exact if_neg ((hno.resolve_left (by rw [hi]; simp)).resolve_left (by simp))
  · rfl

theorem serveLarge_opened (hk : least 100 v.taken = some k) (hfits : pl.Fits n) :
    v.serveLarge pl n (some ptr)
      = (ptr + METASIZE, v.put k ⟨ptr + METASIZE, pl.largeLen n - METASIZE, n⟩) := by
  unfold serveLarge
  rw [hk]
  exact if_pos hfits

end ClassView

/-- The slots in use are those that are handed out. -/
theorem Heap.taken_view (h : Heap) (Z : Zone) : (h.view Z).taken = h.takenSet Z := by
  refine Finset.filter_congr fun k _ ↦ ?_
  rw [Heap.cells_view, taken_iff, Option.isSome_iff_ne_none]

/-- A new cell of a class, as the class sees it. -/
theorem Heap.view_put (hcell : h'.cell = Function.update h.cell (Z.slot k) (some c))
    (harena : ∀ z, Z = .pool z →
      h'.base z = h.base z ∧ h'.poolFlag z = h.poolFlag z ∧ h'.pageFlag z = h.pageFlag z) :
    h'.view Z = (h.view Z).put k c := by
  have hcells : ∀ j, h'.cell (Z.slot j) = Function.update (h.view Z).cells k (some c) j := by
    intro j
    rw [hcell]
    by_cases hj : j = k
    · rw [hj, Function.update_self, Function.update_self]
    · have hslot : Z.slot j ≠ Z.slot k := fun e ↦ hj (by simpa using congrArg Slot.index e)
      rw [Function.update_of_ne hj, Function.update_of_ne hslot, Heap.cells_view]
  cases Z with
  | pool z =>
    obtain ⟨hbase, hopen, hflag⟩ := harena z rfl
    simp only [Heap.view, ClassView.put, ClassView.mk.injEq]
    exact ⟨funext hcells, hbase, hopen, hflag⟩
  | large =>
    simp only [Heap.view, ClassView.put, ClassView.mk.injEq, and_true]
    exact funext hcells

/-! ## `malloc_impl` -/

/-- **A request of another class is not seen.** -/
theorem MallocStep.view_of_ne (hi : h.WF pl) (hn : 0 < n) (hm : MallocStep pl os h n r h')
    (hne : zoneOf n ≠ D) : h'.view D = h.view D := by
  refine Heap.view_congr (fun k ↦ ?_) fun y hy ↦ hm.arena_of_ne fun hz ↦ hne (hz.trans hy.symm)
  rcases hm.effect hi hn with ⟨-, hb⟩ | ⟨s, c, -, -, hz, -, -, hb⟩
  · rw [hb.cell]
  · have hks : D.slot k ≠ s := by
      rintro rfl
      exact hne (hz.symm.trans (Zone.zone_slot D k))
    rw [hb.cell, Function.update_of_ne hks]

/-- The least free slot, as the class sees it. -/
theorem Heap.WF.least_view (hi : h.WF pl) (hlt : k < 100) (hfree : ¬ h.Taken (Z.slot k))
    (hbelow : ∀ j < k, h.Taken (Z.slot j)) : least 100 (h.view Z).taken = some k := by
  rw [Heap.taken_view, least_eq_some, hi.mem_takenSet]
  exact ⟨hlt, hfree, fun j hj ↦ hi.mem_takenSet.mpr (hbelow j hj)⟩

/-- No free slot, as the class sees it. -/
theorem Heap.WF.least_view_none (hi : h.WF pl) (hfull : ∀ k < 100, h.Taken (Z.slot k)) :
    least 100 (h.view Z).taken = none := by
  rw [Heap.taken_view, least_eq_none]
  exact fun k hk ↦ hi.mem_takenSet.mpr (hfull k hk)

/-- A pool serves a request by what it sees. -/
theorem MallocStep.view_pool (hi : h.WF pl) (hm : MallocStep pl os h n r h')
    (hz : zoneOf n = .pool z) :
    (r, h'.view (.pool z))
      = (h.view (.pool z)).servePool z n (os.answer h.mapped (pl.arenaLen z)) := by
  have hpool : ∀ {y : Pool}, zoneOf n = .pool y → z = y := fun hy ↦ by simpa using hz.symm.trans hy
  have hlarge : zoneOf n ≠ .large := fun e ↦ by simp [hz] at e
  have hfit := le_of_zoneOf_pool hz
  have hreserved : h.pageFlag z = 0#32 → (h.reserve z).pageFlag z = BitVec.ofNat 32 z.stride := by
    intro hflag
    simp [Heap.reserve, hflag]
  cases hm with
  | poolFull hy hopen hfull =>
    obtain rfl := hpool hy
    exact (ClassView.servePool_full hopen (hi.least_view_none (Z := .pool _) hfull) _).symm
  | @poolSlot _ k hy hopen hk =>
    obtain rfl := hpool hy
    have hleast :=
      hi.least_view (Z := .pool z) hk.1 (by simp [Zone.slot, Heap.Taken, hk.2.1]) hk.2.2
    have hput := Heap.view_put (Z := .pool z) (Heap.cell_takeSlot hi hopen hk.1 hfit)
      fun _ _ ↦ ⟨rfl, rfl, rfl⟩
    rw [ClassView.servePool_slot (v := h.view (.pool z)) hopen hleast]
    exact Prod.ext rfl hput
  | arenaRefused hy hclosed hflag =>
    obtain rfl := hpool hy
    exact (ClassView.servePool_refused hclosed hflag _).symm
  | arenaFailed hy hclosed hflag hno =>
    obtain rfl := hpool hy
    rw [hno, ClassView.servePool_failed hclosed hflag]
    refine Prod.ext rfl ?_
    simp only [Heap.view, Heap.cell_failArena hi hclosed, ClassView.mk.injEq, true_and]
    exact ⟨Function.update_self _ _ _, rfl, hreserved hflag⟩
  | @arenaOpened _ ptr hy hclosed hflag hyes =>
    obtain rfl := hpool hy
    have hopened := Heap.becomes_openArena hi hclosed hflag (OS.answer_eq_some hyes)
    have hself : (h.openArena pl z ptr).poolFlag z = true := Function.update_self _ _ _
    have haddr : (h.openArena pl z ptr).slotAddr z 0 = ptr := by
      simp [Heap.slotAddr, Heap.openArena]
    have hput :=
      Heap.view_put (Z := .pool z) (k := 0) (Heap.cell_takeSlot hopened.wf hself (by decide) hfit)
      fun _ _ ↦ ⟨rfl, rfl, rfl⟩
    have hview : (h.openArena pl z ptr).view (.pool z)
        = ⟨(h.view (.pool z)).cells, ptr, true, BitVec.ofNat 32 z.stride⟩ := by
      simp only [Heap.view, hopened.cell, ClassView.mk.injEq, true_and]
      exact ⟨Function.update_self _ _ _, hself, hreserved hflag⟩
    rw [hyes, ClassView.servePool_opened hclosed hflag, ← hview]
    rw [haddr] at hput
    exact Prod.ext rfl hput
  | tableFull hy => exact absurd hy hlarge
  | tooLarge hy => exact absurd hy hlarge
  | largeFailed hy => exact absurd hy hlarge
  | largeOpened hy => exact absurd hy hlarge

/-- The LARGE class serves a request by what it sees. -/
theorem MallocStep.view_large (hi : h.WF pl) (hm : MallocStep pl os h n r h')
    (hz : zoneOf n = .large) :
    (r, h'.view .large) = (h.view .large).serveLarge pl n (os.answer h.mapped (pl.largeLen n)) := by
  have hpool : ∀ {y : Pool}, zoneOf n ≠ .pool y := fun hy ↦ by simp [hz] at hy
  cases hm with
  | poolFull hy => exact absurd hy hpool
  | poolSlot hy => exact absurd hy hpool
  | arenaRefused hy => exact absurd hy hpool
  | arenaFailed hy => exact absurd hy hpool
  | arenaOpened hy => exact absurd hy hpool
  | tableFull _ hcnt =>
    have hfull := hi.least_view_none (Z := .large) fun i hlt ↦ hi.table_full hcnt hlt
    exact (ClassView.serveLarge_null (.inl hfull)).symm
  | tooLarge _ _ hbig hh' =>
    have hview : h'.view .large = h.view .large := by
      rcases hh' with rfl | rfl <;> rfl
    rw [hview, ClassView.serveLarge_null (.inr (.inr hbig))]
  | largeFailed _ _ _ hno =>
    rw [hno]
    exact (ClassView.serveLarge_null (.inr (.inl rfl))).symm
  | @largeOpened ptr i _ _ hfits hyes hleast =>
    have hsome := hi.least_view (Z := .large) hleast.1 (fun ht ↦ ht hleast.2.1) hleast.2.2
    have hb := Heap.becomes_openLarge hi hz hfits ⟨hleast.1, hleast.2.1⟩ (OS.answer_eq_some hyes)
    rw [hyes, ClassView.serveLarge_opened hsome hfits]
    exact Prod.ext rfl (Heap.view_put (Z := .large) hb.cell fun _ hno ↦ nomatch hno)

/-- **A class serves a request by what it sees** and by what `mmap` says. -/
theorem MallocStep.view (hi : h.WF pl) (hm : MallocStep pl os h n r h') : (r, h'.view (zoneOf n))
    = (h.view (zoneOf n)).serve pl n (os.answer h.mapped (pl.reqLen n)) := by
  rw [ClassView.serve, Platform.reqLen]
  cases hz : zoneOf n with
  | pool z => exact hm.view_pool hi hz
  | large => exact hm.view_large hi hz

/-! ## The class of a call -/

/-- The class of the slot that `find_live_allocation` names. -/
def AllocationOwner.zone (owner : AllocationOwner) : Zone :=
  match owner.bitmap with
  | some z => .pool z
  | none => .large

/-- The class of the live block at `p`, if there is one. -/
def Heap.zoneAt (h : Heap) (p : Nat) : Option Zone :=
  (findLiveAllocation h p).map fun found ↦ found.2.zone

/-- The call is a `realloc` that needs another block: the live block has no room for the new
size. -/
def Call.moves (h : Heap) : Call → Bool
  | .realloc p n =>
    match findLiveAllocation h p with
    | some (hdr, _) => capacity h.mem hdr < n
    | none => false
  | _ => false

/-- The class of a call that does not move a block: that of the request, or of the block it is
about. -/
def Call.zone (h : Heap) : Call → Option Zone
  | .malloc n => some (zoneOf (reqSize n))
  | .calloc nmemb size =>
    if SIZE_MAX < nmemb * size then none else some (zoneOf (reqSize (nmemb * size)))
  | .free p => h.zoneAt p
  | .realloc p n => if p = 0 then some (zoneOf (reqSize n)) else h.zoneAt p

theorem Heap.WF.zoneAt_of_cell (hi : h.WF pl) (hc : h.cell s = some c) :
    h.zoneAt c.ptr = some s.zone := by
  rw [Heap.zoneAt, hi.findLiveAllocation_of_cell hc]
  cases s <;> rfl

theorem Heap.WF.zoneAt_of_stray (hi : h.WF pl) (hstray : h.Stray p) : h.zoneAt p = none := by
  rw [Heap.zoneAt, hi.findLiveAllocation_eq_none.mpr hstray]
  rfl

/-- **A live block has the class of its slot.** -/
theorem Heap.WF.zoneAt_eq_some (hi : h.WF pl) :
    h.zoneAt p = some D ↔ ∃ s c, h.cell s = some c ∧ c.ptr = p ∧ s.zone = D := by
  constructor
  · intro hz
    rcases hi.stray_or_cell p with hstray | ⟨s, c, hc, rfl⟩
    · rw [hi.zoneAt_of_stray hstray] at hz
      exact absurd hz (by simp)
    · rw [hi.zoneAt_of_cell hc, Option.some_inj] at hz
      exact ⟨s, c, hc, rfl, hz⟩
  · rintro ⟨s, c, hc, rfl, rfl⟩
    exact hi.zoneAt_of_cell hc

theorem Heap.WF.moves_iff (hi : h.WF pl) :
    (Call.realloc p n).moves h = true ↔ ∃ s c, h.cell s = some c ∧ c.ptr = p ∧ c.room < n := by
  constructor
  · intro hm
    rcases hi.stray_or_cell p with hstray | ⟨s, c, hc, rfl⟩
    · simp [Call.moves, hi.findLiveAllocation_eq_none.mpr hstray] at hm
    · have hroom := (hi.extent_of_cell hc).2
      simp only [Call.moves, hi.findLiveAllocation_of_cell hc, decide_eq_true_eq,
        capacity_eq hi (hi.exists_of_taken (Heap.taken_of_cell hc))] at hm
      exact ⟨s, c, hc, rfl, by omega⟩
  · rintro ⟨s, c, hc, rfl, hbig⟩
    have hroom := (hi.extent_of_cell hc).2
    simp only [Call.moves, hi.findLiveAllocation_of_cell hc, decide_eq_true_eq,
      capacity_eq hi (hi.exists_of_taken (Heap.taken_of_cell hc))]
    omega

/-- A block that stays where it is has room for its new size. -/
theorem Heap.WF.not_room_lt (hi : h.WF pl) (hstay : (Call.realloc p n).moves h = false)
    (hc : h.cell s = some c) (hp : c.ptr = p) : ¬ c.room < n := by
  intro hbig
  rw [hi.moves_iff.mpr ⟨s, c, hc, hp, hbig⟩] at hstay
  exact absurd hstay (by decide)

/-! ## `free_impl` and `realloc_impl` -/

/-- The class of the view has no block at `p`. -/
def ClassView.Stray (v : ClassView) (p : Nat) : Prop := ∀ k c, v.cells k = some c → c.ptr ≠ p

theorem ClassView.mapCells_eq_self {v : ClassView} {f : Option Cell → Option Cell}
    (hf : ∀ k, f (v.cells k) = v.cells k) : v.mapCells f = v := by
  cases v
  simp only [ClassView.mapCells, ClassView.mk.injEq, and_true]
  exact funext hf

theorem ClassView.release_of_stray {v : ClassView} (hstray : v.Stray p) : v.release p = v := by
  refine ClassView.mapCells_eq_self fun k ↦ ?_
  cases hc : v.cells k with
  | none => rfl
  | some c => exact Option.filter_some_pos (by simpa using hstray k c hc)

theorem ClassView.resize_of_stray {v : ClassView} (hstray : v.Stray p) (n : Nat) :
    v.resize p n = v := by
  refine ClassView.mapCells_eq_self fun k ↦ ?_
  cases hc : v.cells k with
  | none => rfl
  | some c => exact congrArg some (if_neg (hstray k c hc))

/-- A change of every cell, as a class sees it. -/
theorem Heap.SameArenas.view_map {f : Option Cell → Option Cell} (ha : h.SameArenas h')
    (hcell : ∀ s, h'.cell s = f (h.cell s)) (D : Zone) : h'.view D = (h.view D).mapCells f := by
  cases D <;>
    simp only [Heap.view, ClassView.mapCells, hcell, ha.base, ha.poolFlag, ha.pageFlag]

/-- A class sees no block at an address where there is none of its own. -/
theorem Heap.WF.stray_view (hi : h.WF pl) (hne : h.zoneAt p ≠ some D) : (h.view D).Stray p := by
  rintro k c hc rfl
  rw [Heap.cells_view] at hc
  exact hne (by rw [hi.zoneAt_of_cell hc, Zone.zone_slot])

/-- **What is freed is seen by its class.** -/
theorem FreeStep.view (hi : h.WF pl) (hf : FreeStep h p h') (D : Zone) :
    h'.view D = (h.view D).release p := by
  have hsame : h.SameArenas h' := by
    cases hf <;> exact ⟨rfl, rfl, rfl⟩
  exact hsame.view_map (hf.cell hi) D

theorem FreeStep.view_of_ne (hi : h.WF pl) (hf : FreeStep h p h') (hne : h.zoneAt p ≠ some D) :
    h'.view D = h.view D :=
  (hf.view hi D).trans (ClassView.release_of_stray (hi.stray_view hne))

/-- A size that is put on record is seen by its class. -/
theorem Heap.view_record (hi : h.WF pl) (hc : h.cell s = some c) (hfit : n ≤ c.room) (D : Zone) :
    (h.record n s).view D = (h.view D).resize c.ptr n := by
  have hcell : ∀ t, (h.record n s).cell t
      = (h.cell t).map fun d ↦ if d.ptr = c.ptr then { d with size := n } else d := by
    intro t
    rw [Heap.cell_record hi hc hfit]
    by_cases hts : t = s
    · rw [hts, Function.update_self, hc, Option.map_some, if_pos rfl]
    · rw [Function.update_of_ne hts]
      cases hd : h.cell t with
      | none => rfl
      | some d =>
        have hne : d.ptr ≠ c.ptr := fun e ↦ hts (hi.ptr_inj hd hc e)
        rw [Option.map_some, if_neg hne]
  have hsame : h.SameArenas (h.record n s) := by
    cases s <;> exact ⟨rfl, rfl, rfl⟩
  exact hsame.view_map hcell D

/-- Clearing a block is seen by no class. -/
theorem MallocStep.view_zero {k : Nat} (hi : h.WF pl) (hr : r ≠ 0)
    (hm : MallocStep pl os h (reqSize k) r h₁) (D : Zone) : (h₁.zero r k).view D = h₁.view D := by
  obtain ⟨_, _, -, -, -, -, -, hcell, -⟩ := hm.zero_effect hi hr
  have hsame : h₁.SameArenas (h₁.zero r k) := ⟨rfl, rfl, rfl⟩
  exact hsame.view hcell D

/-- A class sees the blocks of its own. -/
theorem Heap.WF.mem_view (hi : h.WF pl) :
    (∃ k ∈ (h.view C).taken, ∃ c ∈ (h.view C).cells k, c.ptr = p) ↔ h.zoneAt p = some C := by
  rw [hi.zoneAt_eq_some]
  constructor
  · rintro ⟨k, -, c, hc, hp⟩
    rw [Heap.cells_view] at hc
    exact ⟨_, c, hc, hp, Zone.zone_slot C k⟩
  · rintro ⟨s, c, hc, hp, rfl⟩
    refine ⟨s.index, ?_, c, ?_, hp⟩
    · rw [Heap.taken_view, hi.mem_takenSet, Zone.slot_index]
      exact Heap.taken_of_cell hc
    · rw [Heap.cells_view, Zone.slot_index]
      exact hc

/-! ## Public calls -/

/-- The bytes the call has `malloc_impl` look for, if it does. -/
def Call.asks : Call → Option Nat
  | .malloc n => some (reqSize n)
  | .free _ => none
  | .realloc _ n => some (reqSize n)
  | .calloc nmemb size => some (reqSize (nmemb * size))

/-- What `mmap` says when the call's request gets to it. -/
def Call.seen (pl : Platform) (os : OS) (h : Heap) (call : Call) : Option Nat :=
  call.asks.bind fun n ↦ os.answer h.mapped (pl.reqLen n)

/-- **A call of another class, or of none, is not seen.** -/
theorem CallStep.view_of_ne (hi : h.WF pl) (hstep : CallStep pl os h call r h')
    (hstay : call.moves h = false) (hne : call.zone h ≠ some D) : h'.view D = h.view D := by
  have hask : ∀ {k : Nat}, some (zoneOf k) ≠ some D → zoneOf k ≠ D := fun h e ↦ h (congrArg some e)
  cases hstep with
  | malloc hm => exact hm.view_of_ne hi (reqSize_pos _) (hask hne)
  | free hf => exact hf.view_of_ne hi hne
  | realloc hr =>
    rw [Call.zone] at hne
    cases hr with
    | null hp hm =>
      rw [if_pos hp] at hne
      exact hm.view_of_ne hi (reqSize_pos _) (hask hne)
    | free hp _ hf =>
      rw [if_neg hp] at hne
      exact hf.view_of_ne hi hne
    | stray => rfl
    | inPlace _ hc hp hfit =>
      subst hp
      rw [if_neg (hi.ptr_ne_zero hc)] at hne
      exact (Heap.view_record hi hc hfit D).trans (ClassView.resize_of_stray (hi.stray_view hne) _)
    | failed hc hp hbig => exact absurd hbig (hi.not_room_lt hstay hc hp)
    | moved hc hp hbig => exact absurd hbig (hi.not_room_lt hstay hc hp)
  | @calloc nmemb size _ _ hc =>
    rw [Call.zone] at hne
    cases hc with
    | overflow => cases D <;> rfl
    | failed hfit hm =>
      rw [if_neg (by omega)] at hne
      exact hm.view_of_ne hi (reqSize_pos _) (hask hne)
    | zeroed hfit hr hm =>
      rw [if_neg (by omega)] at hne
      exact (hm.view_zero hi hr D).trans (hm.view_of_ne hi (reqSize_pos _) (hask hne))

/-- **What a call of one class does, and its answer, are a function of what the class sees.** -/
theorem CallStep.view (hi : h.WF pl) (hstep : CallStep pl os h call r h')
    (hstay : call.moves h = false)
    (hC : call.zone h = none ∨ call.zone h = some C) :
    (r, h'.view C) = (h.view C).exec pl (call.seen pl os h) call := by
  have hask : ∀ {k : Nat}, some (zoneOf k) = none ∨ some (zoneOf k) = some C → zoneOf k = C := by
    rintro k (h0 | h1)
    · exact absurd h0 (by simp)
    · exact Option.some_inj.mp h1
  cases hstep with
  | malloc hm =>
    obtain rfl := hask hC
    exact hm.view hi
  | free hf => exact Prod.ext rfl (hf.view hi C)
  | @realloc p n _ _ hr =>
    rw [Call.zone] at hC
    rw [ClassView.exec]
    cases hr with
    | null hp hm =>
      rw [if_pos hp] at hC
      obtain rfl := hask hC
      rw [if_pos hp]
      exact hm.view hi
    | free hp hn hf =>
      rw [if_neg hp, if_pos hn]
      exact Prod.ext rfl (hf.view hi C)
    | stray hp hn hstray =>
      have hno : h.zoneAt p ≠ some C := by
        rw [hi.zoneAt_of_stray hstray]
        simp
      rw [if_neg hp, if_neg hn, if_neg (mt hi.mem_view.mp hno)]
    | @inPlace s c hn hc hp hfit =>
      subst hp
      have h0 := hi.ptr_ne_zero hc
      rw [if_neg h0, hi.zoneAt_of_cell hc] at hC
      obtain rfl : s.zone = C := by simpa using hC
      rw [if_neg h0, if_neg hn, if_pos (hi.mem_view.mpr (hi.zoneAt_of_cell hc))]
      exact Prod.ext rfl (Heap.view_record hi hc hfit s.zone)
    | failed hc hp hbig => exact absurd hbig (hi.not_room_lt hstay hc hp)
    | moved hc hp hbig => exact absurd hbig (hi.not_room_lt hstay hc hp)
  | @calloc nmemb size _ _ hc =>
    rw [Call.zone] at hC
    rw [ClassView.exec]
    cases hc with
    | overflow hover =>
      rw [if_pos hover]
      cases C <;> rfl
    | failed hfit hm =>
      rw [if_neg (by omega)] at hC ⊢
      obtain rfl := hask hC
      exact hm.view hi
    | zeroed hfit hr hm =>
      rw [if_neg (by omega)] at hC ⊢
      obtain rfl := hask hC
      rw [hm.view_zero hi hr]
      exact hm.view hi

/-- **The answer of a call is `NULL` or the address of a live block.**  The block is of the class of
the call. -/
theorem CallStep.answered (hi : h.WF pl) (hstep : CallStep pl os h call r h')
    (hstay : call.moves h = false) : r = 0 ∨ ∃ s c, h'.cell s = some c ∧ c.ptr = r ∧
      call.zone h = some s.zone := by
  have hnew : ∀ {n r h'}, 0 < n → MallocStep pl os h n r h' →
      r = 0 ∨ ∃ s c, h'.cell s = some c ∧ c.ptr = r ∧ some (zoneOf n) = some s.zone := by
    intro n r h' hn hm
    rcases hm.effect hi hn with ⟨h0, -⟩ | ⟨s, c, -, -, hz, hp, -, hb⟩
    · exact .inl h0
    · exact .inr ⟨s, c, by rw [hb.cell, Function.update_self], hp, congrArg some hz.symm⟩
  cases hstep with
  | malloc hm => exact hnew (reqSize_pos _) hm
  | free => exact .inl rfl
  | @realloc p n _ _ hr =>
    rw [Call.zone]
    cases hr with
    | null hp hm =>
      rw [if_pos hp]
      exact hnew (reqSize_pos _) hm
    | free => exact .inl rfl
    | stray => exact .inl rfl
    | @inPlace s c _ hc hp hfit =>
      subst hp
      rw [if_neg (hi.ptr_ne_zero hc), hi.zoneAt_of_cell hc]
      exact .inr ⟨s, { c with size := n },
        by rw [Heap.cell_record hi hc hfit, Function.update_self], rfl, rfl⟩
    | failed => exact .inl rfl
    | moved hc hp hbig => exact absurd hbig (hi.not_room_lt hstay hc hp)
  | calloc hc =>
    rw [Call.zone]
    cases hc with
    | overflow => exact .inl rfl
    | failed => exact .inl rfl
    | zeroed hfit hr hm =>
      rw [if_neg (by omega)]
      obtain ⟨_, _, -, -, -, -, -, hcell, -⟩ := hm.zero_effect hi hr
      rw [hcell]
      exact hnew (reqSize_pos _) hm

end FtMalloc
