import FtMalloc.Classes
import FtMalloc.Machine

/-!
# Where the kernel places mappings

The kernel chooses the addresses of all mappings.  `Shape` is what is left of the allocator when
addresses are taken away: which slots are handed out, with how much room, and which arenas are set
up or lost.  Calls come to it as orders (`Call.order`), in which a pointer is the slot or the table
index of the block it belongs to, together with whether the kernel granted a mapping.

`placement_irrelevant` says that this is enough: the slots that a run of the program hands out are
those `Shape.play` computes from the orders, so two runs with the same orders hand out the same
slots wherever the kernel places the mappings.
-/

set_option autoImplicit false

namespace FtMalloc

open ByteMemory FirstFree

variable {pl : Platform} {os : OS} {h h' h₁ : Heap} {n r p k t : Nat} {s : Slot} {c d : Cell}
  {Z : Zone} {call : Call} {w w' : World} {a : Action}

/-! ## A class without addresses -/

/-- A class without addresses. -/
structure ClassShape where
  /-- The room of each slot that is handed out. -/
  rooms : Nat → Option Nat
  /-- Has the arena been set up? -/
  opened : Bool
  /-- Has the arena been asked for? -/
  asked : Bool

namespace ClassShape

variable (σ : ClassShape)

/-- The class has nothing, as when the library is loaded. -/
def fresh : ClassShape := ⟨fun _ ↦ none, false, false⟩

/-- The slots in use. -/
def taken : Finset Nat := (Finset.range 100).filter fun k ↦ (σ.rooms k).isSome

/-- Slot `k` is handed out. -/
def put (k room : Nat) : ClassShape := { σ with rooms := Function.update σ.rooms k (some room) }

/-- Slot `k` is given back. -/
def erase (k : Nat) : ClassShape := { σ with rooms := Function.update σ.rooms k none }

/-- A pool serves a request; `granted` is whether the kernel maps the arena. -/
def servePool (z : Pool) (granted : Bool) : Option Nat × ClassShape :=
  if σ.opened then
    match least 100 σ.taken with
    | none => (none, σ)
    | some k => (some k, σ.put k (z.stride - METASIZE))
  else if σ.asked then (none, σ)
  else if granted then
    (some 0, { σ with opened := true, asked := true }.put 0 (z.stride - METASIZE))
  else (none, { σ with asked := true })

/-- The LARGE class serves `n` bytes; `granted` is whether the kernel maps them. -/
def serveLarge (pl : Platform) (n : Nat) (granted : Bool) : Option Nat × ClassShape :=
  match least 100 σ.taken with
  | none => (none, σ)
  | some i =>
    if pl.Fits n ∧ granted then (some i, σ.put i (pl.largeLen n - METASIZE)) else (none, σ)

/-- The class of `n` bytes serves them. -/
def serve (pl : Platform) (n : Nat) (granted : Bool) : Option Nat × ClassShape :=
  match zoneOf n with
  | .pool z => σ.servePool z granted
  | .large => σ.serveLarge pl n granted

/-- A request for `n` bytes comes to `mmap`. -/
def comesToMmap (pl : Platform) (n : Nat) : Bool :=
  match zoneOf n with
  | .pool _ => !σ.opened && !σ.asked
  | .large => (least 100 σ.taken).isSome && decide (pl.Fits n)

end ClassShape

/-- What is left of a class without its addresses. -/
def ClassView.shape (v : ClassView) : ClassShape :=
  ⟨fun k ↦ (v.cells k).map Cell.room, v.opened, decide (v.pageFlag ≠ 0#32)⟩

namespace ClassView

variable {v : ClassView}

theorem taken_shape (v : ClassView) : v.shape.taken = v.taken := by
  refine Finset.filter_congr fun k _ ↦ ?_
  show ((v.cells k).map Cell.room).isSome = true ↔ _
  rw [Option.isSome_map]

theorem shape_put (v : ClassView) (k : Nat) (c : Cell) :
    (v.put k c).shape = v.shape.put k c.room := by
  refine congrArg (fun rooms ↦ (⟨rooms, _, _⟩ : ClassShape)) (funext fun j ↦ ?_)
  show (Function.update v.cells k (some c) j).map Cell.room
    = Function.update (fun i ↦ (v.cells i).map Cell.room) k (some c.room) j
  by_cases hj : j = k
  · rw [hj, Function.update_self, Function.update_self, Option.map_some]
  · rw [Function.update_of_ne hj, Function.update_of_ne hj]

/-- The answer `r` is the slot `o` of the class `v`, or `NULL` when there is no slot. -/
def AnsweredBy (v : ClassView) (r : Nat) (o : Option Nat) : Prop :=
  match o with
  | none => r = 0
  | some k => ∃ c, v.cells k = some c ∧ c.ptr = r

theorem answeredBy_put (v : ClassView) (k : Nat) (c : Cell) :
    (v.put k c).AnsweredBy c.ptr (some k) := ⟨c, Function.update_self _ _ _, rfl⟩

/-- What `mmap` says, if the request comes to it. -/
def granted (v : ClassView) (pl : Platform) (n : Nat) (answer : Option Nat) : Bool :=
  v.shape.comesToMmap pl n && answer.isSome

/-- A pool serves a request without looking at addresses. -/
theorem servePool_shape {z : Pool} (hz : zoneOf n = .pool z) (answer : Option Nat) :
    (v.shape.servePool z (v.granted pl n answer)).2 = (v.servePool z n answer).2.shape ∧
      (v.servePool z n answer).2.AnsweredBy (v.servePool z n answer).1
        (v.shape.servePool z (v.granted pl n answer)).1 := by
  have hstride : BitVec.ofNat 32 z.stride ≠ 0#32 := by cases z <;> decide
  rw [ClassShape.servePool, taken_shape]
  cases hopen : v.opened with
  | true =>
    have hshape : v.shape.opened = true := hopen
    rw [if_pos hshape]
    cases hk : least 100 v.taken with
    | none =>
      rw [servePool_full hopen hk]
      exact ⟨rfl, rfl⟩
    | some k =>
      rw [servePool_slot hopen hk]
      exact ⟨(v.shape_put k ⟨_, z.stride - METASIZE, n⟩).symm, v.answeredBy_put k _⟩
  | false =>
    have hshape : v.shape.opened = false := hopen
    rw [if_neg (by rw [hshape]; decide)]
    by_cases hflag : v.pageFlag = 0#32
    · have hasked : v.shape.asked = false := decide_eq_false (not_not.mpr hflag)
      have hgranted : v.granted pl n answer = answer.isSome := by
        rw [granted, ClassShape.comesToMmap, hz]
        simp [hshape, hasked]
      rw [if_neg (by rw [hasked]; decide), hgranted]
      cases answer with
      | none =>
        rw [servePool_failed hopen hflag]
        refine ⟨?_, rfl⟩
        simp [shape, hstride, hopen]
      | some ptr =>
        rw [servePool_opened hopen hflag]
        refine ⟨?_, answeredBy_put _ _ _⟩
        rw [shape_put, Option.isSome_some, if_pos rfl]
        simp [shape, hstride]
    · have hasked : v.shape.asked = true := decide_eq_true hflag
      rw [if_pos hasked, servePool_refused hopen hflag]
      exact ⟨rfl, rfl⟩

/-- The LARGE class serves a request without looking at addresses. -/
theorem serveLarge_shape (hz : zoneOf n = .large) (answer : Option Nat) :
    (v.shape.serveLarge pl n (v.granted pl n answer)).2 = (v.serveLarge pl n answer).2.shape ∧
      (v.serveLarge pl n answer).2.AnsweredBy (v.serveLarge pl n answer).1
        (v.shape.serveLarge pl n (v.granted pl n answer)).1 := by
  have hgranted : v.granted pl n answer
      = ((least 100 v.taken).isSome && decide (pl.Fits n) && answer.isSome) := by
    rw [granted, ClassShape.comesToMmap, hz, taken_shape]
  rw [ClassShape.serveLarge, taken_shape, hgranted]
  cases hk : least 100 v.taken with
  | none =>
    rw [serveLarge_null (.inl hk)]
    exact ⟨rfl, rfl⟩
  | some k =>
    dsimp only
    cases answer with
    | none =>
      rw [serveLarge_null (.inr (.inl rfl)), if_neg (by simp)]
      exact ⟨rfl, rfl⟩
    | some ptr =>
      by_cases hfits : pl.Fits n
      · rw [serveLarge_opened hk hfits, if_pos (by simp [hfits])]
        exact ⟨(v.shape_put k ⟨_, pl.largeLen n - METASIZE, n⟩).symm, v.answeredBy_put k _⟩
      · rw [serveLarge_null (.inr (.inr hfits)), if_neg (by simp [hfits])]
        exact ⟨rfl, rfl⟩

/-- **A class serves a request without looking at addresses.** -/
theorem serve_shape (v : ClassView) (pl : Platform) (n : Nat) (answer : Option Nat) :
    (v.shape.serve pl n (v.granted pl n answer)).2 = (v.serve pl n answer).2.shape ∧
      (v.serve pl n answer).2.AnsweredBy (v.serve pl n answer).1
        (v.shape.serve pl n (v.granted pl n answer)).1 := by
  rw [ClassShape.serve, serve]
  cases hz : zoneOf n with
  | pool z => exact servePool_shape hz answer
  | large => exact serveLarge_shape hz answer

end ClassView

/-! ## The allocator without addresses -/

/-- The three classes, without addresses. -/
abbrev Shape := Zone → ClassShape

/-- A call whose pointer is given by the block it belongs to, `none` if it is no block's. -/
inductive Order
  | malloc (n : Nat)
  | free (o : Option AllocationOwner)
  | realloc (o : Option AllocationOwner) (n : Nat)
  | calloc (nmemb size : Nat)
  deriving DecidableEq, Repr

/-- The owner of a slot of a class. -/
def Zone.owner (Z : Zone) (k : Nat) : AllocationOwner :=
  match Z with
  | .pool z => ⟨some z, k⟩
  | .large => ⟨none, k⟩

namespace Shape

/-- Nothing has been served yet. -/
def fresh : Shape := fun _ ↦ .fresh

variable (σ : Shape)

/-- A request for `n` bytes is served by its class. -/
def request (pl : Platform) (n : Nat) (granted : Bool) : Option AllocationOwner × Shape :=
  let served := (σ (zoneOf n)).serve pl n granted
  (served.1.map (zoneOf n).owner, Function.update σ (zoneOf n) served.2)

/-- A block is given back. -/
def release : Option AllocationOwner → Shape
  | none => σ
  | some o => Function.update σ o.zone ((σ o.zone).erase o.slot)

/-- The order is to be met by a new block of `n` bytes. -/
def asks : Order → Option Nat
  | .malloc n => some (reqSize n)
  | .free _ => none
  | .realloc none _ => none
  | .realloc (some o) n =>
    if n = 0 ∨ ∃ room ∈ (σ o.zone).rooms o.slot, n ≤ room then none else some n
  | .calloc nmemb size => if SIZE_MAX < nmemb * size then none else some (reqSize (nmemb * size))

/-- An order is carried out: the block it is answered by, and what is left. -/
def exec (pl : Platform) (granted : Bool) : Order → Option AllocationOwner × Shape
  | .malloc n => σ.request pl (reqSize n) granted
  | .free o => (none, σ.release o)
  | .realloc none _ => (none, σ)
  | .realloc (some o) n =>
    if n = 0 then (none, σ.release (some o))
    else if ∃ room ∈ (σ o.zone).rooms o.slot, n ≤ room then (some o, σ)
    else
      let served := σ.request pl n granted
      if served.1 = none then served else (served.1, served.2.release (some o))
  | .calloc nmemb size =>
    if SIZE_MAX < nmemb * size then (none, σ) else σ.request pl (reqSize (nmemb * size)) granted

/-- Orders are carried out one after the other: the blocks they are answered by, and what is
left. -/
def play (pl : Platform) : Shape → List (Order × Bool) → List (Option AllocationOwner) × Shape
  | σ, [] => ([], σ)
  | σ, l :: ls =>
    let done := σ.exec pl l.2 l.1
    let rest := done.2.play pl ls
    (done.1 :: rest.1, rest.2)

end Shape

/-! ## Orders of the program -/

/-- The allocator without its addresses. -/
def Heap.shape (h : Heap) : Shape := fun Z ↦ (h.view Z).shape

theorem Heap.shape_initial (m : Memory) : (Heap.initial m).shape = .fresh := by
  funext Z
  show ((Heap.initial m).view Z).shape = .fresh
  rw [Heap.view_initial]
  rfl

/-- The call as an order.  `realloc(NULL, n)` is `malloc(n)`. -/
def Call.order (h : Heap) : Call → Order
  | .malloc n => .malloc n
  | .free p => .free (h.owner p)
  | .realloc p n => if p = 0 then .malloc n else .realloc (h.owner p) n
  | .calloc nmemb size => .calloc nmemb size

/-- A request for `n` bytes comes to `mmap`, and the kernel grants it. -/
def Heap.granted (pl : Platform) (os : OS) (h : Heap) (n : Nat) : Bool :=
  (h.view (zoneOf n)).granted pl n (os.answer h.mapped (pl.reqLen n))

/-- Whether the kernel grants the mapping that an order comes to ask for. -/
def Order.granted (pl : Platform) (os : OS) (h : Heap) (order : Order) : Bool :=
  match h.shape.asks order with
  | some n => h.granted pl os n
  | none => false

/-- What a step orders, with whether the kernel grants a mapping it comes to ask for. -/
def World.orders (pl : Platform) (w : World) : Action → List (Order × Bool)
  | .call _ call mmap munmap =>
    [(call.order w.heap, (call.order w.heap).granted pl (pl.os mmap munmap) w.heap)]
  | .write .. => []
  | .host .. => []

/-- The slot or the table index that a call is answered by. -/
def World.results (pl : Platform) (w : World) (a : Action) : List (Option AllocationOwner) :=
  if a.isCall then [w.result pl a] else []

/-! ## One call -/

theorem Slot.owner_zone (s : Slot) : s.allocationOwner.zone = s.zone := by cases s <;> rfl

theorem Slot.owner_slot (s : Slot) : s.allocationOwner.slot = s.index := by cases s <;> rfl

theorem Zone.slot_owner (Z : Zone) (k : Nat) : (Z.slot k).allocationOwner = Z.owner k := by
  cases Z <;> rfl

/-- The room of a slot, in the shape. -/
theorem Heap.rooms_shape (h : Heap) (Z : Zone) (k : Nat) :
    (h.shape Z).rooms k = (h.cell (Z.slot k)).map Cell.room := by
  rw [← h.cells_view]
  rfl

/-- Where the arenas are the same, so is the shape, up to the rooms. -/
theorem Heap.SameArenas.shape (ha : h.SameArenas h') {rooms : Nat → Option Nat}
    (hrooms : ∀ k, (h'.cell (Z.slot k)).map Cell.room = rooms k) :
    h'.shape Z = { h.shape Z with rooms := rooms } := by
  have hsame : ∀ k, (h'.shape Z).rooms k = rooms k := fun k ↦ (h'.rooms_shape Z k).trans (hrooms k)
  rw [← funext hsame]
  cases Z with
  | pool z =>
    show ClassShape.mk _ (h'.poolFlag z) (decide (h'.pageFlag z ≠ 0#32)) = _
    rw [ha.poolFlag, ha.pageFlag]
    rfl
  | large => rfl

theorem Heap.SameArenas.shape_eq (ha : h.SameArenas h')
    (hrooms : ∀ k, (h'.cell (Z.slot k)).map Cell.room = (h.cell (Z.slot k)).map Cell.room) :
    h'.shape Z = h.shape Z := by
  rw [ha.shape hrooms, ← funext (h.rooms_shape Z)]

/-- A request is met without looking at addresses. -/
theorem MallocStep.shape (hi : h.WF pl) (hn : 0 < n) (hm : MallocStep pl os h n r h') :
    h.shape.request pl n (h.granted pl os n) = (h'.owner r, h'.shape) := by
  obtain ⟨hshape, hans⟩ := (h.view (zoneOf n)).serve_shape pl n (os.answer h.mapped (pl.reqLen n))
  have hwf : h'.WF pl := by
    rcases hm.effect hi hn with ⟨-, hb⟩ | ⟨_, _, -, -, -, -, -, hb⟩
    · exact hb.wf
    · exact hb.wf
  rw [← hm.view hi] at hshape hans
  refine Prod.ext ?_ (funext fun D ↦ ?_)
  · have hfst : (h.shape.request pl n (h.granted pl os n)).1
        = ((h.view (zoneOf n)).shape.serve pl n (h.granted pl os n)).1.map (zoneOf n).owner := rfl
    rw [hfst]
    revert hans
    show ClassView.AnsweredBy _ _ ((h.view (zoneOf n)).shape.serve pl n (h.granted pl os n)).1 → _
    generalize ((h.view (zoneOf n)).shape.serve pl n (h.granted pl os n)).1 = o
    cases o with
    | none =>
      rintro (rfl : r = 0)
      exact h'.owner_zero.symm
    | some k =>
      rintro ⟨c, hc, (rfl : c.ptr = r)⟩
      have hcell : h'.cell ((zoneOf n).slot k) = some c := (h'.cells_view _ k).symm.trans hc
      rw [hwf.owner_of_cell hcell, Zone.slot_owner, Option.map_some]
  · show Function.update h.shape (zoneOf n) _ D = _
    by_cases hD : D = zoneOf n
    · rw [hD, Function.update_self]
      exact hshape
    · rw [Function.update_of_ne hD]
      exact congrArg ClassView.shape (hm.view_of_ne hi hn (Ne.symm hD)).symm

/-- A block is given back without looking at addresses. -/
theorem FreeStep.shape (hi : h.WF pl) (hf : FreeStep h p h') :
    h'.shape = h.shape.release (h.owner p) := by
  rcases hi.stray_or_cell p with hstray | ⟨s, c, hc, rfl⟩
  · rw [hf.eq_of_stray hstray, Heap.owner, hi.findLiveAllocation_eq_none.mpr hstray]
    rfl
  have hsame : h.SameArenas h' := by
    cases hf <;> exact ⟨rfl, rfl, rfl⟩
  have hother : ∀ t, t ≠ s → h'.cell t = h.cell t := by
    intro t hts
    rw [hf.cell hi]
    cases hd : h.cell t with
    | none => rfl
    | some d =>
      have hne : d.ptr ≠ c.ptr := fun e ↦ hts (hi.ptr_inj hd hc e)
      exact Option.filter_some_pos (by simpa using hne)
  rw [hi.owner_of_cell hc, Shape.release, Slot.owner_zone, Slot.owner_slot]
  funext Z
  by_cases hZ : Z = s.zone
  · subst hZ
    rw [Function.update_self]
    refine hsame.shape fun k ↦ ?_
    by_cases hk : k = s.index
    · rw [hk, Function.update_self, Zone.slot_index, hf.cell hi, hc]
      simp
    · have hts : s.zone.slot k ≠ s := fun e ↦ hk (by rw [← e, Zone.index_slot])
      rw [Function.update_of_ne hk, Heap.rooms_shape, hother _ hts]
  · rw [Function.update_of_ne hZ]
    refine hsame.shape_eq fun k ↦ ?_
    have hts : Z.slot k ≠ s := fun e ↦ hZ (by rw [← e, Zone.zone_slot])
    rw [hother _ hts]

/-- A size that is put on record does not show. -/
theorem Heap.shape_record (hi : h.WF pl) (hc : h.cell s = some c) (hfit : n ≤ c.room) :
    (h.record n s).shape = h.shape := by
  have hsame : h.SameArenas (h.record n s) := by
    cases s <;> exact ⟨rfl, rfl, rfl⟩
  funext Z
  refine hsame.shape_eq fun k ↦ ?_
  rw [Heap.cell_record hi hc hfit]
  by_cases hk : Z.slot k = s
  · rw [hk, Function.update_self, hc]
    rfl
  · rw [Function.update_of_ne hk]

/-- `realloc_impl` looks at addresses only to find the block. -/
theorem ReallocStep.shape (hi : h.WF pl) (hstep : ReallocStep pl os h p n r h') :
    h.shape.exec pl (((Call.realloc p n).order h).granted pl os h) ((Call.realloc p n).order h)
      = (h'.owner r, h'.shape) := by
  rw [Call.order]
  by_cases hp : p = 0
  · subst hp
    rw [if_pos rfl]
    exact (hstep.of_null hi).shape hi (reqSize_pos n)
  rw [if_neg hp]
  rcases hi.stray_or_cell p with hstray | ⟨s, c, hc, rfl⟩
  · obtain ⟨rfl, rfl⟩ := hstep.of_stray hp hstray
    rw [Heap.owner_zero, Heap.owner, hi.findLiveAllocation_eq_none.mpr hstray]
    rfl
  have howner := hi.owner_of_cell hc
  have hroom : (h.shape s.allocationOwner.zone).rooms s.allocationOwner.slot = some c.room := by
    rw [Slot.owner_zone, Slot.owner_slot, Heap.rooms_shape, Zone.slot_index, hc, Option.map_some]
  -- a block that has to move is one the shape has no room for
  have hmove : ∀ {r₁ h₁}, c.room < n → MallocStep pl os h n r₁ h₁ →
      h.shape.exec pl ((Order.realloc (some s.allocationOwner) n).granted pl os h)
          (.realloc (some s.allocationOwner) n)
        = if h₁.owner r₁ = none then (h₁.owner r₁, h₁.shape)
          else (h₁.owner r₁, h₁.shape.release (some s.allocationOwner)) := by
    intro r₁ h₁ hbig hm
    have hno : ¬ ∃ room ∈ (h.shape s.allocationOwner.zone).rooms s.allocationOwner.slot,
        n ≤ room := by
      rintro ⟨room, hmem, hle⟩
      obtain rfl := Option.some_inj.mp (hroom.symm.trans hmem)
      omega
    have hn : n ≠ 0 := by omega
    have hasks : h.shape.asks (.realloc (some s.allocationOwner) n) = some n :=
      if_neg (not_or.mpr ⟨hn, hno⟩)
    rw [Shape.exec, if_neg hn, if_neg hno, Order.granted, hasks]
    simp only [hm.shape hi (Nat.pos_of_ne_zero hn)]
  rw [howner]
  rcases hstep.of_cell hi hc with ⟨rfl, rfl, hf⟩ | ⟨hn, hfit, rfl, rfl⟩ | ⟨hbig, rfl, hm⟩ |
    ⟨hbig, hr, h₁, hm, hf⟩
  · rw [Shape.exec, if_pos rfl, Heap.owner_zero, hf.shape hi, howner]
  · have hsame : (h.record n s).owner c.ptr = h.owner c.ptr := by cases s <;> rfl
    rw [Shape.exec, if_neg hn, if_pos ⟨c.room, hroom, hfit⟩, Heap.shape_record hi hc hfit, hsame,
      howner]
  · rw [hmove hbig hm, if_pos h'.owner_zero]
  · obtain ⟨s', c', hne, -, -, rfl, -, hle, hb, hcs, hcs', -⟩ := hm.copy_spec hi hc hbig hr
    have hsize := (hi.cell_size_le hc).2
    obtain ⟨hwf, hcell, -⟩ := hb.wf.copyTo hcs' (by omega : c.size ≤ c'.room) c.ptr
    have hshape : (h₁.copyTo c'.ptr c.ptr c.size).shape = h₁.shape := by
      have hsame : h₁.SameArenas (h₁.copyTo c'.ptr c.ptr c.size) := ⟨rfl, rfl, rfl⟩
      exact funext fun Z ↦ hsame.shape_eq fun k ↦ by rw [hcell]
    have hold : (h₁.copyTo c'.ptr c.ptr c.size).owner c.ptr = some s.allocationOwner :=
      hwf.owner_of_cell (by rw [hcell, hcs])
    -- the new block outlives the old one
    have hnew : h'.cell s' = some c' := by
      have hptr : c'.ptr ≠ c.ptr := fun e ↦ hne (hb.wf.ptr_inj hcs' hcs e)
      rw [hf.cell hwf, hcell, hcs']
      exact Option.filter_some_pos (by simpa using hptr)
    have hwf' : h'.WF pl := by
      rcases hf.effect hwf with ⟨-, rfl⟩ | ⟨_, _, -, -, hb'⟩
      · exact hwf
      · exact hb'.wf
    rw [hmove hbig hm, hb.wf.owner_of_cell hcs', if_neg (by simp), hf.shape hwf, hshape, hold,
      hwf'.owner_of_cell hnew]

/-- **A public call looks at addresses only to find the block it is given.** -/
theorem CallStep.shape (hi : h.WF pl) (hstep : CallStep pl os h call r h') :
    h.shape.exec pl ((call.order h).granted pl os h) (call.order h)
      = (h'.owner r, h'.shape) := by
  cases hstep with
  | malloc hm => exact hm.shape hi (reqSize_pos _)
  | free hf =>
    rw [Heap.owner_zero, hf.shape hi]
    rfl
  | realloc hr => exact hr.shape hi
  | @calloc nmemb size _ _ hz =>
    have hreq : ∀ {r₁ h₁}, nmemb * size ≤ SIZE_MAX →
        MallocStep pl os h (reqSize (nmemb * size)) r₁ h₁ →
        h.shape.exec pl ((Order.calloc nmemb size).granted pl os h) (.calloc nmemb size)
          = (h₁.owner r₁, h₁.shape) := by
      intro r₁ h₁ hfit hm
      have hasks : h.shape.asks (.calloc nmemb size) = some (reqSize (nmemb * size)) :=
        if_neg (by omega)
      rw [Shape.exec, if_neg (by omega), Order.granted, hasks]
      exact hm.shape hi (reqSize_pos _)
    cases hz with
    | overflow hover =>
      show (if SIZE_MAX < nmemb * size then _ else _) = _
      rw [if_pos hover, Heap.owner_zero]
      rfl
    | failed hfit hm => exact hreq hfit hm
    | zeroed hfit hr hm =>
      rw [Call.order, hreq hfit hm]
      exact Prod.ext rfl (funext fun Z ↦ congrArg ClassView.shape (hm.view_zero hi hr Z).symm)

/-! ## Every run -/

/-- What a run orders. -/
def World.orderTrace (pl : Platform) : World → List Action → List (Order × Bool) :=
  traceFrom (World.next pl) (World.orders pl)

/-- What the calls of a run are answered by. -/
def World.resultTrace (pl : Platform) : World → List Action → List (Option AllocationOwner) :=
  traceFrom (World.next pl) (World.results pl)

theorem Shape.play_append (σ : Shape) (ls ms : List (Order × Bool)) :
    σ.play pl (ls ++ ms) = ((σ.play pl ls).1 ++ ((σ.play pl ls).2.play pl ms).1,
      ((σ.play pl ls).2.play pl ms).2) := by
  induction ls generalizing σ with
  | nil => rfl
  | cons l ls ih => simp only [List.cons_append, Shape.play, ih]

/-- **A step looks at addresses only to find the block it is about.** -/
theorem Step.play (hw : w.WF pl) (hstep : Step pl w a w') :
    w.heap.shape.play pl (w.orders pl a) = (w.results pl a, w'.heap.shape) := by
  cases hstep with
  | @call t call mmap munmap r h' hrun =>
    obtain ⟨h₁, hcall, rfl⟩ := hw.call_step hrun
    have hexec : w.heap.shape.exec pl
        ((call.order w.heap).granted pl (pl.os mmap munmap) w.heap) (call.order w.heap)
          = (h₁.unlock.owner r, h₁.unlock.shape) := by
      have hlock := hcall.shape (hw.heap.lock t)
      cases call <;> exact hlock
    show Shape.play pl w.heap.shape [_] = ([w.result pl _], _)
    rw [w.result_eq hrun, Shape.play, Shape.play, hexec]
  | @write t p i v b hb hp hi =>
    subst hp
    obtain ⟨s, c, hc, hat⟩ := hw.cell_of_live hb
    have hsame : w.heap.SameArenas (w.write b.ptr i v).heap := ⟨rfl, rfl, rfl⟩
    refine Prod.ext rfl (funext fun Z ↦ (hsame.shape_eq fun k ↦ ?_).symm)
    rw [(hw.cell_write hc hat hi v).2.1]
  | @host m errno hm =>
    have hsame : w.heap.SameArenas { w.heap with mem := m, errno := errno } := ⟨rfl, rfl, rfl⟩
    refine Prod.ext rfl (funext fun Z ↦ (hsame.shape_eq fun k ↦ ?_).symm)
    rw [hw.cell_host errno hm]

/-- **A run looks at addresses only to find the blocks it is about**: what it answers, and what it
leaves, is what the orders make of the shape it starts from. -/
theorem World.WF.play : ∀ (as : List Action) {w : World}, w.WF pl → Run (Step pl) w as w' →
    w.heap.shape.play pl (w.orderTrace pl as) = (w.resultTrace pl as, w'.heap.shape)
  | [], w, _, hrun => by
    obtain rfl := Run.nil_iff.mp hrun
    rfl
  | a :: as, w, hw, hrun => by
    obtain ⟨u, hstep, hrest⟩ := Run.cons_iff.mp hrun
    have hnext := hstep.next_eq
    have ih := World.WF.play as (hstep.wf hw) hrest
    rw [World.orderTrace, World.resultTrace, traceFrom, traceFrom, hnext, Shape.play_append,
      hstep.play hw]
    show (_ ++ (u.heap.shape.play pl (u.orderTrace pl as)).1,
      (u.heap.shape.play pl (u.orderTrace pl as)).2) = _
    rw [ih]
    rfl

/-- **It does not matter where the kernel places the mappings.**  Two runs of the program that make
the same orders — the same calls with the same sizes, for the same slots, with a mapping granted or
refused at the same places — hand out the same slots in the same order and leave the same slots in
use, whatever the addresses, the bytes in memory, the threads, the writes in between and the
mappings of others. -/
theorem placement_irrelevant {m m' : Memory} {as as' : List Action}
    (hrun : Run (Step pl) (World.initial m) as w) (hrun' : Run (Step pl) (World.initial m') as' w')
    (hsame : (World.initial m').orderTrace pl as' = (World.initial m).orderTrace pl as) :
    (World.initial m').resultTrace pl as' = (World.initial m).resultTrace pl as ∧
      w'.heap.shape = w.heap.shape := by
  -- both runs start from the same shape, so the orders make the same of it
  have hstart : (World.initial m').heap.shape = (World.initial m).heap.shape :=
    (Heap.shape_initial m').trans (Heap.shape_initial m).symm
  have hplay := World.WF.play as (.initial pl m) hrun
  have hplay' := World.WF.play as' (.initial pl m') hrun'
  rw [hstart, hsame, hplay, Prod.mk.injEq] at hplay'
  exact ⟨hplay'.1.symm, hplay'.2.symm⟩

/-- The calls `as` come back, one after the other. -/
def World.returns (pl : Platform) : World → List Action → Bool
  | _, [] => true
  | w, .call t call mmap munmap :: as =>
    (w.answer pl t call mmap munmap).isSome && (w.after pl t call mmap munmap).returns pl as
  | _, _ => false

theorem World.run_of_returns : ∀ (as : List Action) (w : World), w.returns pl as = true →
    Run (Step pl) w as (as.foldl (World.next pl) w)
  | [], w, _ => .nil w
  | .call t call mmap munmap :: as, w, hall => by
    obtain ⟨hone, hrest⟩ := (Bool.and_eq_true _ _).mp hall
    obtain ⟨r, hr⟩ := Option.isSome_iff_exists.mp hone
    exact (World.run_of_returns as _ hrest).cons (.of_answer hr)

/-- A block moves from one class to another, in two places. -/
theorem placement_irrelevant_twoPlaces :
    let as :=
      [.call 1 (.malloc 1) (some 0x1000) true, .call 1 (.realloc 0x1010 600) (some 0x4000) true]
    let as' :=
      [.call 5 (.malloc 1) (some 0x90000) true, .call 6 (.realloc 0x90010 600) (some 0x2000) true]
    let w := World.initial fun _ ↦ 0#8
    let w' := World.initial fun _ ↦ 7#8
    w'.resultTrace .pages4k as' = w.resultTrace .pages4k as ∧
      (as'.foldl (World.next .pages4k) w').heap.shape =
        (as.foldl (World.next .pages4k) w).heap.shape :=
  placement_irrelevant (World.run_of_returns _ _ (by decide +kernel))
    (World.run_of_returns _ _ (by decide +kernel)) (by decide +kernel)

end FtMalloc
