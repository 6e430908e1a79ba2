import Mathlib.Data.Finset.Card
import Mathlib.Data.Finset.Range
import FtMalloc.FreeZone

/-!
# The layout of the heap, and its invariant

A *slot* is a place an allocation can be at: slot `k` of an arena, or entry `i` of the LARGE table.
`Heap.Exists` says that the memory of the slot is there, `Heap.Taken` that the slot is handed out,
`Heap.extent` is the memory of the slot, header first, and `Heap.cell` is what a taken slot offers
its holder: a payload address, the room behind it and the recorded size.

`Heap.WF` is the one invariant of the development.  It ties together the bitmaps, the geometry of
the arenas, the LARGE table, the headers in memory and the mappings of the process.  What the other
modules use of it is mostly geometry:

* `Heap.WF.extent_apart` — the extents of two slots share no byte;
* `Heap.WF.extent_within` — each extent lies in a mapping.
-/

set_option autoImplicit false

namespace FtMalloc

open ByteMemory CharMap

/-! ## Slots -/

/-- A place an allocation can be at. -/
inductive Slot
  /-- Slot `k` of the arena of a pool. -/
  | pool (z : Pool) (k : Nat)
  /-- Entry `i` of the LARGE table. -/
  | large (i : Nat)
  deriving DecidableEq, Repr

/-- The three classes of allocations. -/
inductive Zone
  | pool (z : Pool)
  | large
  deriving DecidableEq, Repr

/-- Who a mapping was made for. -/
inductive Owner
  | arena (z : Pool)
  | large (i : Nat)
  deriving DecidableEq, Repr

/-- The class of a slot. -/
def Slot.zone : Slot → Zone
  | .pool z _ => .pool z
  | .large _ => .large

/-- The number of a slot within its class. -/
def Slot.index : Slot → Nat
  | .pool _ k => k
  | .large i => i

/-- Slot `k` of a class. -/
def Zone.slot : Zone → Nat → Slot
  | .pool z, k => .pool z k
  | .large, i => .large i

@[simp] theorem Zone.slot_index (s : Slot) : s.zone.slot s.index = s := by
  cases s <;> rfl

@[simp] theorem Zone.zone_slot (Z : Zone) (k : Nat) : (Z.slot k).zone = Z := by
  cases Z <;> rfl

@[simp] theorem Zone.index_slot (Z : Zone) (k : Nat) : (Z.slot k).index = k := by
  cases Z <;> rfl

/-- The mapping a slot is part of. -/
def Slot.owner : Slot → Owner
  | .pool z _ => .arena z
  | .large i => .large i

namespace Heap

/-- The header of slot `k` of a pool, `&manage_free._tiny[k]` or `&manage_free._small[k]`. -/
def slotAddr (h : Heap) (z : Pool) (k : Nat) : Nat := h.base z + z.stride * k

/-- The memory of the slot has been mapped. -/
def Exists (h : Heap) : Slot → Prop
  | .pool z k => h.poolFlag z = true ∧ k < 100
  | .large i => h.large i ≠ 0

/-- The slot is handed out. -/
def Taken (h : Heap) : Slot → Prop
  | .pool z k => bit (h.bitmap z) k = true
  | .large i => h.large i ≠ 0

instance (h : Heap) : DecidablePred h.Taken
  | .pool z k => inferInstanceAs (Decidable (bit (h.bitmap z) k = true))
  | .large i => inferInstanceAs (Decidable (h.large i ≠ 0))

/-- The memory of the slot: the header and the payload behind it. -/
def extent (h : Heap) : Slot → Region
  | .pool z k => ⟨h.slotAddr z k, z.stride⟩
  | .large i => ⟨h.large i, metaSize h.mem (h.large i)⟩

/-- The size on record for the slot. -/
def recorded (h : Heap) : Slot → Nat
  | .pool z k => (metaClientSize h.mem (h.slotAddr z k)).toNat
  | .large i => h.largeRequestSizes i

end Heap

/-- What a slot offers its holder. -/
structure Cell where
  /-- The address of the payload. -/
  ptr : Nat
  /-- The number of bytes the payload has room for. -/
  room : Nat
  /-- The size on record. -/
  size : Nat
  deriving DecidableEq, Repr

/-- The payload bytes of a cell, all of its room. -/
def Cell.payload (c : Cell) : Region := ⟨c.ptr, c.room⟩

namespace Heap

/-- What the slot offers its holder, `none` if it has none. -/
def cell (h : Heap) (s : Slot) : Option Cell :=
  if h.Taken s then
    some ⟨(h.extent s).base + METASIZE, (h.extent s).len - METASIZE, h.recorded s⟩
  else none

/-- The mapping made for an owner. -/
def region (h : Heap) (pl : Platform) : Owner → Option Region
  | .arena z => if h.poolFlag z then some ⟨h.base z, pl.arenaLen z⟩ else none
  | .large i => if h.large i ≠ 0 then some ⟨h.large i, metaSize h.mem (h.large i)⟩ else none

/-- The entries of the LARGE table in use. -/
def tableSet (h : Heap) : Finset Nat := (Finset.range 100).filter fun i ↦ h.large i ≠ 0

/-- The slots of a class that are handed out, by number. -/
def takenSet (h : Heap) (Z : Zone) : Finset Nat :=
  (Finset.range 100).filter fun k ↦ h.Taken (Z.slot k)

variable {h : Heap} {s : Slot} {c : Cell}

@[simp] theorem mem_tableSet {i : Nat} : i ∈ h.tableSet ↔ i < 100 ∧ h.large i ≠ 0 := by
  rw [tableSet, Finset.mem_filter, Finset.mem_range]

theorem cell_eq_some : h.cell s = some c ↔ h.Taken s ∧
    c = ⟨(h.extent s).base + METASIZE, (h.extent s).len - METASIZE, h.recorded s⟩ := by
  rw [cell]
  split
  · rename_i ht
    rw [Option.some_inj]
    exact ⟨fun e ↦ ⟨ht, e.symm⟩, fun e ↦ e.2.symm⟩
  · rename_i ht
    exact ⟨fun e ↦ absurd e (by simp), fun e ↦ absurd e.1 ht⟩

theorem cell_of_taken (ht : h.Taken s) :
    h.cell s = some ⟨(h.extent s).base + METASIZE, (h.extent s).len - METASIZE, h.recorded s⟩ :=
  if_pos ht

theorem cell_eq_none : h.cell s = none ↔ ¬ h.Taken s := by
  rw [cell]
  split <;> simp_all

theorem taken_of_cell (hc : h.cell s = some c) : h.Taken s := (cell_eq_some.mp hc).1

/-- No slot is handed out when the library is loaded. -/
theorem cell_initial (m : Memory) (s : Slot) : (Heap.initial m).cell s = none := by
  refine cell_eq_none.mpr fun ht ↦ ?_
  cases s with
  | pool z k => exact absurd ht (by simp [Taken, Heap.initial])
  | large i => exact ht rfl

end Heap

/-! ## The invariant -/

/-- A region the kernel can have made: not at address zero, aligned, not wrapping around. -/
structure IsMapping (r : Region) : Prop where
  base_pos : 0 < r.base
  len_pos : 0 < r.len
  aligned : 16 ∣ r.base
  stop_le : r.base + r.len ≤ 2 ^ 64

/-- The invariant of the allocator between public calls. -/
structure Heap.WF (h : Heap) (pl : Platform) : Prop where
  /-- The page size cache is empty or right. -/
  cache : PageCached pl h
  /-- The flags of `calculater_page_size` hold their own size type or nothing. -/
  flags : PageFlags h
  /-- Only slots below 100 of an arena that was set up are marked as taken. -/
  bit_lt : ∀ z k, bit (h.bitmap z) k = true → h.poolFlag z = true ∧ k < 100
  /-- The header of a pool slot names the stride, the bitmap byte and the bit. -/
  header : ∀ z k, h.poolFlag z = true → k < 100 →
    metaSize h.mem (h.slotAddr z k) = z.stride ||| (k >>> 3) ∧
      metaPosition h.mem (h.slotAddr z k) = ((k &&& POS_MASK : Nat) : Int)
  /-- The size on record for a taken pool slot fits the slot. -/
  clientSize : ∀ z k, bit (h.bitmap z) k = true →
    0 < metaClientSize h.mem (h.slotAddr z k) ∧
      metaClientSize h.mem (h.slotAddr z k) + METASIZE ≤ z.stride
  /-- Only the first hundred entries of the LARGE table are used. -/
  large_lt : ∀ i, h.large i ≠ 0 → i < 100
  /-- Before the first LARGE request the table is empty. -/
  large_flag : h.largeFlag = false → ∀ i, h.large i = 0
  /-- The header of a LARGE block names its table index and, in multiples of 16, its length. -/
  large_header : ∀ i, h.large i ≠ 0 →
    16 ∣ metaSize h.mem (h.large i) ∧ metaPosition h.mem (h.large i) = (i : Int)
  /-- The size on record for a LARGE block fits its mapping. -/
  large_size : ∀ i, h.large i ≠ 0 → 0 < h.largeRequestSizes i ∧
    h.largeRequestSizes i + METASIZE ≤ metaSize h.mem (h.large i)
  /-- The header of a LARGE block has that size too, as an `int`. -/
  large_client : ∀ i, h.large i ≠ 0 →
    metaClientSize h.mem (h.large i) = asInt (h.largeRequestSizes i)
  /-- No size is on record for a free entry. -/
  large_free : ∀ i, h.large i = 0 → h.largeRequestSizes i = 0
  /-- `large_cnt` counts the entries in use. -/
  large_cnt : h.largeCnt = (h.tableSet.card : Int)
  /-- Each mapping is one the kernel can have made. -/
  region_mapped : ∀ o r, h.region pl o = some r → IsMapping r
  /-- Different owners have mappings that share no byte. -/
  region_apart : ∀ o o' r r', o ≠ o' → h.region pl o = some r → h.region pl o' = some r' →
    r.Apart r'
  /-- The mappings of the process are those of the owners. -/
  mem_mapped : ∀ r, r ∈ h.mapped ↔ ∃ o, h.region pl o = some r
  /-- No mapping is on the list twice. -/
  mapped_nodup : h.mapped.Nodup

/-- **The allocator starts well.** -/
theorem Heap.WF.initial (pl : Platform) (m : Memory) : (Heap.initial m).WF pl where
  cache := .inl rfl
  flags := fun _ ↦ .inl rfl
  bit_lt := fun z k hb ↦ absurd hb (by simp [Heap.initial])
  header := fun z k hz ↦ absurd hz (by simp [Heap.initial])
  clientSize := fun z k hb ↦ absurd hb (by simp [Heap.initial])
  large_lt := fun i hi ↦ absurd rfl hi
  large_flag := fun _ _ ↦ rfl
  large_header := fun i hi ↦ absurd rfl hi
  large_size := fun i hi ↦ absurd rfl hi
  large_client := fun i hi ↦ absurd rfl hi
  large_free := fun _ _ ↦ rfl
  large_cnt := by simp [Heap.initial, Heap.tableSet]
  region_mapped := fun o r hr ↦ by cases o <;> simp [Heap.region, Heap.initial] at hr
  region_apart := fun o _ r _ _ hr ↦ by cases o <;> simp [Heap.region, Heap.initial] at hr
  mem_mapped := fun r ↦ by
    refine ⟨fun hr ↦ absurd hr (by simp [Heap.initial]), ?_⟩
    rintro ⟨o, hr⟩
    cases o <;> simp [Heap.region, Heap.initial] at hr
  mapped_nodup := List.nodup_nil

/-! ## Geometry -/

theorem Pool.stride_bounds (z : Pool) : METASIZE < z.stride ∧ z.stride ≤ SMALL ∧ 16 ∣ z.stride := by
  cases z <;> decide

namespace Heap.WF

variable {pl : Platform} {h : Heap} {s t : Slot} {c d : Cell}

theorem index_lt (hi : h.WF pl) (ht : h.Taken s) : s.index < 100 := by
  cases s with
  | pool z k => exact (hi.bit_lt z k ht).2
  | large i => exact hi.large_lt i ht

theorem mem_takenSet (hi : h.WF pl) {Z : Zone} {k : Nat} :
    k ∈ h.takenSet Z ↔ h.Taken (Z.slot k) := by
  rw [Heap.takenSet, Finset.mem_filter, Finset.mem_range]
  refine ⟨And.right, fun ht ↦ ⟨?_, ht⟩⟩
  simpa using hi.index_lt ht

theorem exists_of_taken (hi : h.WF pl) (ht : h.Taken s) : h.Exists s := by
  cases s with
  | pool z k => exact hi.bit_lt z k ht
  | large i => exact ht

/-- The extent of a slot lies in the mapping of its owner. -/
theorem extent_within (pl : Platform) (hs : h.Exists s) :
    ∃ r, h.region pl s.owner = some r ∧ (h.extent s).Within r := by
  cases s with
  | pool z k =>
    refine ⟨_, if_pos hs.1, ?_, ?_⟩
    · simp only [Heap.extent, Heap.slotAddr]
      omega
    · have hlen := pl.arenaLen_ge z
      have hmul : z.stride * k + z.stride ≤ z.stride * 100 := by
        rw [← Nat.mul_succ]
        exact Nat.mul_le_mul_left _ hs.2
      simp only [Heap.extent, Heap.slotAddr]
      omega
  | large i => exact ⟨_, if_pos hs, Region.Within.refl _⟩

/-- **The extents of two slots share no byte.** -/
theorem extent_apart (hi : h.WF pl) (hs : h.Exists s) (ht : h.Exists t) (hne : s ≠ t) :
    (h.extent s).Apart (h.extent t) := by
  by_cases ho : s.owner = t.owner
  · cases s with
    | pool z k =>
      cases t with
      | pool y j =>
        obtain rfl : z = y := by simpa [Slot.owner] using ho
        have hkj : k ≠ j := fun e ↦ hne (by rw [e])
        simp only [Region.Apart, Heap.extent, Heap.slotAddr]
        rcases Nat.lt_or_gt_of_ne hkj with hlt | hlt
        · left
          have hmul : z.stride * k + z.stride ≤ z.stride * j := by
            rw [← Nat.mul_succ]
            exact Nat.mul_le_mul_left _ hlt
          omega
        · right
          have hmul : z.stride * j + z.stride ≤ z.stride * k := by
            rw [← Nat.mul_succ]
            exact Nat.mul_le_mul_left _ hlt
          omega
      | large j => simp [Slot.owner] at ho
    | large i =>
      cases t with
      | pool y j => simp [Slot.owner] at ho
      | large j => exact absurd (by simpa [Slot.owner] using ho) fun e : i = j ↦ hne (by rw [e])
  · obtain ⟨r, hr, hrs⟩ := extent_within pl hs
    obtain ⟨r', hr', hrt⟩ := extent_within pl ht
    exact (hi.region_apart _ _ _ _ ho hr hr').mono hrs hrt

/-- The extent of a slot has room for the header and at least one byte behind it, is aligned and
does not wrap. -/
theorem extent_mapped (hi : h.WF pl) (hs : h.Exists s) :
    IsMapping (h.extent s) ∧ METASIZE < (h.extent s).len := by
  cases s with
  | pool z k =>
    have hb := z.stride_bounds
    obtain ⟨r, hr, hw⟩ := extent_within pl hs
    obtain rfl : (⟨h.base z, pl.arenaLen z⟩ : Region) = r := by
      simpa [Slot.owner, Heap.region, hs.1] using hr
    have hm := hi.region_mapped _ _ hr
    refine ⟨⟨?_, ?_, ?_, ?_⟩, hb.1⟩
    · have hpos : 0 < h.base z := hm.base_pos
      simp only [Heap.extent, Heap.slotAddr]
      omega
    · have hlen := hb.1
      simp only [Heap.extent]
      omega
    · exact Nat.dvd_add hm.aligned (hb.2.2.mul_right k)
    · exact Nat.le_trans hw.2 hm.stop_le
  | large i =>
    have hsz := hi.large_size i hs
    refine ⟨hi.region_mapped (.large i) _ (if_pos hs), ?_⟩
    simp only [Heap.extent]
    omega

/-- The size on record is positive and fits the room. -/
theorem recorded_le (hi : h.WF pl) (ht : h.Taken s) :
    0 < h.recorded s ∧ h.recorded s + METASIZE ≤ (h.extent s).len := by
  cases s with
  | pool z k =>
    have hsz := hi.clientSize z k ht
    simp only [Heap.recorded, Heap.extent]
    omega
  | large i => exact hi.large_size i ht

theorem cell_size_le (hi : h.WF pl) (hc : h.cell s = some c) : 0 < c.size ∧ c.size ≤ c.room := by
  obtain ⟨ht, rfl⟩ := Heap.cell_eq_some.mp hc
  have hsz := hi.recorded_le ht
  refine ⟨hsz.1, ?_⟩
  show h.recorded s ≤ (h.extent s).len - METASIZE
  omega

theorem extent_of_cell (hi : h.WF pl) (hc : h.cell s = some c) :
    c.ptr = (h.extent s).base + METASIZE ∧ c.room + METASIZE = (h.extent s).len := by
  obtain ⟨ht, rfl⟩ := Heap.cell_eq_some.mp hc
  have hm := hi.extent_mapped (hi.exists_of_taken ht)
  refine ⟨rfl, ?_⟩
  show (h.extent s).len - METASIZE + METASIZE = _
  omega

/-- No payload is at `NULL`. -/
theorem ptr_ne_zero (hi : h.WF pl) (hc : h.cell s = some c) : c.ptr ≠ 0 := by
  have hp := (hi.extent_of_cell hc).1
  rw [METASIZE] at hp
  omega

theorem payload_within (hi : h.WF pl) (hc : h.cell s = some c) :
    c.payload.Within (h.extent s) := by
  have he := hi.extent_of_cell hc
  simp only [Region.Within, Cell.payload]
  omega

/-- The payload of a cell meets no other slot. -/
theorem payload_apart (hi : h.WF pl) (hc : h.cell s = some c) (ht : h.Exists t) (hne : s ≠ t) :
    c.payload.Apart (h.extent t) :=
  (hi.extent_apart (hi.exists_of_taken (Heap.taken_of_cell hc)) ht hne).mono
    (hi.payload_within hc) (Region.Within.refl _)

/-- The payload of a cell meets no header. -/
theorem payload_apart_header (hi : h.WF pl) (hc : h.cell s = some c) (ht : h.Exists t) :
    c.payload.Apart ⟨(h.extent t).base, METASIZE⟩ := by
  have hm := hi.extent_mapped ht
  by_cases hne : s = t
  · subst hne
    have he := hi.extent_of_cell hc
    right
    simp only [Cell.payload]
    omega
  · refine (hi.payload_apart hc ht hne).mono (Region.Within.refl _) ?_
    simp only [Region.Within]
    omega

/-- Different slots have different payload addresses. -/
theorem ptr_inj (hi : h.WF pl) (hc : h.cell s = some c) (hd : h.cell t = some d)
    (hptr : c.ptr = d.ptr) : s = t := by
  by_contra hne
  have hap := hi.payload_apart hc (hi.exists_of_taken (Heap.taken_of_cell hd)) hne
  have hw := hi.payload_within hd
  have hcr := hi.cell_size_le hc
  have hdr := hi.cell_size_le hd
  simp only [Region.Apart, Region.Within, Cell.payload] at hap hw
  omega

/-- Every mapping of the process has an owner. -/
theorem owned (hi : h.WF pl) : Region.Owned IsMapping (h.region pl) h.mapped where
  kind := hi.region_mapped
  apart := hi.region_apart
  mem := hi.mem_mapped
  nodup := hi.mapped_nodup

end Heap.WF

end FtMalloc
