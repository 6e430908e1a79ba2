import FtMalloc.Safety

/-!
# Pointers of any kind

What `free` and `realloc` make of an address they are given, whatever it is: `NULL`, inside a block,
a header, behind the last slot of an arena, freed before, or foreign with any bytes around it.
`pointers_checked` says that the payload addresses of the live blocks are told from all others, that
the others are left alone, and that memory has no say in it.
-/

set_option autoImplicit false

namespace FtMalloc

open ByteMemory CharMap

variable {pl : Platform} {os : OS} {h : Heap} {w : World} {b : Block} {p : Nat}

/-- The header and the owner are those of the block. -/
def Block.NamedBy (b : Block) (h : Heap) (hdr : Nat) (owner : AllocationOwner) : Prop :=
  hdr + METASIZE = b.ptr ∧ owner.slot < 100 ∧
    match b.zone with
    | .pool z => owner.bitmap = some z ∧ hdr = h.slotAddr z owner.slot
    | .large => owner.bitmap = none ∧ hdr = h.large owner.slot

/-- What `find_live_allocation` finds in a well-formed world. -/
theorem World.WF.find_some (hw : w.WF pl) {hdr : Nat} {owner : AllocationOwner}
    (hfind : findLiveAllocation w.heap p = some (hdr, owner)) :
    ∃ b ∈ w.live, b.ptr = p ∧ b.NamedBy w.heap hdr owner := by
  obtain ⟨s, c, hc, rfl, rfl, rfl⟩ := hw.heap.findLiveAllocation_eq_some.mp hfind
  obtain ⟨b, hb, hat⟩ := hw.tracks.complete s c hc
  have hlt := hw.heap.index_lt (Heap.taken_of_cell hc)
  refine ⟨b, hb, hat.ptr.symm, ?_, ?_, ?_⟩
  · rw [← hat.ptr, (hw.heap.extent_of_cell hc).1]
  · cases s <;> exact hlt
  · rw [← hat.zone]
    cases s <;> exact ⟨rfl, rfl⟩

/-- `find_live_allocation` turns down an address exactly when no live block starts there. -/
theorem World.WF.find_none_iff (hw : w.WF pl) (p : Nat) :
    findLiveAllocation w.heap p = none ↔ ∀ b ∈ w.live, b.ptr ≠ p := by
  rw [hw.heap.findLiveAllocation_eq_none, hw.stray_iff]

/-- A public `free` of an address that is turned down. -/
theorem ftFree_none (hfree : h.mutex = none) (hnone : findLiveAllocation h p = none) (t : Nat) :
    ftFree os t p h = .ok ⟨⟩ h := by
  have hbody : freeImpl os p (h.lock t) = .ok ⟨⟩ (h.lock t) := freeImpl_none hnone
  rw [ftFree, bind_ok (manageFreeMutexLock_free t hfree), bind_ok hbody]
  show EStateM.Result.ok _ { h with mutex := none } = _
  rw [← hfree]

/-- A public `realloc` of an address that is turned down. -/
theorem ftRealloc_none (hfree : h.mutex = none) (hp : p ≠ 0)
    (hnone : findLiveAllocation h p = none) (t n : Nat) : ftRealloc os t p n h = .ok 0 h := by
  have hbody : reallocImpl os p n (h.lock t) = .ok 0 (h.lock t) :=
    reallocImpl_none (h := h.lock t) hp hnone n
  rw [ftRealloc, bind_ok (manageFreeMutexLock_free t hfree), bind_ok hbody]
  show EStateM.Result.ok _ { h with mutex := none } = _
  rw [← hfree]

/-- **Pointers are checked.**  In every reachable world and for every address `p`:

* `find_live_allocation` succeeds exactly when a live block starts at `p`, and names the header, the
  class and the slot of that block;
* the bytes of memory have no say in it;
* when no live block starts at `p`, `free` changes nothing at all, and neither does `realloc` to any
  size unless `p` is `NULL`; it answers `NULL`.  This is so whatever memory holds. -/
theorem pointers_checked (hw : w.Reachable pl) (p : Nat) :
    ((findLiveAllocation w.heap p).isSome ↔ ∃ b ∈ w.live, b.ptr = p) ∧
      (∀ hdr owner, findLiveAllocation w.heap p = some (hdr, owner) →
        ∃ b ∈ w.live, b.ptr = p ∧ b.NamedBy w.heap hdr owner) ∧
      (∀ m, findLiveAllocation { w.heap with mem := m } p = findLiveAllocation w.heap p) ∧
      ((∀ b ∈ w.live, b.ptr ≠ p) → ∀ (os : OS) (t : Nat) (m : Memory),
        ftFree os t p { w.heap with mem := m } = .ok ⟨⟩ { w.heap with mem := m } ∧
          (p ≠ 0 → ∀ n, ftRealloc os t p n { w.heap with mem := m }
            = .ok 0 { w.heap with mem := m })) := by
  have hwf := hw.wf
  refine ⟨?_, fun hdr owner hfind ↦ hwf.find_some hfind, fun m ↦ rfl, fun hnot os t m ↦ ?_⟩
  · rw [← not_iff_not, Bool.not_eq_true, Option.isSome_eq_false_iff, Option.isNone_iff_eq_none,
      hwf.find_none_iff]
    push Not
    rfl
  · have hnone : findLiveAllocation { w.heap with mem := m } p = none :=
      (hwf.find_none_iff p).mpr hnot
    refine ⟨?_, fun hp n ↦ ?_⟩
    · exact ftFree_none (h := { w.heap with mem := m }) hwf.unlocked hnone t
    · exact ftRealloc_none (h := { w.heap with mem := m }) hwf.unlocked hp hnone t n

/-- The address one byte into the TINY block is turned down. -/
theorem pointers_checked_interior : (∀ b ∈ World.twoBlocks.live, b.ptr ≠ 0x1011) ∧
    ∀ (os : OS) (t : Nat) (m : Memory),
      ftFree os t 0x1011 { World.twoBlocks.heap with mem := m }
        = .ok ⟨⟩ { World.twoBlocks.heap with mem := m } :=
  have hnot : ∀ b ∈ World.twoBlocks.live, b.ptr ≠ 0x1011 := by decide +kernel
  ⟨hnot, fun os t m ↦
    ((pointers_checked World.reachable_twoBlocks 0x1011).2.2.2 hnot os t m).1⟩

end FtMalloc
