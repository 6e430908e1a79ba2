import FtMalloc.Ownership

/-!
# What `realloc_impl`, `callo_imp` and the public calls do

`ReallocStep`, `CallocStep` and `CallStep` list the ways a call can come back, on top of
`MallocStep` and `FreeStep`.  `Call.impl_step` is the theorem the rest of the development uses
instead of the code: every call returns in one of the ways of `CallStep`, unless it has to unmap a
LARGE block and `munmap` fails.
-/

set_option autoImplicit false

namespace FtMalloc

open ByteMemory CharMap

variable {pl : Platform} {os : OS} {h h' : Heap} {p n r : Nat} {s t : Slot} {c : Cell}

/-! ## Payloads -/

/-- Memory inside the payload of one cell may change. -/
theorem Heap.WF.of_cell_payload (hi : h.WF pl) (hc : h.cell s = some c) {m : Memory}
    (hm : ∀ a k, Region.Apart ⟨a, k⟩ c.payload → Agree h.mem m a k) :
    ({ h with mem := m } : Heap).WF pl ∧ ({ h with mem := m } : Heap).cell = h.cell ∧
      ∀ t d, h.cell t = some d → t ≠ s → Agree h.mem m d.ptr d.room := by
  have hfix : ∀ t, h.Exists t → Agree h.mem m (h.extent t).base METASIZE :=
    fun t ht ↦ hm _ _ (hi.payload_apart_header hc ht).symm
  refine ⟨hi.of_payload hfix, Heap.cell_of_payload hi hfix, fun t d hd hne ↦ ?_⟩
  have hap := hi.payload_apart hd (hi.exists_of_taken (Heap.taken_of_cell hc)) hne
  exact hm _ _ (hap.mono (Region.Within.refl _) (hi.payload_within hc))

/-- The payloads of different cells share no byte. -/
theorem Heap.WF.payloads_apart (hi : h.WF pl) {d : Cell} (hc : h.cell s = some c)
    (hd : h.cell t = some d) (hne : s ≠ t) : c.payload.Apart d.payload :=
  (hi.payload_apart hc (hi.exists_of_taken (Heap.taken_of_cell hd)) hne).mono
    (Region.Within.refl _) (hi.payload_within hd)

/-! ## `realloc_impl` -/

/-- The state once `realloc_impl` has copied the bytes of the old block to the new one. -/
def Heap.copyTo (h : Heap) (dest src len : Nat) : Heap := { h with mem := copy h.mem dest src len }

/-- The ways `realloc_impl(p, n)` comes back. -/
inductive ReallocStep (pl : Platform) (os : OS) (h : Heap) (p n : Nat) : Nat → Heap → Prop
  /-- `realloc(NULL, n)` is `malloc(n)`. -/
  | null {r : Nat} {h' : Heap} (hp : p = 0) (hm : MallocStep pl os h (reqSize n) r h') :
      ReallocStep pl os h p n r h'
  /-- `realloc(p, 0)` is `free(p)`. -/
  | free {h' : Heap} (hp : p ≠ 0) (hn : n = 0) (hf : FreeStep h p h') : ReallocStep pl os h p n 0 h'
  /-- Nothing is live at `p`. -/
  | stray (hp : p ≠ 0) (hn : n ≠ 0) (hstray : h.Stray p) : ReallocStep pl os h p n 0 h
  /-- The new size fits the room of the block. -/
  | inPlace {s : Slot} {c : Cell} (hn : n ≠ 0) (hc : h.cell s = some c) (hp : c.ptr = p)
      (hfit : n ≤ c.room) : ReallocStep pl os h p n p (h.record n s)
  /-- There is no new block to be had. -/
  | failed {s : Slot} {c : Cell} {h' : Heap} (hc : h.cell s = some c) (hp : c.ptr = p)
      (hbig : c.room < n) (hm : MallocStep pl os h n 0 h') : ReallocStep pl os h p n 0 h'
  /-- The bytes move to a new block, and the old one is freed. -/
  | moved {s : Slot} {c : Cell} {r : Nat} {h₁ h' : Heap} (hc : h.cell s = some c) (hp : c.ptr = p)
      (hbig : c.room < n) (hr : r ≠ 0) (hm : MallocStep pl os h n r h₁)
      (hf : FreeStep (h₁.copyTo r p c.size) p h') : ReallocStep pl os h p n r h'

/-- `meta->client_size = size`, and the side table for a LARGE block, is `Heap.record`. -/
theorem Heap.resize_eq (hc : h.Taken s) (n : Nat) :
    h.resize (h.extent s).base s.allocationOwner n = h.record n s := by
  cases s <;> rfl

/-- The number of bytes `realloc_impl` copies is the size on record. -/
theorem Heap.WF.copySize_eq (hi : h.WF pl) (hc : h.cell s = some c) :
    h.copySize (h.extent s).base s.allocationOwner = c.size := by
  obtain ⟨ht, rfl⟩ := Heap.cell_eq_some.mp hc
  cases s with
  | pool z k =>
    have hsz := hi.clientSize z k ht
    have hz := z.stride_bounds
    have hcopy : h.copySize (h.extent (.pool z k)).base (Slot.pool z k).allocationOwner
        = (metaClientSize h.mem (h.slotAddr z k) % 2 ^ 64).toNat := rfl
    rw [hcopy, Int.emod_eq_of_lt (by omega) (by rw [SMALL] at hz; omega)]
    rfl
  | large i => rfl

/-- A request above the room of a slot is at least one byte. -/
theorem reqSize_eq {n : Nat} (hn : n ≠ 0) : reqSize n = n := if_neg (by omega)

/-- The replacement and the old block are different cells of the state after `malloc_impl`, and
copying between them is `copy`. -/
theorem MallocStep.copy_spec {h₁ : Heap} (hi : h.WF pl) (hc : h.cell s = some c)
    (hbig : c.room < n) (hr : r ≠ 0) (hm : MallocStep pl os h n r h₁) :
    ∃ s' c', s' ≠ s ∧ h.cell s' = none ∧ s'.zone = zoneOf n ∧ c'.ptr = r ∧ c'.size = n ∧
      n ≤ c'.room ∧ h.Becomes pl (Function.update h.cell s' (some c')) h₁ ∧
      h₁.cell s = some c ∧ h₁.cell s' = some c' ∧ c.payload.Apart c'.payload := by
  rcases hm.effect hi (by omega) with ⟨h0, -⟩ | ⟨s', c', -, hfree, hz, hp, hsz, hb⟩
  · exact absurd h0 hr
  · have hne : s' ≠ s := by
      rintro rfl
      rw [hc] at hfree
      exact absurd hfree (by simp)
    have hcs : h₁.cell s = some c := by rw [hb.cell, Function.update_of_ne hne.symm, hc]
    have hcs' : h₁.cell s' = some c' := by rw [hb.cell, Function.update_self]
    have hle := (hb.wf.cell_size_le hcs').2
    exact ⟨s', c', hne, hfree, hz, hp, hsz, by omega, hb, hcs, hcs',
      hb.wf.payloads_apart hcs hcs' hne.symm⟩

/-- Copying into the payload of the replacement keeps the state well formed, with its cells and all
other payloads. -/
theorem Heap.WF.copyTo {s' : Slot} {c' : Cell} (hi : h.WF pl) (hc' : h.cell s' = some c') {k : Nat}
    (hk : k ≤ c'.room) (src : Nat) :
    (h.copyTo c'.ptr src k).WF pl ∧ (h.copyTo c'.ptr src k).cell = h.cell ∧
      ∀ t d, h.cell t = some d → t ≠ s' → Agree h.mem (copy h.mem c'.ptr src k) d.ptr d.room :=
  hi.of_cell_payload hc' fun a b hap ↦ by
    simp only [Region.Apart, Cell.payload] at hap
    exact agree_copy src (by omega)

theorem FreeStep.mem (hf : FreeStep h p h') : h'.mem = h.mem := by
  cases hf <;> rfl

/-- What `realloc_impl` does once it knows the block and that the new size does not fit. -/
def reallocMove (os : OS) (ptr size : Nat) (hdr : Nat) (owner : AllocationOwner) : M Nat := do
  let replacement ← mallocImpl os size
  if replacement = 0 then
    return 0
  else
    modify fun h ↦ { h with
      mem := ftMemcpy h.mem replacement ptr (h.copySize hdr owner) }
    freeImpl os ptr
    return replacement

/-- When the moving half of `realloc_impl` comes back, it answers what `malloc_impl` did. -/
theorem reallocMove_answer {hdr r₁ : Nat} {owner : AllocationOwner} {h₁ : Heap}
    (hm : mallocImpl os n h = .ok r₁ h₁) (hrun : reallocMove os p n hdr owner h = .ok r h') :
    r = r₁ := by
  rw [reallocMove, bind_ok hm] at hrun
  by_cases h0 : r₁ = 0
  · rw [if_pos h0] at hrun
    cases hrun
    exact h0.symm
  · rw [if_neg h0, modify_bind, bind_apply] at hrun
    split at hrun
    · cases hrun
      rfl
    · cases hrun

/-- An address that is turned down is not resized, whatever the size. -/
theorem reallocImpl_none (hp : p ≠ 0) (hnone : findLiveAllocation h p = none) (n : Nat) :
    reallocImpl os p n h = .ok 0 h := by
  rw [reallocImpl, if_neg hp]
  split
  · rw [bind_ok (freeImpl_none hnone), pure_apply]
  · rw [get_bind, hnone]
    rfl

/-- `realloc_impl` on the payload address of a cell. -/
theorem reallocImpl_of_cell (hi : h.WF pl) (hc : h.cell s = some c) (hn : n ≠ 0) :
    reallocImpl os c.ptr n h = if n ≤ c.room then .ok c.ptr (h.record n s)
      else reallocMove os c.ptr n (h.extent s).base s.allocationOwner h := by
  have ht := Heap.taken_of_cell hc
  have he := hi.extent_of_cell hc
  have hp := hi.ptr_ne_zero hc
  have hroom : capacity h.mem (h.extent s).base = c.room := by
    rw [hi.capacity_eq (hi.exists_of_taken ht)]
    omega
  rw [reallocImpl, if_neg hp, if_neg hn, get_bind, hi.findLiveAllocation_of_cell hc]
  simp only [get_bind, hroom]
  split
  · rw [modify_bind, Heap.resize_eq ht, pure_apply]
  · rfl

/-- Once there is a new block, the moving half of `realloc_impl` copies the bytes, and what is left
to do is to free the old block, which is still there. -/
theorem reallocMove_copied {h₁ : Heap} (hi : h.WF pl) (hc : h.cell s = some c) (hbig : c.room < n)
    (hr : r ≠ 0) (hrun : mallocImpl os n h = .ok r h₁) (hm : MallocStep pl os h n r h₁) :
    reallocMove os c.ptr n (h.extent s).base s.allocationOwner h
        = (do freeImpl os c.ptr; return r : M Nat) (h₁.copyTo r c.ptr c.size) ∧
      (h₁.copyTo r c.ptr c.size).WF pl ∧ (h₁.copyTo r c.ptr c.size).cell s = some c := by
  obtain ⟨s', c', hne, -, -, rfl, -, hle, hb, hcs, hcs', hap⟩ := hm.copy_spec hi hc hbig hr
  have hext : (h.extent s).base = (h₁.extent s).base := by
    have h1 := (hi.extent_of_cell hc).1
    have h2 := (hb.wf.extent_of_cell hcs).1
    omega
  have hcr := (hi.cell_size_le hc).2
  have hcpy : ftMemcpy h₁.mem c'.ptr c.ptr c.size = copy h₁.mem c'.ptr c.ptr c.size := by
    simp only [Region.Apart, Cell.payload] at hap
    exact ftMemcpy_eq_copy _ _ _ (Nat.le_refl _) (by omega)
  have hcopied := hb.wf.copyTo hcs' (by omega : c.size ≤ c'.room) c.ptr
  refine ⟨?_, hcopied.1, by rw [hcopied.2.1, hcs]⟩
  rw [reallocMove, bind_ok hrun, if_neg hr, modify_bind, hext, hb.wf.copySize_eq hcs, hcpy,
    Heap.copyTo]

/-- The moving half of `realloc_impl`: there is no new block, or the bytes move and the old block is
freed, or `munmap` fails. -/
theorem reallocMove_step (hos : os.On pl) (hi : h.WF pl) (hc : h.cell s = some c)
    (hbig : c.room < n) :
    (∃ r h', reallocMove os c.ptr n (h.extent s).base s.allocationOwner h = .ok r h' ∧
        ReallocStep pl os h c.ptr n r h') ∨
      ∃ r h₁ h', os.munmap = false ∧ s.zone = .large ∧ r ≠ 0 ∧ mallocImpl os n h = .ok r h₁ ∧
        MallocStep pl os h n r h₁ ∧
        reallocMove os c.ptr n (h.extent s).base s.allocationOwner h
          = .error (.exit "munmap Fail") h' := by
  obtain ⟨r, h₁, hrun, hm⟩ := mallocImpl_step hos hi n
  rw [reqSize_eq (by omega)] at hm
  by_cases hr : r = 0
  · subst hr
    exact .inl ⟨0, h₁, by rw [reallocMove, bind_ok hrun, if_pos rfl, pure_apply],
      .failed hc rfl hbig hm⟩
  obtain ⟨hrest, hwf, hcs⟩ := reallocMove_copied hi hc hbig hr hrun hm
  rcases freeImpl_step os hwf c.ptr with ⟨h', hfrun, hf⟩ | ⟨i, d, hno, hd, hdp, hfrun⟩
  · exact .inl ⟨r, h', by rw [hrest, bind_ok hfrun, pure_apply], .moved hc rfl hbig hr hm hf⟩
  · obtain rfl := hwf.ptr_inj hcs hd hdp.symm
    exact .inr ⟨r, h₁, _, hno, rfl, hr, hrun, hm, by rw [hrest, bind_error hfrun]⟩

/-- **`realloc_impl` returns**, in one of the ways of `ReallocStep`, unless it has to unmap a LARGE
block and `munmap` fails. -/
theorem reallocImpl_step (hos : os.On pl) (hi : h.WF pl) (p n : Nat) :
    (∃ r h', reallocImpl os p n h = .ok r h' ∧ ReallocStep pl os h p n r h') ∨
      ∃ i c h', os.munmap = false ∧ h.cell (.large i) = some c ∧ c.ptr = p ∧
        (n = 0 ∨ c.room < n ∧ ∃ r h₁, r ≠ 0 ∧ mallocImpl os n h = .ok r h₁ ∧
          MallocStep pl os h n r h₁) ∧
        reallocImpl os p n h = .error (.exit "munmap Fail") h' := by
  by_cases hp : p = 0
  · obtain ⟨r, h', hrun, hm⟩ := mallocImpl_step hos hi n
    exact .inl ⟨r, h', by rw [reallocImpl, if_pos hp, hrun], .null hp hm⟩
  by_cases hn : n = 0
  · rcases freeImpl_step os hi p with ⟨h', hrun, hf⟩ | ⟨i, c, hno, hc, hcp, hrun⟩
    · refine .inl ⟨0, h', ?_, .free hp hn hf⟩
      rw [reallocImpl, if_neg hp, if_pos hn, bind_ok hrun, pure_apply]
    · refine .inr ⟨i, c, h.failClose i, hno, hc, hcp, .inl hn, ?_⟩
      rw [reallocImpl, if_neg hp, if_pos hn, bind_error hrun]
  rcases hi.stray_or_cell p with hstray | ⟨s, c, hc, rfl⟩
  · exact .inl ⟨0, h, reallocImpl_none hp (hi.findLiveAllocation_eq_none.mpr hstray) n,
      .stray hp hn hstray⟩
  rw [reallocImpl_of_cell hi hc hn]
  by_cases hfit : n ≤ c.room
  · exact .inl ⟨c.ptr, _, if_pos hfit, .inPlace hn hc rfl hfit⟩
  rw [if_neg hfit]
  rcases reallocMove_step hos hi hc (Nat.lt_of_not_le hfit) with hret |
    ⟨r, h₁, h', hno, hz, hr, hmrun, hm, hrun⟩
  · exact .inl hret
  · cases s with
    | pool z k => exact absurd hz (by simp [Slot.zone])
    | large i =>
      exact .inr ⟨i, c, h', hno, hc, rfl, .inr ⟨Nat.lt_of_not_le hfit, r, h₁, hr, hmrun, hm⟩, hrun⟩

/-- The ways `realloc_impl` comes back for the payload address of a cell. -/
theorem ReallocStep.of_cell (hi : h.WF pl) (hc : h.cell s = some c)
    (hstep : ReallocStep pl os h c.ptr n r h') :
    (n = 0 ∧ r = 0 ∧ FreeStep h c.ptr h') ∨
      (n ≠ 0 ∧ n ≤ c.room ∧ r = c.ptr ∧ h' = h.record n s) ∨
      (c.room < n ∧ r = 0 ∧ MallocStep pl os h n 0 h') ∨
      (c.room < n ∧ r ≠ 0 ∧ ∃ h₁, MallocStep pl os h n r h₁ ∧
        FreeStep (h₁.copyTo r c.ptr c.size) c.ptr h') := by
  -- the cell that the step speaks of is `c`
  have hsame : ∀ {t d}, h.cell t = some d → d.ptr = c.ptr → t = s ∧ d = c := by
    intro t d hd hp
    obtain rfl := hi.ptr_inj hd hc hp
    exact ⟨rfl, Option.some_inj.mp (hd.symm.trans hc)⟩
  cases hstep with
  | null hp => exact absurd hp (hi.ptr_ne_zero hc)
  | free _ hn hf => exact .inl ⟨hn, rfl, hf⟩
  | stray _ _ hstray => exact absurd rfl (hstray s c hc)
  | inPlace hn hd hp hfit =>
    obtain ⟨rfl, rfl⟩ := hsame hd hp
    exact .inr (.inl ⟨hn, hfit, rfl, rfl⟩)
  | failed hd hp hbig hm =>
    obtain ⟨rfl, rfl⟩ := hsame hd hp
    exact .inr (.inr (.inl ⟨hbig, rfl, hm⟩))
  | moved hd hp hbig hr hm hf =>
    obtain ⟨rfl, rfl⟩ := hsame hd hp
    exact .inr (.inr (.inr ⟨hbig, hr, _, hm, hf⟩))

/-- `realloc(NULL, n)` can only be `malloc(n)`. -/
theorem ReallocStep.of_null (hi : h.WF pl) (hstep : ReallocStep pl os h 0 n r h') :
    MallocStep pl os h (reqSize n) r h' := by
  cases hstep with
  | null _ hm => exact hm
  | free hp => exact absurd rfl hp
  | stray hp => exact absurd rfl hp
  | inPlace _ hc hp => exact absurd hp (hi.ptr_ne_zero hc)
  | failed hc hp => exact absurd hp (hi.ptr_ne_zero hc)
  | moved hc hp => exact absurd hp (hi.ptr_ne_zero hc)

/-- A stray address is answered by `NULL`, and nothing changes. -/
theorem ReallocStep.of_stray (hp : p ≠ 0) (hstray : h.Stray p)
    (hstep : ReallocStep pl os h p n r h') : r = 0 ∧ h' = h := by
  cases hstep with
  | null h0 => exact absurd h0 hp
  | free _ _ hf => exact ⟨rfl, hf.eq_of_stray hstray⟩
  | stray => exact ⟨rfl, rfl⟩
  | inPlace _ hc hcp => exact absurd hcp (hstray _ _ hc)
  | failed hc hcp => exact absurd hcp (hstray _ _ hc)
  | moved hc hcp => exact absurd hcp (hstray _ _ hc)

/-- A block that was moved: what `realloc_impl` has done to the cells and to memory. -/
theorem ReallocStep.moved_effect {h₁ : Heap} (hi : h.WF pl)
    (hc : h.cell s = some c) (hbig : c.room < n) (hr : r ≠ 0) (hm : MallocStep pl os h n r h₁)
    (hf : FreeStep (h₁.copyTo r c.ptr c.size) c.ptr h') :
    ∃ s' c', s' ≠ s ∧ h.cell s' = none ∧ s'.zone = zoneOf n ∧ c'.ptr = r ∧ c'.size = n ∧
      h'.WF pl ∧ h'.cell = Function.update (Function.update h.cell s' (some c')) s none ∧
      h.KeepsPayloads h' ∧ (∀ t d, h.cell t = some d → d.ptr ≠ r) ∧
      ∀ i < c.size, h'.mem (r + i) = h.mem (c.ptr + i) := by
  obtain ⟨s', c', hne, hfree, hz, rfl, hsz, hle, hb, hcs, hcs', hap⟩ :=
    hm.copy_spec hi hc hbig hr
  have hcr := (hi.cell_size_le hc).2
  obtain ⟨hwf, hcell, hkeep⟩ := hb.wf.copyTo hcs' (by omega : c.size ≤ c'.room) c.ptr
  rcases hf.effect hwf with ⟨hstray, -⟩ | ⟨s₂, c₂, hc₂, hp₂, hb₂⟩
  · exact absurd rfl (hstray s c (by rw [hcell, hcs]))
  · rw [hcell] at hc₂ hb₂
    obtain rfl := hb.wf.ptr_inj hc₂ hcs hp₂
    have hmem : h'.mem = copy h₁.mem c'.ptr c.ptr c.size := hf.mem
    refine ⟨s', c', hne, hfree, hz, rfl, hsz, hb₂.wf, ?_, ?_, fun t d hd ↦ hb.ptr_new hfree hd, ?_⟩
    · rw [hb₂.cell, hb.cell]
    · intro t d hd
      have hts : t ≠ s' := by
        rintro rfl
        exact absurd (hfree.symm.trans hd) (by simp)
      rw [hmem]
      refine (hb.payloads t d hd).trans (hkeep t d ?_ hts)
      rw [hb.cell, Function.update_of_ne hts, hd]
    · intro i hi'
      rw [hmem, copy, if_pos (by omega), Nat.add_sub_cancel_left]
      exact hb.payloads _ c hc _ (by omega) (by omega)

end FtMalloc
