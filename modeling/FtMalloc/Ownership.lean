import FtMalloc.Mapping

/-!
# Finding a live allocation, and freeing it

`find_live_allocation` is given an arbitrary address.  On well-formed states it answers exactly when
the address is the payload address of a cell, and names the header and the owner of that cell
(`findLiveAllocation_eq_some`): range, header offset, stride, slot bound, live bit and the two
sentinel values of the arena bases are all accounted for in `livePoolSlot_eq_some`.

`free_impl` is a case analysis of its answer (`FreeStep`).
-/

set_option autoImplicit false

namespace FtMalloc

open ByteMemory CharMap

variable {pl : Platform} {os : OS} {h h' : Heap} {p : Nat} {s t : Slot} {c : Cell}

/-! ## The two lookups -/

/-- `live_pool_slot` finds the slot whose payload is at `p`, if its bit is set. -/
theorem livePoolSlot_eq_some {base stride k : Nat} {b : Map} (hs : 0 < stride) :
    livePoolSlot p base stride b = some k ↔
      base ≠ 0 ∧ base ≠ MAP_FAILED ∧ p = base + stride * k + METASIZE ∧ k < 100 ∧
        bit b k = true := by
  have hmod : ∀ j, j % 8 < 8 := fun j ↦ Nat.mod_lt j (by decide)
  rw [livePoolSlot]
  split
  · rename_i hout
    refine ⟨fun e ↦ absurd e (by simp), ?_⟩
    rintro ⟨h0, h1, rfl, -⟩
    omega
  · rename_i hin
    have hoff : p = base + (p - base - METASIZE) + METASIZE := by omega
    simp only
    split
    · rename_i hbad
      refine ⟨fun e ↦ absurd e (by simp), ?_⟩
      rintro ⟨-, -, rfl, hk, -⟩
      have hsub : base + stride * k + METASIZE - base - METASIZE = stride * k := by omega
      rw [hsub, Nat.mul_mod_right, Nat.mul_div_cancel_left k hs] at hbad
      omega
    · rename_i hgood
      have hdvd : stride * ((p - base - METASIZE) / stride) = p - base - METASIZE :=
        Nat.mul_div_cancel' (Nat.dvd_of_mod_eq_zero (by omega))
      have hbit : charTest (b ((p - base - METASIZE) / stride / 8))
          ((p - base - METASIZE) / stride % 8) ≠ 0#32 ↔
          bit b ((p - base - METASIZE) / stride) = true := by
        rw [Ne, charTest_eq_zero_iff _ (hmod _), bit, Bool.not_eq_false]
      simp only [hbit]
      split
      · rename_i hset
        rw [Option.some_inj]
        constructor
        · rintro rfl
          exact ⟨by omega, by omega, by omega, by omega, hset⟩
        · rintro ⟨-, -, rfl, -, -⟩
          have hsub : base + stride * k + METASIZE - base - METASIZE = stride * k := by omega
          rw [hsub, Nat.mul_div_cancel_left k hs]
      · rename_i hclear
        refine ⟨fun e ↦ absurd e (by simp), ?_⟩
        rintro ⟨-, -, rfl, -, hset⟩
        have hsub : base + stride * k + METASIZE - base - METASIZE = stride * k := by omega
        rw [hsub, Nat.mul_div_cancel_left k hs] at hclear
        exact absurd hset hclear

/-- What the loop over the LARGE table finds. -/
theorem liveLargeSlot_sound {large : Nat → Nat} {i : Nat} : ∀ left slot,
    liveLargeSlot large p left slot = some i → large i ≠ 0 ∧ p = large i + METASIZE
  | 0, _, h => absurd h (by simp [liveLargeSlot])
  | left + 1, slot, h => by
    rw [liveLargeSlot] at h
    split at h
    · rename_i hhit
      obtain rfl := Option.some_inj.mp h
      exact hhit
    · exact liveLargeSlot_sound left (slot + 1) h

/-- What the loop over the LARGE table passes over. -/
theorem liveLargeSlot_none {large : Nat → Nat} : ∀ left slot,
    liveLargeSlot large p left slot = none → ∀ i, slot ≤ i → i < slot + left →
      large i ≠ 0 → p ≠ large i + METASIZE
  | 0, slot, _, i, hle, hlt, _ => absurd hlt (by omega)
  | left + 1, slot, h, i, hle, hlt, hne => by
    rw [liveLargeSlot] at h
    split at h
    · exact absurd h (by simp)
    · rename_i hmiss
      rcases Nat.eq_or_lt_of_le hle with rfl | hgt
      · exact fun hp ↦ hmiss ⟨hne, hp⟩
      · exact liveLargeSlot_none left (slot + 1) h i hgt (by omega) hne

/-! ## `find_live_allocation` -/

/-- The owner that `find_live_allocation` names for a slot. -/
def Slot.allocationOwner : Slot → AllocationOwner
  | .pool z k => ⟨some z, k⟩
  | .large i => ⟨none, i⟩

/-- The base of an arena that was set up passes the two tests `live_pool_slot` makes of it. -/
theorem Heap.WF.base_ne (hi : h.WF pl) {z : Pool} (hopen : h.poolFlag z = true) :
    h.base z ≠ 0 ∧ h.base z ≠ MAP_FAILED := by
  have hm := hi.region_mapped (.arena z) ⟨h.base z, pl.arenaLen z⟩ (if_pos hopen)
  refine ⟨Nat.ne_of_gt hm.base_pos, fun e ↦ ?_⟩
  have h16 : 16 ∣ h.base z := hm.aligned
  rw [e] at h16
  exact absurd h16 (by decide)

/-- `live_pool_slot` on the arena of a pool: the slots that are handed out, by their payload. -/
theorem Heap.WF.livePoolSlot_iff (hi : h.WF pl) (z : Pool) (k : Nat) :
    livePoolSlot p (h.base z) z.stride (h.bitmap z) = some k ↔
      h.Taken (.pool z k) ∧ p = (h.extent (.pool z k)).base + METASIZE := by
  have hs := z.stride_bounds
  rw [livePoolSlot_eq_some (by omega)]
  constructor
  · rintro ⟨-, -, hp, -, hbit⟩
    exact ⟨hbit, hp⟩
  · rintro ⟨hbit, hp⟩
    obtain ⟨hopen, hk⟩ := hi.bit_lt z k hbit
    obtain ⟨h0, h1⟩ := hi.base_ne hopen
    exact ⟨h0, h1, hp, hk, hbit⟩

/-- Whatever `find_live_allocation` finds is there. -/
theorem Heap.WF.findLiveAllocation_sound (hi : h.WF pl) {hdr : Nat} {owner : AllocationOwner}
    (hfind : findLiveAllocation h p = some (hdr, owner)) :
    ∃ s, h.Taken s ∧ p = (h.extent s).base + METASIZE ∧ hdr = (h.extent s).base ∧
      owner = s.allocationOwner := by
  rw [findLiveAllocation] at hfind
  split at hfind
  · exact absurd hfind (by simp)
  · cases htiny : livePoolSlot p (h.base .tiny) TINY (h.bitmap .tiny) with
    | some k =>
      obtain ⟨ht, hp⟩ := (hi.livePoolSlot_iff .tiny k).mp htiny
      rw [htiny] at hfind
      cases hfind
      exact ⟨.pool .tiny k, ht, hp, rfl, rfl⟩
    | none =>
      cases hsmall : livePoolSlot p (h.base .small) SMALL (h.bitmap .small) with
      | some k =>
        obtain ⟨ht, hp⟩ := (hi.livePoolSlot_iff .small k).mp hsmall
        rw [htiny, hsmall] at hfind
        cases hfind
        exact ⟨.pool .small k, ht, hp, rfl, rfl⟩
      | none =>
        cases hlarge : liveLargeSlot h.large p 100 0 with
        | some i =>
          obtain ⟨ht, hp⟩ := liveLargeSlot_sound 100 0 hlarge
          rw [htiny, hsmall, hlarge] at hfind
          cases hfind
          exact ⟨.large i, ht, hp, rfl, rfl⟩
        | none => simp [htiny, hsmall, hlarge] at hfind

/-- Whatever is there, `find_live_allocation` finds something at its address. -/
theorem Heap.WF.findLiveAllocation_complete (hi : h.WF pl) (ht : h.Taken s)
    (hp : p = (h.extent s).base + METASIZE) : findLiveAllocation h p ≠ none := by
  intro hnone
  rw [findLiveAllocation, if_neg (by rw [METASIZE] at hp; omega)] at hnone
  cases htiny : livePoolSlot p (h.base .tiny) TINY (h.bitmap .tiny) with
  | some k => simp [htiny] at hnone
  | none =>
    cases hsmall : livePoolSlot p (h.base .small) SMALL (h.bitmap .small) with
    | some k => simp [htiny, hsmall] at hnone
    | none =>
      cases hlarge : liveLargeSlot h.large p 100 0 with
      | some i => simp [htiny, hsmall, hlarge] at hnone
      | none =>
        cases s with
        | pool z k =>
          have hslot := (hi.livePoolSlot_iff z k).mpr ⟨ht, hp⟩
          cases z with
          | tiny => exact absurd (htiny.symm.trans hslot) (by simp)
          | small => exact absurd (hsmall.symm.trans hslot) (by simp)
        | large i =>
          have hlt := hi.large_lt i ht
          exact liveLargeSlot_none 100 0 hlarge i (Nat.zero_le i) (by omega) ht hp

/-- **`find_live_allocation` finds the payload addresses of the cells, and nothing else.** -/
theorem Heap.WF.findLiveAllocation_eq_some (hi : h.WF pl) {hdr : Nat} {owner : AllocationOwner} :
    findLiveAllocation h p = some (hdr, owner) ↔
      ∃ s c, h.cell s = some c ∧ c.ptr = p ∧ hdr = (h.extent s).base ∧
        owner = s.allocationOwner := by
  constructor
  · intro hfind
    obtain ⟨s, ht, hp, hhdr, howner⟩ := hi.findLiveAllocation_sound hfind
    exact ⟨s, _, Heap.cell_of_taken ht, hp.symm, hhdr, howner⟩
  · rintro ⟨s, c, hc, rfl, rfl, rfl⟩
    have hptr := (hi.extent_of_cell hc).1
    cases hfind : findLiveAllocation h c.ptr with
    | none => exact absurd hfind (hi.findLiveAllocation_complete (Heap.taken_of_cell hc) hptr)
    | some found =>
      obtain ⟨t, ht, hp, hhdr, howner⟩ := hi.findLiveAllocation_sound hfind
      obtain rfl := hi.ptr_inj hc (Heap.cell_of_taken ht) hp
      rw [← hhdr, ← howner]

/-- `find_live_allocation` on the payload address of a cell. -/
theorem Heap.WF.findLiveAllocation_of_cell (hi : h.WF pl) (hc : h.cell s = some c) :
    findLiveAllocation h c.ptr = some ((h.extent s).base, s.allocationOwner) :=
  hi.findLiveAllocation_eq_some.mpr ⟨s, c, hc, rfl, rfl, rfl⟩

/-- No cell has its payload at `p`. -/
def Heap.Stray (h : Heap) (p : Nat) : Prop := ∀ s c, h.cell s = some c → c.ptr ≠ p

/-- **Every other address is turned down.** -/
theorem Heap.WF.findLiveAllocation_eq_none (hi : h.WF pl) :
    findLiveAllocation h p = none ↔ h.Stray p := by
  constructor
  · rintro hnone s c hc rfl
    exact absurd (hnone.symm.trans (hi.findLiveAllocation_of_cell hc)) (by simp)
  · intro hstray
    cases hfind : findLiveAllocation h p with
    | none => rfl
    | some found =>
      obtain ⟨hdr, owner⟩ := found
      obtain ⟨s, c, hc, hp, -⟩ := hi.findLiveAllocation_eq_some.mp hfind
      exact absurd hp (hstray s c hc)

/-- An address is stray, or some cell has its payload there. -/
theorem Heap.WF.stray_or_cell (hi : h.WF pl) (p : Nat) :
    h.Stray p ∨ ∃ s c, h.cell s = some c ∧ c.ptr = p := by
  cases hfind : findLiveAllocation h p with
  | none => exact .inl (hi.findLiveAllocation_eq_none.mp hfind)
  | some found =>
    obtain ⟨hdr, owner⟩ := found
    obtain ⟨s, c, hc, hp, -⟩ := hi.findLiveAllocation_eq_some.mp hfind
    exact .inr ⟨s, c, hc, hp⟩

/-! ## `free_impl` -/

/-- What `free_impl` leaves behind when it returns. -/
inductive FreeStep (h : Heap) (p : Nat) : Heap → Prop
  /-- Nothing is live at the address. -/
  | stray (hstray : h.Stray p) : FreeStep h p h
  /-- The slot of a pool is given back. -/
  | pool {z : Pool} {k : Nat} {c : Cell} (hc : h.cell (.pool z k) = some c) (hp : c.ptr = p) :
      FreeStep h p (h.unmark z k)
  /-- A LARGE block is unmapped. -/
  | large {i : Nat} {c : Cell} (hc : h.cell (.large i) = some c) (hp : c.ptr = p) :
      FreeStep h p (h.closeLarge i)

/-- A stray address is not freed. -/
theorem FreeStep.eq_of_stray (hstray : h.Stray p) (hf : FreeStep h p h') : h' = h := by
  cases hf with
  | stray => rfl
  | pool hc hp => exact absurd hp (hstray _ _ hc)
  | large hc hp => exact absurd hp (hstray _ _ hc)

/-- The state in which `free_impl` gives up, because `munmap` failed. -/
def Heap.failClose (h : Heap) (i : Nat) : Heap :=
  { h with
    calls := .munmap (h.large i) (metaSize h.mem (h.large i)) false :: h.calls }

/-- An address that is turned down is not freed. -/
theorem freeImpl_none (hnone : findLiveAllocation h p = none) : freeImpl os p h = .ok ⟨⟩ h := by
  rw [freeImpl, get_bind, hnone]
  rfl

theorem freeImpl_pool (hi : h.WF pl) {z : Pool} {k : Nat} (hc : h.cell (.pool z k) = some c) :
    freeImpl os c.ptr h = .ok ⟨⟩ (h.unmark z k) := by
  rw [freeImpl, get_bind, hi.findLiveAllocation_of_cell hc]
  rfl

theorem freeImpl_large (hi : h.WF pl) (hok : os.munmap = true) {i : Nat}
    (hc : h.cell (.large i) = some c) : freeImpl os c.ptr h = .ok ⟨⟩ (h.closeLarge i) := by
  rw [freeImpl, get_bind, hi.findLiveAllocation_of_cell hc]
  simp only [Slot.allocationOwner, munmap, bind_apply, modify_apply, pure_apply, hok,
    if_true]
  rfl

theorem freeImpl_exit (hi : h.WF pl) (hno : os.munmap = false) {i : Nat}
    (hc : h.cell (.large i) = some c) :
    freeImpl os c.ptr h = .error (.exit "munmap Fail") (h.failClose i) := by
  rw [freeImpl, get_bind, hi.findLiveAllocation_of_cell hc]
  simp only [Slot.allocationOwner, munmap, bind_apply, modify_apply, pure_apply, hno,
    Bool.false_eq_true, if_false]
  rfl

/-- **`free_impl` returns**, in one of the ways of `FreeStep`, unless it has to unmap a LARGE block
and `munmap` fails. -/
theorem freeImpl_step (os : OS) (hi : h.WF pl) (p : Nat) :
    (∃ h', freeImpl os p h = .ok ⟨⟩ h' ∧ FreeStep h p h') ∨
      ∃ i c, os.munmap = false ∧ h.cell (.large i) = some c ∧ c.ptr = p ∧
        freeImpl os p h = .error (.exit "munmap Fail") (h.failClose i) := by
  rcases hi.stray_or_cell p with hstray | ⟨s, c, hc, rfl⟩
  · exact .inl ⟨h, freeImpl_none (hi.findLiveAllocation_eq_none.mpr hstray), .stray hstray⟩
  · cases s with
    | pool z k => exact .inl ⟨_, freeImpl_pool hi hc, .pool hc rfl⟩
    | large i =>
      cases hok : os.munmap with
      | true => exact .inl ⟨_, freeImpl_large hi hok hc, .large hc rfl⟩
      | false => exact .inr ⟨i, c, rfl, hc, rfl, freeImpl_exit hi hok hc⟩

/-- **What `free_impl` does**: nothing, or it takes away the cell at the address. -/
theorem FreeStep.effect (hi : h.WF pl) (hstep : FreeStep h p h') :
    (h.Stray p ∧ h' = h) ∨ ∃ s c, h.cell s = some c ∧ c.ptr = p ∧
      h.Becomes pl (Function.update h.cell s none) h' := by
  cases hstep with
  | stray hstray => exact .inl ⟨hstray, rfl⟩
  | @pool z k c hc hp =>
    exact .inr ⟨_, c, hc, hp, hi.unmark z k, Heap.cell_unmark z k, .refl h⟩
  | @large i c hc hp =>
    exact .inr ⟨_, c, hc, hp, hi.closeLarge (Heap.taken_of_cell hc), Heap.cell_closeLarge i,
      .refl h⟩

end FtMalloc
