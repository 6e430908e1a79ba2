import FtMalloc.Safety

/-!
# What `realloc_impl` promises

`Resized` lists what a caller can rely on when `realloc_impl(p, n)` comes back for a live block and
a size of at least one byte: in place when the size fits the room of the block, else with a fresh
block exactly when `malloc_impl(n)` would have given one, and with all other blocks as they were.
`realloc_resizes` proves it of every reachable world, for blocks of every size and class, and says
when the call does not come back: when the old block is LARGE, was replaced, and cannot be unmapped.
-/

set_option autoImplicit false

namespace FtMalloc

open ByteMemory CharMap

variable {pl : Platform} {os : OS} {w : World} {b : Block} {n r room : Nat} {h' : Heap}

/-! ## Rooms -/

/-- The room of a live block: what its slot or its mapping holds behind the header. -/
inductive World.Room (w : World) (b : Block) : Nat → Prop
  | pool {z : Pool} (hz : b.zone = .pool z) : World.Room w b (z.stride - METASIZE)
  | large {q len : Nat} (hz : b.zone = .large) (hq : q + METASIZE = b.ptr)
      (hmem : ⟨q, len⟩ ∈ w.heap.mapped) : World.Room w b (len - METASIZE)

/-- A mapping is known by its address. -/
theorem Heap.WF.mapped_unique {h : Heap} (hi : h.WF pl) {q len len' : Nat}
    (hmem : ⟨q, len⟩ ∈ h.mapped) (hmem' : ⟨q, len'⟩ ∈ h.mapped) : len = len' := by
  by_contra hne
  have hap := hi.owned.apart_of_mem hmem hmem' fun e ↦ hne (congrArg Region.len e)
  have hl := (hi.owned.kind_of_mem hmem).len_pos
  have hl' := (hi.owned.kind_of_mem hmem').len_pos
  simp only [Region.Apart] at hap hl hl'
  omega

/-- Every live block has a room. -/
theorem World.WF.exists_room (hw : w.WF pl) (hb : b ∈ w.live) : ∃ room, w.Room b room := by
  cases hz : b.zone with
  | pool z => exact ⟨_, .pool hz⟩
  | large =>
    obtain ⟨i, c, hc, hat⟩ := hw.entry_of_large hb hz
    have hq : (w.heap.extent (.large i)).base + METASIZE = b.ptr := by
      rw [← hat.ptr, (hw.heap.extent_of_cell hc).1]
    have hmem : w.heap.extent (.large i) ∈ w.heap.mapped :=
      (hw.heap.mem_mapped _).mpr ⟨.large i, if_pos (Heap.taken_of_cell hc)⟩
    exact ⟨_, .large hz hq hmem⟩

/-- The room of a live block is the room of its cell. -/
theorem World.WF.room_eq (hw : w.WF pl) {s : Slot} {c : Cell} (hc : w.heap.cell s = some c)
    (hat : b.At s c w.heap.mem) (hroom : w.Room b room) : c.room = room := by
  have he := hw.heap.extent_of_cell hc
  cases hroom with
  | @pool z hz =>
    have hsz := hat.zone.trans hz
    cases s with
    | pool y k =>
      cases hsz
      simp only [Heap.extent] at he
      omega
    | large i => cases hsz
  | @large q len hz hq hmem =>
    have hsz := hat.zone.trans hz
    cases s with
    | pool y k => cases hsz
    | large i =>
      have ht : w.heap.large i ≠ 0 := Heap.taken_of_cell hc
      simp only [Heap.extent] at he
      have hbase : q = w.heap.large i := by
        have hp := hat.ptr
        omega
      subst hbase
      have hlen := hw.heap.mapped_unique hmem
        ((hw.heap.mem_mapped ⟨w.heap.large i, _⟩).mpr ⟨.large i, if_pos ht⟩)
      omega

/-! ## The promise -/

/-- The heap has a live allocation at `p` with this room and this size on record. -/
def Heap.Live (h : Heap) (p room size : Nat) : Prop := ∃ s, h.cell s = some ⟨p, room, size⟩

/-- What the caller of `realloc_impl(b.ptr, n)` can rely on, `b` being a live block of `w` with the
given room, when the call comes back with `r` and leaves `h'`. -/
structure Resized (os : OS) (w : World) (b : Block) (room n r : Nat) (h' : Heap) : Prop where
  /-- A size that fits is recorded in place. -/
  inPlace : n ≤ room → r = b.ptr ∧ h'.Live b.ptr room n ∧ Agree w.heap.mem h'.mem b.ptr room
  /-- A size that does not fit is served exactly when `malloc_impl` would serve it. -/
  served : room < n → (r ≠ 0 ↔ ∃ r₁ h₁, mallocImpl os n w.heap = .ok r₁ h₁ ∧ r₁ ≠ 0)
  /-- Then the block moves to a slot that was free, with its bytes, and its old slot is free. -/
  moved : room < n → r ≠ 0 →
    (∃ s room', w.heap.cell s = none ∧ h'.cell s = some ⟨r, room', n⟩ ∧ n ≤ room') ∧
      (∀ i < b.size, h'.mem (r + i) = w.heap.mem (b.ptr + i)) ∧ h'.Stray b.ptr ∧
      ∀ s c, w.heap.cell s = some c → c.ptr = b.ptr → h'.cell s = none
  /-- When there is no block to be had, the old one is as it was. -/
  null : r = 0 → h'.Live b.ptr room b.size ∧ Agree w.heap.mem h'.mem b.ptr room
  /-- So is every other live block, whatever happens. -/
  others : ∀ b' ∈ w.live, b'.ptr ≠ b.ptr → ∀ room', w.Room b' room' →
    h'.Live b'.ptr room' b'.size ∧ Agree w.heap.mem h'.mem b'.ptr room'

/-- A cell that survives: the block it belongs to is still live. -/
theorem World.WF.live_of_cell (hw : w.WF pl) (hroom : w.Room b room) {s : Slot} {c : Cell}
    (hc : w.heap.cell s = some c) (hat : b.At s c w.heap.mem) (hc' : h'.cell s = some c)
    (hag : Agree w.heap.mem h'.mem c.ptr c.room) :
    h'.Live b.ptr room b.size ∧ Agree w.heap.mem h'.mem b.ptr room := by
  have hr := hw.room_eq hc hat hroom
  refine ⟨⟨s, ?_⟩, ?_⟩
  · rw [hc', ← hat.ptr, ← hat.size, ← hr]
  · rw [← hat.ptr, ← hr]
    exact hag

/-- The blocks at other addresses survive when the cells of all slots but one do. -/
theorem World.WF.others_of_cell (hw : w.WF pl) {s : Slot} {c : Cell}
    (hc : w.heap.cell s = some c) (hp : c.ptr = b.ptr)
    (hcell : ∀ t d, w.heap.cell t = some d → t ≠ s → h'.cell t = some d)
    (hkeep : w.heap.KeepsPayloads h') : ∀ b' ∈ w.live, b'.ptr ≠ b.ptr → ∀ room', w.Room b' room' →
      h'.Live b'.ptr room' b'.size ∧ Agree w.heap.mem h'.mem b'.ptr room' := by
  intro b' hb' hne room' hroom'
  obtain ⟨t, d, hd, hat'⟩ := hw.cell_of_live hb'
  have hts : t ≠ s := by
    rintro rfl
    rw [hc, Option.some_inj] at hd
    subst hd
    exact hne (hat'.ptr.symm.trans hp)
  exact hw.live_of_cell hroom' hd hat' (hcell t d hd hts) (hkeep t d hd)

/-- **What `realloc_impl` does to a live block when it comes back.** -/
theorem ReallocStep.resized (hw : w.WF pl) (hb : b ∈ w.live)
    (hroom : w.Room b room) (hn : 1 ≤ n) (hstep : ReallocStep pl os w.heap b.ptr n r h')
    (hserved : room < n → (r ≠ 0 ↔ ∃ r₁ h₁, mallocImpl os n w.heap = .ok r₁ h₁ ∧ r₁ ≠ 0)) :
    Resized os w b room n r h' := by
  obtain ⟨s, c, hc, hat⟩ := hw.cell_of_live hb
  have hcr := hw.room_eq hc hat hroom
  have hpos := hw.heap.ptr_ne_zero hc
  rw [← hat.ptr] at hstep
  rcases hstep.of_cell hw.heap hc with ⟨h0, -⟩ | ⟨-, hfit, rfl, rfl⟩ | ⟨hbig, rfl, hm⟩ |
    ⟨hbig, hr, h₁, hm, hf⟩
  · omega
  · have hkeep := Heap.keepsPayloads_record hw.heap
      (hw.heap.exists_of_taken (Heap.taken_of_cell hc)) n
    have hcell := Heap.cell_record hw.heap hc hfit
    refine {
      inPlace := fun _ ↦ ⟨hat.ptr, ⟨s, ?_⟩, ?_⟩
      served := hserved
      moved := fun hbig _ ↦ absurd hbig (by omega)
      null := fun h0 ↦ absurd h0 hpos
      others := hw.others_of_cell hc hat.ptr (fun u e he hut ↦ ?_) hkeep }
    · rw [hcell, Function.update_self, ← hat.ptr, ← hcr]
    · rw [← hat.ptr, ← hcr]
      exact hkeep s c hc
    · rw [hcell, Function.update_of_ne hut, he]
  · rcases hm.effect hw.heap (by omega) with ⟨-, hbec⟩ | ⟨_, _, h0, -⟩
    · exact {
        inPlace := fun hfit ↦ absurd hfit (by omega)
        served := hserved
        moved := fun _ h0 ↦ absurd rfl h0
        null := fun _ ↦ hw.live_of_cell hroom hc hat (by rw [hbec.cell, hc]) (hbec.payloads s c hc)
        others := hw.others_of_cell hc hat.ptr (fun u e he _ ↦ by rw [hbec.cell, he])
          hbec.payloads }
    · exact absurd rfl h0
  · obtain ⟨s', c', hne, hfree, -, hptr, hsz, hwf, hcell, hkeep, hnew, hcopy⟩ :=
      ReallocStep.moved_effect hw.heap hc hbig hr hm hf
    have hcs' : h'.cell s' = some c' := by
      rw [hcell, Function.update_of_ne hne, Function.update_self]
    have hold : ∀ u e, w.heap.cell u = some e → u ≠ s → h'.cell u = some e := by
      intro u e he hut
      have hus : u ≠ s' := by
        rintro rfl
        exact absurd (hfree.symm.trans he) (by simp)
      rw [hcell, Function.update_of_ne hut, Function.update_of_ne hus, he]
    refine {
      inPlace := fun hfit ↦ absurd hfit (by omega)
      served := hserved
      moved := fun _ _ ↦ ⟨⟨s', c'.room, hfree, ?_, ?_⟩, fun i hi ↦ ?_, ?_, fun u e he hep ↦ ?_⟩
      null := fun h0 ↦ absurd h0 hr
      others := hw.others_of_cell hc hat.ptr hold hkeep }
    · rw [hcs', ← hptr, ← hsz]
    · rw [← hsz]
      exact (hwf.cell_size_le hcs').2
    · rw [← hat.size] at hi
      rw [hcopy i hi, hat.ptr]
    · intro u e he hep
      have hut : u ≠ s := by
        rintro rfl
        rw [hcell, Function.update_self] at he
        exact absurd he (by simp)
      by_cases hus : u = s'
      · subst hus
        rw [hcs', Option.some_inj] at he
        subst he
        exact hnew s c hc (hat.ptr.trans (hep.symm.trans hptr))
      · rw [hcell, Function.update_of_ne hut, Function.update_of_ne hus] at he
        exact hut (hw.heap.ptr_inj he hc (hep.trans hat.ptr.symm))
    · obtain rfl := hw.heap.ptr_inj he hc (hep.trans hat.ptr.symm)
      rw [hcell, Function.update_self]

/-- **`realloc_impl` on a live block**, for every size of at least one byte.  When it comes back, it
has done what `Resized` says.  It comes back, unless the block was LARGE, a new block was had in its
place, and the `munmap` of the old one fails. -/
theorem realloc_resizes (hw : w.Reachable pl) (hb : b ∈ w.live) (hroom : w.Room b room)
    (hn : 1 ≤ n) (hos : os.On pl) :
    (∀ r h', reallocImpl os b.ptr n w.heap = .ok r h' → Resized os w b room n r h') ∧
      ((∃ r h', reallocImpl os b.ptr n w.heap = .ok r h') ∨
        os.munmap = false ∧ b.zone = .large ∧ room < n ∧
          ∃ r₁ h₁, mallocImpl os n w.heap = .ok r₁ h₁ ∧ r₁ ≠ 0) := by
  have hwf := hw.wf
  obtain ⟨s, c, hc, hat⟩ := hwf.cell_of_live hb
  have hcr := hwf.room_eq hc hat hroom
  rcases reallocImpl_step hos hwf.heap b.ptr n with ⟨r, h', hrun, hstep⟩ |
    ⟨i, d, h', hno, hd, hdp, hwhy, hrun⟩
  · refine ⟨fun r₂ h₂ hrun₂ ↦ ?_, .inl ⟨r, h', hrun⟩⟩
    obtain ⟨rfl, rfl⟩ : r = r₂ ∧ h' = h₂ := by
      rw [hrun] at hrun₂
      cases hrun₂
      exact ⟨rfl, rfl⟩
    refine hstep.resized hwf hb hroom hn fun hbig ↦ ?_
    obtain ⟨r₁, h₁, hmrun, -⟩ := mallocImpl_step hos hwf.heap n
    rw [← hat.ptr, reallocImpl_of_cell hwf.heap hc (by omega), if_neg (by omega)] at hrun
    obtain rfl := reallocMove_answer hmrun hrun
    rw [hmrun]
    constructor
    · exact fun h0 ↦ ⟨r, h₁, rfl, h0⟩
    · rintro ⟨_, _, hok, h0⟩
      cases hok
      exact h0
  · refine ⟨fun r₂ h₂ hrun₂ ↦ ?_, .inr ⟨hno, ?_, ?_⟩⟩
    · rw [hrun] at hrun₂
      cases hrun₂
    · obtain rfl := hwf.heap.ptr_inj hd hc (hdp.trans hat.ptr.symm)
      exact hat.zone.symm
    · obtain rfl := hwf.heap.ptr_inj hd hc (hdp.trans hat.ptr.symm)
      rw [hc, Option.some_inj] at hd
      subst hd
      rcases hwhy with h0 | ⟨hbig, r₁, h₁, hr, hmrun, -⟩
      · omega
      · exact ⟨by omega, r₁, h₁, hmrun, hr⟩

/-- The TINY block at `0x1010` is resized to 600 bytes. -/
theorem realloc_resizes_twoBlocks : ∃ b ∈ World.twoBlocks.live, b.ptr = 0x1010 ∧
    World.twoBlocks.Room b 80 ∧
    (∀ r h', reallocImpl (Platform.pages4k.os (some 0x8000) true) b.ptr 600 World.twoBlocks.heap
      = .ok r h' → Resized (Platform.pages4k.os (some 0x8000) true) World.twoBlocks b 80 600 r h') ∧
    ∃ r h', reallocImpl (Platform.pages4k.os (some 0x8000) true) b.ptr 600 World.twoBlocks.heap
      = .ok r h' := by
  obtain ⟨b, hb, hp, hz⟩ : ∃ b ∈ World.twoBlocks.live, b.ptr = 0x1010 ∧ b.zone = .pool .tiny := by
    decide +kernel
  have hroom : World.twoBlocks.Room b 80 := .pool hz
  obtain ⟨hres, hret⟩ := realloc_resizes World.reachable_twoBlocks hb hroom (n := 600) (by decide)
    (Platform.pages4k.os_on (some 0x8000) true)
  refine ⟨b, hb, hp, hroom, hres, hret.resolve_right fun h ↦ ?_⟩
  exact absurd h.1 (by decide)

end FtMalloc
