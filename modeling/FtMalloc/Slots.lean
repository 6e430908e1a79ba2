import FtMalloc.Recovery
import FtMalloc.Lib.FirstFree

/-!
# The slots that are held

As long as no `mmap` of an arena fails, all that matters of the allocator for where the next block
goes is which slots are held: a hundred of each pool, and a hundred entries of the LARGE table.  The
three sets are `World.held`, what the clients hold.  They are `Heap.takenSet`, what the allocator
has handed out (`World.WF.held_eq`).

`MallocStep.first_free` says that `malloc_impl` takes the least slot that is not held, and
`FreeStep.first_free` that `free_impl` gives one back.
-/

set_option autoImplicit false

namespace FtMalloc

open ByteMemory CharMap FirstFree

variable {pl : Platform} {os : OS} {h h' : Heap} {w : World} {n r k : Nat} {s : Slot} {c : Cell}
  {b : Block}

/-! ## The slots that are held -/

/-- The payload address of a slot. -/
def Heap.payloadAddr (h : Heap) (s : Slot) : Nat := (h.extent s).base + METASIZE

/-- The slots of a class that hold a live block, by number. -/
def World.held (w : World) (Z : Zone) : Finset Nat :=
  (Finset.range 100).filter fun k ↦
    ∃ b ∈ w.live, b.zone = Z ∧ b.ptr = w.heap.payloadAddr (Z.slot k)

theorem taken_iff : h.Taken s ↔ h.cell s ≠ none := by
  rw [Ne, Heap.cell_eq_none, not_not]

/-- One cell more is one slot more. -/
theorem takenSet_add (hi : h.WF pl) (hi' : h'.WF pl)
    (hcell : h'.cell = Function.update h.cell s (some c)) :
    h'.takenSet = State.insert h.takenSet s.zone s.index := by
  funext Z
  ext k
  have hone : h'.Taken (Z.slot k) ↔ Z.slot k = s ∨ h.Taken (Z.slot k) := by
    rw [taken_iff, taken_iff, hcell]
    by_cases hs : Z.slot k = s
    · simp [hs]
    · simp [hs]
  rw [hi'.mem_takenSet, hone, State.insert]
  by_cases hZ : Z = s.zone
  · subst hZ
    have hk : s.zone.slot k = s ↔ k = s.index :=
      ⟨fun e ↦ by simpa using congrArg Slot.index e, fun e ↦ by rw [e, Zone.slot_index]⟩
    rw [Function.update_self, Finset.mem_insert, hi.mem_takenSet, hk]
  · have hne : Z.slot k ≠ s := fun e ↦ hZ (by simpa using congrArg Slot.zone e)
    rw [Function.update_of_ne hZ, hi.mem_takenSet, or_iff_right hne]

/-- One cell less is one slot less. -/
theorem takenSet_drop (hi : h.WF pl) (hi' : h'.WF pl)
    (hcell : h'.cell = Function.update h.cell s none) :
    h'.takenSet = State.erase h.takenSet s.zone s.index := by
  funext Z
  ext k
  have hone : h'.Taken (Z.slot k) ↔ Z.slot k ≠ s ∧ h.Taken (Z.slot k) := by
    rw [taken_iff, taken_iff, hcell]
    by_cases hs : Z.slot k = s
    · simp [hs]
    · simp [hs]
  rw [hi'.mem_takenSet, hone, State.erase]
  by_cases hZ : Z = s.zone
  · subst hZ
    have hk : s.zone.slot k = s ↔ k = s.index :=
      ⟨fun e ↦ by simpa using congrArg Slot.index e, fun e ↦ by rw [e, Zone.slot_index]⟩
    rw [Function.update_self, Finset.mem_erase, hi.mem_takenSet, Ne, hk]
  · have hne : Z.slot k ≠ s := fun e ↦ hZ (by simpa using congrArg Slot.zone e)
    rw [Function.update_of_ne hZ, hi.mem_takenSet, and_iff_right hne]

theorem takenSet_congr_taken (htaken : ∀ s, h'.Taken s ↔ h.Taken s) : h'.takenSet = h.takenSet := by
  funext Z
  exact Finset.filter_congr fun k _ ↦ htaken _

theorem takenSet_congr (hcell : h'.cell = h.cell) : h'.takenSet = h.takenSet :=
  takenSet_congr_taken fun s ↦ by rw [taken_iff, taken_iff, hcell]

/-- The slot of a live block, by number. -/
theorem World.WF.slot_at (hw : w.WF pl) (hb : b ∈ w.live) (hk : k < 100)
    (hp : b.ptr = w.heap.payloadAddr (b.zone.slot k)) :
    ∃ c, w.heap.cell (b.zone.slot k) = some c ∧ b.At (b.zone.slot k) c w.heap.mem := by
  obtain ⟨s, c, hc, hat⟩ := hw.cell_of_live hb
  have hs := hw.heap.exists_of_taken (Heap.taken_of_cell hc)
  have hbase : (w.heap.extent (b.zone.slot k)).base = (w.heap.extent s).base := by
    have he := (hw.heap.extent_of_cell hc).1
    rw [hat.ptr, hp, Heap.payloadAddr] at he
    omega
  have ht : w.heap.Exists (b.zone.slot k) := by
    rw [← hat.zone] at hbase ⊢
    cases s with
    | pool z j => exact ⟨hs.1, hk⟩
    | large i =>
      have hl : w.heap.large k = w.heap.large i := hbase
      show w.heap.large k ≠ 0
      rw [hl]
      exact hs
  obtain rfl : s = b.zone.slot k := by
    by_contra hne
    have hap := hw.heap.extent_apart hs ht hne
    have h1 := (hw.heap.extent_mapped hs).2
    have h2 := (hw.heap.extent_mapped ht).2
    simp only [Region.Apart] at hap
    omega
  exact ⟨c, hc, hat⟩

/-- **The slots that are held are the slots that are taken.** -/
theorem World.WF.held_eq (hw : w.WF pl) : w.held = w.heap.takenSet := by
  funext Z
  refine Finset.filter_congr fun k hk ↦ ?_
  constructor
  · rintro ⟨b, hb, rfl, hp⟩
    obtain ⟨c, hc, -⟩ := hw.slot_at hb (Finset.mem_range.mp hk) hp
    exact Heap.taken_of_cell hc
  · intro ht
    obtain ⟨b, hb, hat⟩ := hw.tracks.complete _ _ (Heap.cell_of_taken ht)
    exact ⟨b, hb, by rw [← hat.zone, Zone.zone_slot], hat.ptr.symm⟩

/-! ## `malloc_impl` takes the least free slot -/

/-- A request for `n` bytes is not turned down for its size or by `mmap`. -/
def Heap.grants (pl : Platform) (os : OS) (h : Heap) (n : Nat) : Bool :=
  match zoneOf n with
  | .pool _ => true
  | .large => pl.Fits n ∧ (os.answer h.mapped (pl.largeLen n)).isSome

theorem grants_of_pool {z : Pool} (hz : zoneOf n = .pool z) : h.grants pl os n = true := by
  rw [Heap.grants, hz]

theorem grants_of_large (hz : zoneOf n = .large) : h.grants pl os n = true ↔
    pl.Fits n ∧ (os.answer h.mapped (pl.largeLen n)).isSome := by
  rw [Heap.grants, hz, decide_eq_true_iff]

/-- No entry of the LARGE table is free when the count has reached a hundred. -/
theorem Heap.WF.table_full (hi : h.WF pl) (hcnt : ¬ h.largeCnt < 100) {i : Nat} (hlt : i < 100) :
    h.Taken (.large i) := by
  by_contra hfree
  have hss : h.tableSet ⊂ Finset.range 100 := by
    refine (Finset.ssubset_iff_of_subset (Finset.filter_subset _ _)).mpr ⟨i, ?_, fun hmem ↦ ?_⟩
    · exact Finset.mem_range.mpr hlt
    · exact hfree (Heap.mem_tableSet.mp hmem).2
  have hcard := Finset.card_lt_card hss
  rw [Finset.card_range] at hcard
  have := hi.large_cnt
  omega

/-- Where `malloc_impl` finds the slot, when no arena is stuck and no `mmap` of an arena fails. -/
theorem MallocStep.place (hi : h.WF pl) (hstuck : ∀ z, ¬ h.Stuck z)
    (hsound : ∀ z, ¬ FailsArena pl os h n z) (hm : MallocStep pl os h n r h') :
    (FirstFree.place 100 h.takenSet (zoneOf n) (h.grants pl os n) = none ∧ r = 0) ∨
      ∃ k, FirstFree.place 100 h.takenSet (zoneOf n) (h.grants pl os n) = some k ∧
        h'.Taken ((zoneOf n).slot k) ∧ r = h'.payloadAddr ((zoneOf n).slot k) := by
  have hleast : ∀ {k}, k < 100 → ¬ h.Taken ((zoneOf n).slot k) →
      (∀ j < k, h.Taken ((zoneOf n).slot j)) → h.grants pl os n = true →
      FirstFree.place 100 h.takenSet (zoneOf n) (h.grants pl os n) = some k := by
    intro k hk hfree hbelow hg
    refine place_eq_some.mpr ⟨hg, least_eq_some.mpr ⟨hk, ?_, fun j hj ↦ ?_⟩⟩
    · rwa [hi.mem_takenSet]
    · exact hi.mem_takenSet.mpr (hbelow j hj)
  have hdenied : (h.grants pl os n = true → ∀ k < 100, h.Taken ((zoneOf n).slot k)) →
      FirstFree.place 100 h.takenSet (zoneOf n) (h.grants pl os n) = none := fun hno ↦
    place_eq_none.mpr fun hg ↦ least_eq_none.mpr fun k hk ↦ hi.mem_takenSet.mpr (hno hg k hk)
  cases hm with
  | poolFull hz _ hfull =>
    refine .inl ⟨hdenied fun _ k hk ↦ ?_, rfl⟩
    rw [hz]
    exact hfull k hk
  | @poolSlot z k hz _ hk =>
    refine .inr ⟨k, hleast hk.1 ?_ (fun j hj ↦ ?_) (grants_of_pool hz), ?_, ?_⟩
    · rw [hz]
      exact fun ht ↦ absurd ht (by simp [Zone.slot, Heap.Taken, hk.2.1])
    · rw [hz]
      exact hk.2.2 j hj
    · rw [hz]
      exact bit_mark.mpr (.inl ⟨rfl, rfl⟩)
    · rw [hz]
      rfl
  | arenaRefused hz hclosed hflag => exact absurd ⟨hflag, hclosed⟩ (hstuck _)
  | arenaFailed hz hclosed hflag hno => exact absurd ⟨hz, hclosed, hflag, hno⟩ (hsound _)
  | @arenaOpened z ptr hz hclosed _ _ =>
    refine .inr ⟨0, hleast (by decide) ?_ (fun j hj ↦ absurd hj (Nat.not_lt_zero j))
      (grants_of_pool hz), ?_, ?_⟩
    · rw [hz]
      exact fun ht ↦ absurd ((hi.bit_lt z 0 ht).1.symm.trans hclosed) (by decide)
    · rw [hz]
      exact bit_mark.mpr (.inl ⟨rfl, rfl⟩)
    · rw [hz]
      simp [Heap.payloadAddr, Zone.slot, Heap.extent, Heap.slotAddr, Heap.takeSlot, Heap.mark,
        Heap.openArena]
  | tableFull hz hcnt =>
    refine .inl ⟨hdenied fun _ k hk ↦ ?_, rfl⟩
    rw [hz]
    exact hi.table_full hcnt hk
  | tooLarge hz _ hbig _ =>
    exact .inl ⟨hdenied fun hg ↦ absurd ((grants_of_large hz).mp hg).1 hbig, rfl⟩
  | largeFailed hz _ _ hno =>
    refine .inl ⟨hdenied fun hg ↦ ?_, rfl⟩
    have hsome := ((grants_of_large hz).mp hg).2
    rw [hno] at hsome
    exact absurd hsome (by decide)
  | @largeOpened ptr i hz _ hfits hyes hfree =>
    have hself : Function.update h.large i ptr i = ptr := Function.update_self _ _ _
    refine .inr ⟨i, hleast hfree.1 ?_ (fun j hj ↦ ?_) ?_, ?_, ?_⟩
    · rw [hz]
      exact fun ht ↦ ht hfree.2.1
    · rw [hz]
      exact hfree.2.2 j hj
    · exact (grants_of_large hz).mpr ⟨hfits, by rw [hyes]; rfl⟩
    · rw [hz]
      show Function.update h.large i ptr i ≠ 0
      rw [hself]
      exact Nat.ne_of_gt (OS.answer_eq_some hyes).2.1
    · rw [hz]
      show ptr + METASIZE = Function.update h.large i ptr i + METASIZE
      rw [hself]

/-- **`malloc_impl` takes the least free slot**, and no other. -/
theorem MallocStep.first_free (hi : h.WF pl) (hn : 0 < n)
    (hstuck : ∀ z, ¬ h.Stuck z) (hsound : ∀ z, ¬ FailsArena pl os h n z)
    (hm : MallocStep pl os h n r h') :
    (FirstFree.place 100 h.takenSet (zoneOf n) (h.grants pl os n) = none ∧ r = 0 ∧
        h'.takenSet = h.takenSet) ∨
      ∃ k, FirstFree.place 100 h.takenSet (zoneOf n) (h.grants pl os n) = some k ∧
        r = h'.payloadAddr ((zoneOf n).slot k) ∧
        h'.takenSet = State.insert h.takenSet (zoneOf n) k := by
  rcases hm.place hi hstuck hsound with ⟨hplace, rfl⟩ | ⟨k, hplace, ht, rfl⟩
  · rcases hm.effect hi hn with ⟨-, hb⟩ | ⟨_, _, h0, -⟩
    · exact .inl ⟨hplace, rfl, takenSet_congr hb.cell⟩
    · exact absurd rfl h0
  · rcases hm.effect hi hn with ⟨h0, -⟩ | ⟨s, c, -, -, hz, hp, -, hb⟩
    · rw [Heap.payloadAddr, METASIZE] at h0
      omega
    · have hcs : h'.cell s = some c := by rw [hb.cell, Function.update_self]
      obtain rfl := hb.wf.ptr_inj hcs (Heap.cell_of_taken ht) hp
      refine .inr ⟨k, hplace, rfl, ?_⟩
      rw [takenSet_add hi hb.wf hb.cell, Zone.zone_slot, Zone.index_slot]

/-! ## `free_impl` gives a slot back -/

/-- `free_impl` gives the slot back and moves no other. -/
theorem FreeStep.first_free {p : Nat} (hi : h.WF pl) (hc : h.cell s = some c) (hp : c.ptr = p)
    (hf : FreeStep h p h') : h'.takenSet = State.erase h.takenSet s.zone s.index ∧
      ∀ t, t ≠ s → h'.payloadAddr t = h.payloadAddr t := by
  subst hp
  rcases hf.effect hi with ⟨hstray, -⟩ | ⟨t, d, hd, hdp, hb⟩
  · exact absurd rfl (hstray s c hc)
  · obtain rfl := hi.ptr_inj hd hc hdp
    refine ⟨takenSet_drop hi hb.wf hb.cell, fun u hu ↦ ?_⟩
    cases hf with
    | stray hstray => exact absurd rfl (hstray _ c hc)
    | pool => cases u <;> rfl
    | @large i e he hep =>
      obtain rfl := hi.ptr_inj he hc hep
      cases u with
      | pool z j => rfl
      | large j =>
        have hji : j ≠ i := fun e ↦ hu (by rw [e])
        show Function.update h.large i 0 j + METASIZE = h.large j + METASIZE
        rw [Function.update_of_ne hji]

end FtMalloc
