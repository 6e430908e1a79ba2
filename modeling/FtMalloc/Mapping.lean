import FtMalloc.Effects

/-!
# Effects on mappings

The changes of the state that add a mapping or take one away: an arena is set up, a LARGE block is
mapped, a LARGE block is unmapped.  `MallocStep.effect` sums up what `malloc_impl` does: it leaves
the cells as they are, or it adds one.
-/

set_option autoImplicit false

namespace FtMalloc

open ByteMemory CharMap PowerRound

variable {pl : Platform} {h h' : Heap}

/-! ## New mappings -/

/-- A place for a mapping that is new to the process. -/
theorem Grants.isMapping {mapped : List Region} {len ptr : Nat} (hg : Grants mapped len ptr) :
    IsMapping ⟨ptr, len⟩ := ⟨hg.2.1, hg.1, hg.2.2.1, hg.2.2.2.1⟩

/-- A region apart from all mappings is apart from all slots. -/
theorem Heap.WF.extent_apart_of_mapped (hi : h.WF pl) {r : Region}
    (hap : ∀ q ∈ h.mapped, q.Apart r) {s : Slot} (hs : h.Exists s) : (h.extent s).Apart r := by
  obtain ⟨q, hq, hw⟩ := Heap.WF.extent_within pl hs
  exact (hap q ((hi.mem_mapped q).mpr ⟨_, hq⟩)).mono hw (Region.Within.refl _)

/-- Memory inside a region apart from all mappings may change. -/
theorem Heap.Becomes.of_outside (hi : h.WF pl) {r : Region} (hap : ∀ q ∈ h.mapped, q.Apart r)
    {m : Memory} (hm : ∀ a n, Region.Apart ⟨a, n⟩ r → Agree h.mem m a n) :
    h.Becomes pl h.cell { h with mem := m } := by
  have hfix : ∀ s, h.Exists s → Agree h.mem m (h.extent s).base METASIZE := by
    intro s hs
    refine hm _ _ ((hi.extent_apart_of_mapped hap hs).mono ?_ (Region.Within.refl _))
    have := hi.extent_mapped hs
    simp only [Region.Within]
    omega
  refine ⟨hi.of_payload hfix, Heap.cell_of_payload hi hfix, fun s c hc ↦ ?_⟩
  exact hm _ _ ((hi.extent_apart_of_mapped hap (hi.exists_of_taken (Heap.taken_of_cell hc))).mono
    (hi.payload_within hc) (Region.Within.refl _))

/-- Adding an arena whose headers are in place. -/
theorem Heap.WF.addArena (hi : h.WF pl) {z : Pool} (ptr : Nat) (hclosed : h.poolFlag z = false)
    (hmap : IsMapping ⟨ptr, pl.arenaLen z⟩)
    (hap : ∀ q ∈ h.mapped, q.Apart ⟨ptr, pl.arenaLen z⟩)
    (hhdr : ∀ k < 100, metaSize h.mem (ptr + z.stride * k) = z.stride ||| (k >>> 3) ∧
      metaPosition h.mem (ptr + z.stride * k) = ((k &&& POS_MASK : Nat) : Int)) :
    ({ h with
      base := Function.update h.base z ptr
      poolFlag := Function.update h.poolFlag z true
      mapped := ⟨ptr, pl.arenaLen z⟩ :: h.mapped } : Heap).WF pl := by
  have hset := hi.setBase hclosed ptr
  have hregion : ({ h with
      base := Function.update h.base z ptr
      poolFlag := Function.update h.poolFlag z true
      mapped := ⟨ptr, pl.arenaLen z⟩ :: h.mapped } : Heap).region pl
      = Function.update (h.region pl) (.arena z) (some ⟨ptr, pl.arenaLen z⟩) := by
    funext o
    cases o with
    | arena y =>
      by_cases hy : y = z
      · subst hy
        simp [Heap.region]
      · simp [Heap.region, hy]
    | large i => simp [Heap.region]
  have howned := hi.owned.add (o := .arena z) (by simp [Heap.region, hclosed]) hmap hmap.len_pos hap
  rw [← hregion] at howned
  exact { hset with
    bit_lt := fun y k hb ↦ by
      obtain ⟨hy, hk⟩ := hi.bit_lt y k hb
      refine ⟨?_, hk⟩
      show Function.update h.poolFlag z true y = true
      by_cases hyz : y = z
      · rw [hyz, Function.update_self]
      · rw [Function.update_of_ne hyz]
        exact hy
    header := fun y k hy hk ↦ by
      by_cases hyz : y = z
      · subst hyz
        simpa [Heap.slotAddr] using hhdr k hk
      · have hy' : h.poolFlag y = true := by simpa [Function.update_of_ne hyz] using hy
        exact hset.header y k hy' hk
    region_mapped := howned.kind
    region_apart := howned.apart
    mem_mapped := howned.mem
    mapped_nodup := howned.nodup }

/-- Adding a LARGE block whose header is in place, entered in the table at a free entry. -/
theorem Heap.WF.addLarge (hi : h.WF pl) (ptr : Nat) {len i n : Nat} (hflag : h.largeFlag = true)
    (hfree : i < 100 ∧ h.large i = 0) (hmap : IsMapping ⟨ptr, len⟩)
    (hap : ∀ q ∈ h.mapped, q.Apart ⟨ptr, len⟩) (hdvd : 16 ∣ len)
    (hhdr : metaSize h.mem ptr = len ∧ metaPosition h.mem ptr = (i : Int) ∧
      metaClientSize h.mem ptr = asInt n)
    (hn : 0 < n ∧ n + METASIZE ≤ len) :
    ({ h with
      large := Function.update h.large i ptr
      largeRequestSizes := Function.update h.largeRequestSizes i n
      largeCnt := h.largeCnt + 1
      mapped := ⟨ptr, len⟩ :: h.mapped } : Heap).WF pl := by
  have hptr : ptr ≠ 0 := Nat.ne_of_gt hmap.base_pos
  have hlarge : ∀ j, Function.update h.large i ptr j ≠ 0 → j = i ∨ (j ≠ i ∧ h.large j ≠ 0) := by
    intro j hj
    by_cases hji : j = i
    · exact .inl hji
    · exact .inr ⟨hji, by rwa [Function.update_of_ne hji] at hj⟩
  have hregion : ({ h with
      large := Function.update h.large i ptr
      largeRequestSizes := Function.update h.largeRequestSizes i n
      largeCnt := h.largeCnt + 1
      mapped := ⟨ptr, len⟩ :: h.mapped } : Heap).region pl
      = Function.update (h.region pl) (.large i) (some ⟨ptr, len⟩) := by
    funext o
    cases o with
    | arena y => simp [Heap.region]
    | large j =>
      by_cases hj : j = i
      · subst hj
        simp [Heap.region, hptr, hhdr.1]
      · simp [Heap.region, hj]
  have howned := hi.owned.add (o := .large i) (by simp [Heap.region, hfree.2]) hmap hmap.len_pos hap
  rw [← hregion] at howned
  exact { hi with
    large_lt := fun j hj ↦ by
      rcases hlarge j hj with rfl | ⟨-, hj⟩
      · exact hfree.1
      · exact hi.large_lt j hj
    large_flag := fun hf ↦ absurd hf (by simp [hflag])
    large_header := fun j hj ↦ by
      rcases hlarge j hj with rfl | ⟨hji, hj⟩
      · simp only [Function.update_self]
        exact ⟨hhdr.1.symm ▸ hdvd, hhdr.2.1⟩
      · simp only [Function.update_of_ne hji]
        exact hi.large_header j hj
    large_size := fun j hj ↦ by
      rcases hlarge j hj with rfl | ⟨hji, hj⟩
      · simp only [Function.update_self]
        rw [hhdr.1]
        exact hn
      · simp only [Function.update_of_ne hji]
        exact hi.large_size j hj
    large_client := fun j hj ↦ by
      rcases hlarge j hj with rfl | ⟨hji, hj⟩
      · simp only [Function.update_self]
        exact hhdr.2.2
      · simp only [Function.update_of_ne hji]
        exact hi.large_client j hj
    large_free := fun j hj ↦ by
      have hji : j ≠ i := by
        rintro rfl
        exact hptr (by simpa using hj)
      simp only [Function.update_of_ne hji] at hj ⊢
      exact hi.large_free j hj
    large_cnt := by
      have hset : (Finset.range 100).filter (fun j ↦ Function.update h.large i ptr j ≠ 0)
          = insert i h.tableSet := by
        ext j
        by_cases hji : j = i
        · subst hji
          simp [hptr, hfree.1]
        · simp [hji]
      have hmem : i ∉ h.tableSet := by simp [hfree.2]
      show h.largeCnt + 1 = _
      rw [Heap.tableSet, hset, Finset.card_insert_of_notMem hmem, hi.large_cnt]
      omega
    region_mapped := howned.kind
    region_apart := howned.apart
    mem_mapped := howned.mem
    mapped_nodup := howned.nodup }

/-- The state without the LARGE block of table entry `i`. -/
def Heap.closeLarge (h : Heap) (i : Nat) : Heap :=
  { h with
    mapped := Region.punch ⟨h.large i, metaSize h.mem (h.large i)⟩ h.mapped
    calls := .munmap (h.large i) (metaSize h.mem (h.large i)) true :: h.calls
    large := Function.update h.large i 0
    largeRequestSizes := Function.update h.largeRequestSizes i 0
    largeCnt := h.largeCnt - 1 }

theorem Heap.region_large {i : Nat} (hl : h.large i ≠ 0) :
    h.region pl (.large i) = some ⟨h.large i, metaSize h.mem (h.large i)⟩ := if_pos hl

/-- What is left of the mappings when the one of a LARGE block is given back. -/
theorem Heap.WF.punch_large (hi : h.WF pl) {i : Nat} (hl : h.large i ≠ 0) :
    Region.punch ⟨h.large i, metaSize h.mem (h.large i)⟩ h.mapped
      = h.mapped.filter (· ≠ ⟨h.large i, metaSize h.mem (h.large i)⟩) := by
  exact hi.owned.punch_eq_filter (fun _ hq ↦ hq.len_pos) (Heap.region_large hl)

theorem Heap.WF.closeLarge (hi : h.WF pl) {i : Nat} (hl : h.large i ≠ 0) :
    (h.closeLarge i).WF pl := by
  have hlarge : ∀ j, Function.update h.large i 0 j ≠ 0 → j ≠ i ∧ h.large j ≠ 0 := by
    intro j hj
    by_cases hji : j = i
    · subst hji
      simp at hj
    · exact ⟨hji, by rwa [Function.update_of_ne hji] at hj⟩
  have hregion : (h.closeLarge i).region pl = Function.update (h.region pl) (.large i) none := by
    funext o
    cases o with
    | arena y => rfl
    | large j =>
      by_cases hj : j = i
      · subst hj
        simp [Heap.region, Heap.closeLarge]
      · simp [Heap.region, Heap.closeLarge, hj]
  have howned := hi.owned.drop (fun _ hq ↦ hq.len_pos) (Heap.region_large hl)
  rw [← hregion] at howned
  exact { hi with
    large_lt := fun j hj ↦ hi.large_lt j (hlarge j hj).2
    large_flag := fun hf ↦ absurd (hi.large_flag hf i) hl
    large_header := fun j hj ↦ by
      obtain ⟨hji, hj⟩ := hlarge j hj
      simp only [Heap.closeLarge, Function.update_of_ne hji]
      exact hi.large_header j hj
    large_size := fun j hj ↦ by
      obtain ⟨hji, hj⟩ := hlarge j hj
      simp only [Heap.closeLarge, Function.update_of_ne hji]
      exact hi.large_size j hj
    large_client := fun j hj ↦ by
      obtain ⟨hji, hj⟩ := hlarge j hj
      simp only [Heap.closeLarge, Function.update_of_ne hji]
      exact hi.large_client j hj
    large_free := fun j hj ↦ by
      by_cases hji : j = i
      · subst hji
        simp [Heap.closeLarge]
      · simp only [Heap.closeLarge, Function.update_of_ne hji] at hj ⊢
        exact hi.large_free j hj
    large_cnt := by
      have hset : (h.closeLarge i).tableSet = h.tableSet.erase i := by
        ext j
        rw [Finset.mem_erase, Heap.mem_tableSet, Heap.mem_tableSet]
        by_cases hji : j = i
        · subst hji
          simp [Heap.closeLarge]
        · simp [Heap.closeLarge, hji]
      have hmem : i ∈ h.tableSet := by simp [hl, hi.large_lt i hl]
      have hpos := Finset.card_pos.mpr ⟨i, hmem⟩
      show h.largeCnt - 1 = _
      rw [hset, Finset.card_erase_of_mem hmem, hi.large_cnt]
      omega
    region_mapped := howned.kind
    region_apart := howned.apart
    mem_mapped := howned.mem
    mapped_nodup := howned.nodup }

theorem Heap.cell_closeLarge (i : Nat) :
    (h.closeLarge i).cell = Function.update h.cell (.large i) none := by
  funext s
  by_cases hs : s = .large i
  · subst hs
    rw [Function.update_self]
    exact Heap.cell_eq_none.mpr fun ht ↦ ht (Function.update_self i 0 h.large)
  · rw [Function.update_of_ne hs]
    cases s with
    | pool y j => rfl
    | large j =>
      have hj : j ≠ i := fun e ↦ hs (by rw [e])
      have hlj : (h.closeLarge i).large j = h.large j := Function.update_of_ne hj _ _
      have hsj : (h.closeLarge i).largeRequestSizes j = h.largeRequestSizes j :=
        Function.update_of_ne hj _ _
      refine Heap.cell_congr ?_ (fun _ ↦ ?_) (fun _ ↦ hsj)
      · simp only [Heap.Taken, hlj]
      · simp only [Heap.extent, hlj]
        rfl

/-! ## What `malloc_impl` does -/

/-- Setting up an arena changes no cell. -/
theorem Heap.becomes_openArena (hi : h.WF pl) {z : Pool} {ptr : Nat}
    (hclosed : h.poolFlag z = false) (hflag : h.pageFlag z = 0#32)
    (hg : Grants h.mapped (pl.arenaLen z) ptr) :
    h.Becomes pl h.cell (h.openArena pl z ptr) := by
  have hz := z.stride_bounds
  have hlen := pl.arenaLen_ge z
  have hmem : h.Becomes pl h.cell
      { h with mem := initHeaders ptr z.stride 100 (fill h.mem ptr (pl.arenaLen z) 0#8) } := by
    refine .of_outside hi hg.2.2.2.2 fun a n hap ↦ ?_
    simp only [Region.Apart] at hap
    exact (agree_fill 0#8 hap).trans (agree_initHeaders (by omega) 100 (by omega))
  have hadd := (hmem.wf.cachePage.reserve hflag).addArena ptr hclosed
    hg.isMapping hg.2.2.2.2
    (initHeaders_spec (by omega) (by rw [SMALL] at hz; omega) 100 (Nat.le_refl _))
  refine ⟨{ hadd with }, ?_, hmem.payloads⟩
  rw [← hmem.cell]
  have hne : ∀ y k, bit (h.bitmap y) k = true → y ≠ z := by
    rintro y k hb rfl
    exact absurd (hi.bit_lt y k hb).1 (by rw [hclosed]; decide)
  funext s
  cases s with
  | pool y k =>
    refine Heap.cell_congr Iff.rfl (fun ht ↦ ?_) fun ht ↦ ?_
    · simp only [Heap.extent, Heap.slotAddr, Heap.openArena, Function.update_of_ne (hne y k ht)]
    · simp only [Heap.recorded, Heap.slotAddr, Heap.openArena, Function.update_of_ne (hne y k ht)]
  | large i => rfl

/-- Memory once a LARGE block of `n` bytes was mapped at `ptr` and given its header. -/
def largeMem (m : Memory) (ptr len i n : Nat) : Memory :=
  setMetaClientSize (writeMeta (fill m ptr len 0#8) ptr len i) ptr n

theorem agree_largeMem {m : Memory} {ptr len i n a k : Nat} (hlen : METASIZE ≤ len)
    (hap : Region.Apart ⟨a, k⟩ ⟨ptr, len⟩) : Agree m (largeMem m ptr len i n) a k := by
  simp only [Region.Apart] at hap
  rw [METASIZE] at hlen
  have hwrite : Agree (fill m ptr len 0#8) (writeMeta (fill m ptr len 0#8) ptr len i) a k :=
    agree_writeMeta _ _ (by rw [METASIZE]; omega)
  exact ((agree_fill 0#8 hap).trans hwrite).trans (agree_setMetaClientSize n (by omega))

theorem header_largeMem (m : Memory) (ptr n : Nat) {len i : Nat} (hlen : len < 2 ^ 64)
    (hi : i < 128) :
    metaSize (largeMem m ptr len i n) ptr = len ∧
      metaPosition (largeMem m ptr len i n) ptr = (i : Int) ∧
      metaClientSize (largeMem m ptr len i n) ptr = asInt n := by
  have hag : Agree (writeMeta (fill m ptr len 0#8) ptr len i) (largeMem m ptr len i n) ptr 9 :=
    agree_setMetaClientSize n (by omega)
  exact ⟨(metaSize_congr hag).trans (metaSize_writeMeta i hlen),
    (metaPosition_congr hag).trans (metaPosition_writeMeta _ hi), metaClientSize_set _ ptr n⟩

/-- Mapping a LARGE block adds one cell. -/
theorem Heap.becomes_openLarge (hi : h.WF pl) {n ptr i : Nat}
    (hz : zoneOf n = .large) (hfits : pl.Fits n) (hfree : i < 100 ∧ h.large i = 0)
    (hg : Grants h.mapped (pl.largeLen n) ptr) :
    h.Becomes pl (Function.update h.cell (.large i)
      (some ⟨ptr + METASIZE, pl.largeLen n - METASIZE, n⟩)) (h.openLarge pl n ptr i) := by
  have hn := lt_of_zoneOf_large hz
  have hlen := pl.largeLen_ge n
  have hlt : pl.largeLen n < 2 ^ 64 := by
    have := pl.largeLen_le hfits
    rw [LONG_MAX] at this
    omega
  rw [SMALL, METASIZE] at hn
  rw [METASIZE] at hlen
  have hmem : h.Becomes pl h.cell { h with mem := largeMem h.mem ptr (pl.largeLen n) i n } :=
    .of_outside hi hg.2.2.2.2 fun a k hap ↦ agree_largeMem (by rw [METASIZE]; omega) hap
  have hhdr := header_largeMem h.mem ptr n hlt (by omega : i < 128)
  have hadd := (hmem.wf.touchTable.cachePage).addLarge ptr (i := i) (n := n) rfl hfree
    hg.isMapping hg.2.2.2.2 (pl.sixteen_dvd_largeLen n) hhdr
    ⟨by omega, by rw [METASIZE]; omega⟩
  refine ⟨{ hadd with }, ?_, hmem.payloads⟩
  rw [← hmem.cell]
  have hptr : ptr ≠ 0 := Nat.ne_of_gt hg.2.1
  have hself : (h.openLarge pl n ptr i).large i = ptr := Function.update_self _ _ _
  funext s
  by_cases hs : s = .large i
  · subst hs
    have ht : (h.openLarge pl n ptr i).Taken (.large i) := by
      show (h.openLarge pl n ptr i).large i ≠ 0
      rw [hself]
      exact hptr
    have hext : (h.openLarge pl n ptr i).extent (.large i) = ⟨ptr, pl.largeLen n⟩ := by
      simp only [Heap.extent, hself]
      exact congrArg (Region.mk ptr) hhdr.1
    have hrec : (h.openLarge pl n ptr i).recorded (.large i) = n := Function.update_self _ _ _
    rw [Function.update_self, Heap.cell_of_taken ht, hext, hrec]
  · rw [Function.update_of_ne hs]
    cases s with
    | pool y j => rfl
    | large j =>
      have hj : j ≠ i := fun e ↦ hs (by rw [e])
      have hlj : (h.openLarge pl n ptr i).large j = h.large j := Function.update_of_ne hj _ _
      have hsj : (h.openLarge pl n ptr i).largeRequestSizes j = h.largeRequestSizes j :=
        Function.update_of_ne hj _ _
      refine Heap.cell_congr ?_ (fun _ ↦ ?_) (fun _ ↦ hsj)
      · simp only [Heap.Taken, hlj]
      · simp only [Heap.extent, hlj]
        rfl

/-- Handing out a slot of a pool adds one cell. -/
theorem Heap.becomes_takeSlot (hi : h.WF pl) {z : Pool} {k n : Nat} (hopen : h.poolFlag z = true)
    (hk : k < 100) (hn : 0 < n) (hfit : n + METASIZE ≤ z.stride) :
    h.Becomes pl (Function.update h.cell (.pool z k)
      (some ⟨h.slotAddr z k + METASIZE, z.stride - METASIZE, n⟩)) (h.takeSlot z k n) where
  wf := hi.takeSlot hopen hk hn hfit
  cell := Heap.cell_takeSlot hi hopen hk hfit
  payloads := Heap.keepsPayloads_takeSlot hi n hopen hk

/-- **What `malloc_impl` does.**  A request that is refused changes no cell.  A request that is
served adds a cell of its class, with its size on record, at a slot that was free. -/
theorem MallocStep.effect {os : OS} {n r : Nat} (hi : h.WF pl) (hn : 0 < n)
    (hstep : MallocStep pl os h n r h') :
    (r = 0 ∧ h.Becomes pl h.cell h') ∨
      ∃ s c, r ≠ 0 ∧ h.cell s = none ∧ s.zone = zoneOf n ∧ c.ptr = r ∧ c.size = n ∧
        h.Becomes pl (Function.update h.cell s (some c)) h' := by
  cases hstep with
  | poolFull => exact .inl ⟨rfl, .refl hi⟩
  | @poolSlot z k hz hopen hk =>
    have hfree : h.cell (.pool z k) = none :=
      Heap.cell_eq_none.mpr fun ht ↦ absurd ht (by simp [Heap.Taken, hk.2.1])
    exact .inr ⟨_, _, by rw [METASIZE]; omega, hfree, hz.symm, rfl, rfl,
      Heap.becomes_takeSlot hi hopen hk.1 hn (le_of_zoneOf_pool hz)⟩
  | arenaRefused => exact .inl ⟨rfl, .refl hi⟩
  | arenaFailed _ hclosed hflag =>
    exact .inl ⟨rfl, hi.failArena hclosed hflag, Heap.cell_failArena hi hclosed, .refl h⟩
  | @arenaOpened z ptr hz hclosed hflag hyes =>
    have hopened := Heap.becomes_openArena hi hclosed hflag (OS.answer_eq_some hyes)
    have htake := Heap.becomes_takeSlot hopened.wf (z := z) (k := 0)
      (Function.update_self _ _ _) (by decide) hn (le_of_zoneOf_pool hz)
    have haddr : (h.openArena pl z ptr).slotAddr z 0 = ptr := by
      simp [Heap.slotAddr, Heap.openArena]
    have hfree : h.cell (.pool z 0) = none := by
      refine Heap.cell_eq_none.mpr fun ht ↦ ?_
      exact absurd (hi.bit_lt z 0 ht).1 (by rw [hclosed]; decide)
    rw [hopened.cell, haddr] at htake
    exact .inr ⟨_, _, by rw [METASIZE]; omega, hfree, hz.symm, rfl, rfl, hopened.trans htake⟩
  | tableFull => exact .inl ⟨rfl, .refl hi⟩
  | tooLarge _ _ _ hh' =>
    rcases hh' with rfl | rfl
    · exact .inl ⟨rfl, hi.touchTable.setErrno _, rfl, .refl h⟩
    · exact .inl ⟨rfl, hi.touchTable.cachePage.setErrno _, rfl, .refl h⟩
  | largeFailed => exact .inl ⟨rfl, hi.touchTable.cachePage.refuse _, rfl, .refl h⟩
  | @largeOpened ptr i hz _ hfits hyes hfree =>
    have hcell : h.cell (.large i) = none := Heap.cell_eq_none.mpr fun ht ↦ ht hfree.2.1
    exact .inr ⟨_, _, by rw [METASIZE]; omega, hcell, hz.symm, rfl, rfl,
      Heap.becomes_openLarge hi hz hfits ⟨hfree.1, hfree.2.1⟩ (OS.answer_eq_some hyes)⟩

end FtMalloc
