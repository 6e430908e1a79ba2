import FtMalloc.ExitPaths
import FtMalloc.FreeOrder
import FtMalloc.Recovery
import FtMalloc.Slots

/-!
# Every occupancy is reached

The invariant of the allocator says that the slots in use are among the first hundred of each class,
and nothing more about which.  It could not: any set of them is in use in some run
(`occupancy_iff`).

The run fills all three classes, a request at a time, with each mapping placed above all the others
(`Sparse`), and gives back what is not wanted.
-/

set_option autoImplicit false

namespace FtMalloc

open ByteMemory CharMap PowerRound

variable {pl : Platform} {w w' : World} {N k t : Nat} {Z : Zone} {s : Slot}

/-! ## Requests that are granted -/

/-- All mappings lie below the `N`-th multiple of 4 GiB, and no arena is lost. -/
structure Sparse (pl : Platform) (N : Nat) (w : World) : Prop where
  wf : w.WF pl
  /-- The mappings leave the rest of the addresses free. -/
  below : ∀ r ∈ w.heap.mapped, r.base + r.len ≤ N * 2 ^ 32
  /-- Each arena is set up, or may be. -/
  unstuck : ∀ z, ¬ w.heap.Stuck z

theorem Sparse.initial (pl : Platform) (m : Memory) : Sparse pl 1 (World.initial m) where
  wf := .initial pl m
  below := fun r hr ↦ absurd hr (by simp [World.initial, Heap.initial])
  unstuck := fun z hz ↦ hz.1 rfl

/-- A size of the class. -/
def Zone.request : Zone → Nat
  | .pool .tiny => 1
  | .pool .small => 100
  | .large => 500

theorem Zone.zoneOf_request (Z : Zone) : zoneOf Z.request = Z := by
  rcases Z with ⟨_ | _⟩ | _ <;> rfl

theorem Zone.reqSize_request (Z : Zone) : reqSize Z.request = Z.request := by
  rcases Z with ⟨_ | _⟩ | _ <;> rfl

/-- The kernel places the next mapping above all the others. -/
def aboveAll (pl : Platform) (N : Nat) : OS := pl.os (some (N * 2 ^ 32)) true

theorem Sparse.grants {len : Nat} (hw : Sparse pl N w) (hN : 0 < N) (hlt : N < 2 ^ 31)
    (hpos : 0 < len) (hlen : len ≤ 2 ^ 32) :
    (aboveAll pl N).answer w.heap.mapped len = some (N * 2 ^ 32) := by
  refine Option.filter_some_pos (decide_eq_true ⟨hpos, by omega, ?_, by omega, fun r hr ↦ ?_⟩)
  · exact Dvd.dvd.mul_left (by decide) N
  · exact .inl (hw.below r hr)

theorem Platform.largeLen_request (pl : Platform) :
    pl.Fits (Zone.request .large) ∧ pl.largeLen (Zone.request .large) ≤ 2 ^ 32 := by
  have hp := pl.page_lt
  have hle := roundUp_le pl.page (Zone.request .large + METASIZE)
  simp only [Platform.Fits, Platform.largeLen, Zone.request, METASIZE, LONG_MAX] at hle ⊢
  omega

/-- A request is served as long as a slot of the class is free. -/
theorem Sparse.serves (hw : Sparse pl N w) (hN : 0 < N) (hlt : N < 2 ^ 31) (hk : k < 100)
    (hfree : ¬ w.heap.Taken (Z.slot k)) :
    w.heap.Serves pl (aboveAll pl N) Z.request := by
  rw [Heap.Serves, Z.zoneOf_request]
  cases Z with
  | pool z =>
    dsimp only
    split
    · exact fun hfull ↦ hfree (hfull k hk)
    · rename_i hclosed
      have hlen := pl.arenaLen_lt z
      have hpos := pl.arenaLen_ge z
      have hz := z.stride_bounds.1
      have hyes : (aboveAll pl N).answer w.heap.mapped (pl.arenaLen z) = some (N * 2 ^ 32) :=
        hw.grants hN hlt (by omega) (by omega)
      refine ⟨not_not.mp fun hflag ↦ hw.unstuck z ⟨hflag, by simpa using hclosed⟩, ?_⟩
      rw [hyes]
      exact Option.some_ne_none _
  | large =>
    obtain ⟨hfits, hlen⟩ := pl.largeLen_request
    have hpos := pl.largeLen_ge (Zone.request .large)
    have hyes : (aboveAll pl N).answer w.heap.mapped (pl.largeLen (Zone.request .large))
        = some (N * 2 ^ 32) := hw.grants hN hlt (by rw [METASIZE] at hpos; omega) hlen
    refine ⟨?_, hfits, ?_⟩
    · have hcard : w.heap.tableSet.card < 100 := by
        have hsub : w.heap.tableSet ⊂ Finset.range 100 :=
          (Finset.ssubset_iff_of_subset (Finset.filter_subset _ _)).mpr
            ⟨k, Finset.mem_range.mpr hk, fun hmem ↦ hfree (Heap.mem_tableSet.mp hmem).2⟩
        simpa using Finset.card_lt_card hsub
      rw [hw.wf.heap.large_cnt]
      omega
    · rw [hyes]
      exact Option.some_ne_none _

/-- What is mapped after a request lies below the next multiple. -/
theorem MallocStep.below {h h' : Heap} {n r : Nat} (hm : MallocStep pl (aboveAll pl N) h n r h')
    (hlarge : zoneOf n = .large → pl.largeLen n ≤ 2 ^ 32)
    (hbelow : ∀ q ∈ h.mapped, q.base + q.len ≤ N * 2 ^ 32) :
    ∀ q ∈ h'.mapped, q.base + q.len ≤ (N + 1) * 2 ^ 32 := by
  have hold : ∀ q ∈ h.mapped, q.base + q.len ≤ (N + 1) * 2 ^ 32 :=
    fun q hq ↦ (hbelow q hq).trans (by omega)
  have hnew : ∀ {len ptr : Nat}, len ≤ 2 ^ 32 →
      (aboveAll pl N).answer h.mapped len = some ptr →
      ∀ q ∈ (⟨ptr, len⟩ : Region) :: h.mapped, q.base + q.len ≤ (N + 1) * 2 ^ 32 := by
    intro len ptr hlen hyes
    obtain rfl : N * 2 ^ 32 = ptr := Option.some_inj.mp (Option.filter_eq_some_iff.mp hyes).1
    exact List.forall_mem_cons.mpr ⟨by simp only; omega, hold⟩
  cases hm with
  | poolFull | poolSlot | arenaRefused | arenaFailed | tableFull | largeFailed => exact hold
  | tooLarge _ _ _ hh' => rcases hh' with rfl | rfl <;> exact hold
  | @arenaOpened z _ _ _ _ hyes => exact hnew (Nat.le_of_lt (pl.arenaLen_lt z)) hyes
  | largeOpened hz _ _ hyes => exact hnew (hlarge hz) hyes

/-- **One slot more.** -/
theorem Sparse.step (hw : Sparse pl N w) (hN : 0 < N) (hlt : N < 2 ^ 31) (hk : k < 100)
    (hfree : ¬ w.heap.Taken (Z.slot k)) :
    ∃ a w' j, Step pl w a w' ∧ Sparse pl (N + 1) w' ∧ ¬ w.heap.Taken (Z.slot j) ∧
      ∀ s, w'.heap.Taken s ↔ s = Z.slot j ∨ w.heap.Taken s := by
  have hi := hw.wf.heap.lock 0
  obtain ⟨r, h₁, himpl, hm⟩ := mallocImpl_step (pl.os_on (some (N * 2 ^ 32)) true) hi Z.request
  rw [Z.reqSize_request] at hm
  have hserves : (w.heap.lock 0).Serves pl (aboveAll pl N) Z.request :=
    hw.serves hN hlt hk hfree
  have hpos : 0 < Z.request := by rcases Z with ⟨_ | _⟩ | _ <;> decide
  have hrun : (Call.malloc Z.request).run (pl.os (some (N * 2 ^ 32)) true) 0 w.heap
      = .ok r h₁.unlock := by
    rw [Call.run_eq _ 0 hw.wf.unlocked, Call.impl, himpl]
  have hstep : Step pl w _ _ := .call hrun
  rcases hm.effect hi hpos with ⟨hr, -⟩ | ⟨s, c, -, hnone, hzone, -, -, hbecomes⟩
  · exact absurd hr (hm.serves_iff.mp hserves)
  obtain rfl : s.zone = Z := hzone.trans Z.zoneOf_request
  have hlarge : zoneOf s.zone.request = .large → pl.largeLen s.zone.request ≤ 2 ^ 32 := by
    intro hz
    rw [s.zone.zoneOf_request] at hz
    rw [hz]
    exact pl.largeLen_request.2
  refine ⟨_, _, s.index, hstep, ⟨hstep.wf hw.wf, hm.below hlarge hw.below, fun z hz ↦ ?_⟩, ?_, ?_⟩
  · rcases (hm.stuck_iff z).mp hz with hz | ⟨hpool, hclosed, -, hno⟩
    · exact hw.unstuck z hz
    · rw [Heap.Serves, hpool] at hserves
      dsimp only at hserves
      rw [if_neg (by rw [hclosed]; decide)] at hserves
      exact hserves.2 hno
  · rw [Zone.slot_index]
    exact Heap.cell_eq_none.mp hnone
  · intro u
    have hcell : h₁.unlock.cell u = Function.update w.heap.cell s (some c) u :=
      congrFun hbecomes.cell u
    rw [Zone.slot_index, taken_iff, taken_iff, hcell]
    by_cases hu : u = s
    · simp [hu]
    · simp [hu]

/-! ## Runs -/

/-- **A class is filled**, and nothing is given back. -/
theorem Sparse.fill (hw : Sparse pl N w) (hN : 0 < N) (Z : Zone) : ∀ j,
    (w.heap.takenSet Z).card + j = 100 → N + j < 2 ^ 31 →
    ∃ as w', Run (Step pl) w as w' ∧ Sparse pl (N + j) w' ∧
      (∀ k < 100, w'.heap.Taken (Z.slot k)) ∧ ∀ s, w.heap.Taken s → w'.heap.Taken s := by
  intro j
  induction j generalizing N w with
  | zero =>
    intro hcard _
    refine ⟨[], w, .nil w, hw, fun k hk ↦ ?_, fun _ ht ↦ ht⟩
    have hall : w.heap.takenSet Z = Finset.range 100 :=
      Finset.eq_of_subset_of_card_le (Finset.filter_subset _ _) (by simpa using hcard.ge)
    exact hw.wf.heap.mem_takenSet.mp (hall ▸ Finset.mem_range.mpr hk)
  | succ j ih =>
    intro hcard hlt
    obtain ⟨k, hk, hfree⟩ : ∃ k ∈ Finset.range 100, k ∉ w.heap.takenSet Z := by
      by_contra hno
      push Not at hno
      have hle := Finset.card_le_card (show Finset.range 100 ⊆ w.heap.takenSet Z from hno)
      rw [Finset.card_range] at hle
      omega
    obtain ⟨a, u, i, hstep, hu, hnew, htaken⟩ := hw.step hN (by omega) (Finset.mem_range.mp hk)
      fun ht ↦ hfree (hw.wf.heap.mem_takenSet.mpr ht)
    have hset : u.heap.takenSet Z = insert i (w.heap.takenSet Z) := by
      ext l
      have hslot : Z.slot l = Z.slot i ↔ l = i :=
        ⟨fun h ↦ by simpa using congrArg Slot.index h, congrArg Z.slot⟩
      rw [Finset.mem_insert, hu.wf.heap.mem_takenSet, hw.wf.heap.mem_takenSet, htaken, hslot]
    have hcard' : (u.heap.takenSet Z).card + j = 100 := by
      rw [hset, Finset.card_insert_of_notMem fun hi ↦ hnew (hw.wf.heap.mem_takenSet.mp hi)]
      omega
    obtain ⟨as, v, hrun, hv, hfull, hkept⟩ := ih hu (by omega) hcard' (by omega)
    refine ⟨a :: as, v, hrun.cons hstep, ?_, hfull, fun s hs ↦ hkept s ((htaken s).mpr (.inr hs))⟩
    rwa [Nat.add_right_comm, Nat.add_assoc] at hv

/-- Some run fills all three classes. -/
theorem World.exists_full (pl : Platform) (m : Memory) :
    ∃ as w, Run (Step pl) (World.initial m) as w ∧ w.WF pl ∧
      ∀ s, s.index < 100 → w.heap.Taken s := by
  have hcard : ∀ (w : World) Z,
      (w.heap.takenSet Z).card + (100 - (w.heap.takenSet Z).card) = 100 := by
    intro w Z
    have hle := Finset.card_le_card (Finset.filter_subset (fun k ↦ w.heap.Taken (Z.slot k))
      (Finset.range 100))
    rw [Finset.card_range] at hle
    exact Nat.add_sub_cancel' hle
  obtain ⟨as₁, w₁, hrun₁, hw₁, hfull₁, -⟩ := (Sparse.initial pl m).fill (by decide) (.pool .tiny) _
    (hcard _ _) (by omega)
  obtain ⟨as₂, w₂, hrun₂, hw₂, hfull₂, hkept₂⟩ := hw₁.fill (by omega) (.pool .small) _
    (hcard _ _) (by omega)
  obtain ⟨as₃, w₃, hrun₃, hw₃, hfull₃, hkept₃⟩ := hw₂.fill (by omega) .large _
    (hcard _ _) (by omega)
  refine ⟨_, w₃, (hrun₁.append hrun₂).append hrun₃, hw₃.wf, fun s hs ↦ ?_⟩
  rcases s with ⟨_ | _, k⟩ | i
  · exact hkept₃ _ (hkept₂ _ (hfull₁ k hs))
  · exact hkept₃ _ (hfull₂ k hs)
  · exact hfull₃ i hs

/-- The slots of all classes. -/
def allSlots : List Slot :=
  (List.range 100).flatMap fun k ↦ [.pool .tiny k, .pool .small k, .large k]

theorem mem_allSlots : s ∈ allSlots ↔ s.index < 100 := by
  rcases s with ⟨_ | _, k⟩ | i <;> simp [allSlots, Slot.index]

/-- What is not wanted of a full world is given back. -/
theorem World.WF.exists_part (hw : w.WF pl) (hfull : ∀ s, s.index < 100 → w.heap.Taken s)
    (U : Slot → Prop) : ∃ as u, Run (Step pl) w as u ∧
      ∀ s, u.heap.Taken s ↔ s.index < 100 ∧ U s := by
  classical
  have hcell : ∀ {s}, s.index < 100 → w.heap.cell s = some _ :=
    fun hs ↦ Heap.cell_of_taken (hfull _ hs)
  obtain ⟨u, hrun⟩ := hw.exists_frees
    ((allSlots.filter fun s ↦ ¬ U s).map fun s ↦ (0, (w.heap.extent s).base + METASIZE))
  have hfreed := Freed.run hw hrun _ rfl
  refine ⟨_, u, hrun, fun s ↦ ?_⟩
  rw [taken_iff, hfreed.cell, List.map_map]
  by_cases hs : s.index < 100
  · have hptr : (w.heap.extent s).base + METASIZE ∈ (allSlots.filter fun s ↦ ¬ U s).map
        (Prod.snd ∘ fun s ↦ (0, (w.heap.extent s).base + METASIZE)) ↔ ¬ U s := by
      constructor
      · intro hmem
        obtain ⟨v, hv, hp⟩ := List.mem_map.mp hmem
        obtain ⟨hall, hno⟩ := List.mem_filter.mp hv
        obtain rfl := hw.heap.ptr_inj (hcell (mem_allSlots.mp hall)) (hcell hs) hp
        exact of_decide_eq_true hno
      · exact fun hno ↦ List.mem_map.mpr
          ⟨s, List.mem_filter.mpr ⟨mem_allSlots.mpr hs, decide_eq_true hno⟩, rfl⟩
    rw [hcell hs, Option.filter_some]
    simp only [hptr, not_not, hs, true_and]
    by_cases hU : U s <;> simp [hU]
  · have hnone : w.heap.cell s = none :=
      Heap.cell_eq_none.mpr fun ht ↦ hs (hw.heap.index_lt ht)
    simp [hnone, hs]

/-- **Every occupancy is reached, and no other.**  A set of slots is what is in use after some run,
on every platform and from whatever is in memory, exactly if it has slots below 100 only. -/
theorem occupancy_iff (pl : Platform) (m : Memory) (U : Slot → Prop) :
    (∃ as w, Run (Step pl) (World.initial m) as w ∧ ∀ s, w.heap.Taken s ↔ U s) ↔
      ∀ s, U s → s.index < 100 := by
  constructor
  · rintro ⟨as, w, hrun, htaken⟩ s hs
    have hw : w.WF pl := hrun.invariant (fun _ _ _ hw hstep ↦ hstep.wf hw) (.initial pl m)
    exact hw.heap.index_lt ((htaken s).mpr hs)
  · intro hU
    obtain ⟨as, w, hrun, hw, hfull⟩ := World.exists_full pl m
    obtain ⟨bs, u, hrun', htaken⟩ := hw.exists_part hfull U
    exact ⟨_, u, hrun.append hrun', fun s ↦ (htaken s).trans (and_iff_right_of_imp (hU s))⟩

end FtMalloc
