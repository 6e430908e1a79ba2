import FtMalloc.World

/-!
# `ft_calloc2`

`calloc_zeroed` is what a caller of `ft_calloc2` can rely on, in every state the library can get
into and for every pair of sizes: a block has room for the product of the integers and holds zeros
where the product reaches, a product that does not fit a `size_t` is refused and nothing changes,
and any other is served exactly when `malloc_impl` serves it.  The blocks that were live keep their
headers, their bytes and their sizes on record.
-/

set_option autoImplicit false

namespace FtMalloc

open ByteMemory

variable {pl : Platform} {os : OS} {h h₁ : Heap} {r k : Nat} {w : World}

/-- Clearing the first bytes of the block that `malloc_impl` handed out leaves the other slots
alone. -/
theorem MallocStep.keepsExtents_zero (hi : h.WF pl) (hr : r ≠ 0)
    (hm : MallocStep pl os h (reqSize k) r h₁) : h.KeepsExtents (h₁.zero r k) := by
  intro s hs
  refine (hm.keepsExtents hi s hs).trans ?_
  rcases hm.effect hi (reqSize_pos _) with ⟨h0, -⟩ | ⟨s', c, -, hfree, -, rfl, hsz, hb⟩
  · exact absurd h0 hr
  have hne : s' ≠ s := by
    rintro rfl
    exact Heap.cell_eq_none.mp hfree hs
  have hc := Heap.cell_of_taken hs
  have hc₁ := (congrFun hb.cell s).trans ((Function.update_of_ne hne.symm _ _).trans hc)
  have hcs : h₁.cell s' = some c := by rw [hb.cell, Function.update_self]
  have hap := hb.wf.payload_apart hcs (hb.wf.exists_of_taken (Heap.taken_of_cell hc₁)) hne
  have hle := (hb.wf.cell_size_le hcs).2
  have hreq := le_reqSize k
  rw [hi.extent_eq_of_cell hb.wf hc hc₁] at hap
  simp only [Region.Apart, Cell.payload] at hap
  exact agree_fill 0#8 (by omega)

/-- **`ft_calloc2` hands out zeroed blocks.**  It returns; a block has room for `nmemb * size` bytes
and that many zeros; a product above `SIZE_MAX` is refused with `ENOMEM` and nothing else changes;
otherwise the answer is that of `malloc_impl` for the product, in the same state.  No live block is
touched. -/
theorem calloc_zeroed (hw : w.Reachable pl) (t nmemb size : Nat) (mmap : Option Nat)
    (munmap : Bool) :
    ∃ r h', (Call.calloc nmemb size).run (pl.os mmap munmap) t w.heap = .ok r h' ∧
      (r ≠ 0 → ∃ s c, w.heap.cell s = none ∧ h'.cell s = some c ∧ c.ptr = r ∧
        nmemb * size ≤ c.room ∧ ∀ i < nmemb * size, h'.mem (r + i) = 0#8) ∧
      (SIZE_MAX < nmemb * size → r = 0 ∧ h' = { w.heap with errno := ENOMEM }) ∧
      (nmemb * size ≤ SIZE_MAX →
        ∃ h₁, mallocImpl (pl.os mmap munmap) (nmemb * size) (w.heap.lock t) = .ok r h₁) ∧
      ∀ b ∈ w.live, ∃ s c, w.heap.cell s = some c ∧ c.ptr = b.ptr ∧ c.size = b.size ∧
        h'.cell s = some c ∧
        Agree w.heap.mem h'.mem (w.heap.extent s).base (w.heap.extent s).len := by
  have hi := hw.wf.heap.lock t
  have hos := pl.os_on mmap munmap
  -- the block of a cell that stays, in memory that stays
  have hkeep : ∀ {h₁ : Heap}, (∀ s c, w.heap.cell s = some c → h₁.cell s = some c) →
      w.heap.KeepsExtents h₁ → ∀ b ∈ w.live, ∃ s c, w.heap.cell s = some c ∧ c.ptr = b.ptr ∧
        c.size = b.size ∧ h₁.cell s = some c ∧
        Agree w.heap.mem h₁.mem (w.heap.extent s).base (w.heap.extent s).len := by
    intro h₁ hcell hext b hb
    obtain ⟨s, c, hc, hat⟩ := hw.wf.cell_of_live hb
    exact ⟨s, c, hc, hat.ptr, hat.size, hcell s c hc, hext s (Heap.taken_of_cell hc)⟩
  rw [Call.run_eq _ t hw.wf.unlocked]
  by_cases hover : SIZE_MAX < nmemb * size
  · have hrun : Call.impl (pl.os mmap munmap) (.calloc nmemb size) (w.heap.lock t)
        = .ok 0 { w.heap.lock t with errno := ENOMEM } := by
      rw [Call.impl, calloImp, if_pos ((overflow_iff nmemb size).mpr hover), modify_bind,
        pure_apply]
    have hunlock : ({ w.heap.lock t with errno := ENOMEM } : Heap).unlock
        = { w.heap with errno := ENOMEM } := by
      rw [Heap.lock, Heap.unlock, ← hw.wf.unlocked]
    rw [hrun]
    refine ⟨0, _, rfl, fun h0 ↦ absurd rfl h0, fun _ ↦ ⟨rfl, hunlock⟩, fun hfit ↦ ?_, ?_⟩
    · exact absurd hover (Nat.not_lt.mpr hfit)
    · exact hkeep (fun _ _ hc ↦ hc) fun s _ ↦ Agree.refl _ _ _
  · have hfit : nmemb * size ≤ SIZE_MAX := by omega
    obtain ⟨r, h₁, hrun, hm⟩ := mallocImpl_step hos hi (nmemb * size)
    rw [Call.impl, calloImp_of_fits hfit hrun]
    refine ⟨r, _, rfl, fun hr ↦ ?_, fun h ↦ absurd h hover, fun _ ↦ ⟨h₁, hrun⟩, ?_⟩
    · obtain ⟨s, c, hfree, -, hp, hsz, hb, -, hzero⟩ := hm.zero_effect hi hr
      have hcs : (h₁.zero r (nmemb * size)).cell s = some c := by rw [hb.cell, Function.update_self]
      have hle := (hb.wf.cell_size_le hcs).2
      have hreq := le_reqSize (nmemb * size)
      rw [if_neg hr]
      exact ⟨s, c, hfree, hcs, hp, by omega, hzero⟩
    · by_cases hr : r = 0
      · rw [if_pos hr]
        refine hkeep (fun s c hc ↦ ?_) fun s hs ↦ hm.keepsExtents hi s hs
        rcases hm.effect hi (reqSize_pos _) with ⟨-, hb⟩ | ⟨_, _, h0, -⟩
        · exact (congrFun hb.cell s).trans hc
        · exact absurd hr h0
      · rw [if_neg hr]
        obtain ⟨s', c', hfree, -, -, -, hb, -, -⟩ := hm.zero_effect hi hr
        refine hkeep (fun s c hc ↦ ?_) fun s hs ↦ hm.keepsExtents_zero hi hr s hs
        have hne : s ≠ s' := by
          rintro rfl
          exact absurd (hfree.symm.trans hc) (by simp)
        exact (congrFun hb.cell s).trans ((Function.update_of_ne hne _ _).trans hc)

/-- Thread 1 has written to its TINY block and freed it. -/
def World.dirtied : World :=
  (World.twoBlocks.write 0x1010 0 7#8).after .pages4k 1 (.free 0x1010) none true

theorem World.reachable_dirtied : World.dirtied.Reachable .pages4k := by
  obtain ⟨b, hb, hp, hsize⟩ : ∃ b ∈ World.twoBlocks.live, b.ptr = 0x1010 ∧ 0 < b.size := by
    decide +kernel
  have hwrite : Step .pages4k World.twoBlocks (.write 1 0x1010 0 7#8)
      (World.twoBlocks.write 0x1010 0 7#8) := .write hb hp hsize
  have hfree : Step .pages4k (World.twoBlocks.write 0x1010 0 7#8)
      (.call 1 (.free 0x1010) none true) World.dirtied := .of_answer (r := 0) (by decide +kernel)
  exact (World.reachable_twoBlocks.next hwrite).next hfree

/-- The slot that was left dirty is handed out again, and is clean. -/
theorem calloc_zeroed_twoBlocks : World.dirtied.heap.mem 0x1010 = 7#8 ∧
    ∃ h', (Call.calloc 3 5).run (Platform.pages4k.os none true) 2 World.dirtied.heap
        = .ok 0x1010 h' ∧
      ∀ i < 3 * 5, h'.mem (0x1010 + i) = 0#8 := by
  obtain ⟨r, h', hrun, hblock, -⟩ := calloc_zeroed World.reachable_dirtied 2 3 5 none true
  have hanswer : World.dirtied.answer .pages4k 2 (.calloc 3 5) none true = some 0x1010 := by
    decide +kernel
  rw [World.answer, hrun] at hanswer
  obtain rfl : r = 0x1010 := Option.some_inj.mp hanswer
  obtain ⟨_, _, -, -, -, -, hzero⟩ := hblock (by decide)
  exact ⟨by decide +kernel, h', hrun, hzero⟩

end FtMalloc
