import FtMalloc.Slots
import FtMalloc.Alike

/-!
# Blocks are freed in any order

`free_order` is the commutation law of `ft_free`: from any state the library can get into, whoever
hands it the same addresses, in whatever order and however often, ends in states that are alike, so
that whatever happens afterwards happens with the same answers.  The addresses may be those of live
blocks of any class, of blocks that are gone, or of nothing at all.

The law does not come from swapping two calls.  What is left of the allocator is a function of the
*set* of addresses: `free_impl` takes the cell at the address away and leaves the rest of the state,
called `Heap.bare`, as it is (`FreeStep.cell`, `FreeStep.bare`), so a run of frees leaves the cells
whose address was not on the list (`Freed`), and a well-formed state is known by its cells and by
`Heap.bare` (`Heap.WF.alike_of_cell`).
-/

set_option autoImplicit false

namespace FtMalloc

open CharMap

variable {pl : Platform} {h h' : Heap} {p : Nat} {ps qs : List (Nat × Nat)} {u v w : World}

/-! ## What is left of a state -/

/-- The state without the tables `free_impl` takes blocks out of. -/
def Heap.bare (h : Heap) : Heap :=
  { h with
    bitmap := fun _ _ ↦ 0#8
    large := fun _ ↦ 0
    largeCnt := 0
    largeRequestSizes := fun _ ↦ 0
    mapped := []
    calls := [] }

theorem FreeStep.bare (hf : FreeStep h p h') : h'.bare = h.bare := by
  cases hf <;> rfl

/-- `free_impl` takes the cell at the address away, if there is one. -/
theorem FreeStep.cell (hi : h.WF pl) (hf : FreeStep h p h') (s : Slot) :
    h'.cell s = (h.cell s).filter fun c ↦ c.ptr ≠ p := by
  rcases hf.effect hi with ⟨hstray, rfl⟩ | ⟨t, d, hd, rfl, hb⟩
  · cases hc : h'.cell s with
    | none => rfl
    | some c => rw [Option.filter_some_pos (by simpa using hstray s c hc)]
  · rw [hb.cell]
    by_cases hst : s = t
    · subst hst
      rw [Function.update_self, hd, Option.filter_some_neg (by simp)]
    · rw [Function.update_of_ne hst]
      cases hc : h.cell s with
      | none => rfl
      | some c =>
        have hne : c.ptr ≠ d.ptr := fun e ↦ hst (hi.ptr_inj hc hd e)
        rw [Option.filter_some_pos (by simpa using hne)]

/-- **A state is known by its cells** and by what `free_impl` leaves alone. -/
theorem Heap.WF.alike_of_cell (hi : h.WF pl) (hi' : h'.WF pl) (hbare : h'.bare = h.bare)
    (hcell : h'.cell = h.cell) : h.Alike h' := by
  have hmem := congrArg Heap.mem hbare
  have hbase := congrArg Heap.base hbare
  have hflag := congrArg Heap.poolFlag hbare
  simp only [Heap.bare] at hmem hbase hflag
  have htaken : ∀ s, h'.Taken s ↔ h.Taken s := fun s ↦ by rw [taken_iff, taken_iff, hcell]
  have hbitmap : h'.bitmap = h.bitmap := by
    funext z
    exact ext_bit fun k ↦ Bool.eq_iff_iff.mpr (htaken (.pool z k))
  have hentry : ∀ i, h'.large i = h.large i ∧ h'.largeRequestSizes i = h.largeRequestSizes i := by
    intro i
    by_cases hl : h.large i = 0
    · have hl' : h'.large i = 0 := not_not.mp (mt (htaken (.large i)).mp (not_not.mpr hl))
      exact ⟨hl'.trans hl.symm, (hi'.large_free i hl').trans (hi.large_free i hl).symm⟩
    · have hc := congrFun hcell (.large i)
      rw [Heap.cell_of_taken (s := .large i) hl,
        Heap.cell_of_taken (s := .large i) ((htaken (.large i)).mpr hl), Option.some_inj,
        Cell.mk.injEq] at hc
      exact ⟨Nat.add_right_cancel hc.1, hc.2.2⟩
  have hlarge : h'.large = h.large := funext fun i ↦ (hentry i).1
  have hsizes : h'.largeRequestSizes = h.largeRequestSizes := funext fun i ↦ (hentry i).2
  have hcnt : h'.largeCnt = h.largeCnt := by
    rw [hi'.large_cnt, hi.large_cnt, Heap.tableSet, Heap.tableSet, hlarge]
  have hregion : h'.region pl = h.region pl := by
    funext o
    cases o with
    | arena z => simp only [Heap.region, hflag, hbase]
    | large i => simp only [Heap.region, hlarge, hmem]
  refine ⟨h'.mapped, h'.calls, ?_, fun r ↦ by rw [hi'.mem_mapped, hi.mem_mapped, hregion]⟩
  cases h
  cases h'
  simp only [Heap.bare, Heap.mk.injEq] at hbare
  simp only [Heap.mk.injEq]
  simp_all only [and_self]

/-! ## Runs of `ft_free` -/

/-- Calls of `ft_free`, each by a thread and for an address; `munmap` succeeds. -/
def frees (ps : List (Nat × Nat)) : List Action :=
  ps.map fun q ↦ .call q.1 (.free q.2) none true

/-- What `ft_free` does to a world. -/
theorem Step.free {t : Nat} (hw : w.WF pl) (hstep : Step pl w (.call t (.free p) none true) u) :
    u.heap.bare = w.heap.bare ∧ (∀ s, u.heap.cell s = (w.heap.cell s).filter fun c ↦ c.ptr ≠ p) ∧
      u.live = giveBack w.live p := by
  cases hstep with
  | call hrun =>
    obtain ⟨h₁, hcall, rfl⟩ := hw.call_step hrun
    cases hcall with
    | free hf =>
      refine ⟨?_, fun s ↦ hf.cell (hw.heap.lock t) s, rfl⟩
      have hbare : h₁.unlock.bare = (w.heap.lock t).unlock.bare := congrArg Heap.unlock hf.bare
      rw [hbare, Heap.lock, Heap.unlock, ← hw.unlocked]

/-- `ft_free` returns when `munmap` succeeds. -/
theorem World.WF.exists_free (hw : w.WF pl) (t p : Nat) :
    ∃ u, Step pl w (.call t (.free p) none true) u := by
  have hrun := @Call.run_eq (pl.os none true) w.heap (.free p) t hw.unlocked
  rcases freeImpl_step (pl.os none true) (hw.heap.lock t) p with ⟨h', hok, -⟩ | ⟨_, _, hno, -⟩
  · rw [Call.impl, bind_ok hok, pure_apply] at hrun
    exact ⟨_, .call hrun⟩
  · exact absurd hno (by simp [Platform.os])

/-- The world `u` is what is left of `w` without the blocks at the addresses in `ps`. -/
structure Freed (pl : Platform) (w : World) (ps : List Nat) (u : World) : Prop where
  wf : u.WF pl
  bare : u.heap.bare = w.heap.bare
  cell : ∀ s, u.heap.cell s = (w.heap.cell s).filter fun c ↦ c.ptr ∉ ps
  live : u.live = w.live.filter fun b ↦ b.ptr ∉ ps

theorem Freed.nil (hw : w.WF pl) : Freed pl w [] w where
  wf := hw
  bare := rfl
  cell := fun s ↦ by cases w.heap.cell s <;> rfl
  live := by simp

/-- One address more. -/
theorem Freed.step {t : Nat} {as : List Nat} (hf : Freed pl w as u)
    (hstep : Step pl u (.call t (.free p) none true) v) : Freed pl w (as ++ [p]) v := by
  obtain ⟨hbare, hcell, hlive⟩ := hstep.free hf.wf
  refine ⟨hstep.wf hf.wf, hbare.trans hf.bare, fun s ↦ ?_, ?_⟩
  · rw [hcell, hf.cell, Option.filter_filter]
    refine congrArg (Option.filter · _) (funext fun c ↦ ?_)
    simp [Bool.and_comm]
  · rw [hlive, hf.live, giveBack, List.filter_filter]
    refine List.filter_congr fun b _ ↦ ?_
    simp [Bool.and_comm]

/-- **What a run of frees leaves** is a matter of the addresses, not of their order. -/
theorem Freed.run (hw : w.WF pl) {as : List Action} (hrun : Run (Step pl) w as u) :
    ∀ ps, as = frees ps → Freed pl w (ps.map Prod.snd) u := by
  induction hrun with
  | nil =>
    intro ps hps
    obtain rfl := List.map_eq_nil_iff.mp hps.symm
    exact .nil hw
  | snoc _ hstep ih =>
    intro ps hps
    obtain ⟨ps', qs', rfl, hps', hq⟩ := List.map_eq_append_iff.mp hps.symm
    obtain ⟨q, rest, rfl, rfl, hrest⟩ := List.map_eq_cons_iff.mp hq
    obtain rfl := List.map_eq_nil_iff.mp hrest
    rw [List.map_append]
    exact (ih ps' hps'.symm).step hstep

theorem World.WF.exists_frees (hw : w.WF pl) (ps : List (Nat × Nat)) :
    ∃ u, Run (Step pl) w (frees ps) u := by
  induction ps generalizing w with
  | nil => exact ⟨w, .nil w⟩
  | cons q ps ih =>
    obtain ⟨v, hstep⟩ := hw.exists_free q.1 q.2
    obtain ⟨u, hrun⟩ := ih (hstep.wf hw)
    exact ⟨u, hrun.cons hstep⟩

/-- Two runs that free the same addresses end in states that are alike. -/
theorem Freed.alike {as bs : List Nat} (hu : Freed pl w as u) (hv : Freed pl w bs v)
    (hsame : ∀ p, p ∈ bs ↔ p ∈ as) : u.Alike v where
  heap := by
    refine hu.wf.heap.alike_of_cell hv.wf.heap (hv.bare.trans hu.bare.symm) (funext fun s ↦ ?_)
    rw [hu.cell, hv.cell]
    simp only [hsame]
  live := by
    rw [hu.live, hv.live]
    simp only [hsame]

/-- **Nothing is left** when every live block was on the list: the tables are empty, and of the
mappings the arenas are there. -/
theorem Freed.empty {as : List Nat} (hw : w.WF pl) (hf : Freed pl w as u)
    (hall : ∀ b ∈ w.live, b.ptr ∈ as) :
    (∀ z, u.heap.bitmap z = fun _ ↦ 0#8) ∧ (∀ i, u.heap.large i = 0) ∧ u.heap.largeCnt = 0 ∧
      (∀ i, u.heap.largeRequestSizes i = 0) ∧
      ∀ r, r ∈ u.heap.mapped ↔
        ∃ z, w.heap.poolFlag z = true ∧ r = ⟨w.heap.base z, pl.arenaLen z⟩ := by
  have hfree : ∀ s, ¬ u.heap.Taken s := by
    intro s
    rw [← Heap.cell_eq_none, hf.cell]
    cases hc : w.heap.cell s with
    | none => rfl
    | some c =>
      obtain ⟨b, hb, hat⟩ := hw.tracks.complete s c hc
      exact Option.filter_some_neg (by simpa [hat.ptr] using hall b hb)
  have hlarge : ∀ i, u.heap.large i = 0 := fun i ↦ not_not.mp (hfree (.large i))
  have hbase := congrArg Heap.base hf.bare
  have hflag := congrArg Heap.poolFlag hf.bare
  simp only [Heap.bare] at hbase hflag
  refine ⟨fun z ↦ ext_bit fun k ↦ ?_, hlarge, ?_, fun i ↦ hf.wf.heap.large_free i (hlarge i), ?_⟩
  · rw [bit_zero]
    exact Bool.eq_false_iff.mpr (hfree (.pool z k))
  · rw [hf.wf.heap.large_cnt, Heap.tableSet, Finset.filter_eq_empty_iff.mpr fun i _ ↦ ?_,
      Finset.card_empty, Nat.cast_zero]
    exact not_not.mpr (hlarge i)
  · intro r
    rw [hf.wf.heap.mem_mapped, ← hbase, ← hflag]
    constructor
    · rintro ⟨_ | i, hr⟩
      · rename_i z
        rw [Heap.region] at hr
        split at hr
        · rename_i hz
          exact ⟨z, hz, (Option.some_inj.mp hr).symm⟩
        · exact absurd hr (by simp)
      · rw [Heap.region, if_neg (not_not.mpr (hlarge i))] at hr
        exact absurd hr (by simp)
    · rintro ⟨z, hz, rfl⟩
      exact ⟨.arena z, if_pos hz⟩

/-! ## The order of the calls -/

/-- **`ft_free` commutes with itself.**  From a state the library can get into, calls of `ft_free`
for the same addresses, in any order and by any threads, come back, and end in the same state: the
same bitmaps, the same LARGE table and count, the same sizes on record and the same mappings.
Whatever requests are made afterwards get the same answers.  If every live block was among the
addresses, nothing is left of the tables, and only the arenas are mapped. -/
theorem free_order (hw : w.Reachable pl) (hperm : (ps.map Prod.snd).Perm (qs.map Prod.snd)) :
    (∃ u, Run (Step pl) w (frees ps) u) ∧
      ∀ u v, Run (Step pl) w (frees ps) u → Run (Step pl) w (frees qs) v →
        (v.heap.bitmap = u.heap.bitmap ∧ v.heap.large = u.heap.large ∧
          v.heap.largeCnt = u.heap.largeCnt ∧ v.heap.recorded = u.heap.recorded ∧
          ∀ r, r ∈ v.heap.mapped ↔ r ∈ u.heap.mapped) ∧
        (∀ ls u', Run (Answered pl) u ls u' → ∃ v', Run (Answered pl) v ls v') ∧
        ((∀ b ∈ w.live, b.ptr ∈ ps.map Prod.snd) →
          (∀ z, u.heap.bitmap z = fun _ ↦ 0#8) ∧ (∀ i, u.heap.large i = 0) ∧ u.heap.largeCnt = 0 ∧
          (∀ i, u.heap.largeRequestSizes i = 0) ∧
          ∀ r, r ∈ u.heap.mapped ↔
            ∃ z, w.heap.poolFlag z = true ∧ r = ⟨w.heap.base z, pl.arenaLen z⟩) := by
  refine ⟨hw.wf.exists_frees ps, fun u v hu hv ↦ ?_⟩
  have hfu := Freed.run hw.wf hu ps rfl
  have hfv := Freed.run hw.wf hv qs rfl
  have halike := hfu.alike hfv fun p ↦ hperm.symm.mem_iff
  refine ⟨?_, fun ls u' hrun ↦ ?_, hfu.empty hw.wf⟩
  · obtain ⟨m, c, hh, hm⟩ := halike.heap
    rw [hh]
    refine ⟨rfl, rfl, rfl, ?_, hm⟩
    funext s
    cases s <;> rfl
  · obtain ⟨v', hrun', -⟩ := halike.run hrun
    exact ⟨v', hrun'⟩

theorem free_order_twoBlocks : ∃ u v,
    Run (Step .pages4k) World.twoBlocks (frees [(1, 0x1010), (1, 0x1010), (2, 0x4010)]) u ∧
      Run (Step .pages4k) World.twoBlocks (frees [(1, 0x4010), (2, 0x1010), (1, 0x1010)]) v ∧
      v.heap.bitmap = u.heap.bitmap ∧ v.heap.large = u.heap.large := by
  have hperm : (List.map Prod.snd [(1, 0x1010), (1, 0x1010), (2, 0x4010)]).Perm
      (List.map Prod.snd [(1, 0x4010), (2, 0x1010), (1, 0x1010)]) := by decide
  obtain ⟨⟨u, hu⟩, hsame⟩ := free_order World.reachable_twoBlocks hperm
  obtain ⟨⟨v, hv⟩, -⟩ := free_order World.reachable_twoBlocks hperm.symm
  exact ⟨u, v, hu, hv, (hsame u v hu hv).1.1, (hsame u v hu hv).1.2.1⟩

end FtMalloc
