import FtMalloc.Observe

/-!
# Calls that amount to the same

What the callers of the library can tell apart (`World.traces`) gives its calls an equational
theory, and this file has its laws.

* `invisible_iff` — a call shows to later callers exactly if it changes which addresses are live, or
  loses an arena for good.  So a `realloc` that stays where it is does not show, and neither does a
  request that is turned down, unless its `mmap` was that of an arena.
* `free_undoes_malloc` — a `free` takes a `malloc` back for good, whatever was written meanwhile,
  unless the `malloc` was the one that set the arena up.
* `composite_calls` — `calloc` is `malloc` of the product, and a `realloc` that moves a block is a
  `malloc` and a `free`.
-/

set_option autoImplicit false

namespace FtMalloc

open ByteMemory CharMap FirstFree

variable {pl : Platform} {os : OS} {h h' h₁ h₂ : Heap} {n r r' p k t t' : Nat} {s : Slot}
  {c d : Cell} {call : Call} {z : Pool} {w w' w₁ w₂ : World} {mmap mmap' : Option Nat}
  {munmap munmap' : Bool}

/-! ## Faces -/

theorem Heap.SameFace.refl (h : Heap) : h.SameFace h :=
  ⟨fun _ ↦ Iff.rfl, fun _ ↦ rfl, fun _ _ ↦ rfl, fun _ ↦ Iff.rfl⟩

/-- Cells that keep their payload and arenas that stay as they are do not show. -/
theorem Heap.SameFace.of_cell
    (hcell : ∀ s, (h'.cell s).map Cell.payload = (h.cell s).map Cell.payload)
    (ha : h.SameArenas h') : h.SameFace h' where
  blocks := fun q ↦ exists_congr fun s ↦ by
    rw [← Option.map_eq_some_iff, hcell, Option.map_eq_some_iff]
  opened := fun z ↦ congrFun ha.poolFlag z
  base := fun z _ ↦ congrFun ha.base z
  stuck := fun z ↦ by rw [Heap.Stuck, Heap.Stuck, ha.pageFlag, ha.poolFlag]

/-- The same addresses are stray. -/
theorem Heap.SameFace.stray (hf : h.SameFace h') (p : Nat) : h'.Stray p ↔ h.Stray p := by
  have hall : ∀ {g g' : Heap}, g.SameFace g' → g.Stray p → g'.Stray p := by
    rintro g g' hf hstray s c hc rfl
    obtain ⟨s', c', hc', hq⟩ := (hf.blocks c.payload).mp ⟨s, c, hc, rfl⟩
    exact hstray s' c' hc' (congrArg Region.base hq)
  exact ⟨hall hf.symm, hall hf⟩

/-- All three classes see the same if the cells and the arenas are the same. -/
theorem Heap.SameFace.of_view (hview : h'.view = h.view) : h.SameFace h' := by
  refine .of_cell (fun s ↦ ?_) ⟨funext fun z ↦ ?_, funext fun z ↦ ?_, funext fun z ↦ ?_⟩
  · rw [cell_eq_of_view (congrFun hview s.zone) rfl]
  · exact congrArg ClassView.base (congrFun hview (.pool z))
  · exact congrArg ClassView.opened (congrFun hview (.pool z))
  · exact congrArg ClassView.pageFlag (congrFun hview (.pool z))

/-! ## Requests -/

/-- A request that is turned down shows only if it loses an arena. -/
theorem MallocStep.face_of_null (hi : h.WF pl) (hn : 0 < n) (hm : MallocStep pl os h n 0 h')
    (hlost : ∀ z, ¬ FtMalloc.FailsArena pl os h n z) : h.SameFace h' := by
  have hcell : h'.cell = h.cell := by
    rcases hm.effect hi hn with ⟨-, hb⟩ | ⟨_, _, h0, -⟩
    · exact hb.cell
    · exact absurd rfl h0
  have hquiet : h.SameArenas h' → h.SameFace h' := fun ha ↦ .of_cell (fun s ↦ by rw [hcell]) ha
  generalize hr : 0 = r at hm
  cases hm with
  | poolFull | arenaRefused | tableFull => exact .refl h
  | arenaFailed hz hclosed hflag hno => exact absurd ⟨hz, hclosed, hflag, hno⟩ (hlost _)
  | tooLarge _ _ _ hh' => rcases hh' with rfl | rfl <;> exact hquiet ⟨rfl, rfl, rfl⟩
  | largeFailed => exact hquiet ⟨rfl, rfl, rfl⟩
  | poolSlot => exact absurd hr (by simp [METASIZE])
  | arenaOpened => exact absurd hr (by simp [METASIZE])
  | largeOpened => exact absurd hr (by simp [METASIZE])

/-- A request that is met keeps the arenas, unless it sets up its own. -/
theorem MallocStep.sameArenas (hm : MallocStep pl os h n r h') (hr : r ≠ 0)
    (hopen : ∀ z, zoneOf n = .pool z → h.poolFlag z = true) : h.SameArenas h' := by
  cases hm with
  | poolFull | arenaRefused | arenaFailed | tableFull | tooLarge | largeFailed =>
    exact absurd rfl hr
  | poolSlot => exact ⟨rfl, rfl, rfl⟩
  | arenaOpened hz hclosed => exact absurd ((hopen _ hz).symm.trans hclosed) (by decide)
  | largeOpened => exact ⟨rfl, rfl, rfl⟩

/-- A request that is met leaves its arena open. -/
theorem MallocStep.opened (hm : MallocStep pl os h n r h') (hr : r ≠ 0)
    (hz : zoneOf n = .pool z) : h'.poolFlag z = true := by
  have hpool : ∀ {y : Pool}, zoneOf n = .pool y → y = z := fun hy ↦ Zone.pool.inj (hy.symm.trans hz)
  cases hm with
  | poolFull | arenaRefused | arenaFailed | tableFull | tooLarge | largeFailed =>
    exact absurd rfl hr
  | poolSlot hy hopen =>
    obtain rfl := hpool hy
    exact hopen
  | arenaOpened hy =>
    obtain rfl := hpool hy
    exact Function.update_self _ _ _
  | largeOpened hy => exact absurd (hy.symm.trans hz) (by simp)

/-- A block that is handed out is at a new address. -/
theorem MallocStep.stray_of_served (hi : h.WF pl) (hn : 0 < n) (hm : MallocStep pl os h n r h')
    (hr : r ≠ 0) : h.Stray r ∧ ¬ h'.Stray r := by
  rcases hm.effect hi hn with ⟨h0, -⟩ | ⟨s, c, -, hfree, -, rfl, -, hb⟩
  · exact absurd h0 hr
  · refine ⟨fun t d hd ↦ hb.ptr_new hfree hd, fun hstray ↦ hstray s c ?_ rfl⟩
    rw [hb.cell, Function.update_self]

/-- Without the block that was handed out, all is as before. -/
theorem MallocStep.cell_filter (hi : h.WF pl) (hn : 0 < n) (hm : MallocStep pl os h n r h')
    (hr : r ≠ 0) (s : Slot) : (h'.cell s).filter (fun d ↦ d.ptr ≠ r) = h.cell s := by
  rcases hm.effect hi hn with ⟨h0, -⟩ | ⟨s', c, -, hfree, -, rfl, -, hb⟩
  · exact absurd h0 hr
  rw [hb.cell]
  by_cases hs : s = s'
  · subst hs
    rw [Function.update_self, Option.filter_some_neg (by simp)]
    exact hfree.symm
  · rw [Function.update_of_ne hs]
    cases hd : h.cell s with
    | none => rfl
    | some d => exact Option.filter_some_pos (by simpa using hb.ptr_new hfree hd)

/-! ## Calls that do not show -/

/-- A `free` that leaves the same addresses live has done nothing. -/
theorem FreeStep.face (hi : h.WF pl) (hf : FreeStep h p h')
    (hlive : ∀ q, h'.Stray q ↔ h.Stray q) : h.SameFace h' := by
  rcases hi.stray_or_cell p with hstray | ⟨s, c, hc, rfl⟩
  · rw [hf.eq_of_stray hstray]
    exact .refl h
  · have hgone : h'.Stray c.ptr := by
      intro t d hd
      rw [hf.cell hi, Option.filter_eq_some_iff] at hd
      exact of_decide_eq_true hd.2
    exact absurd rfl ((hlive c.ptr).mp hgone s c hc)

/-- **A call that leaves the same addresses live, and loses no arena, does not show.** -/
theorem CallStep.face (hi : h.WF pl) (hstep : CallStep pl os h call r h')
    (hlive : ∀ q, h'.Stray q ↔ h.Stray q)
    (hlost : ∀ n, call.Requests h n → ∀ z, ¬ FtMalloc.FailsArena pl os h (reqSize n) z) :
    h.SameFace h' := by
  have hrequest : ∀ {n}, call.Requests h n → MallocStep pl os h (reqSize n) r h' →
      h.SameFace h' := by
    intro n hreq hm
    by_cases hr : r = 0
    · subst hr
      exact hm.face_of_null hi (reqSize_pos n) (hlost n hreq)
    · obtain ⟨hstray, hserved⟩ := hm.stray_of_served hi (reqSize_pos n) hr
      exact absurd ((hlive r).mpr hstray) hserved
  cases hstep with
  | malloc hm => exact hrequest (.malloc _) hm
  | free hf => exact hf.face hi hlive
  | realloc hr =>
    cases hr with
    | null hp hm => exact hrequest (.reallocNull hp) hm
    | free _ _ hf => exact hf.face hi hlive
    | stray => exact .refl h
    | @inPlace s c _ hc hp hfit =>
      refine .of_cell (fun t ↦ ?_) (by cases s <;> exact ⟨rfl, rfl, rfl⟩)
      rw [Heap.cell_record hi hc hfit]
      by_cases ht : t = s
      · rw [ht, Function.update_self, hc]
        rfl
      · rw [Function.update_of_ne ht]
    | failed hc hp hbig hm =>
      refine hrequest (.reallocMove hc hp hbig) ?_
      rwa [reqSize_eq (by omega)]
    | moved hc hp hbig hr hm hf =>
      subst hp
      obtain ⟨s', c', hne, -, -, rfl, -, -, hcell, -, hnew, -⟩ :=
        ReallocStep.moved_effect hi hc hbig hr hm hf
      have hlives : h'.cell s' = some c' := by
        rw [hcell, Function.update_of_ne hne, Function.update_self]
      exact absurd rfl ((hlive c'.ptr).mpr hnew s' c' hlives)
  | calloc hc =>
    cases hc with
    | overflow => exact .of_view (funext fun D ↦ by cases D <;> rfl)
    | failed hfit hm => exact hrequest (.calloc hfit) hm
    | zeroed hfit hr hm =>
      obtain ⟨hstray, hserved⟩ := hm.stray_of_served hi (reqSize_pos _) hr
      obtain ⟨_, _, -, -, -, -, -, hcell, -⟩ := hm.zero_effect hi hr
      refine absurd (fun s c hc ↦ ?_) hserved
      exact (hlive r).mpr hstray s c ((congrFun hcell s).trans hc)

/-- **A call shows to later callers exactly if it changes which addresses are live, or loses an
arena.** -/
theorem invisible_iff (hw : w.Reachable pl)
    (hans : Answered pl w (.call t call mmap munmap, some r) w') :
    w'.traces pl = w.traces pl ↔
      (∀ p, p ∈ w'.live.map Block.ptr ↔ p ∈ w.live.map Block.ptr) ∧
        ∀ z, ¬ w.FailsArena pl z (.call t call mmap munmap) := by
  have hwf := hw.wf
  have hwf' := hans.1.wf hwf
  have hstray : ∀ {u : World}, u.WF pl → ∀ p, u.heap.Stray p ↔ p ∉ u.live.map Block.ptr := by
    intro u hu p
    rw [hu.stray_iff, List.mem_map]
    simp
  rw [hwf.traces_eq_iff hwf']
  constructor
  · intro hf
    refine ⟨fun p ↦ not_iff_not.mp ?_, fun z hfail ↦ ?_⟩
    · rw [← hstray hwf', ← hstray hwf]
      exact hf.stray p
    · -- a lost arena was not lost before
      have hstuck := (hf.stuck z).mp ((hans.1.stuck_iff hwf z).mpr (.inr hfail))
      cases hfail with
      | call hreq hfail => exact hstuck.1 hfail.2.2.1
  · rintro ⟨hlive, hlost⟩
    obtain ⟨h₁, hstep, hheap⟩ := hans.call_step hwf
    have hface : (w.heap.lock t).SameFace h₁ := by
      refine hstep.face (hwf.heap.lock t) (fun p ↦ ?_) fun n hreq z hfail ↦
        hlost z (.call (Call.requests_lock.mp hreq) hfail)
      have hsame : h₁.Stray p ↔ w'.heap.Stray p := by
        rw [hheap]
        exact Iff.rfl
      rw [hsame, hstray hwf']
      exact (not_congr (hlive p)).trans (hstray hwf p).symm
    rw [hheap]
    exact ⟨hface.blocks, hface.opened, hface.base, hface.stuck⟩

/-- A block is resized where it is. -/
theorem invisible_iff_twoBlocks :
    let w := World.twoBlocks.after .pages4k 1 (.realloc 0x1010 50) none true
    w.traces .pages4k = World.twoBlocks.traces .pages4k ↔
      (∀ p, p ∈ w.live.map Block.ptr ↔ p ∈ World.twoBlocks.live.map Block.ptr) ∧
        ∀ z, ¬ World.twoBlocks.FailsArena .pages4k z (.call 1 (.realloc 0x1010 50) none true) :=
  invisible_iff World.reachable_twoBlocks (.of_answer (r := 0x1010) (by decide +kernel))

/-! ## A block that is taken and given back -/

theorem Heap.SameArenas.trans (ha : h.SameArenas h₁) (ha' : h₁.SameArenas h') : h.SameArenas h' :=
  ⟨ha'.base.trans ha.base, ha'.poolFlag.trans ha.poolFlag, ha'.pageFlag.trans ha.pageFlag⟩

/-- Who holds the mutex has nothing to do with the arenas. -/
theorem Heap.SameArenas.unlock (ha : (h.lock t).SameArenas h') : h.SameArenas h'.unlock :=
  ⟨ha.base, ha.poolFlag, ha.pageFlag⟩

/-- What is written to memory is seen by no class. -/
theorem World.WF.view_of_quiet {as : List (Action × Option Nat)} (hw : w.WF pl)
    (hrun : Run (Answered pl) w as w') (hquiet : calls as = []) :
    w'.heap.view = w.heap.view := by
  rcases (hw.run_iff.mp ⟨as, w', hrun, hquiet, rfl⟩).first with ⟨-, hview⟩ | ⟨_, _, _, hcons, -⟩
  · exact hview.symm
  · exact absurd hcons (by simp)

/-- The arenas are in the views. -/
theorem Heap.SameArenas.of_view (hview : h'.view = h.view) : h.SameArenas h' :=
  ⟨funext fun z ↦ congrArg ClassView.base (congrFun hview (.pool z)),
    funext fun z ↦ congrArg ClassView.opened (congrFun hview (.pool z)),
    funext fun z ↦ congrArg ClassView.pageFlag (congrFun hview (.pool z))⟩

/-- **A `free` takes a `malloc` back**, whatever was written meanwhile: no later call can tell that
there was one, unless it was the one that set the arena up. -/
theorem free_undoes_malloc {as : List (Action × Option Nat)} (hw : w.Reachable pl) (hr : r ≠ 0)
    (hmalloc : Answered pl w (.call t (.malloc n) mmap munmap, some r) w₁)
    (hrun : Run (Answered pl) w₁ as w₂) (hquiet : calls as = [])
    (hfree : Answered pl w₂ (.call t' (.free r) mmap' munmap', some r') w') :
    w'.traces pl = w.traces pl ↔
      ∀ z, zoneOf (reqSize n) = .pool z → w.heap.poolFlag z = true := by
  have hwf := hw.wf
  have hwf₁ := hmalloc.1.wf hwf
  have hwf₂ : w₂.WF pl := hrun.invariant (fun _ _ _ hw hstep ↦ hstep.1.wf hw) hwf₁
  have hview := hwf₁.view_of_quiet hrun hquiet
  obtain ⟨h₁, hstep, hheap₁⟩ := hmalloc.call_step hwf
  obtain ⟨h₂, hf, hheap₂⟩ := hfree.free hwf₂
  rw [hwf.traces_eq_iff (hfree.1.wf hwf₂)]
  cases hstep with
  | malloc hm =>
    have hkeep : w₁.heap.SameArenas w'.heap := by
      rw [hheap₂]
      exact (Heap.SameArenas.of_view hview).trans hf.sameArenas.unlock
    constructor
    · intro hface z hz
      have hopen₁ : w₁.heap.poolFlag z = true := by
        rw [hheap₁]
        exact hm.opened hr hz
      exact (hface.opened z).symm.trans ((congrFun hkeep.poolFlag z).trans hopen₁)
    · intro hopen
      have hopened : w.heap.SameArenas w₁.heap := by
        rw [hheap₁]
        exact (hm.sameArenas hr hopen).unlock
      refine .of_cell (fun s ↦ ?_) (hopened.trans hkeep)
      have hcell : w'.heap.cell s = w.heap.cell s :=
        calc w'.heap.cell s = (w₂.heap.cell s).filter fun d ↦ d.ptr ≠ r := by
              rw [hheap₂]
              exact hf.cell (hwf₂.heap.lock t') s
          _ = (h₁.cell s).filter fun d ↦ d.ptr ≠ r := by
              rw [cell_eq_of_view (congrFun hview s.zone) rfl, hheap₁]
              rfl
          _ = w.heap.cell s := hm.cell_filter (hwf.heap.lock t) (reqSize_pos n) hr s
      rw [hcell]

/-- The first block of all is taken and given back, which shows; and a block of an arena that is
there is taken, written to and given back, which does not. -/
theorem free_undoes_malloc_initial :
    let w := World.initial fun _ ↦ 0#8
    let w₁ := w.after .pages4k 1 (.malloc 1) (some 0x1000) true
    let u₁ := World.twoBlocks.after .pages4k 1 (.malloc 20) none true
    (w₁.after .pages4k 2 (.free 0x1010) none true).traces .pages4k ≠ w.traces .pages4k ∧
      ((u₁.write 0x1070 0 7#8).after .pages4k 2 (.free 0x1070) none true).traces .pages4k
        = World.twoBlocks.traces .pages4k := by
  intro w w₁ u₁
  have hshows : (w₁.after .pages4k 2 (.free 0x1010) none true).traces .pages4k
      = w.traces .pages4k ↔ ∀ z, zoneOf (reqSize 1) = .pool z → w.heap.poolFlag z = true :=
    free_undoes_malloc (r := 0x1010) (Reach.start ⟨_, rfl⟩) (by decide)
      (.of_answer (by decide +kernel)) (.nil _) rfl (.of_answer (r := 0) (by decide +kernel))
  obtain ⟨b, hb, hp, hsize⟩ : ∃ b ∈ u₁.live, b.ptr = 0x1070 ∧ 0 < b.size := by decide +kernel
  have hwrite : Answered .pages4k u₁ (.write 1 0x1070 0 7#8, none) (u₁.write 0x1070 0 7#8) :=
    ⟨.write hb hp hsize, rfl⟩
  refine ⟨fun heq ↦ absurd (hshows.mp heq .tiny (by decide)) (by decide), ?_⟩
  refine (free_undoes_malloc (r := 0x1070) World.reachable_twoBlocks (by decide)
    (.of_answer (by decide +kernel)) (.single hwrite) rfl
    (.of_answer (r := 0) (by decide +kernel))).mpr fun z hz ↦ ?_
  obtain rfl : Pool.tiny = z := Zone.pool.inj hz
  decide +kernel

/-! ## Calls made of others -/

/-- A request that is made by `malloc` alone. -/
theorem World.WF.malloc (hw : w.WF pl) (hm : MallocStep pl (pl.os mmap munmap) (w.heap.lock t)
      (reqSize n) r h₁) : ∃ u, Answered pl w (.call t (.malloc n) mmap munmap, some r) u ∧
      u.heap.view = h₁.view := by
  refine (Machine.Step.call (t := t) ?_).answered hw
  have hview := Machine.request_view (hw.heap.lock t) (reqSize_pos n) hm
  rw [Machine.exec]
  exact congrArg some hview

/-- The request of a `calloc` is that of `malloc`: clearing the block does not show. -/
theorem CallocStep.request {nmemb size : Nat} (hi : h.WF pl)
    (hc : CallocStep pl os h nmemb size r h') (hfit : nmemb * size ≤ SIZE_MAX) :
    ∃ h₁, MallocStep pl os h (reqSize (nmemb * size)) r h₁ ∧ h'.view = h₁.view := by
  cases hc with
  | overflow hover => omega
  | failed _ hm => exact ⟨_, hm, rfl⟩
  | zeroed _ hr hm => exact ⟨_, hm, funext fun D ↦ hm.view_zero hi hr D⟩

/-- A `realloc` that moves a block requests the new one as `malloc` does, and then the old one is
released. -/
theorem ReallocStep.moves (hi : h.WF pl) (hstep : ReallocStep pl os h p n r h') (hp : p ≠ 0)
    (hr : r ≠ 0) (hrp : r ≠ p) :
    ∃ h₁, MallocStep pl os h (reqSize n) r h₁ ∧ ∀ D, h'.view D = (h₁.view D).release p := by
  rcases hi.stray_or_cell p with hstray | ⟨s, c, hc, rfl⟩
  · exact absurd (hstep.of_stray hp hstray).1 hr
  rcases hstep.of_cell hi hc with ⟨-, h0, -⟩ | ⟨-, -, hin, -⟩ | ⟨-, h0, -⟩ | ⟨hbig, -, h₁, hm, hf⟩
  · exact absurd h0 hr
  · exact absurd hin hrp
  · exact absurd h0 hr
  obtain ⟨hwf, hview⟩ := Machine.view_copyTo hi hc hbig hr hm
  refine ⟨h₁, by rwa [reqSize_eq (by omega : n ≠ 0)], fun D ↦ ?_⟩
  rw [← hview]
  exact hf.view hwf D

/-- **`calloc` is `malloc` of the product, and a `realloc` that moves a block is `malloc` and
`free`**: with the same answer of the kernel they have the same answer, and no later call can tell
them apart. -/
theorem composite_calls (hw : w.Reachable pl) :
    (∀ nmemb size r w₁, nmemb * size ≤ SIZE_MAX →
        Answered pl w (.call t (.calloc nmemb size) mmap munmap, some r) w₁ →
        ∃ u, Answered pl w (.call t (.malloc (nmemb * size)) mmap munmap, some r) u ∧
          u.traces pl = w₁.traces pl) ∧
      ∀ p n r w₁, p ≠ 0 → r ≠ 0 → r ≠ p →
        Answered pl w (.call t (.realloc p n) mmap munmap, some r) w₁ →
        ∃ u v, Answered pl w (.call t (.malloc n) mmap munmap, some r) u ∧
          Answered pl u (.call t (.free p) none true, some 0) v ∧ v.traces pl = w₁.traces pl := by
  have hwf := hw.wf
  have hi := hwf.heap.lock t
  constructor
  · intro nmemb size r w₁ hfit hans
    have hwf₁ := hans.1.wf hwf
    obtain ⟨h₁, hstep, hheap⟩ := hans.call_step hwf
    cases hstep with
    | calloc hc =>
      obtain ⟨h₂, hm, hview⟩ := hc.request hi hfit
      obtain ⟨u, hu, huview⟩ := hwf.malloc hm
      refine ⟨u, hu, World.traces_eq hwf₁ (hu.1.wf hwf) ?_⟩
      rw [huview, hheap, ← hview]
      rfl
  · intro p n r w₁ hp hr hrp hans
    have hwf₁ := hans.1.wf hwf
    obtain ⟨h₁, hstep, hheap⟩ := hans.call_step hwf
    cases hstep with
    | realloc hstep =>
      obtain ⟨h₂, hm, hmove⟩ := hstep.moves hi hp hr hrp
      obtain ⟨u, hu, huview⟩ := hwf.malloc hm
      have hwfu := hu.1.wf hwf
      obtain ⟨v, hv, hfree⟩ := hwfu.free t p
      refine ⟨u, v, hu, hv, World.traces_eq hwf₁ (hv.1.wf hwfu) (funext fun D ↦ ?_)⟩
      -- both have released `p` from what the request has left
      have hright : w₁.heap.view D = (h₂.view D).release p := by
        rw [hheap]
        exact hmove D
      rw [hright, ← huview]
      exact hfree.view (hwfu.heap.lock t) D

/-- A TINY block moves to the SMALL arena, and another one is cleared. -/
theorem composite_calls_twoBlocks :
    (∃ u, Answered .pages4k World.twoBlocks (.call 1 (.malloc (3 * 8)) none true, some 0x1070) u ∧
        u.traces .pages4k
          = (World.twoBlocks.after .pages4k 1 (.calloc 3 8) none true).traces .pages4k) ∧
      ∃ u v, Answered .pages4k World.twoBlocks
          (.call 1 (.malloc 100) (some 0x20000) true, some 0x20010) u ∧
        Answered .pages4k u (.call 1 (.free 0x1010) none true, some 0) v ∧
        v.traces .pages4k
          = (World.twoBlocks.after .pages4k 1 (.realloc 0x1010 100) (some 0x20000) true).traces
            .pages4k :=
  ⟨(composite_calls World.reachable_twoBlocks).1 3 8 _ _ (by decide)
      (.of_answer (by decide +kernel)),
    (composite_calls World.reachable_twoBlocks).2 0x1010 100 _ _ (by decide) (by decide) (by decide)
      (.of_answer (by decide +kernel))⟩

end FtMalloc
