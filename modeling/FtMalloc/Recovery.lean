import FtMalloc.World

/-!
# After a failed `mmap`

A request that needs a mapping fails when `mmap` does.  Is the next one served, once memory is
available again?  For a LARGE block it is.  For an arena it is not: `calculater_page_size` sets its
`flag_tiny` or `flag_small` before the `mmap`, `malloc_impl` sets its own flag after it, and when
the `mmap` in between fails the arena is *stuck* — asked for once and never set up.

* `Step.stuck_iff` — an arena becomes stuck in exactly one way, and stays stuck.
* `served_iff` — a request that has a free slot and would be granted its mapping is served exactly
  when no step of the run failed the `mmap` of its arena.
* `not_transient` — such runs exist.
-/

set_option autoImplicit false

namespace FtMalloc

open ByteMemory CharMap

variable {pl : Platform} {os : OS} {h h' : Heap} {w w' : World} {a : Action} {n r : Nat}
  {y z : Pool}

/-! ## Stuck arenas -/

/-- The arena was asked for and never set up. -/
def Heap.Stuck (h : Heap) (z : Pool) : Prop := h.pageFlag z ≠ 0#32 ∧ h.poolFlag z = false

/-- A request for `n` bytes is for a slot of the arena, the arena was not asked for before, and its
`mmap` fails. -/
def FailsArena (pl : Platform) (os : OS) (h : Heap) (n : Nat) (z : Pool) : Prop :=
  zoneOf n = .pool z ∧ h.poolFlag z = false ∧ h.pageFlag z = 0#32 ∧
    os.answer h.mapped (pl.arenaLen z) = none

theorem reserve_pageFlag_ne (h : Heap) (hz : h.pageFlag z = 0#32) :
    (h.reserve z).pageFlag z ≠ 0#32 := by
  simp only [Heap.reserve, Function.update_self, hz]
  cases z <;> decide

/-- `malloc_impl` touches no arena but the one of the class of the request. -/
theorem MallocStep.arena_of_ne (hm : MallocStep pl os h n r h') (hne : zoneOf n ≠ .pool y) :
    h'.base y = h.base y ∧ h'.poolFlag y = h.poolFlag y ∧ h'.pageFlag y = h.pageFlag y := by
  have hother : ∀ {z : Pool}, zoneOf n = .pool z → y ≠ z := by
    rintro z hz rfl
    exact hne hz
  cases hm with
  | poolFull | poolSlot | arenaRefused => exact ⟨rfl, rfl, rfl⟩
  | tableFull | largeFailed | largeOpened => exact ⟨rfl, rfl, rfl⟩
  | tooLarge _ _ _ hh' => rcases hh' with rfl | rfl <;> exact ⟨rfl, rfl, rfl⟩
  | arenaFailed hz =>
    exact ⟨Function.update_of_ne (hother hz) _ _, rfl, Function.update_of_ne (hother hz) _ _⟩
  | arenaOpened hz =>
    exact ⟨Function.update_of_ne (hother hz) _ _, Function.update_of_ne (hother hz) _ _,
      Function.update_of_ne (hother hz) _ _⟩

/-- **An arena becomes stuck in one way only**: its `mmap` fails. -/
theorem MallocStep.stuck_iff (hm : MallocStep pl os h n r h') (z : Pool) :
    h'.Stuck z ↔ h.Stuck z ∨ FailsArena pl os h n z := by
  have hsame : ¬ FailsArena pl os h n z → (h.Stuck z ↔ h.Stuck z ∨ FailsArena pl os h n z) :=
    fun hno ↦ (or_iff_left hno).symm
  by_cases hz : zoneOf n = .pool z
  · -- the request is for a slot of this arena
    have hmine : ∀ {y : Pool}, zoneOf n = .pool y → z = y :=
      fun hy ↦ Zone.pool.inj (hz.symm.trans hy)
    have hlarge : zoneOf n ≠ .large := fun hy ↦ by simp [hz] at hy
    cases hm with
    | poolFull hy hopen =>
      obtain rfl := hmine hy
      exact hsame fun hf ↦ absurd (hopen.symm.trans hf.2.1) (by decide)
    | poolSlot hy hopen =>
      obtain rfl := hmine hy
      exact hsame fun hf ↦ absurd (hopen.symm.trans hf.2.1) (by decide)
    | arenaRefused hy _ hflag =>
      obtain rfl := hmine hy
      exact hsame fun hf ↦ hflag hf.2.2.1
    | arenaFailed hy hclosed hflag hno =>
      obtain rfl := hmine hy
      exact ⟨fun _ ↦ .inr ⟨hz, hclosed, hflag, hno⟩,
        fun _ ↦ ⟨reserve_pageFlag_ne h hflag, hclosed⟩⟩
    | arenaOpened hy hclosed hflag hyes =>
      obtain rfl := hmine hy
      constructor
      · rintro ⟨-, hopen⟩
        exact absurd hopen (by simp [Heap.takeSlot, Heap.mark, Heap.openArena])
      · rintro (hstuck | hf)
        · exact absurd hflag hstuck.1
        · rw [hf.2.2.2] at hyes
          exact absurd hyes (by simp)
    | tableFull hy => exact absurd hy hlarge
    | tooLarge hy => exact absurd hy hlarge
    | largeFailed hy => exact absurd hy hlarge
    | largeOpened hy => exact absurd hy hlarge
  · obtain ⟨-, hopen, hflag⟩ := hm.arena_of_ne hz
    rw [Heap.Stuck, hopen, hflag]
    exact hsame fun hf ↦ hz hf.1

/-- The step makes a request that fails the `mmap` of the arena. -/
inductive World.FailsArena (pl : Platform) (w : World) (z : Pool) : Action → Prop
  | call {t n : Nat} {call : Call} {mmap : Option Nat} {munmap : Bool}
      (hreq : call.Requests w.heap n)
      (hfail : FtMalloc.FailsArena pl (pl.os mmap munmap) w.heap (reqSize n) z) :
      World.FailsArena pl w z (.call t call mmap munmap)

/-- **The steps that make an arena stuck.** -/
theorem Step.stuck_iff (hw : w.WF pl) (hstep : Step pl w a w') (z : Pool) :
    w'.heap.Stuck z ↔ w.heap.Stuck z ∨ w.FailsArena pl z a := by
  cases hstep with
  | @call t call mmap munmap r h' hrun =>
    obtain ⟨h₁, hcall, rfl⟩ := hw.call_step hrun
    have hsame : ∀ {h₂ h₃ : Heap}, h₂.SameArenas h₃ → (h₃.Stuck z ↔ h₂.Stuck z) := fun he ↦ by
      rw [Heap.Stuck, Heap.Stuck, he.poolFlag, he.pageFlag]
    rcases hcall.request (hw.heap.lock t) with ⟨n, h₂, hreq, hm, he⟩ | ⟨hno, he⟩
    · have hreq' := Call.requests_lock.mp hreq
      refine (hsame he.sameArenas).trans
        ((hm.stuck_iff z).trans (or_congr Iff.rfl ⟨fun hf ↦ .call hreq' hf, ?_⟩))
      rintro ⟨hreq₂, hf⟩
      rw [hreq'.unique hreq₂]
      exact hf
    · refine (hsame he.sameArenas).trans (or_iff_left ?_).symm
      rintro ⟨hreq, -⟩
      exact hno _ (Call.requests_lock.mpr hreq)
  | write => exact (or_iff_left fun hf ↦ (nomatch hf)).symm
  | host => exact (or_iff_left fun hf ↦ (nomatch hf)).symm

/-- An arena is stuck exactly if some step of the run failed its `mmap`. -/
theorem stuck_iff_met {m : Memory} {as : List Action} (hrun : Run (Step pl) (World.initial m) as w)
    (z : Pool) : w.heap.Stuck z ↔
      Run.Met (Step pl) (fun u a ↦ u.FailsArena pl z a) (World.initial m) as w := by
  have hinv : ∀ (u : World) b v, u.WF pl → Step pl u b v → v.WF pl :=
    fun _ _ _ hu hstep ↦ hstep.wf hu
  exact hrun.flag_iff hinv (fun _ _ _ hu hstep ↦ hstep.stuck_iff hu z) (.initial pl m)
    fun hs ↦ hs.1 rfl

/-! ## Requests that should be served -/

/-- The mapping a request for `n` bytes may need. -/
def Heap.mayNeed (h : Heap) (pl : Platform) (n : Nat) : Option Nat :=
  match zoneOf n with
  | .pool z => if h.poolFlag z then none else some (pl.arenaLen z)
  | .large => some (pl.largeLen n)

/-- The request passes the size checks, its class has a free slot, and the operating system would
grant the mapping it may need. -/
structure World.Grantable (pl : Platform) (w : World) (os : OS) (n : Nat) : Prop where
  fits : zoneOf n = .large → pl.Fits n
  room : w.count (zoneOf n) < 100
  grant : ∀ len, w.heap.mayNeed pl n = some len → (os.answer w.heap.mapped len).isSome

/-- Such a request is refused exactly when it is for a slot of a stuck arena. -/
theorem MallocStep.ne_zero_iff (hw : w.WF pl) (hg : w.Grantable pl os n) {t : Nat}
    (hm : MallocStep pl os (w.heap.lock t) n r h') :
    r ≠ 0 ↔ ∀ z, zoneOf n = .pool z → ¬ w.heap.Stuck z := by
  obtain ⟨k, hk, hfree⟩ := (hw.count_lt_iff _).mp hg.room
  have hans : ∀ {len}, w.heap.mayNeed pl n = some len →
      os.answer (w.heap.lock t).mapped len ≠ none := fun hlen hnone ↦ by
    have := hg.grant _ hlen
    rw [show os.answer w.heap.mapped _ = none from hnone] at this
    exact absurd this (by simp)
  have hpos : ∀ {p}, p + METASIZE ≠ 0 := by
    rw [METASIZE]
    omega
  have hlarge : zoneOf n = .large → ∀ z, zoneOf n = .pool z → ¬ w.heap.Stuck z := fun hz z hz' ↦ by
    rw [hz] at hz'
    cases hz'
  have hcnt : zoneOf n = .large → w.heap.largeCnt < 100 := fun hz ↦ by
    have := hg.room
    rw [hz] at this
    rw [hw.largeCnt_eq]
    omega
  cases hm with
  | poolFull hz _ hfull =>
    rw [hz] at hfree
    exact absurd (hfull k hk) hfree
  | poolSlot hz hopen _ =>
    refine iff_of_true hpos fun y hy hs ↦ ?_
    obtain rfl := Zone.pool.inj (hz.symm.trans hy)
    exact absurd (hs.2.symm.trans hopen) (by decide)
  | arenaRefused hz hclosed hflag =>
    exact iff_of_false (fun h0 ↦ h0 rfl) fun hno ↦ hno _ hz ⟨hflag, hclosed⟩
  | arenaFailed hz hclosed _ hno =>
    refine absurd hno (hans ?_)
    rw [Heap.mayNeed, hz]
    exact if_neg (by rw [show w.heap.poolFlag _ = false from hclosed]; decide)
  | arenaOpened hz _ hflag _ =>
    refine iff_of_true hpos fun y hy hs ↦ ?_
    obtain rfl := Zone.pool.inj (hz.symm.trans hy)
    exact hs.1 hflag
  | tableFull hz hfull => exact absurd (hcnt hz) hfull
  | tooLarge hz _ hbig _ => exact absurd (hg.fits hz) hbig
  | largeFailed hz _ _ hno => exact absurd hno (hans (by rw [Heap.mayNeed, hz]))
  | largeOpened hz _ _ _ _ => exact iff_of_true hpos (hlarge hz)

/-- **When a request is served.**  At the end of any run, and for any call that requests `n` bytes:
if the size checks pass, the class has a free slot and the operating system would grant the mapping
that may be needed, then the call comes back with a block exactly when no step of the run failed the
`mmap` of the arena that `n` belongs to. -/
theorem served_iff {m : Memory} {as : List Action} (hrun : Run (Step pl) (World.initial m) as w)
    {t : Nat} {call : Call} {mmap : Option Nat} (hreq : call.Requests w.heap n)
    (hg : w.Grantable pl (pl.os mmap true) (reqSize n)) :
    (∃ r h', call.run (pl.os mmap true) t w.heap = .ok r h' ∧ r ≠ 0) ↔
      ∀ z, zoneOf (reqSize n) = .pool z →
        ¬ Run.Met (Step pl) (fun u a ↦ u.FailsArena pl z a) (World.initial m) as w := by
  have hw : w.WF pl := World.Reachable.wf ⟨_, as, ⟨m, rfl⟩, hrun⟩
  simp only [← stuck_iff_met hrun]
  rcases call.impl_step (pl.os_on mmap true) (hw.heap.lock t) with ⟨r, h₁, himpl, hstep⟩ |
    ⟨_, _, _, hno, -⟩
  · have hret : call.run (pl.os mmap true) t w.heap = .ok r h₁.unlock := by
      rw [call.run_eq t hw.unlocked, himpl]
    rcases hstep.request (hw.heap.lock t) with ⟨k, h₂, hreq₂, hm, -⟩ | ⟨hno, -⟩
    · obtain rfl := hreq.unique (Call.requests_lock.mp hreq₂)
      rw [← hm.ne_zero_iff hw hg, hret]
      constructor
      · rintro ⟨_, _, hok, h0⟩
        cases hok
        exact h0
      · exact fun h0 ↦ ⟨r, _, rfl, h0⟩
    · exact absurd (Call.requests_lock.mpr hreq) (hno n)
  · exact absurd hno (by simp [Platform.os])

/-- A request for a slot of an arena that was set up before is served. -/
theorem served_iff_twoBlocks :
    (∃ r h',
      (Call.malloc 80).run (Platform.pages4k.os none true) 1 World.twoBlocks.heap = .ok r h' ∧
      r ≠ 0) ↔ ∀ z, zoneOf (reqSize 80) = .pool z →
        ¬ Run.Met (Step .pages4k) (fun u a ↦ u.FailsArena .pages4k z a) (World.initial fun _ ↦ 0#8)
          [.call 1 (.malloc 1) (some 0x1000) true, .call 2 (.malloc 600) (some 0x4000) true]
          World.twoBlocks :=
  served_iff World.run_twoBlocks (.malloc 80) {
    fits := fun h ↦ absurd h (by decide)
    room := by decide +kernel
    grant := fun len h ↦ by
      have hnone : World.twoBlocks.heap.mayNeed .pages4k (reqSize 80) = none := by decide +kernel
      rw [hnone] at h
      exact absurd h (by simp) }

/-- A failed `mmap` is a transient error: a request that passes the size checks, whose class has a
free slot and that would be granted its mapping, is served. -/
def Transient (pl : Platform) : Prop :=
  ∀ (m : Memory) (as : List Action) (w : World), Run (Step pl) (World.initial m) as w →
    ∀ (t : Nat) (call : Call) (mmap : Option Nat) (n : Nat), call.Requests w.heap n →
      w.Grantable pl (pl.os mmap true) (reqSize n) →
        ∃ r h', call.run (pl.os mmap true) t w.heap = .ok r h' ∧ r ≠ 0

/-- **A failed `mmap` is not transient**: after one `malloc(1)` that could not map the TINY arena, a
second one is refused although the mapping would be granted. -/
theorem not_transient : ¬ Transient .pages4k := by
  intro htrans
  have hstep : Step .pages4k (World.initial fun _ ↦ 0#8) (.call 1 (.malloc 1) none true)
      ((World.initial fun _ ↦ 0#8).after .pages4k 1 (.malloc 1) none true) :=
    Step.of_answer (r := 0) (by decide +kernel)
  obtain ⟨r, h', hrun, hr⟩ := htrans _ _ _ (Run.single hstep) 1 (.malloc 1) (some 0x1000) 1
    (.malloc 1) {
      fits := fun h ↦ absurd h (by decide)
      room := by decide +kernel
      grant := fun len h ↦ by
        obtain rfl : 0x3000 = len := by
          have hsome :
              ((World.initial fun _ ↦ 0#8).after .pages4k 1 (.malloc 1) none true).heap.mayNeed
              .pages4k (reqSize 1) = some 0x3000 := by decide +kernel
          exact Option.some_inj.mp (hsome.symm.trans h)
        decide +kernel }
  have hnull : ((World.initial fun _ ↦ 0#8).after .pages4k 1 (.malloc 1) none true).answer
      .pages4k 1 (.malloc 1) (some 0x1000) true = some 0 := by decide +kernel
  rw [World.answer, hrun] at hnull
  exact hr (Option.some_inj.mp hnull)

end FtMalloc
