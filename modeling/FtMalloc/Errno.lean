import FtMalloc.Recovery

/-!
# `errno` after a request that fails

The size checks of `malloc_impl`, `calculater_page_size` and `callo_imp` set `errno` to `ENOMEM`
before they give up, and a failing `mmap` does the same.  The other exits return `NULL` and leave
`errno` as it was: the bitmap of a pool is full, the LARGE table is full, or the arena was asked for
before and is not there.  These are the states in which a request is *out of slots*
(`Heap.OutOfSlots`).

`errno_reported_iff` — a request reports its failure exactly when it is not out of slots.
-/

set_option autoImplicit false

namespace FtMalloc

open CharMap

variable {pl : Platform} {os : OS} {h h' : Heap} {w : World} {n r t : Nat} {call : Call}
  {mmap : Option Nat} {munmap : Bool}

/-! ## Out of slots -/

/-- There is no slot for `n` bytes, and no `mmap` would change that. -/
def Heap.OutOfSlots (h : Heap) (n : Nat) : Prop :=
  match zoneOf n with
  | .pool z => if h.poolFlag z then Full (h.bitmap z) 100 else h.pageFlag z ≠ 0#32
  | .large => ¬ h.largeCnt < 100

/-- A request that is out of slots fails, and changes nothing. -/
theorem MallocStep.of_outOfSlots (hm : MallocStep pl os h n r h') (hout : h.OutOfSlots n) :
    r = 0 ∧ h' = h := by
  rw [Heap.OutOfSlots] at hout
  cases hm with
  | poolFull | arenaRefused | tableFull => exact ⟨rfl, rfl⟩
  | poolSlot hz hopen hk => simp [hz, hopen, hk.not_full] at hout
  | arenaFailed hz hclosed hflag _ => simp [hz, hclosed, hflag] at hout
  | arenaOpened hz hclosed hflag _ => simp [hz, hclosed, hflag] at hout
  | tooLarge hz hcnt _ _ => simp [hz, hcnt] at hout
  | largeFailed hz hcnt _ _ => simp [hz, hcnt] at hout
  | largeOpened hz hcnt _ _ _ => simp [hz, hcnt] at hout

/-- Any other request that fails sets `errno`. -/
theorem MallocStep.errno (hm : MallocStep pl os h n r h') (hout : ¬ h.OutOfSlots n) (hr : r = 0) :
    h'.errno = ENOMEM := by
  rw [Heap.OutOfSlots] at hout
  cases hm with
  | poolFull hz hopen hfull => simp [hz, hopen, hfull] at hout
  | arenaRefused hz hclosed hflag => simp [hz, hclosed, hflag] at hout
  | tableFull hz hcnt => simp [hz, hcnt] at hout
  | poolSlot | arenaOpened | largeOpened => exact absurd hr (by rw [METASIZE]; omega)
  | arenaFailed | largeFailed => rfl
  | tooLarge _ _ _ hh' => rcases hh' with rfl | rfl <;> rfl

/-! ## Requests for memory -/

/-- The calls that ask for memory: `ft_malloc`, `ft_calloc2`, and `ft_realloc` of `NULL` or of a
live block to a size other than zero. -/
inductive Call.Allocates (h : Heap) : Call → Prop
  | malloc (n : Nat) : Call.Allocates h (.malloc n)
  | calloc (nmemb size : Nat) : Call.Allocates h (.calloc nmemb size)
  | reallocNull (n : Nat) : Call.Allocates h (.realloc 0 n)
  | reallocLive {s : Slot} {c : Cell} {n : Nat} (hc : h.cell s = some c) (hn : n ≠ 0) :
      Call.Allocates h (.realloc c.ptr n)

/-- A call for memory that fails has made a request that failed, or has turned a product down. -/
theorem CallStep.null (hi : h.WF pl) (ha : call.Allocates h) (hstep : CallStep pl os h call 0 h') :
    (∃ n, call.Requests h n ∧ MallocStep pl os h (reqSize n) 0 h') ∨
      (∀ n, ¬ call.Requests h n) ∧ h'.errno = ENOMEM := by
  cases ha with
  | malloc n =>
    cases hstep with
    | malloc hm => exact .inl ⟨n, .malloc n, hm⟩
  | calloc nmemb size =>
    cases hstep with
    | calloc hc =>
      cases hc with
      | overflow hover =>
        refine .inr ⟨fun n hn ↦ ?_, rfl⟩
        cases hn with
        | calloc hfit => omega
      | failed hfit hm => exact .inl ⟨_, .calloc hfit, hm⟩
      | zeroed _ hr _ => exact absurd rfl hr
  | reallocNull n =>
    cases hstep with
    | realloc hr => exact .inl ⟨n, .reallocNull rfl, hr.of_null hi⟩
  | @reallocLive s c n hc hn =>
    cases hstep with
    | realloc hr =>
      rcases hr.of_cell hi hc with ⟨h0, -⟩ | ⟨-, -, hp, -⟩ | ⟨hbig, -, hm⟩ | ⟨-, hr, -⟩
      · exact absurd h0 hn
      · exact absurd hp.symm (hi.ptr_ne_zero hc)
      · refine .inl ⟨n, .reallocMove hc rfl hbig, ?_⟩
        rw [reqSize_eq hn]
        exact hm
      · exact absurd rfl hr

/-- A call whose request is out of slots answers `NULL`, and changes nothing. -/
theorem Call.impl_outOfSlots (hos : os.On pl) (hi : h.WF pl) (hreq : call.Requests h n)
    (hout : h.OutOfSlots (reqSize n)) : call.impl os h = .ok 0 h := by
  have hm : mallocImpl os n h = .ok 0 h := by
    obtain ⟨r, h', hrun, hm⟩ := mallocImpl_step hos hi n
    obtain ⟨rfl, rfl⟩ := hm.of_outOfSlots hout
    exact hrun
  cases hreq with
  | malloc => exact hm
  | calloc hfit =>
    rw [Call.impl, calloImp_of_fits hfit hm, if_pos rfl]
  | reallocNull hp =>
    rw [Call.impl, reallocImpl, if_pos hp, hm]
  | reallocMove hc hp hbig =>
    subst hp
    rw [Call.impl, reallocImpl_of_cell hi hc (by omega), if_neg (by omega), reallocMove, bind_ok hm,
      if_pos rfl, pure_apply]

/-! ## Who reports a failure -/

/-- Whatever `errno` is before the call, it is `ENOMEM` when the call has returned `NULL`. -/
def World.ReportsFailure (pl : Platform) (w : World) (t : Nat) (call : Call) (mmap : Option Nat)
    (munmap : Bool) : Prop :=
  ∀ e h', call.run (pl.os mmap munmap) t { w.heap with errno := e } = .ok 0 h' → h'.errno = ENOMEM

/-- `errno` does not matter for what a call requests. -/
theorem Call.requests_errno {e : Nat} :
    call.Requests { h with errno := e } n ↔ call.Requests h n := by
  constructor <;> intro hn <;> cases hn with
  | malloc => exact .malloc _
  | calloc hfit => exact .calloc hfit
  | reallocNull hp => exact .reallocNull hp
  | reallocMove hc hp hbig => exact .reallocMove hc hp hbig

/-- **A call for memory reports its failure** exactly when what it requests is not out of slots. -/
theorem errno_reported_iff (hw : w.Reachable pl) (ha : call.Allocates w.heap) (t : Nat)
    (mmap : Option Nat) (munmap : Bool) : w.ReportsFailure pl t call mmap munmap ↔
      ∀ n, call.Requests w.heap n → ¬ w.heap.OutOfSlots (reqSize n) := by
  have hi := fun e ↦ (hw.wf.heap.setErrno e).lock t
  have hrun := fun e ↦
    @Call.run_eq (pl.os mmap munmap) { w.heap with errno := e } call t hw.wf.unlocked
  constructor
  · intro hrep n hreq hout
    have hnull : call.impl (pl.os mmap munmap) (Heap.lock { w.heap with errno := 0 } t)
        = .ok 0 (Heap.lock { w.heap with errno := 0 } t) :=
      Call.impl_outOfSlots (pl.os_on mmap munmap) (hi 0)
        (Call.requests_lock.mpr (Call.requests_errno.mpr hreq)) hout
    have h0 : (0 : Nat) = ENOMEM := hrep 0 _ (by rw [hrun, hnull])
    exact absurd h0 (by decide)
  · intro hslots e h' hok
    have ha' : call.Allocates (Heap.lock { w.heap with errno := e } t) := by
      cases ha with
      | malloc n => exact .malloc n
      | calloc nmemb size => exact .calloc nmemb size
      | reallocNull n => exact .reallocNull n
      | reallocLive hc hn => exact .reallocLive hc hn
    obtain ⟨h₁, hstep, rfl⟩ := call.run_step (pl.os_on mmap munmap) (hw.wf.heap.setErrno e)
      hw.wf.unlocked t hok
    rcases hstep.null (hi e) ha' with ⟨n, hreq, hm⟩ | ⟨-, he⟩
    · exact hm.errno (hslots n (Call.requests_errno.mp (Call.requests_lock.mp hreq))) rfl
    · exact he

theorem errno_reported_iff_twoBlocks :
    World.twoBlocks.ReportsFailure .pages4k 1 (.malloc 700) none true ↔
      ∀ n, (Call.malloc 700).Requests World.twoBlocks.heap n →
        ¬ World.twoBlocks.heap.OutOfSlots (reqSize n) :=
  errno_reported_iff World.reachable_twoBlocks (.malloc 700) 1 none true

/-- In every state the library can get into, every call for memory reports its failure. -/
def FailuresReported (pl : Platform) : Prop :=
  ∀ w : World, w.Reachable pl → ∀ (t : Nat) (call : Call) (mmap : Option Nat) (munmap : Bool),
    call.Allocates w.heap → w.ReportsFailure pl t call mmap munmap

/-- **Not every failure is reported**: once the `mmap` of the TINY arena has failed, `malloc(1)`
with `errno` at zero returns `NULL` and leaves it there. -/
theorem not_failuresReported : ¬ FailuresReported .pages4k := by
  intro hall
  have hstep : Step .pages4k (World.initial fun _ ↦ 0#8) (.call 1 (.malloc 1) none true)
      ((World.initial fun _ ↦ 0#8).after .pages4k 1 (.malloc 1) none true) :=
    Step.of_answer (r := 0) (by decide +kernel)
  have hclosed : ((World.initial fun _ ↦ 0#8).after .pages4k 1 (.malloc 1) none true).heap.poolFlag
      .tiny = false := by decide +kernel
  have hflag : ((World.initial fun _ ↦ 0#8).after .pages4k 1 (.malloc 1) none true).heap.pageFlag
      .tiny ≠ 0#32 := by decide +kernel
  have hw : World.Reachable .pages4k _ := ⟨_, _, ⟨_, rfl⟩, Run.single hstep⟩
  generalize (World.initial fun _ ↦ 0#8).after .pages4k 1 (.malloc 1) none true = w at *
  have hout : Heap.OutOfSlots (Heap.lock { w.heap with errno := 0 } 1) (reqSize 1) := by
    show if w.heap.poolFlag .tiny then _ else w.heap.pageFlag .tiny ≠ 0#32
    rw [hclosed]
    exact hflag
  have hnull := Call.impl_outOfSlots (Platform.os_on .pages4k (some 0x1000) true)
    ((hw.wf.heap.setErrno 0).lock 1) (.malloc 1) hout
  have h0 : (0 : Nat) = ENOMEM := hall w hw 1 (.malloc 1) (some 0x1000) true (.malloc 1) 0 _ (by
    rw [Call.run_eq _ 1 (h := { w.heap with errno := 0 }) hw.wf.unlocked, hnull])
  exact absurd h0 (by decide)

end FtMalloc
