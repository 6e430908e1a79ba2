import FtMalloc.ExitPaths
import FtMalloc.Lib.Unless
import FtMalloc.World

/-!
# The page size is asked for once

`return_sc_pagesize` keeps what `sysconf` has told it, because the question is a dear one.  This
file checks that the cache does its work over whole runs.

* `Unasked` — two programs that do the same unless the cache gets filled.  Every function of the
  allocator is `Unasked` beside itself with another answer of `sysconf`.
* `sysconf_once` — in every run at most one call asks; it is the only one that depends on what
  `sysconf` answers.
-/

set_option autoImplicit false

namespace FtMalloc

open ByteMemory

variable {pl : Platform} {os : OS} {h h' : Heap} {w w' : World} {call : Call} {r t : Nat} {s : Int}

/-! ## The functions of the program -/

/-- The page size is in the cache. -/
def Heap.KnowsPage (h : Heap) : Prop := h.scPageSizeCache ≠ 0#64

/-- The two do the same unless the page size comes into the cache. -/
def Unasked {α : Type} (x y : M α) : Prop := Unless Heap.KnowsPage x y

/-- A change of the state that leaves the cache alone. -/
theorem Unasked.modify {φ : Heap → Heap} (hφ : ∀ h, (φ h).scPageSizeCache = h.scPageSizeCache) :
    Unasked (modify φ : M PUnit) (modify φ) :=
  Unless.modify fun h hk ↦ by rwa [Heap.KnowsPage, hφ h]

theorem Unasked.mmap (os : OS) (len : Nat) : Unasked (mmap os len) (mmap os len) := by
  refine Unless.get_bind fun h ↦ ?_
  split
  · exact Unless.bind (Unasked.modify fun _ ↦ rfl) fun _ ↦ Unless.pure _
  · exact Unless.bind (Unasked.modify fun _ ↦ rfl) fun _ ↦ Unless.pure _

/-- **The page size is in the cache whenever it was asked for.** -/
theorem Unasked.returnScPagesize (hos : os.On pl) (s : Int) :
    Unasked (returnScPagesize os) (returnScPagesize (os.withSysconf s)) := by
  intro h a h' hrun
  have hknows : h'.KnowsPage := by
    simp only [FtMalloc.returnScPagesize, bind_apply, get_apply, ite_apply_heap, modify_apply,
      pure_apply, if_neg hos.page_ne, hos.signExtend_page] at hrun
    split at hrun <;> rename_i hc <;> cases hrun
    · exact ofNat_page_ne_zero
    · exact hc
  exact ⟨fun _ ↦ hknows, fun hno ↦ absurd hknows hno⟩

/-- To do the same until the page size is known is closed under all that the code does. -/
theorem Unasked.rules (hos : os.On pl) (s : Int) :
    CallRules os (os.withSysconf s) (Unless Heap.KnowsPage) where
  pure := Unless.pure
  printError _ := Unless.throw _
  bind := Unless.bind
  get_bind _ hf := Unless.get_bind hf
  modify hg := Unasked.modify hg.cache
  mmap := Unasked.mmap os
  munmap _ _ := Unless.bind (Unasked.modify fun _ ↦ rfl) fun _ ↦ Unless.pure _
  returnScPagesize := Unasked.returnScPagesize hos s

/-- **A call that leaves the cache empty has not asked.** -/
theorem Unasked.impl (hos : os.On pl) (s : Int) (call : Call) :
    Unasked (call.impl os) (call.impl (os.withSysconf s)) :=
  (Unasked.rules hos s).impl call

/-! ## Calls and runs -/

variable {mmap : Option Nat} {munmap : Bool}

/-- A call that has asked for the page size leaves it in the cache, and none takes it out. -/
theorem World.WF.knowsPage (hw : w.WF pl) (hrun : call.run (pl.os mmap munmap) t w.heap = .ok r h')
    (hknows : w.heap.KnowsPage ∨ call.AsksPage (w.heap.lock t)) : h'.KnowsPage := by
  have hos := pl.os_on mmap munmap
  rw [call.run_eq t hw.unlocked] at hrun
  cases himpl : call.impl (pl.os mmap munmap) (w.heap.lock t) with
  | error e h₁ => rw [himpl] at hrun; exact absurd hrun (by simp)
  | ok r₁ h₁ =>
    rw [himpl] at hrun
    cases hrun
    obtain ⟨hkeep, hsame⟩ := Unasked.impl hos (-1) call _ _ _ himpl
    show h₁.KnowsPage
    rcases hknows with hknows | hask
    · exact hkeep hknows
    · by_contra hno
      -- with the cache empty the call would have come back even where `sysconf` fails
      have hpage : ((pl.os mmap munmap).withSysconf (-1)).page = -1#32 := rfl
      obtain ⟨h₂, hexit⟩ := call.impl_exit_page (hw.heap.lock t) hpage hask
      rw [hsame hno] at hexit
      exact absurd hexit (by simp)

/-- What comes back from a step knows the page size if it was known before. -/
theorem Step.knowsPage {a : Action} (hw : w.WF pl) (hstep : Step pl w a w')
    (hknows : w.heap.KnowsPage) : w'.heap.KnowsPage := by
  cases hstep with
  | call hrun => exact hw.knowsPage hrun (.inl hknows)
  | write => exact hknows
  | host => exact hknows

/-- The step is a call that asks `sysconf` for the page size. -/
def World.AsksSysconf (w : World) (a : Action) : Prop :=
  ∃ t call mmap munmap, a = .call t call mmap munmap ∧ call.AsksPage w.heap

theorem Call.asksPage_lock : call.AsksPage (h.lock t) ↔ call.AsksPage h :=
  exists_congr fun _ ↦ and_congr Call.requests_lock Iff.rfl

/-- Once a call has asked, the page size is known. -/
theorem World.knowsPage_of_met {w₀ : World} {as : List Action} (hw₀ : w₀.Reachable pl)
    (hmet : Run.Met (Step pl) World.AsksSysconf w₀ as w) : w.heap.KnowsPage := by
  obtain ⟨as₁, a, as₂, u, v, -, hrun₁, hstep, hrun₂, t, call, mmap, munmap, rfl, hask⟩ := hmet
  have hwf : ∀ (s : World) (a : Action) (s' : World), s.WF pl ∧ s.heap.KnowsPage →
      Step pl s a s' → s'.WF pl ∧ s'.heap.KnowsPage :=
    fun _ _ _ hs hstep ↦ ⟨hstep.wf hs.1, hstep.knowsPage hs.1 hs.2⟩
  have hu : u.WF pl := hrun₁.invariant (fun _ _ _ hs hstep ↦ hstep.wf hs) hw₀.wf
  have hv : v.heap.KnowsPage := by
    cases hstep with
    | call hrun => exact hu.knowsPage hrun (.inr (Call.asksPage_lock.mpr hask))
  exact (hrun₂.invariant hwf ⟨hstep.wf hu, hv⟩).2

/-- **`sysconf` is asked once.**  In every run, a call that asks for the page size is the first that
does; and the calls that ask are the calls to which it makes a difference what `sysconf` answers. -/
theorem sysconf_once {m : Memory} {as : List Action}
    (hrun : Run (Step pl) (World.initial m) as w) (call : Call) (t : Nat) (mmap : Option Nat)
    (munmap : Bool) :
    (call.AsksPage w.heap → ¬ Run.Met (Step pl) World.AsksSysconf (World.initial m) as w) ∧
    (call.AsksPage w.heap ↔ ∃ s, call.run ((pl.os mmap munmap).withSysconf s) t w.heap
      ≠ call.run (pl.os mmap munmap) t w.heap) := by
  have hstart : (World.initial m).Reachable pl := Reach.start ⟨m, rfl⟩
  have hw : w.WF pl := hrun.invariant (fun _ _ _ hs hstep ↦ hstep.wf hs) hstart.wf
  have hi := hw.heap.lock t
  refine ⟨fun hask hmet ↦ ?_, fun hask ↦ ?_, ?_⟩
  · obtain ⟨n, -, hcache, -⟩ := hask
    exact World.knowsPage_of_met hstart hmet hcache
  · have hpage : ((pl.os mmap munmap).withSysconf (-1)).page = -1#32 := rfl
    obtain ⟨h₁, hexit⟩ := call.impl_exit_page hi hpage (Call.asksPage_lock.mpr hask)
    refine ⟨-1, fun hsame ↦ ?_⟩
    rw [call.run_eq t hw.unlocked, call.run_eq t hw.unlocked, hexit] at hsame
    rcases call.impl_step (pl.os_on mmap munmap) hi with ⟨r, h₂, himpl, -⟩ |
      ⟨i, c, h₂, -, -, -, himpl⟩
    · rw [himpl] at hsame
      exact absurd hsame (by simp)
    · rw [himpl] at hsame
      exact absurd hsame (by simp)
  · rintro ⟨s, hne⟩
    by_contra hno
    have hsame : call.impl (pl.os mmap munmap) (w.heap.lock t)
        = call.impl ((pl.os mmap munmap).withSysconf s) (w.heap.lock t) :=
      call.impl_sysconf hi s fun hask ↦ hno (Call.asksPage_lock.mp hask)
    refine hne ?_
    rw [call.run_eq t hw.unlocked, call.run_eq t hw.unlocked, hsame]

/-- The second TINY block is served without a question. -/
theorem sysconf_once_twoBlocks : ¬ ∃ s,
    Call.run ((Platform.pages4k.os none true).withSysconf s) 1 (.malloc 1) World.twoBlocks.heap
      ≠ Call.run (Platform.pages4k.os none true) 1 (.malloc 1) World.twoBlocks.heap := by
  have hknows : World.twoBlocks.heap.scPageSizeCache ≠ 0#64 := by decide +kernel
  intro hdep
  obtain ⟨n, -, hcache, -⟩ := (sysconf_once World.run_twoBlocks (.malloc 1) 1 none true).2.mpr hdep
  exact hknows hcache

end FtMalloc
