import FtMalloc.ExitPaths
import FtMalloc.FailedWrites
import FtMalloc.Threads

/-!
# The mutex

A `Process` is the world of `FtMalloc.World` with its threads, each in the host program, asking for
`manage_free_mutex`, inside a public call, or on its way back.  Its events are finer than the steps
of the world: a thread asks for the mutex, it enters when nobody holds it, it leaves, it comes back
to the host program, and in between other threads go on.  A thread leaves by
`manage_free_mutex_unlock`, or by `exit`, when `sysconf` or `munmap` failed it: then control is in
the host program, whose exit handlers may call the library again, until the process ends.

* `PStep.of_enabled` — an event happens when the threads are where it needs them; in particular a
  thread inside a call can always leave it.
* `PStep.wf` — as long as the mutex is given back in time, the world is one that calls made in one
  piece lead to; and an event that fails to give it back is one in which `sysconf` or `munmap`
  failed a call.
* `mutex_released_iff` — so the mutex is given back in time exactly in the runs without such a
  failure: `print_error` calls `exit` as it is, under the mutex.
* `World.reachable_iff_rest` — what `FtMalloc.World` says of calls made in one piece, it says of
  threads that take turns.
-/

set_option autoImplicit false

namespace FtMalloc

open ByteMemory CharMap

/-! ## Processes -/

/-- A public function with its arguments. -/
inductive Request
  | call (call : Call)
  /-- `show_alloc_mem`. -/
  | report
  deriving DecidableEq, Repr

/-- Where a thread is. -/
inductive Phase
  /-- In the host program. -/
  | outside
  /-- At `manage_free_mutex_lock`. -/
  | asking (req : Request)
  /-- Between `manage_free_mutex_lock` and `manage_free_mutex_unlock`. -/
  | inside (req : Request)
  /-- Behind `manage_free_mutex_unlock`, with what is to be returned, if anything is. -/
  | leaving (ret : Option Nat)
  deriving DecidableEq, Repr

/-- The world, and where each thread is. -/
structure Process where
  world : World
  phase : Nat → Phase
  /-- Has the process come to its end? -/
  ended : Bool

/-- The process when the library is loaded. -/
def Process.initial (m : Memory) : Process := ⟨World.initial m, fun _ ↦ .outside, false⟩

/-- An event. -/
inductive Event
  /-- Thread `t` calls a public function. -/
  | ask (t : Nat) (req : Request)
  /-- Thread `t` takes the mutex. -/
  | enter (t : Nat)
  /-- Thread `t` does what it was asked to and gives the mutex back, or exits; `mmap`, `munmap` and
  `sysconf` are what the operating system answers to the call. -/
  | leave (t : Nat) (mmap : Option Nat) (munmap sysconf : Bool)
  /-- Thread `t` makes its report and gives the mutex back; `writes` and `err` say which writes
  succeed, and which errors the others meet. -/
  | report (t : Nat) (writes : Nat → Bool) (err : Nat → Nat)
  /-- Thread `t` comes back to the host program. -/
  | back (t : Nat) (ret : Option Nat)
  /-- The host program writes to a live block, or to memory of its own. -/
  | host (a : Action)
  /-- The process ends: the handlers of `exit` have run, or `main` has returned. -/
  | finish

/-- The process after thread `t` went to `phase` and left the heap and the blocks as given. -/
def Process.move (p : Process) (t : Nat) (phase : Phase) (h : Heap) (live : List Block) :
    Process where
  world := ⟨h, live⟩
  phase := Function.update p.phase t phase
  ended := p.ended

/-- The events of a process.  `table` is the address of `manage_free.large`. -/
inductive PStep (pl : Platform) (table : Nat) : Process → Event → Process → Prop
  | ask {p : Process} {t : Nat} {req : Request} (hup : p.ended = false)
      (hout : p.phase t = .outside) :
      PStep pl table p (.ask t req) (p.move t (.asking req) p.world.heap p.world.live)
  | enter {p : Process} {t : Nat} {req : Request} {h' : Heap} (hup : p.ended = false)
      (hask : p.phase t = .asking req) (hlock : manageFreeMutexLock t p.world.heap = .ok ⟨⟩ h') :
      PStep pl table p (.enter t) (p.move t (.inside req) h' p.world.live)
  | returns {p : Process} {t r : Nat} {call : Call} {mmap : Option Nat} {munmap sysconf : Bool}
      {h₁ h' : Heap} (hup : p.ended = false) (hin : p.phase t = .inside (.call call))
      (hrun : call.impl (pl.answers mmap munmap sysconf) p.world.heap = .ok r h₁)
      (hunlock : manageFreeMutexUnlock h₁ = .ok ⟨⟩ h') :
      PStep pl table p (.leave t mmap munmap sysconf)
        (p.move t (.leaving (some r)) h' (liveAfter p.world.heap.mem p.world.live t call r))
  | exits {p : Process} {t : Nat} {call : Call} {mmap : Option Nat} {munmap sysconf : Bool}
      {str : String} {h' : Heap} (hup : p.ended = false) (hin : p.phase t = .inside (.call call))
      (hrun : call.impl (pl.answers mmap munmap sysconf) p.world.heap = .error (.exit str) h') :
      PStep pl table p (.leave t mmap munmap sysconf) (p.move t .outside h' p.world.live)
  | reports {p : Process} {t : Nat} {writes : Nat → Bool} {err : Nat → Nat} {log : List Write}
      {h' : Heap} (hup : p.ended = false) (hin : p.phase t = .inside .report)
      (hrun : showReport p.world.heap table writes [] = some (⟨⟩, log))
      (hunlock : manageFreeMutexUnlock { p.world.heap with
        errno := errnoAfter writes err 0 log.length p.world.heap.errno } = .ok ⟨⟩ h') :
      PStep pl table p (.report t writes err) (p.move t (.leaving none) h' p.world.live)
  | back {p : Process} {t : Nat} {ret : Option Nat} (hup : p.ended = false)
      (hleft : p.phase t = .leaving ret) :
      PStep pl table p (.back t ret) (p.move t .outside p.world.heap p.world.live)
  | host {p : Process} {a : Action} {w' : World} (hup : p.ended = false)
      (hout : ∀ t, a.thread = some t → p.phase t = .outside) (hcall : ∀ t c m u, a ≠ .call t c m u)
      (hstep : Step pl p.world a w') : PStep pl table p (.host a) { p with world := w' }
  | finish {p : Process} (hup : p.ended = false) : PStep pl table p .finish { p with ended := true }

/-- The thread is inside a public call. -/
def Process.Inside (p : Process) (t : Nat) : Prop := ∃ req, p.phase t = .inside req

/-- Whoever holds the mutex is inside a public call. -/
def Process.Released (p : Process) : Prop := ∀ t, p.world.heap.mutex = some t → p.Inside t

/-- A call is failed by `sysconf` or `munmap` in the event. -/
def Process.Fails (pl : Platform) (p : Process) : Event → Prop
  | .leave t mmap munmap sysconf =>
    ∃ call, p.phase t = .inside (.call call) ∧ call.Exits pl p.world.heap mmap munmap sysconf
  | _ => False

variable {pl : Platform} {table t : Nat} {p p' : Process} {e : Event}

/-! ## Running the model -/

/-- The mutex is taken when nobody holds it. -/
theorem manageFreeMutexLock_eq_ok {h h' : Heap} {u : Unit} :
    manageFreeMutexLock t h = .ok u h' ↔ h.mutex = none ∧ h' = h.lock t := by
  constructor
  · intro hrun
    rw [manageFreeMutexLock, get_bind] at hrun
    cases hfree : h.mutex with
    | none =>
      rw [hfree] at hrun
      cases hrun
      exact ⟨rfl, rfl⟩
    | some holder =>
      rw [hfree] at hrun
      cases hrun
  · rintro ⟨hfree, rfl⟩
    exact manageFreeMutexLock_free t hfree

/-- The threads are where the event needs them. -/
def Process.ready (p : Process) : Event → Bool
  | .ask t _ => p.phase t = .outside
  | .enter t =>
    match p.phase t with
    | .asking _ => p.world.heap.mutex = none
    | _ => false
  | .leave t _ _ _ =>
    match p.phase t with
    | .inside (.call _) => true
    | _ => false
  | .report t _ _ => p.phase t = .inside .report
  | .back t ret => p.phase t = .leaving ret
  | .host _ => false
  | .finish => true

/-- The event can happen. -/
def Process.enabled (p : Process) (e : Event) : Bool := !p.ended && p.ready e

/-- The process after an event that is not of the host program. -/
def Process.after (pl : Platform) (table : Nat) (p : Process) : Event → Process
  | .ask t req => p.move t (.asking req) p.world.heap p.world.live
  | .enter t =>
    match p.phase t with
    | .asking req => p.move t (.inside req) (p.world.heap.lock t) p.world.live
    | _ => p
  | .leave t mmap munmap sysconf =>
    match p.phase t with
    | .inside (.call call) =>
      match call.impl (pl.answers mmap munmap sysconf) p.world.heap with
      | .ok r h =>
        p.move t (.leaving (some r)) h.unlock (liveAfter p.world.heap.mem p.world.live t call r)
      | .error _ h => p.move t .outside h p.world.live
    | _ => p
  | .report t writes err =>
    match showReport p.world.heap table writes [] with
    | some (_, log) =>
      let errno := errnoAfter writes err 0 log.length p.world.heap.errno
      p.move t (.leaving none) { p.world.heap.unlock with errno := errno } p.world.live
    | none => p
  | .back t _ => p.move t .outside p.world.heap p.world.live
  | .host _ => p
  | .finish => { p with ended := true }

/-- **An event happens when the threads are where it needs them.**  In particular, a thread inside a
call leaves it, whatever the operating system answers and whichever writes fail. -/
theorem PStep.of_enabled (he : p.enabled e = true) : PStep pl table p e (p.after pl table e) := by
  obtain ⟨hup, he⟩ := (Bool.and_eq_true _ _).mp he
  rw [Bool.not_eq_true'] at hup
  cases e with
  | ask t req => exact .ask hup (of_decide_eq_true he)
  | enter t =>
    rw [Process.ready] at he
    rw [Process.after]
    split at he <;> rename_i hph
    · exact .enter hup hph (manageFreeMutexLock_free t (of_decide_eq_true he))
    · exact absurd he (by decide)
  | leave t mmap munmap sysconf =>
    rw [Process.ready] at he
    rw [Process.after]
    split at he <;> rename_i hph
    · rename_i call
      cases hrun : call.impl (pl.answers mmap munmap sysconf) p.world.heap with
      | ok r h₁ => exact .returns hup hph hrun rfl
      | error err h₁ =>
        obtain ⟨-, str, rfl⟩ := Call.impl_error hrun
        exact .exits hup hph hrun
    · exact absurd he (by decide)
  | report t writes err =>
    obtain ⟨⟨⟩, log, hrun, -⟩ := showReport_returns p.world.heap table writes []
    rw [Process.after, hrun]
    exact .reports hup (of_decide_eq_true he) hrun rfl
  | back t ret => exact .back hup (of_decide_eq_true he)
  | host a => exact absurd he (by simp [Process.ready])
  | finish => exact .finish hup

/-- The events can happen one after the other. -/
def Process.allows (pl : Platform) (table : Nat) : Process → List Event → Bool
  | _, [] => true
  | p, e :: es => p.enabled e && (p.after pl table e).allows pl table es

theorem Process.run_of_allows : ∀ (es : List Event) (p : Process), p.allows pl table es = true →
    Run (PStep pl table) p es (es.foldl (Process.after pl table) p)
  | [], p, _ => .nil p
  | e :: es, p, hall => by
    obtain ⟨he, hes⟩ := (Bool.and_eq_true _ _).mp hall
    exact (Process.run_of_allows es _ hes).cons (.of_enabled he)

/-! ## The invariant -/

/-- The world, whoever holds the mutex. -/
def World.unlock (w : World) : World := ⟨w.heap.unlock, w.live⟩

/-- The invariant of a process. -/
structure Process.WF (pl : Platform) (p : Process) : Prop where
  /-- A thread inside a public call holds the mutex. -/
  holds : ∀ t, p.Inside t → p.world.heap.mutex = some t
  /-- As long as the mutex is given back in time, each call might have been made in one piece. -/
  world : p.Released → p.world.unlock.Reachable pl

theorem Process.WF.initial (pl : Platform) (m : Memory) : (Process.initial m).WF pl where
  holds := fun _ ⟨_, hin⟩ ↦ absurd hin (by simp [Process.initial])
  world := fun _ ↦ Reach.start ⟨m, rfl⟩

theorem Process.inside_move {phase : Phase} {h : Heap} {live : List Block} {u : Nat} :
    (p.move t phase h live).Inside u ↔
      if u = t then ∃ req, phase = .inside req else p.Inside u := by
  show (∃ req, Function.update p.phase t phase u = .inside req) ↔ _
  rw [Function.update_apply]
  split <;> exact Iff.rfl

/-- The thread inside is the only one. -/
theorem Process.WF.inside_unique (hp : p.WF pl) (ht : p.Inside t) {u : Nat} (hu : p.Inside u) :
    u = t := Option.some_inj.mp ((hp.holds u hu).symm.trans (hp.holds t ht))

/-- When the only thread inside has left, nobody is. -/
theorem Process.WF.nobody_inside (hp : p.WF pl) (ht : p.Inside t) (phase : Phase)
    (hphase : ∀ req, phase ≠ .inside req) (h : Heap) (live : List Block) (u : Nat) :
    ¬ (p.move t phase h live).Inside u := by
  rw [Process.inside_move]
  split
  · exact fun ⟨req, hin⟩ ↦ hphase req hin
  · rename_i hne
    exact fun hu ↦ hne (hp.inside_unique ht hu)

/-- A thread that is not inside and goes nowhere inside makes no difference. -/
theorem Process.WF.passes (hp : p.WF pl) (phase : Phase) (ht : ¬ p.Inside t)
    (hphase : ∀ req, phase ≠ .inside req) :
    (p.move t phase p.world.heap p.world.live).WF pl ∧
      ((p.move t phase p.world.heap p.world.live).Released ↔ p.Released) := by
  have hin : ∀ u, (p.move t phase p.world.heap p.world.live).Inside u ↔ p.Inside u := by
    intro u
    rw [Process.inside_move]
    split
    · rename_i hut
      subst hut
      exact iff_of_false (fun ⟨req, hreq⟩ ↦ hphase req hreq) ht
    · exact Iff.rfl
  have hrel : (p.move t phase p.world.heap p.world.live).Released ↔ p.Released :=
    forall_congr' fun u ↦ imp_congr_right fun _ ↦ hin u
  exact ⟨⟨fun u hu ↦ hp.holds u ((hin u).mp hu), fun h ↦ hp.world (hrel.mp h)⟩, hrel⟩

/-- A thread that is elsewhere is not inside. -/
theorem Process.not_inside {phase : Phase} (hph : p.phase t = phase)
    (hphase : ∀ req, phase ≠ .inside req) : ¬ p.Inside t :=
  fun ⟨req, hin⟩ ↦ hphase req (hph.symm.trans hin)

/-- While a thread is inside, the mutex is where it belongs. -/
theorem Process.WF.released_of_inside (hp : p.WF pl) (ht : p.Inside t) : p.Released :=
  fun _ hu ↦ Option.some_inj.mp ((hp.holds t ht).symm.trans hu) ▸ ht

/-- The heap a thread finds inside. -/
theorem Process.WF.lock_unlock (hp : p.WF pl) (ht : p.Inside t) :
    p.world.unlock.heap.lock t = p.world.heap := by
  show ({ p.world.heap with mutex := some t } : Heap) = _
  rw [← hp.holds t ht]

theorem Process.WF.heap (hp : p.WF pl) (ht : p.Inside t) : p.world.heap.WF pl := by
  rw [← hp.lock_unlock ht]
  exact (hp.world (hp.released_of_inside ht)).wf.heap.lock t

/-- A thread that comes back from a call has made it in one piece. -/
theorem Process.WF.step (hp : p.WF pl) {call : Call} (hin : p.phase t = .inside (.call call))
    {mmap : Option Nat} {munmap : Bool} {r : Nat} {h₁ : Heap}
    (hrun : call.impl (pl.os mmap munmap) p.world.heap = .ok r h₁) :
    Step pl p.world.unlock (.call t call mmap munmap)
      ⟨h₁.unlock, liveAfter p.world.heap.mem p.world.live t call r⟩ := by
  refine .call (w := p.world.unlock) ?_
  rw [call.run_eq t rfl, hp.lock_unlock ⟨_, hin⟩, hrun]

/-- When the thread inside has left and nobody holds the mutex, all is well. -/
theorem Process.WF.left (hp : p.WF pl) (ht : p.Inside t) (ret : Option Nat) (h : Heap)
    {live : List Block} (hw : (⟨h.unlock, live⟩ : World).Reachable pl) :
    (p.move t (.leaving ret) h.unlock live).WF pl ∧
      (p.move t (.leaving ret) h.unlock live).Released :=
  ⟨⟨fun u hu ↦ absurd hu (hp.nobody_inside ht _ (by simp) _ _ u), fun _ ↦ hw⟩,
    fun _ hu ↦ absurd hu (by simp [Process.move, Heap.unlock])⟩

/-- What the host program does to the world it may do whoever holds the mutex. -/
theorem Step.unlock {w w' : World} {a : Action} (hcall : ∀ t c m u, a ≠ .call t c m u)
    (hstep : Step pl w a w') :
    Step pl w.unlock a w'.unlock ∧ w'.heap.mutex = w.heap.mutex := by
  cases hstep with
  | @call t c m u => exact absurd rfl (hcall t c m u)
  | write hb hp hi => exact ⟨.write (w := w.unlock) hb hp hi, rfl⟩
  | host hm => exact ⟨.host (w := w.unlock) hm, rfl⟩

/-! ## One event -/

/-- **Every event keeps the invariant**, and the mutex is given back in time after it exactly if it
was before it and no call was failed. -/
theorem PStep.wf (hp : p.WF pl) (hstep : PStep pl table p e p') :
    p'.WF pl ∧ (p'.Released ↔ p.Released ∧ ¬ p.Fails pl e) := by
  cases hstep with
  | @ask t req hup hout =>
    obtain ⟨hwf', hrel⟩ := hp.passes (.asking req) (Process.not_inside hout (by simp)) (by simp)
    exact ⟨hwf', hrel.trans (and_iff_left id).symm⟩
  | @enter t req h' hup hask hlock =>
    obtain ⟨hfree, rfl⟩ := manageFreeMutexLock_eq_ok.mp hlock
    have hnone : ∀ u, ¬ p.Inside u := fun u hu ↦ absurd (hfree.symm.trans (hp.holds u hu)) (by simp)
    have hrel : p.Released := fun u hu ↦ absurd (hfree.symm.trans hu) (by simp)
    refine ⟨⟨fun u hu ↦ ?_, fun _ ↦ hp.world hrel⟩, iff_of_true (fun u hu ↦ ?_) ⟨hrel, id⟩⟩
    · rw [Process.inside_move] at hu
      split at hu
      · rename_i hut
        exact congrArg some hut.symm
      · exact absurd hu (hnone u)
    · rw [Process.inside_move, if_pos (Option.some_inj.mp hu).symm]
      exact ⟨req, rfl⟩
  | @returns t r call mmap munmap sysconf h₁ h' hup hin hrun hunlock =>
    have ht : p.Inside t := ⟨_, hin⟩
    have hrel := hp.released_of_inside ht
    cases hunlock
    rcases call.impl_exits (hp.heap ht) mmap munmap sysconf with ⟨-, str, h₂, hexit⟩ | ⟨hno, -⟩
    · exact absurd (hrun.symm.trans hexit) (by simp)
    · rw [call.impl_answers (hp.heap ht) fun hask ↦ hno (.inl hask)] at hrun
      obtain ⟨hwf', hrel'⟩ := hp.left ht (some r) h₁ ((hp.world hrel).next (hp.step hin hrun))
      refine ⟨hwf', iff_of_true hrel' ⟨hrel, ?_⟩⟩
      rintro ⟨c, hc, hex⟩
      obtain rfl : call = c := by simpa [hin] using hc
      exact hno hex
  | @exits t call mmap munmap sysconf str h' hup hin hrun =>
    have ht : p.Inside t := ⟨_, hin⟩
    have hnone := hp.nobody_inside ht .outside (by simp) h' p.world.live
    have hmutex : h'.mutex = some t := (Call.impl_error hrun).1.trans (hp.holds t ht)
    have hstuck : ¬ (p.move t .outside h' p.world.live).Released := fun h ↦ hnone t (h t hmutex)
    refine ⟨⟨fun u hu ↦ absurd hu (hnone u), fun h ↦ absurd h hstuck⟩,
      iff_of_false hstuck fun h ↦ h.2 ⟨call, hin, ?_⟩⟩
    rcases call.impl_exits (hp.heap ht) mmap munmap sysconf with ⟨hex, -⟩ | ⟨-, r, h₁, hret, -⟩
    · exact hex
    · exact absurd (hrun.symm.trans hret) (by simp)
  | @reports t writes err log h' hup hin hrun hunlock =>
    have ht : p.Inside t := ⟨_, hin⟩
    have hrel := hp.released_of_inside ht
    cases hunlock
    -- the host program could have changed errno just so
    have hhost : Step pl p.world.unlock (.host p.world.heap.mem
        (errnoAfter writes err 0 log.length p.world.heap.errno)) _ :=
      .host fun _ _ ↦ Agree.refl _ _ _
    obtain ⟨hwf', hrel'⟩ := hp.left ht none { p.world.heap with
      errno := errnoAfter writes err 0 log.length p.world.heap.errno }
      ((hp.world hrel).next hhost)
    exact ⟨hwf', iff_of_true hrel' ⟨hrel, id⟩⟩
  | @back t ret hup hleft =>
    obtain ⟨hwf', hrel⟩ := hp.passes .outside (Process.not_inside hleft (by simp)) (by simp)
    exact ⟨hwf', hrel.trans (and_iff_left id).symm⟩
  | @host a w' hup hout hcall hstep =>
    obtain ⟨hstep', hmutex⟩ := hstep.unlock hcall
    have hrel : (⟨w', p.phase, p.ended⟩ : Process).Released ↔ p.Released :=
      forall_congr' fun u ↦ by rw [hmutex]; exact Iff.rfl
    exact ⟨⟨fun u hu ↦ hmutex.trans (hp.holds u hu),
      fun h ↦ (hp.world (hrel.mp h)).next hstep'⟩, hrel.trans (and_iff_left id).symm⟩
  | finish hup =>
    have hrel : (⟨p.world, p.phase, true⟩ : Process).Released ↔ p.Released := Iff.rfl
    exact ⟨⟨hp.holds, hp.world⟩, hrel.trans (and_iff_left id).symm⟩

/-! ## Every run -/

/-- A run of the process from its start keeps the invariant. -/
theorem Process.WF.of_run {m : Memory} {es : List Event}
    (hrun : Run (PStep pl table) (Process.initial m) es p) : p.WF pl :=
  hrun.invariant (fun _ _ _ hp hstep ↦ (hstep.wf hp).1) (.initial pl m)

/-- The mutex is lost by a failure only. -/
theorem Process.lost_iff {m : Memory} {es : List Event}
    (hrun : Run (PStep pl table) (Process.initial m) es p) :
    ¬ p.Released ↔ Run.Met (PStep pl table) (Process.Fails pl) (Process.initial m) es p :=
  hrun.flag_iff (p := fun p ↦ ¬ p.Released) (q := Process.Fails pl)
    (fun _ _ _ hp hstep ↦ (hstep.wf hp).1)
    (fun _ _ _ hp hstep ↦ by rw [(hstep.wf hp).2, not_and_or, not_not]) (.initial pl m)
    fun h ↦ h fun _ hu ↦ absurd hu (by simp [Process.initial, World.initial, Heap.initial])

/-- **The mutex is given back in time exactly in the runs without a failure.**  After a run in which
no call was failed by `sysconf` or `munmap`, and after no other, every thread that holds
`manage_free_mutex` is inside a public call, and no thread that asks for it holds it. -/
theorem mutex_released_iff {m : Memory} {es : List Event}
    (hrun : Run (PStep pl table) (Process.initial m) es p) :
    ((∀ t, p.world.heap.mutex = some t → p.Inside t) ∧
        ∀ t req, p.phase t = .asking req → p.world.heap.mutex ≠ some t) ↔
      ¬ Run.Met (PStep pl table) (Process.Fails pl) (Process.initial m) es p := by
  rw [← Process.lost_iff hrun, not_not]
  refine and_iff_left_of_imp fun hrel t req hask hmutex ↦ ?_
  obtain ⟨req', hin⟩ := hrel t hmutex
  exact absurd (hask.symm.trans hin) (by simp)

/-- Thread 1 obtains a LARGE block. -/
theorem mutex_released_iff_malloc :
    let es : List Event :=
      [.ask 1 (.call (.malloc 600)), .enter 1, .leave 1 (some 0x4000) true true,
        .back 1 (some 0x4010)]
    let p := es.foldl (Process.after .pages4k 0x2000) (Process.initial fun _ ↦ 0#8)
    p.world.live.map Block.ptr = [0x4010] ∧
      (((∀ t, p.world.heap.mutex = some t → p.Inside t) ∧
          ∀ t req, p.phase t = .asking req → p.world.heap.mutex ≠ some t) ↔
        ¬ Run.Met (PStep .pages4k 0x2000) (Process.Fails .pages4k)
          (Process.initial fun _ ↦ 0#8) es p) :=
  ⟨by decide +kernel, mutex_released_iff (Process.run_of_allows _ _ (by decide +kernel))⟩

/-- Whoever holds `manage_free_mutex` is inside a public call, and no thread asks for it while it
holds it. -/
def ReleasesMutex (pl : Platform) (table : Nat) : Prop :=
  ∀ (m : Memory) (es : List Event) (p : Process), Run (PStep pl table) (Process.initial m) es p →
    (∀ t, p.world.heap.mutex = some t → p.Inside t) ∧
      ∀ t req, p.phase t = .asking req → p.world.heap.mutex ≠ some t

/-- **The mutex is not always given back**: when `free` cannot unmap the LARGE block, thread 1
leaves by `exit` with the mutex, and a handler of the host program that calls `malloc` asks for it
again. -/
theorem not_releasesMutex : ¬ ReleasesMutex .pages4k 0x2000 := by
  intro hall
  let es : List Event :=
    [.ask 1 (.call (.malloc 600)), .enter 1, .leave 1 (some 0x4000) true true,
      .back 1 (some 0x4010), .ask 1 (.call (.free 0x4010)), .enter 1, .leave 1 none false true,
      .ask 1 (.call (.malloc 1))]
  have hrun : Run (PStep .pages4k 0x2000) (Process.initial fun _ ↦ 0#8) es _ :=
    Process.run_of_allows es _ (by decide +kernel)
  exact (hall _ es _ hrun).2 1 (.call (.malloc 1)) (by decide +kernel) (by decide +kernel)

/-! ## Calls in one piece -/

/-- All threads are outside. -/
def Process.rest (w : World) : Process := ⟨w, fun _ ↦ .outside, false⟩

/-- A step of the world is four events at most, between two moments of rest. -/
theorem Step.events {w w' : World} {a : Action} (hfree : w.heap.mutex = none)
    (hstep : Step pl w a w') : ∃ es, Run (PStep pl table) (.rest w) es (.rest w') := by
  cases hstep with
  | @call t call mmap munmap r h' hrun =>
    let p₁ := (Process.rest w).move t (.asking (.call call)) w.heap w.live
    let p₂ := p₁.move t (.inside (.call call)) (w.heap.lock t) w.live
    have hask : p₁.phase t = .asking (.call call) := Function.update_self _ _ _
    have hin : p₂.phase t = .inside (.call call) := Function.update_self _ _ _
    have h₁ : PStep pl table (.rest w) (.ask t (.call call)) p₁ := .ask rfl rfl
    have h₂ : PStep pl table p₁ (.enter t) p₂ :=
      .enter rfl hask (manageFreeMutexLock_free t hfree)
    rw [call.run_eq t hfree] at hrun
    cases himpl : call.impl (pl.os mmap munmap) (w.heap.lock t) with
    | ok r' h =>
      rw [himpl] at hrun
      cases hrun
      let p₃ := p₂.move t (.leaving (some r)) h.unlock (liveAfter w.heap.mem w.live t call r)
      have hleft : p₃.phase t = .leaving (some r) := Function.update_self _ _ _
      have h₃ : PStep pl table p₂ (.leave t mmap munmap true) p₃ := .returns rfl hin himpl rfl
      have h₄ : PStep pl table p₃ (.back t (some r))
          (p₃.move t .outside h.unlock (liveAfter w.heap.mem w.live t call r)) := .back rfl hleft
      have hrest : p₃.move t .outside h.unlock (liveAfter w.heap.mem w.live t call r)
          = .rest ⟨h.unlock, liveAfter w.heap.mem w.live t call r⟩ := by
        simp only [p₃, p₂, p₁, Process.move, Process.rest, Function.update_idem,
          Function.update_eq_self]
      rw [hrest] at h₄
      exact ⟨_, (((Run.single h₁).snoc h₂).snoc h₃).snoc h₄⟩
    | error e h =>
      rw [himpl] at hrun
      cases hrun
  | @write t q i v b hb hq hi =>
    exact ⟨[.host (.write t q i v)],
      .single (.host rfl (fun _ _ ↦ rfl) (by simp) (.write hb hq hi))⟩
  | host hm => exact ⟨_, .single (.host rfl (fun _ _ ↦ rfl) (by simp) (.host hm))⟩

theorem World.WF.events {w₀ w : World} {as : List Action} (hw₀ : w₀.WF pl)
    (hrun : Run (Step pl) w₀ as w) :
    ∃ es, Run (PStep pl table) (.rest w₀) es (.rest w) := by
  induction hrun with
  | nil => exact ⟨[], .nil _⟩
  | snoc hrun hstep ih =>
    have hw := hrun.invariant (fun _ _ _ hw hstep ↦ hstep.wf hw) hw₀
    obtain ⟨es, hes⟩ := ih
    obtain ⟨fs, hfs⟩ := hstep.events hw.unlocked
    exact ⟨es ++ fs, hes.append hfs⟩

/-- **The worlds are the processes at rest.**  Calls made in one piece lead exactly where threads
lead that take turns, once all of them are outside and nobody holds the mutex. -/
theorem World.reachable_iff_rest {w : World} : w.Reachable pl ↔ w.heap.mutex = none ∧
    ∃ m es, Run (PStep pl table) (Process.initial m) es (.rest w) := by
  constructor
  · rintro ⟨w₀, as, ⟨m, rfl⟩, hrun⟩
    have hw : w.WF pl := World.Reachable.wf ⟨_, as, ⟨m, rfl⟩, hrun⟩
    exact ⟨hw.unlocked, m, (World.WF.initial pl m).events hrun⟩
  · rintro ⟨hfree, m, es, hrun⟩
    have hrel : (Process.rest w).Released := fun t ht ↦ absurd (hfree.symm.trans ht) (by simp)
    have hunlock : w.unlock = w := by
      show (⟨{ w.heap with mutex := none }, w.live⟩ : World) = w
      rw [← hfree]
    rw [← hunlock]
    exact (Process.WF.of_run hrun).world hrel

end FtMalloc
