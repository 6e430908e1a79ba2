import Mathlib.Algebra.Order.BigOperators.Group.Finset
import FtMalloc.Alike
import FtMalloc.Lock

/-!
# Calls that overlap

What threads see of each other when their calls overlap in time: a call is asked for, waits for the
mutex, goes on inside, gives the mutex back, and comes back with its answer, while other threads
ask, wait and write.

* `linearizable` — the answers are those of calls made one after the other, in the order in which
  they gave the mutex back; and each thread gets one answer to each of its requests, in order, and
  comes back with it.
* `calls_complete` — calls come to an end: once no thread asks for more, only so many events can
  follow, whatever the order, and as long as a thread is on its way, one of them can.
* `failure_shuts` — when `sysconf` or `munmap` has failed a call, no call comes back any more, but
  for those that have given the mutex back before; and the thread of that call, if it asks again,
  waits for itself (`PStep.stuck`).
-/

set_option autoImplicit false

namespace FtMalloc

open ByteMemory CharMap

variable {pl : Platform} {table t : Nat} {p p' : Process} {e : Event}

/-! ## What an event shows -/

/-- What is done in one piece, with its result. -/
inductive Turn
  /-- A call of thread `t`, answered by `r`. -/
  | call (t : Nat) (call : Call) (mmap : Option Nat) (munmap : Bool) (r : Nat)
  /-- A report of thread `t`, with its writes. -/
  | report (t : Nat) (writes : Nat → Bool) (err : Nat → Nat) (log : List Write)
  /-- An action of the host program. -/
  | host (a : Action)

/-- One piece after the other. -/
inductive TurnStep (pl : Platform) (table : Nat) : World → Turn → World → Prop
  | call {w w' : World} {t r : Nat} {call : Call} {mmap : Option Nat} {munmap : Bool}
      (hans : Answered pl w (.call t call mmap munmap, some r) w') :
      TurnStep pl table w (.call t call mmap munmap r) w'
  | report {w : World} {t : Nat} {writes : Nat → Bool} {err : Nat → Nat} {log : List Write}
      {h' : Heap} (hrun : showAllocMem t table err w.heap writes [] = some (.ok ⟨⟩ h', log)) :
      TurnStep pl table w (.report t writes err log) ⟨h', w.live⟩
  | host {w w' : World} {a : Action} (hcall : ∀ t c m u, a ≠ .call t c m u)
      (hstep : Step pl w a w') : TurnStep pl table w (.host a) w'

/-- What an event does in one piece, when it gives the mutex back: a call with its answer, or a
report with its writes. -/
def Process.shows (pl : Platform) (table : Nat) (p : Process) : Event → Option Turn
  | .leave t mmap munmap sysconf =>
    match p.phase t with
    | .inside (.call call) =>
      match call.impl (pl.answers mmap munmap sysconf) p.world.heap with
      | .ok r _ => some (.call t call mmap munmap r)
      | .error _ _ => none
    | _ => none
  | .report t writes err =>
    (showReport p.world.heap table writes []).map fun done ↦ .report t writes err done.2
  | .host a => some (.host a)
  | .ask _ _ => none
  | .enter _ => none
  | .back _ _ => none
  | .finish => none

/-- An event together with what it shows. -/
def Shown (pl : Platform) (table : Nat) (p : Process) (l : Event × Option Turn) (p' : Process) :
    Prop :=
  PStep pl table p l.1 p' ∧ l.2 = p.shows pl table l.1

/-- The request of thread `t` that an event makes. -/
def Event.asked (t : Nat) : Event → Option Request
  | .ask u req => if u = t then some req else none
  | _ => none

/-- The request of thread `t` that is answered. -/
def Turn.answered (t : Nat) : Turn → Option Request
  | .call u c _ _ _ => if u = t then some (.call c) else none
  | .report u _ _ _ => if u = t then some .report else none
  | .host _ => none

/-- The request that a thread waits for. -/
def Phase.pending : Phase → Option Request
  | .outside => none
  | .asking req => some req
  | .inside req => some req
  | .leaving _ => none

/-- What thread `t` is answered. -/
def Turn.answer (t : Nat) : Turn → Option (Option Nat)
  | .call u _ _ _ r => if u = t then some (some r) else none
  | .report u _ _ _ => if u = t then some none else none
  | .host _ => none

/-- What thread `t` comes back with. -/
def Event.returned (t : Nat) : Event → Option (Option Nat)
  | .back u ret => if u = t then some ret else none
  | _ => none

/-- The answer that a thread is on its way back with. -/
def Phase.carried : Phase → Option (Option Nat)
  | .leaving ret => some ret
  | _ => none

/-! ## One event -/

variable {l : Event × Option Turn}

/-- A report that is made inside is one that `show_alloc_mem` makes. -/
theorem Process.WF.showAllocMem (hp : p.WF pl) {req : Request} (hin : p.phase t = .inside req)
    {writes : Nat → Bool} {log : List Write} (err : Nat → Nat)
    (hrun : showReport p.world.heap table writes [] = some (⟨⟩, log)) :
    showAllocMem t table err p.world.unlock.heap writes [] = some (.ok ⟨⟩
      { p.world.heap.unlock with
        errno := errnoAfter writes err 0 log.length p.world.heap.errno }, log) := by
  have hlock : manageFreeMutexLock t p.world.unlock.heap = .ok ⟨⟩ p.world.heap := by
    rw [manageFreeMutexLock_free t rfl, hp.lock_unlock ⟨_, hin⟩]
  exact showAllocMem_eq hlock hrun

/-- A call that gives the mutex back shows its answer. -/
theorem Process.WF.shows_call (hp : p.WF pl) {call : Call} {mmap : Option Nat}
    {munmap sysconf : Bool} (hin : p.phase t = .inside (.call call))
    (hno : ¬ p.Fails pl (.leave t mmap munmap sysconf)) :
    ∃ r h₁, call.impl (pl.os mmap munmap) p.world.heap = .ok r h₁ ∧
      call.impl (pl.answers mmap munmap sysconf) p.world.heap = .ok r h₁ ∧
      ∀ table, p.shows pl table (.leave t mmap munmap sysconf)
        = some (.call t call mmap munmap r) := by
  have hex : ¬ call.Exits pl p.world.heap mmap munmap sysconf := fun h ↦ hno ⟨call, hin, h⟩
  rcases call.impl_exits (hp.heap ⟨_, hin⟩) mmap munmap sysconf with ⟨h, -⟩ | ⟨-, r, h₁, hret, -⟩
  · exact absurd h hex
  · refine ⟨r, h₁, ?_, hret, fun table ↦ by simp only [Process.shows, hin, hret]⟩
    rwa [← call.impl_answers (hp.heap ⟨_, hin⟩) fun hask ↦ hex (.inl hask)]

theorem Process.shows_report {writes : Nat → Bool} {log : List Write} (err : Nat → Nat)
    (hrun : showReport p.world.heap table writes [] = some (⟨⟩, log)) :
    p.shows pl table (.report t writes err) = some (.report t writes err log) := by
  rw [Process.shows, hrun, Option.map_some]

/-- **An event does in one piece what it shows**, as long as the mutex is given back in time. -/
theorem Shown.turn (hp : p.WF pl) (hrel : p'.Released) (hshown : Shown pl table p l p') :
    Run (TurnStep pl table) p.world.unlock l.2.toList p'.world.unlock := by
  obtain ⟨e, o⟩ := l
  obtain ⟨hstep, (rfl : o = p.shows pl table e)⟩ := hshown
  have hno := ((hstep.wf hp).2.mp hrel).2
  cases hstep with
  | ask => exact .nil _
  | enter _ _ hlock =>
    obtain ⟨-, rfl⟩ := manageFreeMutexLock_eq_ok.mp hlock
    exact .nil _
  | @returns t r call mmap munmap _ h₁ _ hup hin hrun hunlock =>
    obtain ⟨_, _, hret, hret', hshow⟩ := hp.shows_call hin hno
    cases hunlock
    cases hrun.symm.trans hret'
    rw [hshow]
    have hturn : TurnStep pl table p.world.unlock (.call t call mmap munmap r)
        ⟨h₁.unlock, liveAfter p.world.heap.mem p.world.live t call r⟩ := by
      refine .call ⟨hp.step hin hret, ?_⟩
      show some r = World.answer pl p.world.unlock t call mmap munmap
      rw [World.answer, call.run_eq t rfl, hp.lock_unlock ⟨_, hin⟩, hret]
    exact .single hturn
  | exits _ hin hrun =>
    obtain ⟨_, _, -, hret, -⟩ := hp.shows_call hin hno
    exact absurd (hrun.symm.trans hret) (by simp)
  | @reports t writes err log _ hup hin hrun hunlock =>
    cases hunlock
    rw [Process.shows_report err hrun]
    exact .single (.report (hp.showAllocMem hin err hrun))
  | back => exact .nil _
  | host _ _ hcall hstep => exact .single (.host hcall (hstep.unlock hcall).1)
  | finish => exact .nil _

/-- What a thread waits for changes with the thread's own events only. -/
theorem Process.pending_move {phase : Phase} {h : Heap} {live : List Block} (u : Nat) :
    (p.move t phase h live).phase u = if u = t then phase else p.phase u := by
  show Function.update p.phase t phase u = _
  rw [Function.update_apply]

/-- **A thread asks, waits and is answered**: no request is lost, and none is answered twice.  And
it carries its answer back. -/
theorem Shown.pending (hp : p.WF pl) (hrel : p'.Released) (hshown : Shown pl table p l p')
    (u : Nat) : (p.phase u).pending.toList ++ (l.1.asked u).toList
        = (l.2.bind (Turn.answered u)).toList ++ (p'.phase u).pending.toList ∧
      (p.phase u).carried.toList ++ (l.2.bind (Turn.answer u)).toList
        = (l.1.returned u).toList ++ (p'.phase u).carried.toList := by
  obtain ⟨e, o⟩ := l
  obtain ⟨hstep, (rfl : o = p.shows pl table e)⟩ := hshown
  have hno := ((hstep.wf hp).2.mp hrel).2
  cases hstep with
  | @ask t req hup hout =>
    rw [Process.pending_move]
    by_cases hut : t = u
    · subst hut
      simp [Event.asked, Event.returned, Process.shows, hout, Phase.pending, Phase.carried]
    · simp [Event.asked, Event.returned, Process.shows, hut, Ne.symm hut]
  | @enter t req h' hup hask hlock =>
    rw [Process.pending_move]
    by_cases hut : t = u
    · subst hut
      simp [Event.asked, Event.returned, Process.shows, hask, Phase.pending, Phase.carried]
    · simp [Event.asked, Event.returned, Process.shows, Ne.symm hut]
  | @returns t r' call mmap munmap _ _ _ hup hin hrun hunlock =>
    obtain ⟨r, h₁, -, hret, hshow⟩ := hp.shows_call hin hno
    cases hrun.symm.trans hret
    rw [Process.pending_move, hshow]
    by_cases hut : t = u
    · subst hut
      simp [Event.asked, Event.returned, Turn.answered, Turn.answer, hin, Phase.pending,
        Phase.carried]
    · simp [Event.asked, Event.returned, Turn.answered, Turn.answer, hut, Ne.symm hut]
  | exits _ hin hrun =>
    obtain ⟨_, _, -, hret, -⟩ := hp.shows_call hin hno
    exact absurd (hrun.symm.trans hret) (by simp)
  | @reports t _ err _ _ hup hin hrun hunlock =>
    rw [Process.pending_move, Process.shows_report err hrun]
    by_cases hut : t = u
    · subst hut
      simp [Event.asked, Event.returned, Turn.answered, Turn.answer, hin, Phase.pending,
        Phase.carried]
    · simp [Event.asked, Event.returned, Turn.answered, Turn.answer, hut, Ne.symm hut]
  | @back t ret hup hleft =>
    rw [Process.pending_move]
    by_cases hut : t = u
    · subst hut
      simp [Event.asked, Event.returned, Process.shows, hleft, Phase.pending, Phase.carried]
    · simp [Event.asked, Event.returned, Process.shows, hut, Ne.symm hut]
  | host => simp [Event.asked, Event.returned, Process.shows, Turn.answered, Turn.answer]
  | finish => simp [Event.asked, Event.returned, Process.shows]

/-! ## Every run -/

theorem filterMap_snoc {α β : Type} (f : α → Option β) (as : List α) (a : α) :
    (as ++ [a]).filterMap f = as.filterMap f ++ (f a).toList := by
  rw [List.filterMap_append, List.filterMap_cons]
  cases f a <;> rfl

/-- **Calls are linearizable.**  In every run in which the mutex is given back in time, however the
calls of the threads overlap,

* the calls that have given the mutex back, the reports and what the host program did could have
  been done one after the other, in the order in which the mutex was given back, with the same
  answers and the same output, and lead to the same world;
* each thread has got one answer to each of its requests, in the order it made them, but for the
  one it may still wait for; and it has come back with these answers, in this order, but for the one
  it may still be on its way with. -/
theorem linearizable {m : Memory} {ls : List (Event × Option Turn)}
    (hrun : Run (Shown pl table) (Process.initial m) ls p)
    (hrel : ∀ t, p.world.heap.mutex = some t → p.Inside t) :
    Run (TurnStep pl table) (World.initial m) (ls.filterMap Prod.snd) p.world.unlock ∧
      ∀ t, ls.filterMap (fun l ↦ l.1.asked t)
          = ls.filterMap (fun l ↦ l.2.bind (Turn.answered t)) ++ (p.phase t).pending.toList ∧
        ls.filterMap (fun l ↦ l.2.bind (Turn.answer t))
          = ls.filterMap (fun l ↦ l.1.returned t) ++ (p.phase t).carried.toList := by
  induction hrun with
  | nil => exact ⟨.nil _, fun t ↦ ⟨rfl, rfl⟩⟩
  | @snoc p₁ p₂ ls l hrun hlast ih =>
    have hp : p₁.WF pl := hrun.invariant (fun _ _ _ hp h ↦ (h.1.wf hp).1) (.initial pl m)
    obtain ⟨hturns, hthreads⟩ := ih ((hlast.1.wf hp).2.mp hrel).1
    constructor
    · rw [filterMap_snoc]
      exact hturns.append (hlast.turn hp hrel)
    · intro t
      obtain ⟨hpending, hcarried⟩ := hthreads t
      obtain ⟨hone, hone'⟩ := hlast.pending hp hrel t
      constructor
      · rw [filterMap_snoc, filterMap_snoc, hpending, List.append_assoc, List.append_assoc, hone]
      · rw [filterMap_snoc, filterMap_snoc, hcarried, List.append_assoc, List.append_assoc, hone']

/-- The events, each with what it shows, one after the other. -/
def Process.record (pl : Platform) (table : Nat) :
    Process → List Event → List (Event × Option Turn)
  | _, [] => []
  | p, e :: es => (e, p.shows pl table e) :: (p.after pl table e).record pl table es

theorem Process.shown_of_allows : ∀ (es : List Event) (p : Process), p.allows pl table es = true →
    Run (Shown pl table) p (p.record pl table es) (es.foldl (Process.after pl table) p)
  | [], p, _ => .nil p
  | e :: es, p, hall => by
    obtain ⟨he, hes⟩ := (Bool.and_eq_true _ _).mp hall
    exact (Process.shown_of_allows es _ hes).cons ⟨.of_enabled he, rfl⟩

/-- Thread 2 asks later than thread 1 and is served first, and it comes back last. -/
theorem linearizable_overlap :
    let es : List Event :=
      [.ask 1 (.call (.malloc 1)), .ask 2 (.call (.malloc 600)), .enter 2,
        .leave 2 (some 0x4000) true true, .enter 1, .leave 1 (some 0x1000) true true,
        .back 1 (some 0x1010), .back 2 (some 0x4010)]
    let p := Process.initial fun _ ↦ 0#8
    let p' := es.foldl (Process.after .pages4k 0x2000) p
    let ls := p.record .pages4k 0x2000 es
    Run (TurnStep .pages4k 0x2000) p.world (ls.filterMap Prod.snd) p'.world.unlock ∧
      ∀ t, ls.filterMap (fun l ↦ l.1.asked t)
          = ls.filterMap (fun l ↦ l.2.bind (Turn.answered t)) ++ (p'.phase t).pending.toList ∧
        ls.filterMap (fun l ↦ l.2.bind (Turn.answer t))
          = ls.filterMap (fun l ↦ l.1.returned t) ++ (p'.phase t).carried.toList :=
  linearizable (Process.shown_of_allows _ _ (by decide +kernel)) fun t ht ↦
    absurd (ht.symm.trans (by decide +kernel)) (Option.some_ne_none t)

/-! ## Calls come to an end -/

/-- The event brings a request on its way. -/
def Event.internal : Event → Bool
  | .ask _ _ => false
  | .host _ => false
  | .finish => false
  | _ => true

/-- The number of events that a request still needs. -/
def Phase.left : Phase → Nat
  | .outside => 0
  | .leaving _ => 1
  | .inside _ => 2
  | .asking _ => 3

/-- The number of events that the requests of the threads below `n` still need. -/
def Process.left (p : Process) (n : Nat) : Nat := ∑ t ∈ Finset.range n, (p.phase t).left

/-- An event moves one thread at most, and a request goes on its way by one. -/
theorem PStep.left (hstep : PStep pl table p e p') :
    ∃ t, (∀ u, u ≠ t → p'.phase u = p.phase u) ∧
      (e.internal = true → (p'.phase t).left < (p.phase t).left) := by
  have hone : ∀ {t phase h live}, phase.left < (p.phase t).left →
      ∃ t', (∀ u, u ≠ t' → (p.move t phase h live).phase u = p.phase u) ∧
        (e.internal = true → ((p.move t phase h live).phase t').left < (p.phase t').left) := by
    intro t phase h live hlt
    refine ⟨t, fun u hu ↦ Function.update_of_ne hu _ _, fun _ ↦ ?_⟩
    rwa [Process.pending_move, if_pos rfl]
  cases hstep with
  | @ask t =>
    exact ⟨t, fun u hu ↦ Function.update_of_ne hu _ _, fun h ↦ absurd h Bool.noConfusion⟩
  | enter _ hask => exact hone (by rw [hask, Phase.left, Phase.left]; decide)
  | returns _ hin => exact hone (by rw [hin, Phase.left, Phase.left]; decide)
  | exits _ hin => exact hone (by rw [hin, Phase.left, Phase.left]; decide)
  | reports _ hin => exact hone (by rw [hin, Phase.left, Phase.left]; decide)
  | back _ hleft => exact hone (by rw [hleft, Phase.left, Phase.left]; decide)
  | host => exact ⟨0, fun _ _ ↦ rfl, fun h ↦ absurd h Bool.noConfusion⟩
  | finish => exact ⟨0, fun _ _ ↦ rfl, fun h ↦ absurd h Bool.noConfusion⟩

/-- Only so many threads have asked for anything. -/
theorem Process.bounded {m : Memory} {es : List Event}
    (hrun : Run (PStep pl table) (Process.initial m) es p) :
    ∃ n, ∀ t, n ≤ t → p.phase t = .outside := by
  refine hrun.invariant (p := fun p ↦ ∃ n, ∀ t, n ≤ t → p.phase t = .outside) ?_
    ⟨0, fun _ _ ↦ rfl⟩
  rintro p e p' ⟨n, hn⟩ hstep
  obtain ⟨t, hsame, -⟩ := hstep.left
  exact ⟨max n (t + 1), fun u hu ↦ (hsame u (by omega)).trans (hn u (by omega))⟩

/-- What is neither a request nor on the way of one moves no thread. -/
theorem PStep.phase_eq (hstep : PStep pl table p e p') (hint : e.internal = false)
    (hask : ∀ t req, e ≠ .ask t req) : p'.phase = p.phase := by
  cases hstep with
  | @ask t req => exact absurd rfl (hask t req)
  | host => rfl
  | finish => rfl
  | _ => exact absurd hint Bool.noConfusion

/-- Events without new requests use up what is left. -/
theorem Process.left_run {n : Nat} (hn : ∀ t, n ≤ t → p.phase t = .outside) {es : List Event}
    (hrun : Run (PStep pl table) p es p') (hask : ∀ t req, .ask t req ∉ es) :
    (∀ t, n ≤ t → p'.phase t = .outside) ∧ es.countP Event.internal + p'.left n ≤ p.left n := by
  induction hrun with
  | nil => exact ⟨hn, by simp⟩
  | @snoc p₁ p₂ es e hrun hlast ih =>
    obtain ⟨hout, hle⟩ := ih fun t req h ↦ hask t req (List.mem_append_left _ h)
    rw [List.countP_append, List.countP_singleton]
    cases hint : e.internal with
    | false =>
      have hphase : p₂.phase = p₁.phase :=
        hlast.phase_eq hint fun t req h ↦ hask t req (by simp [h])
      rw [Process.left, hphase]
      exact ⟨hout, hle⟩
    | true =>
      obtain ⟨t, hsame, hdown⟩ := hlast.left
      have hlt := hdown hint
      have htn : t < n := by
        by_contra hge
        rw [hout t (by omega), Phase.left] at hlt
        omega
      refine ⟨fun u hu ↦ (hsame u (by omega)).trans (hout u hu), ?_⟩
      have hsum : p₂.left n < p₁.left n := by
        refine Finset.sum_lt_sum (fun u _ ↦ ?_) ⟨t, Finset.mem_range.mpr htn, hlt⟩
        by_cases hut : u = t
        · exact hut ▸ Nat.le_of_lt hlt
        · rw [hsame u hut]
      rw [if_pos rfl]
      omega

/-- As long as a thread is on its way, some thread can go on, and the mutex is given back in
time. -/
theorem Process.WF.goes_on (hp : p.WF pl) (hup : p.ended = false) (hrel : p.Released)
    (ht : p.phase t ≠ .outside) :
    ∃ e p', e.internal = true ∧ PStep pl table p e p' ∧ p'.Released := by
  have hnext : ∀ e, e.internal = true → p.ready e = true → ¬ p.Fails pl e →
      ∃ e p', e.internal = true ∧ PStep pl table p e p' ∧ p'.Released := by
    intro e hint he hno
    have hen : p.enabled e = true := by rw [Process.enabled, hup, he]; rfl
    have hstep : PStep pl table p e (p.after pl table e) := .of_enabled hen
    exact ⟨e, _, hint, hstep, (hstep.wf hp).2.mpr ⟨hrel, hno⟩⟩
  cases hmutex : p.world.heap.mutex with
  | none =>
    cases hph : p.phase t with
    | outside => exact absurd hph ht
    | asking req => exact hnext (.enter t) rfl (by simp [Process.ready, hph, hmutex]) id
    | inside req => exact absurd ((hp.holds t ⟨req, hph⟩).symm.trans hmutex) (by simp)
    | leaving ret => exact hnext (.back t ret) rfl (by simp [Process.ready, hph]) id
  | some u =>
    obtain ⟨req, hin⟩ := hrel u hmutex
    cases req with
    | call call =>
      refine hnext (.leave u none true true) rfl (by simp [Process.ready, hin]) ?_
      rintro ⟨c, -, ⟨hno, -⟩ | ⟨hno, -⟩⟩
      · exact absurd hno (by decide)
      · exact absurd hno (by decide)
    | report =>
      exact hnext (.report u (fun _ ↦ true) fun _ ↦ 0) rfl (by simp [Process.ready, hin]) id

/-- **Calls come to an end.**  At every point of every run of the process there is a bound on how
often, in a continuation in which no thread asks for more, a call or a report goes on its way, in
whatever order the threads go on and whatever the host program does.  And as long as such a
continuation has given the mutex back in time, and the process has not ended, either all threads are
outside, or one of them can go on. -/
theorem calls_complete {m : Memory} {es : List Event}
    (hrun : Run (PStep pl table) (Process.initial m) es p) :
    ∃ k, ∀ fs p', Run (PStep pl table) p fs p' → (∀ t req, .ask t req ∉ fs) →
      fs.countP Event.internal ≤ k ∧
      (p'.ended = false → (∀ t, p'.world.heap.mutex = some t → p'.Inside t) →
        (∀ t, p'.phase t = .outside) ∨
          ∃ e p'', e.internal = true ∧ PStep pl table p' e p'' ∧
            ∀ t, p''.world.heap.mutex = some t → p''.Inside t) := by
  obtain ⟨n, hn⟩ := Process.bounded hrun
  refine ⟨p.left n, fun fs p' hfs hask ↦ ⟨?_, fun hup hrel ↦ ?_⟩⟩
  · have hle := (Process.left_run hn hfs hask).2
    omega
  · by_cases hout : ∀ t, p'.phase t = .outside
    · exact .inl hout
    · obtain ⟨t, ht⟩ := not_forall.mp hout
      exact .inr ((Process.WF.of_run (hrun.append hfs)).goes_on hup hrel ht)

/-- Thread 2 is inside, and thread 1 waits. -/
theorem calls_complete_overlap :
    let es : List Event :=
      [.ask 1 (.call (.malloc 1)), .ask 2 (.call (.malloc 600)), .enter 2]
    let p := es.foldl (Process.after .pages4k 0x2000) (Process.initial fun _ ↦ 0#8)
    p.phase 1 = .asking (.call (.malloc 1)) ∧
      ∃ k, ∀ fs p', Run (PStep .pages4k 0x2000) p fs p' → (∀ t req, .ask t req ∉ fs) →
        fs.countP Event.internal ≤ k ∧
        (p'.ended = false → (∀ t, p'.world.heap.mutex = some t → p'.Inside t) →
          (∀ t, p'.phase t = .outside) ∨
            ∃ e p'', e.internal = true ∧ PStep .pages4k 0x2000 p' e p'' ∧
              ∀ t, p''.world.heap.mutex = some t → p''.Inside t) :=
  ⟨by decide +kernel, calls_complete (Process.run_of_allows _ _ (by decide +kernel))⟩

/-! ## After a failure -/

/-- A thread asks for the mutex or comes back, or the host program goes on, or ends. -/
def Event.outer : Event → Bool
  | .ask _ _ => true
  | .back _ _ => true
  | .host _ => true
  | .finish => true
  | _ => false

/-- The mutex is held by a thread that is not inside. -/
def Process.Shut (p : Process) : Prop := ∃ t, p.world.heap.mutex = some t ∧ ¬ p.Inside t

/-- **Nothing opens the library again**: who waits goes on waiting, and nobody else gives the mutex
back. -/
theorem PStep.shut (hp : p.WF pl) (hshut : p.Shut) (hstep : PStep pl table p e p') :
    e.outer = true ∧ p'.Shut ∧ p'.world.heap.mutex = p.world.heap.mutex ∧
      (∀ u req, p.phase u = .asking req → p'.phase u = .asking req) ∧
      ∀ u ret, e = .back u ret ∨ p'.phase u = .leaving ret → p.phase u = .leaving ret := by
  obtain ⟨t, hmutex, hout⟩ := hshut
  have hnone : ∀ u req, p.phase u ≠ .inside req := by
    intro u req hin
    obtain rfl := Option.some_inj.mp ((hp.holds u ⟨req, hin⟩).symm.trans hmutex)
    exact hout ⟨req, hin⟩
  -- a thread that moves without going inside or leaving
  have hmoves : ∀ (u : Nat) (phase : Phase), (∀ req, p.phase u ≠ .asking req) →
      (∀ req, phase ≠ .inside req) → (∀ ret, phase ≠ .leaving ret) →
      (p.move u phase p.world.heap p.world.live).Shut ∧
        (∀ v req, p.phase v = .asking req →
          (p.move u phase p.world.heap p.world.live).phase v = .asking req) ∧
        ∀ v ret, (p.move u phase p.world.heap p.world.live).phase v = .leaving ret →
          p.phase v = .leaving ret := by
    intro u phase hask hin hleave
    refine ⟨⟨t, hmutex, ?_⟩, fun v req hv ↦ ?_, fun v ret hv ↦ ?_⟩
    · rw [Process.inside_move]
      split
      · exact fun ⟨req, hreq⟩ ↦ hin req hreq
      · exact hout
    · have hne : v ≠ u := by
        rintro rfl
        exact hask req hv
      exact (Function.update_of_ne hne _ _).trans hv
    · rw [Process.pending_move] at hv
      split at hv
      · exact absurd hv (hleave ret)
      · exact hv
  cases hstep with
  | @ask u req hup hph =>
    obtain ⟨hshut', hwait, hleave⟩ := hmoves u (.asking req) (by simp [hph]) (by simp) (by simp)
    exact ⟨rfl, hshut', rfl, hwait, fun v ret h ↦ hleave v ret (h.resolve_left (by simp))⟩
  | enter _ _ hlock =>
    exact absurd (hmutex.symm.trans (manageFreeMutexLock_eq_ok.mp hlock).1) (by simp)
  | returns _ hin => exact absurd hin (hnone _ _)
  | exits _ hin => exact absurd hin (hnone _ _)
  | reports _ hin => exact absurd hin (hnone _ _)
  | @back u ret hup hph =>
    obtain ⟨hshut', hwait, hleave⟩ := hmoves u .outside (by simp [hph]) (by simp) (by simp)
    refine ⟨rfl, hshut', rfl, hwait, fun v ret' h ↦ h.elim (fun h ↦ ?_) (hleave v ret')⟩
    cases h
    exact hph
  | host _ hfree hcall hstep =>
    have hkeep := (hstep.unlock hcall).2
    exact ⟨rfl, ⟨t, hkeep.trans hmutex, hout⟩, hkeep, fun _ _ hv ↦ hv,
      fun v ret h ↦ h.resolve_left (by simp)⟩
  | finish =>
    exact ⟨rfl, ⟨t, hmutex, hout⟩, rfl, fun _ _ hv ↦ hv, fun v ret h ↦ h.resolve_left (by simp)⟩

/-- The thread asks for the mutex, and holds it. -/
def Process.Stuck (p : Process) (t : Nat) : Prop :=
  (∃ req, p.phase t = .asking req) ∧ p.world.heap.mutex = some t

/-- **A thread that waits for itself waits for good**: no event helps it. -/
theorem PStep.stuck (hp : p.WF pl) (hstep : PStep pl table p e p') (hstuck : p.Stuck t) :
    p'.Stuck t := by
  obtain ⟨⟨req, hph⟩, hmutex⟩ := hstuck
  have hshut : p.Shut := ⟨t, hmutex, fun ⟨_, hin⟩ ↦ absurd (hin.symm.trans hph) (by simp)⟩
  obtain ⟨-, -, hkeep, hwait, -⟩ := hstep.shut hp hshut
  exact ⟨⟨req, hwait t req hph⟩, hkeep.trans hmutex⟩

theorem Process.WF.shut_run (hp : p.WF pl) (hshut : p.Shut) {es : List Event}
    (hrun : Run (PStep pl table) p es p') :
    (∀ e ∈ es, e.outer = true) ∧ p'.WF pl ∧ p'.Shut ∧
      (∀ u req, p.phase u = .asking req → p'.phase u = .asking req) ∧
      ∀ u ret, .back u ret ∈ es ∨ p'.phase u = .leaving ret → p.phase u = .leaving ret := by
  induction hrun with
  | nil => exact ⟨by simp, hp, hshut, fun _ _ hv ↦ hv, fun u ret h ↦ h.resolve_left (by simp)⟩
  | snoc _ hstep ih =>
    obtain ⟨hes, hq, hshut', hwait, hleave⟩ := ih
    obtain ⟨he, hshut'', -, hwait', hleave'⟩ := hstep.shut hq hshut'
    refine ⟨List.forall_mem_append.mpr ⟨hes, by simpa using he⟩, (hstep.wf hq).1, hshut'',
      fun u req hu ↦ hwait' u req (hwait u req hu), fun u ret h ↦ ?_⟩
    rw [List.mem_append, List.mem_singleton, or_assoc] at h
    rcases h with h | h
    · exact hleave u ret (.inl h)
    · exact hleave u ret (.inr (hleave' u ret (h.imp_left Eq.symm)))

/-- A thread that is inside can leave, and gives the mutex back. -/
theorem Process.WF.leaves (hp : p.WF pl) (hup : p.ended = false) {req : Request}
    (hin : p.phase t = .inside req) :
    ∃ e p' ret, PStep pl table p e p' ∧ p'.ended = false ∧ p'.world.heap.mutex = none ∧
      p'.phase t = .leaving ret ∧ ∀ u, u ≠ t → p'.phase u = p.phase u := by
  have hother : ∀ (ret : Option Nat) (h : Heap) (live : List Block) u, u ≠ t →
      (p.move t (.leaving ret) h live).phase u = p.phase u :=
    fun _ _ _ _ hne ↦ Function.update_of_ne hne _ _
  cases req with
  | call call =>
    have hno : ¬ call.Exits pl p.world.heap none true true := by
      rintro (⟨hno, -⟩ | ⟨hno, -⟩) <;> exact absurd hno (by decide)
    obtain ⟨hyes, -⟩ | ⟨-, r, h, himpl, -⟩ := call.impl_exits (hp.heap ⟨_, hin⟩) none true true
    · exact absurd hyes hno
    · exact ⟨_, _, _, .returns hup hin himpl rfl, hup, rfl, Function.update_self _ _ _,
        hother _ _ _⟩
  | report =>
    obtain ⟨⟨⟩, log, hrun, -⟩ := showReport_returns p.world.heap table (fun _ ↦ true) []
    have hstep : PStep pl table p (.report t (fun _ ↦ true) fun _ ↦ 0) _ :=
      .reports hup hin hrun rfl
    exact ⟨_, _, _, hstep, hup, rfl, Function.update_self _ _ _, hother _ _ _⟩

/-- **Every thread can get its answer** as long as the mutex is given back in time and the process
has not ended. -/
theorem Process.WF.answerable (hp : p.WF pl) (hup : p.ended = false) (hrel : p.Released) (t : Nat) :
    ∃ es p', Run (PStep pl table) p es p' ∧ p'.phase t = .outside := by
  have hleaving : ∀ {q : Process} {ret : Option Nat}, q.ended = false →
      q.phase t = .leaving ret → ∃ es p', Run (PStep pl table) q es p' ∧ p'.phase t = .outside :=
    fun hq hleft ↦ ⟨_, _, .single (.back hq hleft), Function.update_self _ _ _⟩
  have hinside : ∀ {q : Process} {req : Request}, q.WF pl → q.ended = false →
      q.phase t = .inside req →
      ∃ es p', Run (PStep pl table) q es p' ∧ p'.phase t = .outside := by
    intro q req hq hup hin
    obtain ⟨e, q', ret, hstep, hup', -, hleft, -⟩ := hq.leaves hup hin
    obtain ⟨es, p', hrun, hout⟩ := hleaving hup' hleft
    exact ⟨_, p', hrun.cons hstep, hout⟩
  have hasking : ∀ {q : Process} {req : Request}, q.WF pl → q.ended = false →
      q.phase t = .asking req → q.world.heap.mutex = none →
      ∃ es p', Run (PStep pl table) q es p' ∧ p'.phase t = .outside := by
    intro q req hq hup hask hfree
    have henter : PStep pl table q (.enter t) _ :=
      .enter hup hask (manageFreeMutexLock_free t hfree)
    obtain ⟨es, p', hrun, hout⟩ := hinside (henter.wf hq).1 hup (Function.update_self t _ _)
    exact ⟨_, p', hrun.cons henter, hout⟩
  cases hph : p.phase t with
  | outside => exact ⟨[], p, .nil p, hph⟩
  | leaving ret => exact hleaving hup hph
  | inside req => exact hinside hp hup hph
  | asking req =>
    cases hmutex : p.world.heap.mutex with
    | none => exact hasking hp hup hph hmutex
    | some u =>
      -- whoever is inside leaves first
      obtain ⟨req', hin⟩ := hrel u hmutex
      obtain ⟨e, q, ret, hstep, hup', hfree, -, hother⟩ := hp.leaves hup hin
      have hne : t ≠ u := by
        rintro rfl
        exact absurd (hph.symm.trans hin) (by simp)
      obtain ⟨es, p', hrun, hout⟩ := hasking (hstep.wf hp).1 hup' ((hother t hne).trans hph) hfree
      exact ⟨_, p', hrun.cons hstep, hout⟩

/-- **What a failure costs.**  At every point of every run of the process,

* if `sysconf` or `munmap` has failed a call, then up to the end of the process there is nothing but
  threads that ask for the mutex and wait, threads that come back because they have given the mutex
  back before, and what the host program does;
* if not, and the process has not ended, then every thread can get its answer. -/
theorem failure_shuts {m : Memory} {es : List Event}
    (hrun : Run (PStep pl table) (Process.initial m) es p) :
    (Run.Met (PStep pl table) (Process.Fails pl) (Process.initial m) es p →
      ∀ fs p', Run (PStep pl table) p fs p' → (∀ e ∈ fs, e.outer = true) ∧
        (∀ u req, p.phase u = .asking req → p'.phase u = .asking req) ∧
        ∀ u ret, .back u ret ∈ fs → p.phase u = .leaving ret) ∧
    (¬ Run.Met (PStep pl table) (Process.Fails pl) (Process.initial m) es p → p.ended = false →
      ∀ t, ∃ fs p', Run (PStep pl table) p fs p' ∧ p'.phase t = .outside) := by
  have hp : p.WF pl := .of_run hrun
  rw [← Process.lost_iff hrun, not_not]
  refine ⟨fun hlost fs p' hfs ↦ ?_, fun hrel hup ↦ hp.answerable hup hrel⟩
  obtain ⟨u, hu⟩ := not_forall.mp hlost
  obtain ⟨hes, -, -, hwait, hleave⟩ := hp.shut_run ⟨u, Classical.not_imp.mp hu⟩ hfs
  exact ⟨hes, hwait, fun u ret h ↦ hleave u ret (.inl h)⟩

/-- `munmap` fails thread 1, while thread 2 asks for a block and thread 3 is on its way back. -/
theorem failure_shuts_free :
    let es : List Event :=
      [.ask 1 (.call (.malloc 600)), .enter 1, .leave 1 (some 0x4000) true true,
        .back 1 (some 0x4010), .ask 3 (.call (.malloc 0)), .enter 3, .leave 3 none true true,
        .ask 1 (.call (.free 0x4010)), .enter 1, .leave 1 none false true,
        .ask 2 (.call (.malloc 1))]
    let p := es.foldl (Process.after .pages4k 0x2000) (Process.initial fun _ ↦ 0#8)
    p.phase 3 = .leaving (some 0) ∧
    ∀ fs p', Run (PStep .pages4k 0x2000) p fs p' → (∀ e ∈ fs, e.outer = true) ∧
      (∀ u req, p.phase u = .asking req → p'.phase u = .asking req) ∧
      ∀ u ret, .back u ret ∈ fs → p.phase u = .leaving ret := by
  intro es p
  have hrun : Run (PStep .pages4k 0x2000) (Process.initial fun _ ↦ 0#8) es p :=
    Process.run_of_allows es _ (by decide +kernel)
  refine ⟨by decide +kernel, (failure_shuts hrun).1 ((Process.lost_iff hrun).mp fun hrel ↦ ?_)⟩
  obtain ⟨req, hin⟩ := hrel 1 (by decide +kernel)
  have hout : p.phase 1 = .outside := by decide +kernel
  exact absurd (hout.symm.trans hin) (by simp)

end FtMalloc
