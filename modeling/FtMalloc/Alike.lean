import FtMalloc.Traverse
import FtMalloc.World
import FtMalloc.Lib.TwoRuns

/-!
# States that behave alike

The model keeps a list of mappings and a log of system calls.  The program has neither, and no call
depends on the log or on the order of the list: two states that differ in nothing else, and have the
same mappings in their lists, are `Heap.Alike`, and every function takes alike states to alike
states with the same answer.

`World.Alike.run` carries this to runs: what happens after one of two worlds that are alike happens
after the other, answer by answer.
-/

set_option autoImplicit false

namespace FtMalloc

open ByteMemory

variable {pl : Platform} {os : OS} {h h' : Heap}

/-- The two states have the same mappings, and are the same but for the order of them and for the
log of system calls. -/
def Heap.Alike (h h' : Heap) : Prop :=
  ∃ m c, h' = { h with mapped := m, calls := c } ∧ ∀ r, r ∈ m ↔ r ∈ h.mapped

/-- A change of the state that has nothing to do with the mappings and the log. -/
theorem Heap.Alike.map {g : Heap → Heap}
    (hg : ∀ h m c, g { h with mapped := m, calls := c } = { g h with mapped := m, calls := c })
    (ha : h.Alike h') : (g h).Alike (g h') := by
  obtain ⟨m, c, rfl, hmem⟩ := ha
  have hself := congrArg Heap.mapped (hg h h.mapped h.calls)
  have hkeep : (g h).mapped = h.mapped := hself
  exact ⟨m, c, hg h m c, fun r ↦ by rw [hkeep, hmem]⟩

/-! ## The functions of the program -/

/-- Alike states are alike to `x`. -/
def Oblivious {α : Type} (x : M α) : Prop := Together Heap.Alike x x

namespace Oblivious

variable {α β : Type} {x y : M α} {f : α → M β}

theorem pure (a : α) : Oblivious (pure a) := Together.pure a

theorem printError (str : String) : Oblivious (printError str : M α) := Together.throw _

theorem modify {g : Heap → Heap}
    (hg : ∀ h m c, g { h with mapped := m, calls := c } = { g h with mapped := m, calls := c }) :
    Oblivious (modify g : M PUnit) := Together.modify fun _ _ ha ↦ ha.map hg

theorem bind (hx : Oblivious x) (hf : ∀ a, Oblivious (f a)) : Oblivious (x >>= f) :=
  Together.bind hx hf

theorem get_bind {f g : Heap → M β} (hg : Untraced g)
    (hf : ∀ h, Together Heap.Alike (f h) (g h)) : Together Heap.Alike (get >>= f) (get >>= g) :=
  Together.get_bind fun h _ ⟨m, c, he, _⟩ ↦ by
    rw [he, hg h m c]
    exact hf h

theorem ite {c : Prop} [Decidable c] (hx : Oblivious x) (hy : Oblivious y) :
    Oblivious (if c then x else y) := Together.ite hx hy

end Oblivious

/-- The kernel's answer depends on what is mapped, not on how it is listed. -/
theorem OS.answer_congr {m m' : List Region} (hm : ∀ r, r ∈ m' ↔ r ∈ m) (len : Nat) :
    os.answer m' len = os.answer m len := by
  rw [OS.answer, OS.answer]
  congr 1
  funext base
  refine decide_eq_decide.mpr ?_
  simp only [Grants, hm]

theorem Oblivious.mmap (os : OS) (len : Nat) : Oblivious (mmap os len) := by
  rintro h _ ⟨m, c, rfl, hm⟩
  have hans : os.answer m len = os.answer h.mapped len := OS.answer_congr hm len
  cases hcase : os.answer h.mapped len with
  | none =>
    rw [mmap_none hcase, mmap_none (hans.trans hcase)]
    exact .ok _ ⟨m, _, rfl, hm⟩
  | some ptr =>
    rw [mmap_some hcase, mmap_some (hans.trans hcase)]
    exact .ok _ ⟨⟨ptr, len⟩ :: m, _, rfl, fun r ↦ by simp only [Heap.map, List.mem_cons, hm]⟩

theorem Oblivious.munmap (os : OS) (addr len : Nat) : Oblivious (munmap os addr len) := by
  refine .bind ?_ fun _ ↦ .pure _
  rintro h _ ⟨m, c, rfl, hm⟩
  refine .ok _ ⟨if os.munmap then Region.punch ⟨addr, len⟩ m else m, _, rfl, fun r ↦ ?_⟩
  show r ∈ (if os.munmap then _ else m) ↔ r ∈ (if os.munmap then _ else h.mapped)
  split
  · simp only [Region.punch, List.mem_flatMap, hm]
  · exact hm r

/-- To be oblivious is closed under all that the code does. -/
theorem Oblivious.rules (os : OS) : CallRules os os (Together Heap.Alike) where
  pure := pure
  printError := printError
  bind := Together.bind
  get_bind := get_bind
  modify hg := modify hg.traffic
  mmap := Oblivious.mmap os
  munmap := Oblivious.munmap os
  returnScPagesize := by
    refine get_bind (fun _ _ _ ↦ rfl) fun h ↦ ite (ite (printError _) ?_) ?_
    · exact bind (modify fun _ _ _ ↦ rfl) fun _ ↦ get_bind (fun _ _ _ ↦ rfl) fun _ ↦ pure _
    · exact get_bind (fun _ _ _ ↦ rfl) fun _ ↦ pure _

/-- **No implementation depends on the log of system calls** or on the order of the mappings. -/
theorem Oblivious.impl (os : OS) (call : Call) : Oblivious (call.impl os) :=
  (Oblivious.rules os).impl call

/-! ## Calls and runs -/

theorem Heap.Alike.run {self : Nat} {call : Call} (ha : h.Alike h') :
    EndsTogether Heap.Alike (call.run os self h) (call.run os self h') := by
  have hlock : Oblivious (manageFreeMutexLock self) := by
    refine .get_bind (fun _ _ _ ↦ rfl) fun h ↦ ?_
    split
    · exact Oblivious.modify fun _ _ _ ↦ rfl
    · exact Together.throw _
  have hunlock : Oblivious manageFreeMutexUnlock := .modify fun _ _ _ ↦ rfl
  have hlocked : ∀ {x : M Nat}, Oblivious x →
      Oblivious (do manageFreeMutexLock self; let r ← x; manageFreeMutexUnlock; return r : M Nat) :=
    fun hx ↦ .bind hlock fun _ ↦ .bind hx fun r ↦ .bind hunlock fun _ ↦ .pure r
  have hrun : Oblivious (call.run os self) := by
    cases call with
    | malloc size => exact hlocked (.impl os (.malloc size))
    | free ptr =>
      exact .bind (.bind hlock fun _ ↦ .bind ((Oblivious.rules os).freeImpl ptr) fun _ ↦ hunlock)
        fun _ ↦ .pure 0
    | realloc ptr size => exact hlocked (.impl os (.realloc ptr size))
    | calloc nmemb size => exact hlocked (.impl os (.calloc nmemb size))
  exact hrun h h' ha

/-- The two worlds have alike heaps and the same live blocks. -/
structure World.Alike (u v : World) : Prop where
  heap : u.heap.Alike v.heap
  live : v.live = u.live

/-- What a step shows: the answer of a call. -/
def World.outcome (pl : Platform) (w : World) : Action → Option Nat
  | .call t call mmap munmap => w.answer pl t call mmap munmap
  | .write .. => none
  | .host .. => none

/-- A step together with what it shows. -/
def Answered (pl : Platform) (w : World) (l : Action × Option Nat) (w' : World) : Prop :=
  Step pl w l.1 w' ∧ l.2 = w.outcome pl l.1

section Call

variable {w w' : World} {t r : Nat} {call : Call} {mmap : Option Nat} {munmap : Bool}

/-- A call that has an answer, when the model is run. -/
theorem Answered.of_answer (h : w.answer pl t call mmap munmap = some r) :
    Answered pl w (.call t call mmap munmap, some r) (w.after pl t call mmap munmap) :=
  ⟨.of_answer h, h.symm⟩

/-- An answered call is one the model runs. -/
theorem Answered.call_iff : Answered pl w (.call t call mmap munmap, some r) w' ↔
    w.answer pl t call mmap munmap = some r ∧ w' = w.after pl t call mmap munmap := by
  constructor
  · rintro ⟨hstep, hr⟩
    cases hstep with
    | call hrun => exact ⟨hr.symm, by rw [World.after, hrun]⟩
  · rintro ⟨h, rfl⟩
    exact .of_answer h

end Call

/-- **A step of a world is a step of every world that is alike**, with the same answer. -/
theorem World.Alike.step {u v u' : World} {l : Action × Option Nat} (ha : u.Alike v)
    (hstep : Answered pl u l u') : ∃ v', Answered pl v l v' ∧ u'.Alike v' := by
  obtain ⟨a, o⟩ := l
  obtain ⟨hstep, ho⟩ := hstep
  obtain ⟨h, live⟩ := v
  obtain ⟨m, c, hh, hm⟩ := ha.heap
  obtain rfl : live = u.live := ha.live
  cases hstep with
  | @call t call mmap munmap r h' hrun =>
    have hboth : EndsTogether Heap.Alike (call.run (pl.os mmap munmap) t u.heap)
        (call.run (pl.os mmap munmap) t h) := ha.heap.run
    rw [hrun] at hboth
    generalize hrun' : call.run (pl.os mmap munmap) t h = q at hboth
    cases hboth with
    | @ok _ h'' _ ha' =>
      refine ⟨_, ⟨.call hrun', ?_⟩, ha', ?_⟩
      · simp only [World.outcome, World.answer, hrun, hrun'] at ho ⊢
        exact ho
      · subst hh
        rfl
  | @write t p i b v hb hp hi =>
    refine ⟨_, ⟨.write hb hp hi, ho⟩, ?_, rfl⟩
    subst hh
    exact ⟨m, c, rfl, hm⟩
  | @host m' errno hmem =>
    subst hh
    refine ⟨_, ⟨.host fun r hr ↦ hmem r ((hm r).mp hr), ho⟩, ⟨m, c, rfl, hm⟩, rfl⟩

/-- **What happens after one of two alike worlds happens after the other**, answer by answer. -/
theorem World.Alike.run {u v u' : World} {ls : List (Action × Option Nat)} (ha : u.Alike v)
    (hrun : Run (Answered pl) u ls u') : ∃ v', Run (Answered pl) v ls v' ∧ u'.Alike v' := by
  have hstep : ∀ (s : World) (l : Action × Option Nat) (s' t : World), s.Alike t →
      Answered pl s l s' → ∃ t', Answered pl t l t' ∧ s'.Alike t' :=
    fun _ _ _ _ ha hstep ↦ ha.step hstep
  exact hrun.simulate hstep ha

end FtMalloc
