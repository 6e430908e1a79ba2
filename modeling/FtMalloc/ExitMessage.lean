import FtMalloc.Alike
import FtMalloc.ExitPaths
import FtMalloc.Lines

/-!
# The last line of a process

A call that cannot go on does not come back: it calls `print_error`, which writes a line to
descriptor 2 and ends the process.  `FtMalloc.ExitPaths` says when; this file says what is written.

* `Strerror` — `strerror` is not part of the library, but it may call it: in a build that overrides
  `malloc` and `free`, they are what the host's `strerror` calls.
* `printErrorLine` — `print_error`; what the failed system call leaves in `errno` is a parameter.
* `Call.perform` — a public call with the writes it makes.
* `Call.ExitsFor` — the failure that ends a call, with the name `print_error` is given for it.
* `exit_told` — a call comes back without having written anything, or it tries the line about the
  failure that has happened, or it waits for the mutex that its own thread holds, because `strerror`
  has called the library.  Of the three names `ft_malloc.c` knows, `"do Error"` is never told.
-/

set_option autoImplicit false

namespace FtMalloc

open ByteMemory

/-! ## The line -/

/-- `strerror`: the public functions it calls on its way, and what it returns. -/
structure Strerror where
  calls : Int → List Call
  text : Int → List Byte

/-- Public calls of one thread, one after the other. -/
def runCalls (os : OS) (self : Nat) : List Call → M Unit
  | [] => return ()
  | call :: calls => do
    let _ ← call.run os self
    runCalls os self calls

/-- `print_error`, called by thread `self`. -/
def printErrorLine {α : Type} (os : OS) (strerror : Strerror) (self : Nat) (errno : Int)
    (str : String) (h : Heap) : Print (Except Halt α) :=
  match runCalls os self (strerror.calls errno) h with
  | .ok _ _ => do
    let _ ← ftFprintf 2 (some (cstr "Error %s : %s (errno = %d)\n"))
      [.string (chars str), .string (strerror.text errno), .int errno]
    return .error (.exit str)
  | .error e _ => return .error e

/-- A public call, with what it writes: `print_error` alone writes. -/
def Call.perform (os : OS) (strerror : Strerror) (errno : Int) (self : Nat) (call : Call)
    (h : Heap) : Print (Except Halt (Nat × Heap)) :=
  match call.run os self h with
  | .ok r h' => return .ok (r, h')
  | .error (.exit str) h' => printErrorLine os strerror self errno str h'
  | .error e _ => return .error e

variable {pl : Platform} {h : Heap} {w : World} {call : Call} {t : Nat} {str : String}
variable {mmap : Option Nat} {munmap sysconf : Bool} {strerror : Strerror} {errno : Int}

/-- The line about a failure. -/
def errorLine (strerror : Strerror) (errno : Int) (str : String) : List Byte :=
  chars "Error " ++ chars str ++ chars " : " ++ strerror.text errno ++ chars " (errno = "
    ++ intText errno ++ chars ")\n"

/-- What is sent for the line. -/
def errorItems (strerror : Strerror) (errno : Int) (str : String) : List Item :=
  (chars "Error ").map .char ++ .string (some (chars str)) :: (chars " : ").map .char
    ++ .string (some (strerror.text errno)) :: (chars " (errno = ").map .char
    ++ .int (BitVec.ofInt 32 errno) :: (chars ")\n").map .char

theorem plan_errorLine (hlo : 0 ≤ errno) (hhi : errno < 2 ^ 31) :
    plan (cstr "Error %s : %s (errno = %d)\n")
      [.string (chars str), .string (strerror.text errno), .int errno]
      = some ⟨errorItems strerror errno str, true⟩ := by
  have hcast : (((errno % 2 ^ 64).toNat % 2 ^ 64 : Nat) : Int) = errno := by omega
  have hint : BitVec.ofInt 32 (((errno % 2 ^ 64).toNat % 2 ^ 64 : Nat) : Int)
      = BitVec.ofInt 32 errno := by rw [hcast]
  rw [errorItems, ← hint]
  rfl

theorem errorItems_text (hlo : 0 ≤ errno) (hhi : errno < 2 ^ 31) :
    (errorItems strerror errno str).flatMap Item.text = errorLine strerror errno str := by
  have hchars : ∀ s : List Byte, (s.map Item.char).flatMap Item.text = s := by
    intro s
    rw [List.flatMap_map]
    exact List.flatMap_singleton' s
  have hint : (BitVec.ofInt 32 errno).toInt = errno := asInt_of_bounds (by omega) hhi
  simp only [errorItems, errorLine, List.flatMap_append, List.flatMap_cons, hchars, Item.text,
    stringText, Option.getD_some, hint, List.append_assoc]

/-- No number of the line is negative. -/
theorem errorItems_plain (hlo : 0 ≤ errno) (hhi : errno < 2 ^ 31) :
    ∀ it ∈ errorItems strerror errno str, ¬ it.Negative := by
  have hint : (BitVec.ofInt 32 errno).toInt = errno := asInt_of_bounds (by omega) hhi
  have hchar : ∀ s : List Byte, ∀ it ∈ s.map Item.char, ¬ it.Negative := by
    intro s it hit
    obtain ⟨c, -, rfl⟩ := List.mem_map.mp hit
    exact id
  simp only [errorItems, List.forall_mem_append, List.forall_mem_cons]
  refine ⟨⟨⟨hchar _, id, hchar _⟩, id, hchar _⟩, ?_, hchar _⟩
  show ¬ (BitVec.ofInt 32 errno).toInt < 0
  omega

/-- **`print_error` tries its line on descriptor 2**, if `strerror` does not call the library. -/
theorem printErrorLine_tries {α : Type} {os : OS} (hlo : 0 ≤ errno) (hhi : errno < 2 ^ 31)
    (hcalls : strerror.calls errno = [])
    (hlen : (errorLine strerror errno str).length < 2 ^ 31) (writes : Nat → Bool)
    (log : List Write) :
    ∃ part, printErrorLine os strerror t errno str h writes log
        = some ((.error (.exit str) : Except Halt α), log ++ part) ∧
      Tries 2 part (errorLine strerror errno str) := by
  rw [← errorItems_text hlo hhi] at hlen ⊢
  obtain ⟨r, part, hrun, htries, -⟩ := printf_tries ⟨2, 1⟩ (plan_errorLine hlo hhi)
    (fun it hit hneg ↦ absurd hneg (errorItems_plain hlo hhi it hit)) hlen writes log
  refine ⟨part, ?_, htries⟩
  rw [printErrorLine, hcalls]
  show (printf ⟨2, 1⟩ _ _ writes log).bind _ = _
  rw [hrun]
  rfl

/-- **`print_error` blocks** if `strerror` calls the library: the thread waits for itself, and no
byte of the line has been written. -/
theorem printErrorLine_blocks {α : Type} {os : OS} (hmutex : h.mutex = some t)
    (hcalls : strerror.calls errno ≠ []) (str : String) (writes : Nat → Bool) (log : List Write) :
    printErrorLine os strerror t errno str h writes log
      = some ((.error (.blocked t) : Except Halt α), log) := by
  obtain ⟨call, calls, hcons⟩ := List.exists_cons_of_ne_nil hcalls
  have hlock : manageFreeMutexLock t h = .error (.blocked t) h := by
    rw [manageFreeMutexLock, get_bind, hmutex]
    rfl
  have hcall : call.run os t h = .error (.blocked t) h := by
    cases call with
    | malloc n => exact bind_error hlock _
    | free p => exact bind_error (bind_error hlock _) _
    | realloc p n => exact bind_error hlock _
    | calloc nmemb size => exact bind_error hlock _
  rw [printErrorLine, hcons, runCalls, bind_error hcall]
  rfl

/-! ## The failure -/

/-- The failure that ends a call, and what it is called: `sysconf` is asked first. -/
inductive Call.ExitsFor (pl : Platform) (h : Heap) (call : Call) (mmap : Option Nat)
    (munmap sysconf : Bool) : String → Prop
  | page (hno : sysconf = false) (hask : call.AsksPage h) :
      Call.ExitsFor pl h call mmap munmap sysconf "return_sc_pagesize"
  | munmap (hpage : ¬ (sysconf = false ∧ call.AsksPage h)) (hno : munmap = false)
      (hun : call.UnmapsLarge pl (pl.os mmap munmap) h) :
      Call.ExitsFor pl h call mmap munmap sysconf "munmap Fail"

/-- One of the failures happens to a call that exits. -/
theorem Call.exits_iff :
    call.Exits pl h mmap munmap sysconf ↔ ∃ str, call.ExitsFor pl h mmap munmap sysconf str := by
  constructor
  · intro hex
    by_cases hpage : sysconf = false ∧ call.AsksPage h
    · exact ⟨_, .page hpage.1 hpage.2⟩
    · obtain ⟨hno, hun⟩ := hex.resolve_left hpage
      exact ⟨_, .munmap hpage hno hun⟩
  · rintro ⟨str, hex⟩
    cases hex with
    | page hno hask => exact .inl ⟨hno, hask⟩
    | munmap _ hno hun => exact .inr ⟨hno, hun⟩

/-- **The name `print_error` is given** is that of the failure. -/
theorem Call.ExitsFor.impl (hi : h.WF pl) (hex : call.ExitsFor pl h mmap munmap sysconf str) :
    ∃ h', call.impl (pl.answers mmap munmap sysconf) h = .error (.exit str) h' := by
  cases hex with
  | page hno hask =>
    subst hno
    exact call.impl_exit_page hi rfl hask
  | munmap hpage hno hun =>
    rw [call.impl_answers hi hpage]
    exact call.impl_exit_munmap (pl.os_on mmap munmap) hi hno hun

/-- Whether the mutex is taken makes no difference. -/
theorem Call.exitsFor_lock :
    call.ExitsFor pl (h.lock t) mmap munmap sysconf str ↔
      call.ExitsFor pl h mmap munmap sysconf str := by
  have hask : call.AsksPage (h.lock t) ↔ call.AsksPage h :=
    exists_congr fun n ↦ and_congr Call.requests_lock Iff.rfl
  have hun : call.UnmapsLarge pl (pl.os mmap munmap) (h.lock t) ↔
      call.UnmapsLarge pl (pl.os mmap munmap) h := Iff.rfl
  constructor <;> intro hex <;> cases hex with
  | page hno ha => exact .page hno (by simpa only [hask] using ha)
  | munmap hpage hno hu => exact .munmap (by simpa only [hask] using hpage) hno (hun.mp hu)

/-- **What a call tells before it ends the process.**  From every world the library can get into,
whatever the operating system answers and whichever writes fail,

* a call that comes back has written nothing, and neither failure has happened to it;
* any other call has met a failure.  If `strerror` does not call the library, the call tells the
  name of the failure: it tries the line about it on descriptor 2, of which all is sent unless a
  write fails, and then exits.  If `strerror` does call it, the thread waits for the mutex that it
  holds itself, and nothing has been written. -/
theorem exit_told (strerror : Strerror) (hw : w.Reachable pl) (hlo : 0 ≤ errno)
    (hhi : errno < 2 ^ 31) (hlen : (strerror.text errno).length < 2 ^ 30) (call : Call) (t : Nat)
    (mmap : Option Nat) (munmap sysconf : Bool) (writes : Nat → Bool) (log : List Write) :
    (∃ r w', Answered pl w (.call t call mmap munmap, some r) w' ∧
      (∀ str, ¬ call.ExitsFor pl w.heap mmap munmap sysconf str) ∧
      call.perform (pl.answers mmap munmap sysconf) strerror errno t w.heap writes log
        = some (.ok (r, w'.heap), log)) ∨
    ∃ str, call.ExitsFor pl w.heap mmap munmap sysconf str ∧
      (strerror.calls errno = [] → ∃ part,
        call.perform (pl.answers mmap munmap sysconf) strerror errno t w.heap writes log
          = some (.error (.exit str), log ++ part) ∧
        Tries 2 part (errorLine strerror errno str)) ∧
      (strerror.calls errno ≠ [] →
        call.perform (pl.answers mmap munmap sysconf) strerror errno t w.heap writes log
          = some (.error (.blocked t), log)) := by
  have hi := hw.wf.heap.lock t
  have hrun := @Call.run_eq (pl.answers mmap munmap sysconf) w.heap call t hw.wf.unlocked
  by_cases hex : call.Exits pl (w.heap.lock t) mmap munmap sysconf
  · obtain ⟨str, hfor⟩ := Call.exits_iff.mp hex
    obtain ⟨h', himpl⟩ := hfor.impl hi
    rw [himpl] at hrun
    have hline : (errorLine strerror errno str).length < 2 ^ 31 := by
      have hnum := length_intText (by omega : -2 ^ 31 ≤ errno) hhi
      have hname : (chars str).length ≤ 18 := by cases hfor <;> decide
      have h₁ : (chars "Error ").length = 6 := by decide
      have h₂ : (chars " : ").length = 3 := by decide
      have h₃ : (chars " (errno = ").length = 10 := by decide
      have h₄ : (chars ")\n").length = 2 := by decide
      simp only [errorLine, List.length_append]
      omega
    have hperform : call.perform (pl.answers mmap munmap sysconf) strerror errno t w.heap
        = printErrorLine (pl.answers mmap munmap sysconf) strerror t errno str h' := by
      rw [Call.perform, hrun]
    have hmutex : h'.mutex = some t := (Call.impl_error himpl).1
    rw [hperform]
    exact .inr ⟨str, Call.exitsFor_lock.mp hfor,
      fun hcalls ↦ printErrorLine_tries hlo hhi hcalls hline writes log,
      fun hcalls ↦ printErrorLine_blocks hmutex hcalls str writes log⟩
  · obtain ⟨hyes, -⟩ | ⟨-, r, h₁, himpl, -⟩ := call.impl_exits hi mmap munmap sysconf
    · exact absurd hyes hex
    have hok : ¬ (sysconf = false ∧ call.AsksPage (w.heap.lock t)) := fun hask ↦ hex (.inl hask)
    have hrun' := @Call.run_eq (pl.os mmap munmap) w.heap call t hw.wf.unlocked
    rw [himpl] at hrun
    rw [← call.impl_answers hi hok, himpl] at hrun'
    refine .inl ⟨r, _, ⟨.call hrun', ?_⟩, fun str hfor ↦ ?_, ?_⟩
    · show some r = w.answer pl t call mmap munmap
      rw [World.answer, hrun']
    · exact hex (Call.exits_iff.mpr ⟨str, Call.exitsFor_lock.mpr hfor⟩)
    · rw [Call.perform, hrun]
      rfl

/-- The LARGE block is freed, and `munmap` refuses to give it back: the line is tried, unless
`strerror` frees a string of its own first. -/
theorem exit_told_twoBlocks :
    let done := fun calls ↦ Call.perform (Platform.pages4k.answers none false true)
      ⟨fun _ ↦ calls, fun _ ↦ chars "Invalid argument"⟩ 22 1 (.free 0x4010) World.twoBlocks.heap
      (fun _ ↦ true) []
    (∃ part, done [] = some (.error (.exit "munmap Fail"), part) ∧
      Tries 2 part (chars "Error munmap Fail : Invalid argument (errno = 22)\n")) ∧
    done [.free 0x9010] = some (.error (.blocked 1), []) := by
  intro done
  have hhi : (22 : Int) < 2 ^ 31 := by decide
  have hlen : (chars "Invalid argument").length < 2 ^ 30 := by decide
  have hall : ∀ calls : List Call, (calls = [] → ∃ part,
      done calls = some (.error (.exit "munmap Fail"), part) ∧
        Tries 2 part (chars "Error munmap Fail : Invalid argument (errno = 22)\n")) ∧
      (calls ≠ [] → done calls = some (.error (.blocked 1), [])) := by
    intro calls
    rcases exit_told ⟨fun _ ↦ calls, fun _ ↦ chars "Invalid argument"⟩ World.reachable_twoBlocks
        (by decide) hhi hlen (.free 0x4010) 1 none false true (fun _ ↦ true) [] with
      ⟨r, w', hans, -⟩ | ⟨str, hfor, htold⟩
    · have hanswer : World.twoBlocks.answer .pages4k 1 (.free 0x4010) none false = none := by
        decide +kernel
      rw [(Answered.call_iff.mp hans).1] at hanswer
      exact absurd hanswer (Option.some_ne_none r)
    · cases hfor with
      | page hno => exact absurd hno (by decide)
      | munmap => exact htold
  exact ⟨(hall []).1 rfl, (hall [.free 0x9010]).2 (List.cons_ne_nil _ _)⟩

end FtMalloc
