import FtMalloc.Traverse
import FtMalloc.World

/-!
# The ways out of a call

Two failures make a call leave by `exit`, from inside `print_error`: `sysconf` cannot tell the page
size, or `munmap` refuses to give a LARGE block back.  `Call.Exits` says, on the state a call finds,
that one of them happens: the call asks for the page size while the cache is empty and `sysconf`
fails, or it unmaps a LARGE block and `munmap` fails.

`Call.impl_exits` says that these are all: a call exits exactly then, and otherwise returns in one
of the ways of `CallStep`.
-/

set_option autoImplicit false

namespace FtMalloc

open ByteMemory CharMap

variable {pl : Platform} {os : OS} {h h' : Heap} {p n r : Nat} {call : Call}

/-! ## Asking for the page size -/

/-- A request for `n` bytes has `return_sc_pagesize` ask `sysconf`. -/
def Heap.AsksPage (h : Heap) (n : Nat) : Prop :=
  h.scPageSizeCache = 0#64 ∧
    match zoneOf n with
    | .pool z => h.poolFlag z = false ∧ h.pageFlag z = 0#32
    | .large => h.largeCnt < 100 ∧ n ≤ SIZE_MAX - METASIZE

/-- The operating system gives the same answers, but for what `sysconf` says. -/
def OS.withSysconf (os : OS) (s : Int) : OS := { os with sysconf := s }

theorem bind_congr_apply {α β : Type} {x y : M α} {f : α → M β} (hxy : x h = y h) :
    (x >>= f) h = (y >>= f) h := by
  rw [bind_apply, bind_apply, hxy]

/-- With the page size in the cache `sysconf` is not asked. -/
theorem calculaterPageSize_cached (os : OS) (s : Int) (hc : h.scPageSizeCache ≠ 0#64) (n : Nat) :
    calculaterPageSize os n h = calculaterPageSize (os.withSysconf s) n h := by
  have hpage : ∀ os, returnScPagesize os h = .ok h.scPageSizeCache h := by
    intro os
    rw [returnScPagesize, get_bind, if_neg hc]
    rfl
  rw [calculaterPageSize, calculaterPageSize, get_bind, get_bind]
  split
  · rfl
  · rw [bind_ok (hpage _), bind_ok (hpage _)]

/-- With the cache empty and `sysconf` failing there is no page size to be had. -/
theorem calculaterPageSize_exit (hpage : os.page = -1#32) (hc : h.scPageSizeCache = 0#64)
    (hn : 0 < n) (hm : ∀ z, masked (h.pageFlag z) n = false) :
    calculaterPageSize os n h = .error (.exit "return_sc_pagesize") h := by
  have hguard : ¬ (masked (h.pageFlag .tiny) n ∨ masked (h.pageFlag .small) n ∨ n < 1) := by
    rw [hm, hm]
    simp only [Bool.false_eq_true, false_or]
    omega
  have hexit : returnScPagesize os h = .error (.exit "return_sc_pagesize") h := by
    rw [returnScPagesize, get_bind, if_pos hc, if_pos hpage]
    rfl
  rw [calculaterPageSize, get_bind, if_neg hguard, bind_error hexit]

/-- The arena is set up, or refused, without a look at `sysconf`. -/
theorem setupArena_sysconf (hi : h.WF pl) (s : Int) {z : Pool}
    (hask : ¬ (h.scPageSizeCache = 0#64 ∧ h.poolFlag z = false ∧ h.pageFlag z = 0#32)) :
    setupArena os z h = setupArena (os.withSysconf s) z h := by
  cases hopen : h.poolFlag z with
  | true => rw [setupArena_open hopen, setupArena_open hopen]
  | false =>
    by_cases hflag : h.pageFlag z = 0#32
    · have hc : h.scPageSizeCache ≠ 0#64 := fun hc ↦ hask ⟨hc, hopen, hflag⟩
      rw [setupArena, setupArena, get_bind, get_bind, if_neg (by rw [hopen]; decide),
        if_neg (by rw [hopen]; decide)]
      exact bind_congr_apply (calculaterPageSize_cached os s hc _)
    · rw [setupArena_refused hi.flags hopen hflag, setupArena_refused hi.flags hopen hflag]

/-- A request that does not ask for the page size is served without a look at `sysconf`. -/
theorem mallocImpl_sysconf (hi : h.WF pl) (s : Int) (hask : ¬ h.AsksPage (reqSize n)) :
    mallocImpl os n h = mallocImpl (os.withSysconf s) n h := by
  rw [mallocImpl_eq, mallocImpl_eq]
  rw [Heap.AsksPage] at hask
  cases hz : zoneOf (reqSize n) with
  | pool z =>
    rw [hz] at hask
    exact bind_congr_apply (setupArena_sysconf hi s hask)
  | large =>
    rw [hz] at hask
    show mallocLarge os _ h = mallocLarge _ _ h
    rw [mallocLarge, mallocLarge, get_bind, get_bind]
    split
    · rename_i hcnt
      rw [modify_bind, modify_bind]
      split
      · rfl
      · rename_i hfit
        have hc : h.initTable.scPageSizeCache ≠ 0#64 := by
          rw [hi.initTable_eq]
          exact fun hc ↦ hask ⟨hc, hcnt, by omega⟩
        exact bind_congr_apply (calculaterPageSize_cached os s hc _)
    · rfl

/-- **A request that asks for the page size exits** when `sysconf` fails. -/
theorem mallocImpl_exit (hi : h.WF pl) (hpage : os.page = -1#32) (hask : h.AsksPage (reqSize n)) :
    ∃ h', mallocImpl os n h = .error (.exit "return_sc_pagesize") h' := by
  obtain ⟨hc, hask⟩ := hask
  rw [mallocImpl_eq]
  cases hz : zoneOf (reqSize n) with
  | pool z =>
    rw [hz] at hask
    have hstride : 0 < z.stride := by cases z <;> decide
    refine ⟨h, bind_error ?_ _⟩
    rw [setupArena, get_bind, if_neg (by rw [hask.1]; decide),
      bind_error (calculaterPageSize_exit hpage hc hstride (hi.flags.not_masked_arena hask.2))]
  | large =>
    rw [hz] at hask
    have hn := lt_of_zoneOf_large hz
    have hm : ∀ z, masked (h.pageFlag z) (reqSize n + METASIZE) = false :=
      hi.flags.not_masked_large (by rw [SMALL, METASIZE] at *; omega)
        (by have := hask.2; rw [SIZE_MAX, METASIZE] at *; omega)
    have hfit : ¬ SIZE_MAX - METASIZE < reqSize n := Nat.not_lt.mpr hask.2
    refine ⟨h.touchTable, ?_⟩
    show mallocLarge os _ h = _
    rw [mallocLarge, get_bind, if_pos hask.1, modify_bind, hi.initTable_eq, if_neg hfit,
      toNat_withMetadata hfit,
      bind_error (calculaterPageSize_exit (h := h.touchTable) hpage hc (by omega) hm)]

/-! ## Calls that ask for the page size -/

/-- The call makes a request that asks for the page size. -/
def Call.AsksPage (h : Heap) (call : Call) : Prop :=
  ∃ n, call.Requests h n ∧ h.AsksPage (reqSize n)

theorem Call.impl_sysconf (hi : h.WF pl) (s : Int) (hask : ¬ call.AsksPage h) :
    call.impl os h = call.impl (os.withSysconf s) h := by
  have hmalloc : ∀ {n}, call.Requests h n →
      mallocImpl os n h = mallocImpl (os.withSysconf s) n h :=
    fun hn ↦ mallocImpl_sysconf hi s fun h ↦ hask ⟨_, hn, h⟩
  cases call with
  | malloc n => exact hmalloc (.malloc n)
  | free p => rfl
  | realloc p n =>
    show reallocImpl os p n h = reallocImpl _ p n h
    by_cases hp : p = 0
    · rw [reallocImpl, reallocImpl, if_pos hp, if_pos hp]
      exact hmalloc (.reallocNull hp)
    by_cases hn : n = 0
    · rw [reallocImpl, reallocImpl, if_neg hp, if_neg hp, if_pos hn, if_pos hn]
      rfl
    rcases hi.stray_or_cell p with hstray | ⟨t, c, hc, rfl⟩
    · have hnone := hi.findLiveAllocation_eq_none.mpr hstray
      rw [reallocImpl_none hp hnone, reallocImpl_none hp hnone]
    · rw [reallocImpl_of_cell hi hc hn, reallocImpl_of_cell hi hc hn]
      split
      · rfl
      · rename_i hbig
        exact bind_congr_apply (hmalloc (.reallocMove hc rfl (by omega)))
  | calloc nmemb size =>
    show calloImp os nmemb size h = calloImp _ nmemb size h
    rw [calloImp, calloImp]
    split
    · rfl
    · rename_i hover
      have hfit : nmemb * size ≤ SIZE_MAX := by
        have := mt (overflow_iff nmemb size).mpr hover
        omega
      have hmod : nmemb * size % 2 ^ 64 = nmemb * size :=
        Nat.mod_eq_of_lt (by rw [SIZE_MAX] at hfit; omega)
      rw [hmod]
      exact bind_congr_apply (hmalloc (.calloc hfit))

/-- **A call that asks for the page size exits** when `sysconf` fails. -/
theorem Call.impl_exit_page (hi : h.WF pl) (hpage : os.page = -1#32) (hask : call.AsksPage h) :
    ∃ h', call.impl os h = .error (.exit "return_sc_pagesize") h' := by
  obtain ⟨n, hn, hask⟩ := hask
  obtain ⟨h', hexit⟩ := mallocImpl_exit hi hpage hask
  refine ⟨h', ?_⟩
  cases hn with
  | malloc => exact hexit
  | @calloc nmemb size hfit =>
    have hmod : nmemb * size % 2 ^ 64 = nmemb * size :=
      Nat.mod_eq_of_lt (by rw [SIZE_MAX] at hfit; omega)
    show calloImp os nmemb size h = _
    rw [calloImp, if_neg (mt (overflow_iff nmemb size).mp (by omega)), hmod, bind_error hexit]
  | reallocNull hp =>
    show reallocImpl os _ _ h = _
    rw [reallocImpl, if_pos hp, hexit]
  | reallocMove hc hp hbig =>
    subst hp
    show reallocImpl os _ _ h = _
    rw [reallocImpl_of_cell hi hc (by omega), if_neg (by omega), reallocMove, bind_error hexit]

/-! ## Calls that unmap a LARGE block -/

/-- A request for `n` bytes gets a block. -/
def Heap.Serves (pl : Platform) (os : OS) (h : Heap) (n : Nat) : Prop :=
  match zoneOf n with
  | .pool z =>
    if h.poolFlag z then ¬ Full (h.bitmap z) 100
    else h.pageFlag z = 0#32 ∧ os.answer h.mapped (pl.arenaLen z) ≠ none
  | .large => h.largeCnt < 100 ∧ pl.Fits n ∧ os.answer h.mapped (pl.largeLen n) ≠ none

theorem MallocStep.serves_iff (hm : MallocStep pl os h n r h') : h.Serves pl os n ↔ r ≠ 0 := by
  rw [Heap.Serves]
  cases hm with
  | poolFull hz hopen hfull => simp [hz, hopen, hfull]
  | poolSlot hz hopen hk => simp [hz, hopen, hk.not_full, METASIZE]
  | arenaRefused hz hclosed hflag => simp [hz, hclosed, hflag]
  | arenaFailed hz hclosed _ hno => simp [hz, hclosed, hno]
  | arenaOpened hz hclosed hflag hyes => simp [hz, hclosed, hflag, hyes, METASIZE]
  | tableFull hz hcnt => simp [hz, hcnt]
  | tooLarge hz _ hbig _ => simp [hz, hbig]
  | largeFailed hz _ _ hno => simp [hz, hno]
  | largeOpened hz hcnt hfits hyes _ => simp [hz, hcnt, hfits, hyes, METASIZE]

/-- The call unmaps a LARGE block: `free`, and `realloc` to nothing or to a block elsewhere. -/
def Call.UnmapsLarge (pl : Platform) (os : OS) (h : Heap) (call : Call) : Prop :=
  ∃ i c, h.cell (.large i) = some c ∧
    match call with
    | .free p => p = c.ptr
    | .realloc p n => p = c.ptr ∧ (n = 0 ∨ c.room < n ∧ h.Serves pl os n)
    | _ => False

theorem Call.UnmapsLarge.of_unmaps {i : Nat} {c : Cell} (hi : h.WF pl)
    (hc : h.cell (.large i) = some c) (hun : call.Unmaps pl os h c.ptr) :
    call.UnmapsLarge pl os h := by
  refine ⟨i, c, hc, ?_⟩
  cases hun with
  | free => exact rfl
  | reallocZero => exact ⟨rfl, .inl rfl⟩
  | @reallocMove s d n r h₁ hd hdp hbig hr hm =>
    obtain rfl := hi.ptr_inj hd hc hdp
    obtain rfl := Option.some_inj.mp (hd.symm.trans hc)
    exact ⟨rfl, .inr ⟨hbig, hm.serves_iff.mpr hr⟩⟩

/-- **A call that unmaps a LARGE block exits** when `munmap` fails. -/
theorem Call.impl_exit_munmap (hos : os.On pl) (hi : h.WF pl) (hno : os.munmap = false)
    (hun : call.UnmapsLarge pl os h) :
    ∃ h', call.impl os h = .error (.exit "munmap Fail") h' := by
  obtain ⟨i, c, hc, hun⟩ := hun
  have hfree := freeImpl_exit hi hno hc
  have hp := hi.ptr_ne_zero hc
  cases call with
  | malloc => exact hun.elim
  | calloc => exact hun.elim
  | free p =>
    obtain rfl : p = c.ptr := hun
    exact ⟨_, bind_error hfree _⟩
  | realloc p n =>
    obtain ⟨rfl, rfl | ⟨hbig, hserves⟩⟩ := hun
    · refine ⟨h.failClose i, ?_⟩
      show reallocImpl os _ _ h = _
      rw [reallocImpl, if_neg hp, if_pos rfl, bind_error hfree]
    · obtain ⟨r, h', hrun, hm⟩ := mallocImpl_step hos hi n
      rw [reqSize_eq (by omega)] at hm
      obtain ⟨hrest, hwf, hcs⟩ := reallocMove_copied hi hc hbig (hm.serves_iff.mp hserves) hrun hm
      refine ⟨(h'.copyTo r c.ptr c.size).failClose i, ?_⟩
      show reallocImpl os _ n h = _
      rw [reallocImpl_of_cell hi hc (by omega), if_neg (by omega), hrest,
        bind_error (freeImpl_exit hwf hno hcs)]

/-! ## When a call exits -/

/-- The operating system of the platform, with its answers to one call; `sysconf` is whether it can
tell the page size. -/
def Platform.answers (pl : Platform) (mmap : Option Nat) (munmap sysconf : Bool) : OS :=
  ⟨if sysconf then pl.sysconf else -1, mmap, munmap⟩

/-- One of the two failures happens to a call in the state `h`: it asks for the page size and
`sysconf` fails, or it unmaps a LARGE block and `munmap` fails. -/
def Call.Exits (pl : Platform) (h : Heap) (call : Call) (mmap : Option Nat)
    (munmap sysconf : Bool) :
    Prop :=
  sysconf = false ∧ call.AsksPage h ∨
    munmap = false ∧ call.UnmapsLarge pl (pl.os mmap munmap) h

section Exits

variable {mmap : Option Nat} {munmap sysconf : Bool}

/-- Where `sysconf` is not asked, or does not fail, the platform answers. -/
theorem Call.impl_answers (hi : h.WF pl) (hok : ¬ (sysconf = false ∧ call.AsksPage h)) :
    call.impl (pl.answers mmap munmap sysconf) h = call.impl (pl.os mmap munmap) h := by
  cases sysconf with
  | true => rfl
  | false => exact call.impl_sysconf hi pl.sysconf fun hask ↦ hok ⟨rfl, hask⟩

/-- **A call exits exactly when one of the two failures happens to it**, and otherwise returns in
one of the ways of `CallStep`. -/
theorem Call.impl_exits (hi : h.WF pl) (call : Call) (mmap : Option Nat) (munmap sysconf : Bool) :
    (call.Exits pl h mmap munmap sysconf ∧
      ∃ str h', call.impl (pl.answers mmap munmap sysconf) h = .error (.exit str) h') ∨
    (¬ call.Exits pl h mmap munmap sysconf ∧
      ∃ r h', call.impl (pl.answers mmap munmap sysconf) h = .ok r h' ∧
        CallStep pl (pl.os mmap munmap) h call r h') := by
  by_cases hpage : sysconf = false ∧ call.AsksPage h
  · obtain ⟨rfl, hask⟩ := hpage
    have hpage : (pl.answers mmap munmap false).page = -1#32 := rfl
    obtain ⟨h', hrun⟩ := call.impl_exit_page hi hpage hask
    exact .inl ⟨.inl ⟨rfl, hask⟩, _, h', hrun⟩
  rw [call.impl_answers hi hpage]
  have hos := pl.os_on mmap munmap
  by_cases hun : munmap = false ∧ call.UnmapsLarge pl (pl.os mmap munmap) h
  · obtain ⟨h', hrun⟩ := call.impl_exit_munmap hos hi hun.1 hun.2
    exact .inl ⟨.inr hun, _, h', hrun⟩
  · rcases call.impl_step hos hi with hret | ⟨i, c, h', hno, hc, hu, -⟩
    · exact .inr ⟨fun hex ↦ hex.elim hpage hun, hret⟩
    · exact absurd ⟨hno, .of_unmaps hi hc hu⟩ hun

end Exits

/-! ## The mutex -/

/-- Whatever becomes of `x`, it leaves the mutex alone; and it gives up by `exit` only. -/
def KeepsMutex {α : Type} (x : M α) : Prop :=
  ∀ h, match x h with
    | .ok _ h' => h'.mutex = h.mutex
    | .error e h' => h'.mutex = h.mutex ∧ ∃ str, e = .exit str

namespace KeepsMutex

variable {α β : Type} {x y : M α} {f : α → M β}

theorem pure (a : α) : KeepsMutex (pure a) := fun _ ↦ rfl

theorem printError (str : String) : KeepsMutex (printError str : M α) := fun _ ↦ ⟨rfl, str, rfl⟩

theorem modify {g : Heap → Heap} (hg : ∀ h, (g h).mutex = h.mutex) :
    KeepsMutex (modify g : M PUnit) := hg

theorem bind (hx : KeepsMutex x) (hf : ∀ a, KeepsMutex (f a)) : KeepsMutex (x >>= f) := by
  intro h
  rw [bind_apply]
  have hxh := hx h
  cases hrun : x h with
  | ok a h' =>
    rw [hrun] at hxh
    have hfh := hf a h'
    simp only at hxh ⊢
    split <;> rename_i hf' <;> rw [hf'] at hfh
    · exact hfh.trans hxh
    · exact ⟨hfh.1.trans hxh, hfh.2⟩
  | error e h' =>
    rw [hrun] at hxh
    exact hxh

theorem get_bind {f : Heap → M β} (hf : ∀ h, KeepsMutex (f h)) : KeepsMutex (get >>= f) :=
  fun h ↦ hf h h

theorem ite {c : Prop} [Decidable c] (hx : KeepsMutex x) (hy : KeepsMutex y) :
    KeepsMutex (if c then x else y) := by
  split
  · exact hx
  · exact hy

/-- To leave the mutex alone is closed under all that the code does. -/
theorem rules (os : OS) : CallRules os os fun x _ ↦ KeepsMutex x where
  pure := pure
  printError := printError
  bind := bind
  get_bind _ hf := get_bind hf
  modify hg := modify hg.mutex
  mmap len := by
    refine get_bind fun h ↦ ?_
    split
    · exact bind (modify fun _ ↦ rfl) fun _ ↦ pure _
    · exact bind (modify fun _ ↦ rfl) fun _ ↦ pure _
  munmap _ _ := bind (modify fun _ ↦ rfl) fun _ ↦ pure _
  returnScPagesize := by
    refine get_bind fun h ↦ ite (ite (printError _) ?_) (get_bind fun _ ↦ pure _)
    exact bind (modify fun _ ↦ rfl) fun _ ↦ get_bind fun _ ↦ pure _

/-- **No call touches the mutex between `lock` and `unlock`**, whichever way it leaves. -/
theorem impl (os : OS) (call : Call) : KeepsMutex (call.impl os) := (rules os).impl call

end KeepsMutex

/-- A call that does not come back has called `exit`, with the mutex as it was. -/
theorem Call.impl_error {e : Halt} (hrun : call.impl os h = .error e h') :
    h'.mutex = h.mutex ∧ ∃ str, e = .exit str := by
  have hkeep := KeepsMutex.impl os call h
  rw [hrun] at hkeep
  exact hkeep

end FtMalloc
