import FtMalloc.Realloc

/-!
# What a public call does

`CallocStep` adds the overflow check and the fill of `callo_imp` to `MallocStep`, and `CallStep`
puts the four implementations side by side.  `Call.impl_step` and `Call.run_step` are what the rest
of the development uses instead of the code: on a well-formed state a call returns in one of the
ways of `CallStep`, or it has to unmap a LARGE block and `munmap` fails.
-/

set_option autoImplicit false

namespace FtMalloc

open ByteMemory CharMap

variable {pl : Platform} {os : OS} {h h' : Heap} {p n r : Nat} {s t : Slot} {c : Cell}

/-! ## `callo_imp` -/

/-- The state once `callo_imp` has cleared the block. -/
def Heap.zero (h : Heap) (ptr len : Nat) : Heap := { h with mem := fill h.mem ptr len 0#8 }

/-- The ways `callo_imp(nmemb, size)` comes back. -/
inductive CallocStep (pl : Platform) (os : OS) (h : Heap) (nmemb size : Nat) : Nat → Heap → Prop
  /-- The product does not fit a `size_t`. -/
  | overflow (hover : SIZE_MAX < nmemb * size) : CallocStep pl os h nmemb size 0
      { h with errno := ENOMEM }
  /-- There is no block to be had. -/
  | failed {h' : Heap} (hfit : nmemb * size ≤ SIZE_MAX)
      (hm : MallocStep pl os h (reqSize (nmemb * size)) 0 h') : CallocStep pl os h nmemb size 0 h'
  /-- The block is cleared. -/
  | zeroed {r : Nat} {h₁ : Heap} (hfit : nmemb * size ≤ SIZE_MAX) (hr : r ≠ 0)
      (hm : MallocStep pl os h (reqSize (nmemb * size)) r h₁) :
      CallocStep pl os h nmemb size r (h₁.zero r (nmemb * size))

/-- The overflow check of `callo_imp` is exact. -/
theorem overflow_iff (nmemb size : Nat) :
    (nmemb ≠ 0 ∧ SIZE_MAX / nmemb < size) ↔ SIZE_MAX < nmemb * size := by
  constructor
  · rintro ⟨hn, hlt⟩
    have h := (Nat.div_lt_iff_lt_mul (Nat.pos_of_ne_zero hn)).mp hlt
    rwa [Nat.mul_comm] at h
  · intro hlt
    have hn : nmemb ≠ 0 := by
      rintro rfl
      rw [Nat.zero_mul] at hlt
      exact absurd hlt (Nat.not_lt_zero _)
    rw [Nat.mul_comm] at hlt
    exact ⟨hn, (Nat.div_lt_iff_lt_mul (Nat.pos_of_ne_zero hn)).mpr hlt⟩

/-- When the product fits, `callo_imp` answers what `malloc_impl` does, and clears the block. -/
theorem calloImp_of_fits {nmemb size : Nat} {h₁ : Heap} (hfit : nmemb * size ≤ SIZE_MAX)
    (hrun : mallocImpl os (nmemb * size) h = .ok r h₁) : calloImp os nmemb size h
      = .ok r (if r = 0 then h₁ else h₁.zero r (nmemb * size)) := by
  have hmod : nmemb * size % 2 ^ 64 = nmemb * size := by
    refine Nat.mod_eq_of_lt ?_
    rw [SIZE_MAX] at hfit
    omega
  rw [calloImp, if_neg (mt (overflow_iff nmemb size).mp (by omega)), hmod, bind_ok hrun]
  by_cases hr : r = 0
  · simp [hr]
  · simp only [hr, ne_eq, not_false_eq_true, if_true, ftMemset_eq_fill, modify_bind, pure_apply]
    rfl

/-- **`callo_imp` always returns**, in one of the ways of `CallocStep`. -/
theorem calloImp_step (hos : os.On pl) (hi : h.WF pl) (nmemb size : Nat) :
    ∃ r h', calloImp os nmemb size h = .ok r h' ∧ CallocStep pl os h nmemb size r h' := by
  by_cases hover : SIZE_MAX < nmemb * size
  · refine ⟨0, _, ?_, .overflow hover⟩
    rw [calloImp, if_pos ((overflow_iff nmemb size).mpr hover), modify_bind, pure_apply]
  · have hfit : nmemb * size ≤ SIZE_MAX := by omega
    obtain ⟨r, h₁, hrun, hm⟩ := mallocImpl_step hos hi (nmemb * size)
    rw [calloImp_of_fits hfit hrun]
    by_cases hr : r = 0
    · subst hr
      exact ⟨0, h₁, by rw [if_pos rfl], .failed hfit hm⟩
    · exact ⟨r, _, by rw [if_neg hr], .zeroed hfit hr hm⟩

/-- Clearing the front of a payload keeps the state well formed, with its cells and all other
payloads. -/
theorem Heap.WF.zero (hi : h.WF pl) (hc : h.cell s = some c) {k : Nat} (hk : k ≤ c.room) :
    (h.zero c.ptr k).WF pl ∧ (h.zero c.ptr k).cell = h.cell ∧
      ∀ t d, h.cell t = some d → t ≠ s → Agree h.mem (fill h.mem c.ptr k 0#8) d.ptr d.room :=
  hi.of_cell_payload hc fun a j hap ↦ by
    simp only [Region.Apart, Cell.payload] at hap
    exact agree_fill 0#8 (by omega)

/-- A block that was cleared: what `callo_imp` has done to the cells and to memory. -/
theorem MallocStep.zero_effect {k : Nat} {h₁ : Heap} (hi : h.WF pl) (hr : r ≠ 0)
    (hm : MallocStep pl os h (reqSize k) r h₁) :
    ∃ s c, h.cell s = none ∧ s.zone = zoneOf (reqSize k) ∧ c.ptr = r ∧ c.size = reqSize k ∧
      h.Becomes pl (Function.update h.cell s (some c)) (h₁.zero r k) ∧
      (h₁.zero r k).cell = h₁.cell ∧ ∀ i < k, (h₁.zero r k).mem (r + i) = 0#8 := by
  rcases hm.effect hi (reqSize_pos _) with ⟨h0, -⟩ | ⟨s, c, -, hfree, hz, rfl, hsz, hb⟩
  · exact absurd h0 hr
  have hcs : h₁.cell s = some c := by rw [hb.cell, Function.update_self]
  have hle : k ≤ c.room := by
    have hcr := (hb.wf.cell_size_le hcs).2
    have hreq := le_reqSize k
    omega
  obtain ⟨hwf, hcell, hkeep⟩ := hb.wf.zero hcs hle
  refine ⟨s, c, hfree, hz, rfl, hsz, ⟨hwf, hcell.trans hb.cell, fun t d hd ↦ ?_⟩, hcell,
    fun i hik ↦ ?_⟩
  · have hts : t ≠ s := by
      rintro rfl
      exact absurd (hfree.symm.trans hd) (by simp)
    refine (hb.payloads t d hd).trans (hkeep t d ?_ hts)
    rw [hb.cell, Function.update_of_ne hts, hd]
  · show fill h₁.mem c.ptr k 0#8 (c.ptr + i) = 0#8
    rw [fill, if_pos (by omega)]

/-! ## The public calls -/

/-- The ways a call comes back. -/
inductive CallStep (pl : Platform) (os : OS) (h : Heap) : Call → Nat → Heap → Prop
  | malloc {n r : Nat} {h' : Heap} (hm : MallocStep pl os h (reqSize n) r h') :
      CallStep pl os h (.malloc n) r h'
  | free {p : Nat} {h' : Heap} (hf : FreeStep h p h') : CallStep pl os h (.free p) 0 h'
  | realloc {p n r : Nat} {h' : Heap} (hr : ReallocStep pl os h p n r h') :
      CallStep pl os h (.realloc p n) r h'
  | calloc {nmemb size r : Nat} {h' : Heap} (hc : CallocStep pl os h nmemb size r h') :
      CallStep pl os h (.calloc nmemb size) r h'

/-- The call makes `free_impl` unmap the LARGE block at `p`. -/
inductive Call.Unmaps (pl : Platform) (os : OS) (h : Heap) (p : Nat) : Call → Prop
  | free : Call.Unmaps pl os h p (.free p)
  | reallocZero : Call.Unmaps pl os h p (.realloc p 0)
  | reallocMove {s : Slot} {c : Cell} {n r : Nat} {h₁ : Heap} (hc : h.cell s = some c)
      (hp : c.ptr = p) (hbig : c.room < n) (hr : r ≠ 0) (hm : MallocStep pl os h n r h₁) :
      Call.Unmaps pl os h p (.realloc p n)

/-- **A call returns** in one of the ways of `CallStep`, unless it has to unmap a LARGE block and
`munmap` fails. -/
theorem Call.impl_step (hos : os.On pl) (hi : h.WF pl) (call : Call) :
    (∃ r h', call.impl os h = .ok r h' ∧ CallStep pl os h call r h') ∨
      ∃ i c h', os.munmap = false ∧ h.cell (.large i) = some c ∧ call.Unmaps pl os h c.ptr ∧
        call.impl os h = .error (.exit "munmap Fail") h' := by
  cases call with
  | malloc n =>
    obtain ⟨r, h', hrun, hm⟩ := mallocImpl_step hos hi n
    exact .inl ⟨r, h', hrun, .malloc hm⟩
  | free p =>
    rcases freeImpl_step os hi p with ⟨h', hrun, hf⟩ | ⟨i, c, hno, hc, rfl, hrun⟩
    · exact .inl ⟨0, h', by rw [Call.impl, bind_ok hrun, pure_apply], .free hf⟩
    · exact .inr ⟨i, c, _, hno, hc, .free, by rw [Call.impl, bind_error hrun]⟩
  | realloc p n =>
    rcases reallocImpl_step hos hi p n with ⟨r, h', hrun, hr⟩ |
      ⟨i, c, h', hno, hc, rfl, rfl | ⟨hbig, r, h₁, hr, -, hm⟩, hrun⟩
    · exact .inl ⟨r, h', hrun, .realloc hr⟩
    · exact .inr ⟨i, c, h', hno, hc, .reallocZero, hrun⟩
    · exact .inr ⟨i, c, h', hno, hc, .reallocMove hc rfl hbig hr hm, hrun⟩
  | calloc nmemb size =>
    obtain ⟨r, h', hrun, hc⟩ := calloImp_step hos hi nmemb size
    exact .inl ⟨r, h', hrun, .calloc hc⟩

/-! ## Requests -/

/-- The call has `malloc_impl` look for a block of `n` bytes. -/
inductive Call.Requests (h : Heap) : Call → Nat → Prop
  | malloc (n : Nat) : Call.Requests h (.malloc n) n
  | calloc {nmemb size : Nat} (hfit : nmemb * size ≤ SIZE_MAX) :
      Call.Requests h (.calloc nmemb size) (nmemb * size)
  | reallocNull {p n : Nat} (hp : p = 0) : Call.Requests h (.realloc p n) n
  | reallocMove {s : Slot} {c : Cell} {p n : Nat} (hc : h.cell s = some c) (hp : c.ptr = p)
      (hbig : c.room < n) : Call.Requests h (.realloc p n) n

/-- A call makes one request at most. -/
theorem Call.Requests.unique {call : Call} {k : Nat} (hn : call.Requests h n)
    (hk : call.Requests h k) : n = k := by
  cases hn <;> cases hk <;> rfl

/-- The two states have the same arenas. -/
structure Heap.SameArenas (h h' : Heap) : Prop where
  base : h'.base = h.base
  poolFlag : h'.poolFlag = h.poolFlag
  pageFlag : h'.pageFlag = h.pageFlag

theorem Heap.SameArenas.refl (h : Heap) : h.SameArenas h := ⟨rfl, rfl, rfl⟩

/-- The call, when its answer is `r`, hands the block at `p` to `free_impl`. -/
inductive Call.Frees (r : Nat) : Call → Nat → Prop
  | free (p : Nat) : Call.Frees r (.free p) p
  | reallocZero {p : Nat} (hp : p ≠ 0) : Call.Frees r (.realloc p 0) p
  | reallocMove {p n : Nat} (hp : p ≠ 0) (hr : r ≠ 0) : Call.Frees r (.realloc p n) p

/-- What a call does besides its request, from `h` to `h'`: it makes no system call, or it unmaps a
LARGE block it frees.  The block is one of `h₀`, the state the call found. -/
inductive Heap.Finishes (h₀ : Heap) (call : Call) (r : Nat) (h h' : Heap) : Prop
  | quiet (harenas : h.SameArenas h') (hmapped : h'.mapped = h.mapped) (hcalls : h'.calls = h.calls)
  | unmaps {i : Nat} {c : Cell} (hc : h₀.cell (.large i) = some c) (hp : call.Frees r c.ptr)
      (harenas : h.SameArenas h')
      (hmapped : h'.mapped = h.mapped.filter (· ≠ h₀.extent (.large i)))
      (hcalls : h'.calls
        = .munmap (h₀.extent (.large i)).base (h₀.extent (.large i)).len true :: h.calls)

theorem Heap.Finishes.sameArenas {h₀ : Heap} {call : Call} (hf : h₀.Finishes call r h h') :
    h.SameArenas h' := by
  cases hf <;> assumption

theorem Heap.Finishes.refl (h₀ : Heap) (call : Call) (r : Nat) (h : Heap) :
    h₀.Finishes call r h h := .quiet (.refl h) rfl rfl

theorem FreeStep.finishes {call : Call} (hi : h.WF pl) (hp : call.Frees r p)
    (hf : FreeStep h p h') : h.Finishes call r h h' := by
  cases hf with
  | stray => exact .refl h call r h
  | pool => exact .quiet ⟨rfl, rfl, rfl⟩ rfl rfl
  | large hc hcp =>
    subst hcp
    exact .unmaps hc hp ⟨rfl, rfl, rfl⟩ (hi.punch_large (Heap.taken_of_cell hc)) rfl

/-- The extent of a cell is known by the cell. -/
theorem Heap.WF.extent_eq_of_cell {h₁ : Heap} (hi : h.WF pl) (hi₁ : h₁.WF pl)
    (hc : h.cell s = some c) (hc₁ : h₁.cell s = some c) : h₁.extent s = h.extent s := by
  obtain ⟨hp, hr⟩ := hi.extent_of_cell hc
  obtain ⟨hp₁, hr₁⟩ := hi₁.extent_of_cell hc₁
  cases he : h.extent s
  cases he₁ : h₁.extent s
  rw [he] at hp hr
  rw [he₁] at hp₁ hr₁
  simp only at hp hr hp₁ hr₁
  rw [Region.mk.injEq]
  omega

/-- The end of a `realloc_impl` that moves a block. -/
theorem ReallocStep.moved_finishes {h₁ : Heap} (hi : h.WF pl)
    (hc : h.cell s = some c) (hbig : c.room < n) (hr : r ≠ 0) (hm : MallocStep pl os h n r h₁)
    (hf : FreeStep (h₁.copyTo r c.ptr c.size) c.ptr h') :
    h.Finishes (.realloc c.ptr n) r h₁ h' := by
  obtain ⟨s', c', hne, -, -, rfl, -, hle, hb, hcs, hcs', -⟩ := hm.copy_spec hi hc hbig hr
  have hcr := (hi.cell_size_le hc).2
  obtain ⟨hwf, hcell, -⟩ := hb.wf.copyTo hcs' (by omega : c.size ≤ c'.room) c.ptr
  cases hf with
  | stray hstray => exact absurd rfl (hstray s c (by rw [hcell, hcs]))
  | pool => exact .quiet ⟨rfl, rfl, rfl⟩ rfl rfl
  | @large i d hd hdp =>
    -- the block that is unmapped is the one that was found
    have hd₁ : h₁.cell (.large i) = some d := hcell ▸ hd
    obtain rfl := hb.wf.ptr_inj hd₁ hcs hdp
    obtain rfl : d = c := Option.some_inj.mp (hd₁.symm.trans hcs)
    have hext := hi.extent_eq_of_cell hwf hc hd
    refine .unmaps hc (.reallocMove (hi.ptr_ne_zero hc) hr) ⟨rfl, rfl, rfl⟩ ?_ ?_
    · rw [← hext]
      exact hwf.punch_large (Heap.taken_of_cell hd)
    · rw [← hext]
      rfl

/-- **A call makes its request, or it makes none**; what else it does is `Heap.Finishes`. -/
theorem CallStep.request {call : Call} (hi : h.WF pl)
    (hstep : CallStep pl os h call r h') :
    (∃ n h₁, call.Requests h n ∧ MallocStep pl os h (reqSize n) r h₁ ∧
        h.Finishes call r h₁ h') ∨
      (∀ n, ¬ call.Requests h n) ∧ h.Finishes call r h h' := by
  cases hstep with
  | malloc hm => exact .inl ⟨_, _, .malloc _, hm, .refl _ _ _ _⟩
  | free hf => exact .inr ⟨fun n hn ↦ (nomatch hn), hf.finishes hi (.free _)⟩
  | realloc hr =>
    cases hr with
    | null hp hm => exact .inl ⟨_, _, .reallocNull hp, hm, .refl _ _ _ _⟩
    | free hp hn hf =>
      subst hn
      refine .inr ⟨fun k hk ↦ ?_, hf.finishes hi (.reallocZero hp)⟩
      cases hk with
      | reallocNull h0 => exact hp h0
      | reallocMove _ _ hbig => omega
    | stray hp _ hstray =>
      refine .inr ⟨fun k hk ↦ ?_, .refl _ _ _ _⟩
      cases hk with
      | reallocNull h0 => exact hp h0
      | reallocMove hc hcp _ => exact hstray _ _ hc hcp
    | @inPlace s c _ hc hp hfit =>
      refine .inr ⟨fun k hk ↦ ?_, by cases s <;> exact .quiet ⟨rfl, rfl, rfl⟩ rfl rfl⟩
      cases hk with
      | reallocNull h0 => exact hi.ptr_ne_zero hc (hp.trans h0)
      | reallocMove hd hdp hbig =>
        obtain rfl := hi.ptr_inj hc hd (hp.trans hdp.symm)
        rw [hc, Option.some_inj] at hd
        subst hd
        omega
    | failed hc hp hbig hm =>
      refine .inl ⟨_, _, .reallocMove hc hp hbig, ?_, .refl _ _ _ _⟩
      rw [reqSize_eq (Nat.ne_of_gt (Nat.zero_lt_of_lt hbig))]
      exact hm
    | @moved s c _ h₁ _ hc hp hbig hr hm hf =>
      subst hp
      refine .inl ⟨_, h₁, .reallocMove hc rfl hbig, ?_,
        ReallocStep.moved_finishes hi hc hbig hr hm hf⟩
      rw [reqSize_eq (Nat.ne_of_gt (Nat.zero_lt_of_lt hbig))]
      exact hm
  | calloc hc =>
    cases hc with
    | overflow hover =>
      refine .inr ⟨fun k hk ↦ ?_, .quiet ⟨rfl, rfl, rfl⟩ rfl rfl⟩
      cases hk with
      | calloc hfit => omega
    | failed hfit hm => exact .inl ⟨_, _, .calloc hfit, hm, .refl _ _ _ _⟩
    | zeroed hfit _ hm => exact .inl ⟨_, _, .calloc hfit, hm, .quiet ⟨rfl, rfl, rfl⟩ rfl rfl⟩

/-! ## The frame -/

theorem MallocStep.keepsPayloads (hi : h.WF pl) (hn : 0 < n)
    (hm : MallocStep pl os h n r h') : h.KeepsPayloads h' := by
  rcases hm.effect hi hn with ⟨-, hb⟩ | ⟨s, c, -, -, -, -, -, hb⟩
  · exact hb.payloads
  · exact hb.payloads

/-- The memory of every slot that is handed out, the header and all of the room, reads the same in
`h'` as in `h`. -/
def Heap.KeepsExtents (h h' : Heap) : Prop :=
  ∀ s, h.Taken s → Agree h.mem h'.mem (h.extent s).base (h.extent s).len

/-- Recording a size in the header of a free slot leaves the slots alone that are handed out. -/
theorem Heap.keepsExtents_takeSlot (hi : h.WF pl) {z : Pool} {k : Nat} (n : Nat)
    (ht : h.Exists (.pool z k)) (hfree : ¬ h.Taken (.pool z k)) :
    h.KeepsExtents (h.takeSlot z k n) := by
  intro s hs
  have hne : s ≠ .pool z k := by
    rintro rfl
    exact hfree hs
  have hap := hi.extent_apart (hi.exists_of_taken hs) ht hne
  have hz := z.stride_bounds
  simp only [Region.Apart, Heap.extent, METASIZE] at hap hz
  exact agree_setMetaClientSize n (by simp only [Heap.extent]; omega)

/-- **`malloc_impl` writes to no slot that is handed out**, not even to its header. -/
theorem MallocStep.keepsExtents (hi : h.WF pl) (hm : MallocStep pl os h n r h') :
    h.KeepsExtents h' := by
  have hsame : ∀ {h₂ : Heap}, h₂.mem = h.mem → h.KeepsExtents h₂ :=
    fun e s _ ↦ e ▸ Agree.refl h.mem _ _
  cases hm with
  | poolFull | arenaRefused | tableFull => exact hsame rfl
  | arenaFailed => exact hsame rfl
  | tooLarge _ _ _ hh' => rcases hh' with rfl | rfl <;> exact hsame rfl
  | largeFailed => exact hsame rfl
  | @poolSlot z k _ hopen hk =>
    exact Heap.keepsExtents_takeSlot hi n ⟨hopen, hk.1⟩ (by simp [Heap.Taken, hk.2.1])
  | @arenaOpened z ptr _ hclosed hflag hyes =>
    intro s hs
    have hg := OS.answer_eq_some hyes
    have hap := hi.extent_apart_of_mapped hg.2.2.2.2 (hi.exists_of_taken hs)
    have hlen := pl.arenaLen_ge z
    have hz := z.stride_bounds
    have haddr : (h.openArena pl z ptr).slotAddr z 0 = ptr := by
      simp [Heap.slotAddr, Heap.openArena]
    have hmem : ((h.openArena pl z ptr).takeSlot z 0 n).mem
        = setMetaClientSize (initHeaders ptr z.stride 100 (fill h.mem ptr (pl.arenaLen z) 0#8))
          ptr n := by
      rw [Heap.takeSlot, haddr]
      rfl
    simp only [Region.Apart, METASIZE] at hap hz
    have hhdr : Agree (fill h.mem ptr (pl.arenaLen z) 0#8)
        (initHeaders ptr z.stride 100 (fill h.mem ptr (pl.arenaLen z) 0#8)) (h.extent s).base
        (h.extent s).len := agree_initHeaders (Nat.le_of_lt hz.1) 100 (by omega)
    rw [hmem]
    exact ((agree_fill 0#8 hap).trans hhdr).trans (agree_setMetaClientSize n (by omega))
  | largeOpened hz _ _ hyes _ =>
    intro s hs
    have hg := OS.answer_eq_some hyes
    have hlen := pl.largeLen_ge n
    exact agree_largeMem (by omega) (hi.extent_apart_of_mapped hg.2.2.2.2 (hi.exists_of_taken hs))

/-- **No call changes a byte of a payload that was live before it**, its own argument's included. -/
theorem CallStep.keepsPayloads {call : Call} (hi : h.WF pl)
    (hstep : CallStep pl os h call r h') : h.KeepsPayloads h' := by
  have hsame : ∀ {h₂ : Heap}, h₂.mem = h.mem → h.KeepsPayloads h₂ :=
    fun e _ c _ ↦ e ▸ Agree.refl h.mem c.ptr c.room
  cases hstep with
  | malloc hm => exact hm.keepsPayloads hi (reqSize_pos _)
  | free hf => exact hsame hf.mem
  | realloc hr =>
    cases hr with
    | null _ hm => exact hm.keepsPayloads hi (reqSize_pos _)
    | free _ _ hf => exact hsame hf.mem
    | stray => exact .refl h
    | inPlace _ hc =>
      exact Heap.keepsPayloads_record hi (hi.exists_of_taken (Heap.taken_of_cell hc)) _
    | failed _ _ hbig hm => exact hm.keepsPayloads hi (by omega)
    | moved hc hp hbig hr hm hf =>
      subst hp
      obtain ⟨_, _, -, -, -, -, -, -, -, hkeep, -⟩ :=
        ReallocStep.moved_effect hi hc hbig hr hm hf
      exact hkeep
  | calloc hc =>
    cases hc with
    | overflow => exact .refl h
    | failed _ hm => exact hm.keepsPayloads hi (reqSize_pos _)
    | zeroed _ hr hm =>
      obtain ⟨_, _, -, -, -, -, hb, -, -⟩ := hm.zero_effect hi hr
      exact hb.payloads

/-! ## The mutex -/

/-- The state while thread `self` is inside a public call. -/
def Heap.lock (h : Heap) (self : Nat) : Heap := { h with mutex := some self }

/-- The state after `manage_free_mutex_unlock`. -/
def Heap.unlock (h : Heap) : Heap := { h with mutex := none }

theorem Heap.WF.lock (hi : h.WF pl) (self : Nat) : (h.lock self).WF pl := hi.setMutex _

theorem Heap.WF.unlock (hi : h.WF pl) : h.unlock.WF pl := hi.setMutex _

/-- Who holds the mutex does not matter for what a call requests. -/
theorem Call.requests_lock {call : Call} {self : Nat} :
    call.Requests (h.lock self) n ↔ call.Requests h n := by
  constructor <;> intro hn <;> cases hn with
  | malloc => exact .malloc _
  | calloc hfit => exact .calloc hfit
  | reallocNull hp => exact .reallocNull hp
  | reallocMove hc hp hbig => exact .reallocMove hc hp hbig

theorem manageFreeMutexLock_free (self : Nat) (hfree : h.mutex = none) :
    manageFreeMutexLock self h = .ok ⟨⟩ (h.lock self) := by
  rw [manageFreeMutexLock, get_bind, hfree]
  rfl

/-- What a body between `lock` and `unlock` comes to. -/
theorem locked_apply (x : M Nat) (self : Nat) (hfree : h.mutex = none) :
    (do manageFreeMutexLock self; let r ← x; manageFreeMutexUnlock; return r : M Nat) h
      = match x (h.lock self) with
        | .ok r h' => .ok r h'.unlock
        | .error e h' => .error e h' := by
  rw [bind_ok (manageFreeMutexLock_free self hfree), bind_apply]
  cases x (h.lock self) <;> rfl

/-- A public call is its implementation between `lock` and `unlock`. -/
theorem Call.run_eq (call : Call) (self : Nat) (hfree : h.mutex = none) :
    call.run os self h = match call.impl os (h.lock self) with
      | .ok r h' => .ok r h'.unlock
      | .error e h' => .error e h' := by
  cases call with
  | malloc n => exact locked_apply _ self hfree
  | free p =>
    rw [Call.run, ftFree, bind_assoc, bind_ok (manageFreeMutexLock_free self hfree), Call.impl,
      bind_assoc, bind_apply, bind_apply]
    cases freeImpl os p (h.lock self) <;> rfl
  | realloc p n => exact locked_apply _ self hfree
  | calloc nmemb size => exact locked_apply _ self hfree

/-- **A public call that finds the mutex free** takes it, does what `CallStep` says, and gives it
back. -/
theorem Call.run_step (hos : os.On pl) (hi : h.WF pl) (hfree : h.mutex = none) (call : Call)
    (self : Nat) (hrun : call.run os self h = .ok r h') :
    ∃ h₁, CallStep pl os (h.lock self) call r h₁ ∧ h' = h₁.unlock := by
  rw [call.run_eq self hfree] at hrun
  rcases call.impl_step hos (hi.lock self) with ⟨r₁, h₁, himpl, hstep⟩ |
    ⟨i, c, h₁, -, -, -, himpl⟩
  · rw [himpl] at hrun
    cases hrun
    exact ⟨h₁, hstep, rfl⟩
  · rw [himpl] at hrun
    cases hrun

end FtMalloc
