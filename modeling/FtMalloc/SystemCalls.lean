import FtMalloc.Threads

/-!
# The system calls of a call

A call makes at most two system calls: an `mmap` for its request (`Heap.Fetches`), and a `munmap`
for a LARGE block it frees (`Heap.Finishes`).  `CallStep.traffic` says so, and what each of the two
does to the mappings, the arenas and the log `Heap.calls` is said in the lemmas of the two.

`Outstanding` reads the mappings that were made and not given back off a log; a log has none when it
gives back anything else than exactly one of them.  `Step.outstanding` is the step lemma: what is
mapped is what the log says.
-/

set_option autoImplicit false

namespace FtMalloc

variable {pl : Platform} {os : OS} {h h' : Heap} {w w' : World} {a : Action} {n r : Nat}
  {call : Call} {p : Region}

/-! ## The log -/

/-- The mappings `rs` were made by the calls of a log, most recent first, and not given back.  Each
`munmap` gives back exactly one of those there were. -/
inductive Outstanding : List Syscall → List Region → Prop
  | nil : Outstanding [] []
  | mmap {log : List Syscall} {rs : List Region} {len q : Nat} (hlog : Outstanding log rs)
      (hnew : ⟨q, len⟩ ∉ rs) : Outstanding (.mmap len (some q) :: log) (⟨q, len⟩ :: rs)
  | refused {log : List Syscall} {rs : List Region} {len : Nat} (hlog : Outstanding log rs) :
      Outstanding (.mmap len none :: log) rs
  | munmap {log : List Syscall} {rs : List Region} {q len : Nat} (hlog : Outstanding log rs)
      (hmem : ⟨q, len⟩ ∈ rs) :
      Outstanding (.munmap q len true :: log) (rs.filter (· ≠ ⟨q, len⟩))

/-- The system calls of a request for `n` bytes that is answered by `r`. -/
inductive Heap.Fetches (pl : Platform) (h : Heap) (n r : Nat) (h' : Heap) : Prop
  | quiet (harenas : h.SameArenas h') (hmapped : h'.mapped = h.mapped) (hcalls : h'.calls = h.calls)
  | refused {len : Nat} (hr : r = 0) (hz : ∀ z, zoneOf n = .pool z → h.poolFlag z = false)
      (hflags : h'.poolFlag = h.poolFlag) (hbase : ∀ z, h.poolFlag z = true → h'.base z = h.base z)
      (hmapped : h'.mapped = h.mapped) (hcalls : h'.calls = .mmap len none :: h.calls)
  | arena {z : Pool} {q : Nat} (hr : r ≠ 0) (hz : zoneOf n = .pool z)
      (hclosed : h.poolFlag z = false)
      (hflags : h'.poolFlag = Function.update h.poolFlag z true)
      (hbase : h'.base = Function.update h.base z q)
      (hap : ∀ p ∈ h.mapped, p.Apart ⟨q, pl.arenaLen z⟩)
      (hmapped : h'.mapped = ⟨q, pl.arenaLen z⟩ :: h.mapped)
      (hcalls : h'.calls = .mmap (pl.arenaLen z) (some q) :: h.calls)
  | block {q : Nat} (hr : r = q + METASIZE) (hz : zoneOf n = .large) (harenas : h.SameArenas h')
      (hap : ∀ p ∈ h.mapped, p.Apart ⟨q, pl.largeLen n⟩)
      (hmapped : h'.mapped = ⟨q, pl.largeLen n⟩ :: h.mapped)
      (hcalls : h'.calls = .mmap (pl.largeLen n) (some q) :: h.calls)

/-- A system call that is made for a request. -/
inductive Heap.Fetched (pl : Platform) (h : Heap) (n r : Nat) (h₁ : Heap) : Syscall → Prop
  | refused (len : Nat) : Heap.Fetched pl h n r h₁ (.mmap len none)
  | arena {z : Pool} {q : Nat} (hr : r ≠ 0) (hclosed : h.poolFlag z = false)
      (hopen : h₁.poolFlag z = true) (hq : h₁.base z = q) :
      Heap.Fetched pl h n r h₁ (.mmap (pl.arenaLen z) (some q))
  | block {q : Nat} (hr : r = q + METASIZE) (hz : zoneOf n = .large) (harenas : h.SameArenas h₁)
      (hap : ∀ p ∈ h.mapped, p.Apart ⟨q, pl.largeLen n⟩) (hmem : ⟨q, pl.largeLen n⟩ ∈ h₁.mapped) :
      Heap.Fetched pl h n r h₁ (.mmap (pl.largeLen n) (some q))

theorem MallocStep.fetches (hm : MallocStep pl os h n r h') : h.Fetches pl n r h' := by
  have hpos : ∀ {p}, p + METASIZE ≠ 0 := by
    rw [METASIZE]
    omega
  have hclosed_of : ∀ {z : Pool}, zoneOf n = .pool z → h.poolFlag z = false →
      ∀ y, zoneOf n = .pool y → h.poolFlag y = false := by
    intro z hz hclosed y hy
    obtain rfl := Zone.pool.inj (hz.symm.trans hy)
    exact hclosed
  cases hm with
  | poolFull => exact .quiet (.refl h) rfl rfl
  | poolSlot => exact .quiet ⟨rfl, rfl, rfl⟩ rfl rfl
  | arenaRefused => exact .quiet (.refl h) rfl rfl
  | @arenaFailed z hz hclosed hflag hno =>
    refine .refused rfl (hclosed_of hz hclosed) rfl (fun y hy ↦ ?_) rfl rfl
    have hyz : y ≠ z := by
      rintro rfl
      exact absurd (hclosed.symm.trans hy) (by decide)
    exact Function.update_of_ne hyz _ _
  | arenaOpened hz hclosed hflag hyes =>
    exact .arena hpos hz hclosed rfl rfl (OS.answer_eq_some hyes).2.2.2.2 rfl rfl
  | tableFull => exact .quiet (.refl h) rfl rfl
  | tooLarge _ _ _ hh' =>
    rcases hh' with rfl | rfl <;> exact .quiet ⟨rfl, rfl, rfl⟩ rfl rfl
  | largeFailed hz =>
    refine .refused rfl (fun y hy ↦ ?_) rfl (fun _ _ ↦ rfl) rfl rfl
    exact absurd (hz.symm.trans hy) (by simp)
  | largeOpened hz _ _ hyes =>
    exact .block rfl hz ⟨rfl, rfl, rfl⟩ (OS.answer_eq_some hyes).2.2.2.2 rfl rfl

/-! ## What a call adds to the log -/

namespace Heap.Fetches

variable {h₁ : Heap}

/-- A request takes nothing away. -/
theorem mem_mapped (hf : h.Fetches pl n r h₁) (hp : p ∈ h.mapped) : p ∈ h₁.mapped := by
  cases hf with
  | quiet _ hmapped => rwa [hmapped]
  | refused _ _ _ _ hmapped => rwa [hmapped]
  | arena _ _ _ _ _ _ hmapped => rw [hmapped]; exact List.mem_cons_of_mem _ hp
  | block _ _ _ _ hmapped => rw [hmapped]; exact List.mem_cons_of_mem _ hp

/-- What it adds shares no byte with what there was. -/
theorem apart_of_new (hf : h.Fetches pl n r h₁) (hp : p ∈ h₁.mapped) :
    p ∈ h.mapped ∨ ∀ q ∈ h.mapped, q.Apart p := by
  cases hf with
  | quiet _ hmapped => exact .inl (hmapped ▸ hp)
  | refused _ _ _ _ hmapped => exact .inl (hmapped ▸ hp)
  | arena _ _ _ _ _ hap hmapped =>
    rw [hmapped] at hp
    rcases List.mem_cons.mp hp with rfl | hp
    · exact .inr hap
    · exact .inl hp
  | block _ _ _ hap hmapped =>
    rw [hmapped] at hp
    rcases List.mem_cons.mp hp with rfl | hp
    · exact .inr hap
    · exact .inl hp

/-- An arena that is there stays where it is. -/
theorem arena_kept (hf : h.Fetches pl n r h₁) {z : Pool} (hz : h.poolFlag z = true) :
    h₁.poolFlag z = true ∧ h₁.base z = h.base z := by
  cases hf with
  | quiet harenas => exact ⟨by rw [harenas.poolFlag, hz], by rw [harenas.base]⟩
  | refused _ _ hflags hbase => exact ⟨by rw [hflags, hz], hbase z hz⟩
  | @arena y q _ _ hclosed hflags hbase =>
    have hne : z ≠ y := by
      rintro rfl
      exact absurd (hclosed.symm.trans hz) (by decide)
    rw [hflags, hbase, Function.update_of_ne hne, Function.update_of_ne hne]
    exact ⟨hz, rfl⟩
  | block _ _ harenas => exact ⟨by rw [harenas.poolFlag, hz], by rw [harenas.base]⟩

/-- An arena that was not there shares no byte with what there was. -/
theorem arena_new (hf : h.Fetches pl n r h₁) {z : Pool} (hz : h₁.poolFlag z = true) :
    h.poolFlag z = true ∨ ∀ q ∈ h.mapped, q.Apart ⟨h₁.base z, pl.arenaLen z⟩ := by
  cases hf with
  | quiet harenas => exact .inl (by rw [← harenas.poolFlag, hz])
  | refused _ _ hflags => exact .inl (by rw [← hflags, hz])
  | @arena y q _ _ _ hflags hbase hap =>
    by_cases hzy : z = y
    · subst hzy
      rw [hbase, Function.update_self]
      exact .inr hap
    · rw [hflags, Function.update_of_ne hzy] at hz
      exact .inl hz
  | block _ _ harenas => exact .inl (by rw [← harenas.poolFlag, hz])

/-- The log stays in step with the mappings. -/
theorem outstanding (hf : h.Fetches pl n r h₁) (ho : Outstanding h.calls h.mapped) :
    Outstanding h₁.calls h₁.mapped := by
  have hnew : ∀ {q len : Nat}, 0 < len → (∀ p ∈ h.mapped, p.Apart ⟨q, len⟩) → ⟨q, len⟩ ∉ h.mapped :=
    fun hlen hap hmem ↦ Region.not_apart_self hlen (hap _ hmem)
  cases hf with
  | quiet _ hmapped hcalls => rwa [hmapped, hcalls]
  | refused _ _ _ _ hmapped hcalls =>
    rw [hmapped, hcalls]
    exact .refused ho
  | @arena z q _ _ _ _ _ hap hmapped hcalls =>
    rw [hmapped, hcalls]
    have hge := pl.arenaLen_ge z
    have hs := z.stride_bounds.1
    exact .mmap ho (hnew (by omega) hap)
  | block _ _ _ hap hmapped hcalls =>
    rw [hmapped, hcalls]
    have hge := pl.largeLen_ge n
    rw [METASIZE] at hge
    exact .mmap ho (hnew (by omega) hap)

/-- Its system calls.  There is none for a slot of an arena that is there. -/
theorem log (hf : h.Fetches pl n r h₁) : ∃ D, h₁.calls = D ++ h.calls ∧
    (∀ x ∈ D, h.Fetched pl n r h₁ x) ∧
    ((∃ z, zoneOf n = .pool z ∧ h.poolFlag z = true) → D = []) := by
  cases hf with
  | quiet _ _ hcalls => exact ⟨[], hcalls, fun x hx ↦ absurd hx (by simp), fun _ ↦ rfl⟩
  | @refused len _ hz _ _ _ hcalls =>
    refine ⟨[_], hcalls, fun x hx ↦ ?_, fun ⟨z, hzn, hopen⟩ ↦ ?_⟩
    · rw [List.mem_singleton.mp hx]
      exact .refused len
    · exact absurd ((hz z hzn).symm.trans hopen) (by decide)
  | @arena y q hr hy hclosed hflags hbase _ _ hcalls =>
    refine ⟨[_], hcalls, fun x hx ↦ ?_, fun ⟨z, hzn, hopen⟩ ↦ ?_⟩
    · rw [List.mem_singleton.mp hx]
      exact .arena hr hclosed (by rw [hflags, Function.update_self])
        (by rw [hbase, Function.update_self])
    · obtain rfl := Zone.pool.inj (hy.symm.trans hzn)
      exact absurd (hclosed.symm.trans hopen) (by decide)
  | @block q hr hz harenas hap hmapped hcalls =>
    refine ⟨[_], hcalls, fun x hx ↦ ?_, fun ⟨z, hzn, _⟩ ↦ ?_⟩
    · rw [List.mem_singleton.mp hx]
      exact .block hr hz harenas hap (by rw [hmapped]; exact List.mem_cons_self)
    · exact absurd (hz.symm.trans hzn) (by simp)

end Heap.Fetches

namespace Heap.Finishes

variable {h₀ h₁ : Heap}

/-- The end of a call maps nothing. -/
theorem mem_mapped (hf : h₀.Finishes call r h₁ h') (hp : p ∈ h'.mapped) : p ∈ h₁.mapped := by
  cases hf with
  | quiet _ hmapped => exact hmapped ▸ hp
  | unmaps _ _ _ hmapped =>
    rw [hmapped] at hp
    exact (List.mem_filter.mp hp).1

/-- It gives nothing back but a LARGE block that the call frees. -/
theorem mem_or_freed (hf : h₀.Finishes call r h₁ h') (hp : p ∈ h₁.mapped) :
    p ∈ h'.mapped ∨ ∃ i c, h₀.cell (.large i) = some c ∧ call.Frees r c.ptr ∧
      p = h₀.extent (.large i) ∧ p ∉ h'.mapped := by
  cases hf with
  | quiet _ hmapped => exact .inl (hmapped ▸ hp)
  | @unmaps i c hc hfrees _ hmapped =>
    by_cases he : p = h₀.extent (.large i)
    · refine .inr ⟨i, c, hc, hfrees, he, fun hmem ↦ ?_⟩
      rw [hmapped] at hmem
      exact absurd he (by simpa using (List.mem_filter.mp hmem).2)
    · left
      rw [hmapped]
      exact List.mem_filter.mpr ⟨hp, by simpa using he⟩

/-- Its system calls. -/
theorem log (hf : h₀.Finishes call r h₁ h') : ∃ D, h'.calls = D ++ h₁.calls ∧
    ∀ x ∈ D, ∃ i c, h₀.cell (.large i) = some c ∧ call.Frees r c.ptr ∧
      x = .munmap (h₀.extent (.large i)).base (h₀.extent (.large i)).len true ∧
      h₀.extent (.large i) ∉ h'.mapped := by
  cases hf with
  | quiet _ _ hcalls => exact ⟨[], hcalls, fun x hx ↦ absurd hx (by simp)⟩
  | @unmaps i c hc hfrees _ hmapped hcalls =>
    refine ⟨[_], hcalls, fun x hx ↦ ⟨i, c, hc, hfrees, List.mem_singleton.mp hx, fun hmem ↦ ?_⟩⟩
    rw [hmapped] at hmem
    exact absurd (List.mem_filter.mp hmem).2 (by simp)

theorem outstanding (hi : h₀.WF pl) (hf : h₀.Finishes call r h₁ h')
    (hkeep : ∀ p ∈ h₀.mapped, p ∈ h₁.mapped) (ho : Outstanding h₁.calls h₁.mapped) :
    Outstanding h'.calls h'.mapped := by
  cases hf with
  | quiet _ hmapped hcalls => rwa [hmapped, hcalls]
  | @unmaps i c hc _ _ hmapped hcalls =>
    rw [hmapped, hcalls]
    refine .munmap ho (hkeep _ ((hi.mem_mapped _).mpr ⟨.large i, ?_⟩))
    exact if_pos (Heap.taken_of_cell hc)

end Heap.Finishes

/-- **The system calls of a call**: those of its request, if it makes one, and of its end. -/
theorem CallStep.traffic (hi : h.WF pl) (hstep : CallStep pl os h call r h') :
    ∃ n h₁, ((∃ k, call.Requests h k ∧ n = reqSize k) ∨ h₁.calls = h.calls) ∧
      h.Fetches pl n r h₁ ∧ h.Finishes call r h₁ h' := by
  rcases hstep.request hi with ⟨n, h₁, hreq, hm, hfin⟩ | ⟨-, hfin⟩
  · exact ⟨reqSize n, h₁, .inl ⟨n, hreq, rfl⟩, hm.fetches, hfin⟩
  · exact ⟨0, h, .inr rfl, .quiet (.refl h) rfl rfl, hfin⟩

/-- Who holds the mutex is of no consequence for the system calls. -/
theorem Heap.Fetches.of_lock {self : Nat} (hf : (h.lock self).Fetches pl n r h') :
    h.Fetches pl n r h' := by
  cases hf with
  | quiet harenas hmapped hcalls =>
    exact .quiet ⟨harenas.base, harenas.poolFlag, harenas.pageFlag⟩ hmapped hcalls
  | refused hr hz hflags hbase hmapped hcalls => exact .refused hr hz hflags hbase hmapped hcalls
  | arena hr hz hclosed hflags hbase hap hmapped hcalls =>
    exact .arena hr hz hclosed hflags hbase hap hmapped hcalls
  | block hr hz harenas hap hmapped hcalls =>
    exact .block hr hz ⟨harenas.base, harenas.poolFlag, harenas.pageFlag⟩ hap hmapped hcalls

theorem Heap.Finishes.of_lock {h₁ : Heap} {self : Nat}
    (hf : (h.lock self).Finishes call r h₁ h') : h.Finishes call r h₁ h'.unlock := by
  have hsame := hf.sameArenas
  cases hf with
  | quiet _ hmapped hcalls =>
    exact .quiet ⟨hsame.base, hsame.poolFlag, hsame.pageFlag⟩ hmapped hcalls
  | unmaps hc hp _ hmapped hcalls =>
    exact .unmaps hc hp ⟨hsame.base, hsame.poolFlag, hsame.pageFlag⟩ hmapped hcalls

/-- What a public call adds to the log. -/
theorem World.WF.run_traffic (hw : w.WF pl) {t : Nat} {mmap : Option Nat} {munmap : Bool}
    (hrun : call.run (pl.os mmap munmap) t w.heap = .ok r h') :
    ∃ n h₁, ((∃ k, call.Requests w.heap k ∧ n = reqSize k) ∨ h₁.calls = w.heap.calls) ∧
      w.heap.Fetches pl n r h₁ ∧ w.heap.Finishes call r h₁ h' := by
  obtain ⟨h₂, hcall, rfl⟩ := hw.call_step hrun
  obtain ⟨n, h₁, hreq, hfetch, hfin⟩ := hcall.traffic (hw.heap.lock t)
  simp only [Call.requests_lock] at hreq
  exact ⟨n, h₁, hreq, hfetch.of_lock, hfin.of_lock⟩

/-- **Every step keeps the log in step with the mappings.** -/
theorem Step.outstanding (hw : w.WF pl) (hstep : Step pl w a w')
    (ho : Outstanding w.heap.calls w.heap.mapped) : Outstanding w'.heap.calls w'.heap.mapped := by
  cases hstep with
  | call hrun =>
    obtain ⟨n, h₁, -, hfetch, hfin⟩ := hw.run_traffic hrun
    exact hfin.outstanding hw.heap (fun p hp ↦ hfetch.mem_mapped hp) (hfetch.outstanding ho)
  | write => exact ho
  | host => exact ho

end FtMalloc
