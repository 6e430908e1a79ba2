import FtMalloc.Accounts
import FtMalloc.Observe

/-!
# What a block holds when it is handed out

`malloc` does not clear anything.  A block from a new mapping reads zero all the same, since the
kernel hands out zeros and the headers lie beside the payloads; but a slot that was used before
still holds what was left in it.  `malloc_contents` says that this is all: a fresh block reads zero,
or byte for byte what the last holder of the slot had in it when it was given back.  No byte of a
header and none of another block shows.

* `Heap.payload` is the payload of a slot, taken or free; no call writes to the one of a free slot
  (`CallStep.keepsPayload`), and nobody else does (`Step.keepsPayload`).
* `IdleStep` is a step while a slot is free, and `Residue` where the bytes of a free slot are from.
-/

set_option autoImplicit false

namespace FtMalloc

open ByteMemory CharMap

variable {pl : Platform} {os : OS} {h h' h₁ : Heap} {n r p k t : Nat} {s : Slot} {c : Cell}
  {z : Pool} {call : Call} {w w' w₁ : World} {a : Action} {as bs : List Action} {m : Memory}

/-! ## Payloads -/

/-- The payload of a slot, whether it is taken or not. -/
def Heap.payload (h : Heap) (s : Slot) : Region :=
  ⟨(h.extent s).base + METASIZE, (h.extent s).len - METASIZE⟩

/-- The payload of the slot reads the same in `h'` as in `h`. -/
def Heap.KeepsPayload (h h' : Heap) (s : Slot) : Prop :=
  Agree h.mem h'.mem (h.payload s).base (h.payload s).len

theorem Heap.payload_of_cell (hc : h.cell s = some c) : h.payload s = c.payload := by
  obtain ⟨-, rfl⟩ := Heap.cell_eq_some.mp hc
  rfl

/-- The payload of a slot is no part of another slot. -/
theorem Heap.WF.payload_apart_extent (hi : h.WF pl) {s' : Slot} (hs : h.Exists s)
    (hs' : h.Exists s') (hne : s ≠ s') : (h.payload s).Apart (h.extent s') := by
  have hap := hi.extent_apart hs hs' hne
  have hlen := (hi.extent_mapped hs).2
  simp only [Heap.payload, Region.Apart, METASIZE] at hap hlen ⊢
  omega

/-- A size that is recorded is part of no payload. -/
theorem Heap.WF.keepsPayload_setClientSize (hi : h.WF pl) {s' : Slot} (hs : h.Exists s)
    (hs' : h.Exists s') (n : Nat) :
    h.KeepsPayload { h with mem := setMetaClientSize h.mem (h.extent s').base n } s := by
  by_cases hne : s = s'
  · subst hne
    refine agree_setMetaClientSize n (.inr ?_)
    simp only [Heap.payload, METASIZE]
    omega
  · have hap := hi.payload_apart_extent hs hs' hne
    have hlen := (hi.extent_mapped hs').2
    simp only [Region.Apart, METASIZE] at hap hlen
    exact agree_setMetaClientSize n (by omega)

/-- The memory once an arena was set up and its first slot handed out. -/
theorem mem_openArena (ptr : Nat) : ((h.openArena pl z ptr).takeSlot z 0 n).mem
    = setMetaClientSize (initHeaders ptr z.stride 100 (fill h.mem ptr (pl.arenaLen z) 0#8))
        ptr n := by
  have haddr : (h.openArena pl z ptr).slotAddr z 0 = ptr := by
    simp [Heap.slotAddr, Heap.openArena]
  rw [Heap.takeSlot, haddr]
  rfl

/-- **`malloc_impl` writes to no payload**, not even to the one it hands out, unless the mapping is
new. -/
theorem MallocStep.keepsPayload (hi : h.WF pl) (hm : MallocStep pl os h n r h') (hs : h.Exists s) :
    h.KeepsPayload h' s := by
  have hsame : ∀ {h₂ : Heap}, h₂.mem = h.mem → h.KeepsPayload h₂ s :=
    fun e ↦ by rw [Heap.KeepsPayload, e]; exact Agree.refl h.mem _ _
  have hnew : ∀ {q : Region}, (∀ r ∈ h.mapped, r.Apart q) → (h.payload s).Apart q := by
    intro q hq
    have hap := hi.extent_apart_of_mapped hq hs
    have hlen := (hi.extent_mapped hs).2
    simp only [Heap.payload, Region.Apart, METASIZE] at hap hlen ⊢
    omega
  cases hm with
  | poolFull | arenaRefused | tableFull => exact hsame rfl
  | arenaFailed => exact hsame rfl
  | tooLarge _ _ _ hh' => rcases hh' with rfl | rfl <;> exact hsame rfl
  | largeFailed => exact hsame rfl
  | @poolSlot z k _ hopen hk =>
    have hs' : h.Exists (.pool z k) := ⟨hopen, hk.1⟩
    exact hi.keepsPayload_setClientSize hs hs' n
  | @arenaOpened z ptr _ _ _ hyes =>
    have hap := hnew (OS.answer_eq_some hyes).2.2.2.2
    have hlen := pl.arenaLen_ge z
    have hz := z.stride_bounds
    rw [Heap.KeepsPayload, mem_openArena]
    simp only [Region.Apart, METASIZE] at hap hz
    exact ((agree_fill 0#8 hap).trans (agree_initHeaders (Nat.le_of_lt hz.1) 100 (by omega))).trans
      (agree_setMetaClientSize n (by omega))
  | largeOpened hz _ _ hyes _ =>
    have hlen := pl.largeLen_ge n
    exact agree_largeMem (by omega) (hnew (OS.answer_eq_some hyes).2.2.2.2)

/-- The payload of a slot shares no byte with a block in another one. -/
theorem Heap.WF.payload_apart_cell (hi : h.WF pl) {s' : Slot} (hs : h.Exists s)
    (hc : h.cell s' = some c) (hne : s ≠ s') : (h.payload s).Apart c.payload := by
  have hap := hi.payload_apart_extent hs (hi.exists_of_taken (Heap.taken_of_cell hc)) hne
  obtain ⟨hptr, hroom⟩ := hi.extent_of_cell hc
  simp only [Region.Apart, Cell.payload] at hap ⊢
  omega

theorem MallocStep.payload_eq (hm : MallocStep pl os h n r h') (hopen : h.poolFlag z = true) :
    h'.poolFlag z = true ∧ h'.payload (.pool z k) = h.payload (.pool z k) := by
  obtain ⟨hopen', hbase⟩ := hm.fetches.arena_kept hopen
  refine ⟨hopen', ?_⟩
  simp only [Heap.payload, Heap.extent, Heap.slotAddr, hbase]

/-- **A call makes a request or it makes none**, and what it writes then is in blocks that are live
behind it, or in headers. -/
theorem CallStep.settles (hi : h.WF pl) (hstep : CallStep pl os h call r h') :
    ∃ h₁, (h₁ = h ∨ ∃ n, MallocStep pl os h n r h₁) ∧ h₁.SameArenas h' ∧
      ∀ s, h₁.Exists s → h'.cell s = none → h₁.KeepsPayload h' s := by
  have hquiet : ∀ {h₁ : Heap}, h₁.SameArenas h' → h'.mem = h₁.mem → h₁.SameArenas h' ∧
      ∀ s, h₁.Exists s → h'.cell s = none → h₁.KeepsPayload h' s := by
    intro h₁ ha hmem
    refine ⟨ha, fun s _ _ ↦ ?_⟩
    rw [Heap.KeepsPayload, hmem]
    exact Agree.refl h₁.mem _ _
  -- a write into the block that was handed out
  have hinto : ∀ {h₁ : Heap} {s' : Slot} {c' : Cell}, h₁.WF pl → h₁.cell s' = some c' →
      h'.cell s' = some c' → (∀ a j, Region.Apart ⟨a, j⟩ c'.payload → Agree h₁.mem h'.mem a j) →
      ∀ s, h₁.Exists s → h'.cell s = none → h₁.KeepsPayload h' s := by
    intro h₁ s' c' hi₁ hc' hkept hag s hs hfree
    refine hag _ _ (hi₁.payload_apart_cell hs hc' ?_)
    rintro rfl
    exact absurd (hfree.symm.trans hkept) (by simp)
  cases hstep with
  | malloc hm => exact ⟨h', .inr ⟨_, hm⟩, hquiet (.refl h') rfl⟩
  | free hf => exact ⟨h, .inl rfl, hquiet hf.sameArenas hf.mem⟩
  | realloc hr =>
    cases hr with
    | null _ hm => exact ⟨h', .inr ⟨_, hm⟩, hquiet (.refl h') rfl⟩
    | free _ _ hf => exact ⟨h, .inl rfl, hquiet hf.sameArenas hf.mem⟩
    | stray => exact ⟨h, .inl rfl, hquiet (.refl h) rfl⟩
    | @inPlace s' c' _ hc =>
      have hs' := hi.exists_of_taken (Heap.taken_of_cell hc)
      refine ⟨h, .inl rfl, by cases s' <;> exact ⟨rfl, rfl, rfl⟩, fun s hs _ ↦ ?_⟩
      rw [Heap.KeepsPayload, Heap.mem_record]
      exact hi.keepsPayload_setClientSize hs hs' _
    | failed _ _ _ hm => exact ⟨h', .inr ⟨_, hm⟩, hquiet (.refl h') rfl⟩
    | @moved s₀ c₀ _ h₁ _ hc hp hbig hr hm hf =>
      subst hp
      obtain ⟨s', c', hne, -, -, rfl, -, hle, hb, hcs, hcs', -⟩ := hm.copy_spec hi hc hbig hr
      have hcr := (hi.cell_size_le hc).2
      obtain ⟨hwf, hcell, -⟩ := hb.wf.copyTo hcs' (by omega : c₀.size ≤ c'.room) c₀.ptr
      have hkept : h'.cell s' = some c' := by
        rw [hf.cell hwf, hcell, hcs', Option.filter_some, if_pos]
        exact decide_eq_true fun hp ↦ hne (hb.wf.ptr_inj hcs' hcs hp)
      have ha := hf.sameArenas
      refine ⟨h₁, .inr ⟨_, hm⟩, ⟨ha.base, ha.poolFlag, ha.pageFlag⟩,
        hinto hb.wf hcs' hkept fun a j hap ↦ ?_⟩
      rw [hf.mem]
      simp only [Region.Apart, Cell.payload] at hap
      exact agree_copy c₀.ptr (by omega)
  | calloc hc =>
    cases hc with
    | overflow => exact ⟨h, .inl rfl, hquiet ⟨rfl, rfl, rfl⟩ rfl⟩
    | failed _ hm => exact ⟨h', .inr ⟨_, hm⟩, hquiet (.refl h') rfl⟩
    | @zeroed _ h₁ _ hr hm =>
      rcases hm.effect hi (reqSize_pos _) with ⟨h0, -⟩ | ⟨s', c', -, -, -, rfl, hsz, hb⟩
      · exact absurd h0 hr
      have hcs' : h₁.cell s' = some c' := (congrFun hb.cell s').trans (Function.update_self _ _ _)
      have hfit := Nat.le_trans (le_reqSize _) (hsz ▸ (hb.wf.cell_size_le hcs').2)
      obtain ⟨-, hcell, -⟩ := hb.wf.zero hcs' hfit
      refine ⟨h₁, .inr ⟨_, hm⟩, ⟨rfl, rfl, rfl⟩,
        hinto hb.wf hcs' ((congrFun hcell s').trans hcs') fun a j hap ↦ ?_⟩
      simp only [Region.Apart, Cell.payload] at hap
      exact agree_fill 0#8 (by omega)

/-- **No call writes to the payload of a slot that is free behind it.** -/
theorem CallStep.keepsPayload (hi : h.WF pl) (hstep : CallStep pl os h call r h')
    (hopen : h.poolFlag z = true) (hk : k < 100) (hfree : h'.cell (.pool z k) = none) :
    h.KeepsPayload h' (.pool z k) := by
  obtain ⟨h₁, rfl | ⟨n, hm⟩, -, hkeep⟩ := hstep.settles hi
  · exact hkeep _ ⟨hopen, hk⟩ hfree
  · obtain ⟨hopen₁, hpay⟩ := hm.payload_eq (k := k) hopen
    have hrest := hkeep (.pool z k) ⟨hopen₁, hk⟩ hfree
    rw [Heap.KeepsPayload, hpay] at hrest
    exact Agree.trans (hm.keepsPayload hi (s := .pool z k) ⟨hopen, hk⟩) hrest

/-! ## New mappings -/

/-- The headers of an arena lie beside the payloads. -/
theorem agree_initHeaders_payload (z : Pool) (p k : Nat) (m : Memory) : ∀ n,
    Agree m (initHeaders p z.stride n m) (p + z.stride * k + METASIZE) (z.stride - METASIZE)
  | 0 => Agree.refl m _ _
  | n + 1 => by
    have hz := z.stride_bounds.1
    refine (agree_initHeaders_payload z p k m n).trans (agree_writeMeta _ _ ?_)
    rcases Nat.lt_trichotomy k n with hlt | rfl | hlt
    · have hmul := Nat.mul_le_mul_left z.stride hlt
      rw [Nat.mul_succ] at hmul
      omega
    · exact .inr (Nat.le_refl _)
    · have hmul := Nat.mul_le_mul_left z.stride hlt
      rw [Nat.mul_succ] at hmul
      omega

/-- The payloads of an arena read zero when it was set up. -/
theorem MallocStep.opened_zero (hm : MallocStep pl os h n r h') (hclosed : h.poolFlag z = false)
    (hopen : h'.poolFlag z = true) (hk : k < 100) :
    ∀ i < z.stride - METASIZE, h'.mem ((h'.payload (.pool z k)).base + i) = 0#8 := by
  have hno : h'.poolFlag ≠ h.poolFlag := by
    intro he
    rw [he, hclosed] at hopen
    exact absurd hopen (by decide)
  cases hm with
  | poolFull | poolSlot | arenaRefused | arenaFailed => exact absurd rfl hno
  | tableFull | largeFailed | largeOpened => exact absurd rfl hno
  | tooLarge _ _ _ hh' => rcases hh' with rfl | rfl <;> exact absurd rfl hno
  | @arenaOpened y ptr _ _ _ _ =>
    have hyz : z = y := by
      by_contra hne
      have hother : ((h.openArena pl y ptr).takeSlot y 0 n).poolFlag z = h.poolFlag z := by
        simp [Heap.takeSlot, Heap.mark, Heap.openArena, hne]
      exact absurd (hopen.symm.trans (hother.trans hclosed)) (by decide)
    subst hyz
    intro i hi
    have hbase : ((h.openArena pl z ptr).takeSlot z 0 n).payload (.pool z k)
        = ⟨ptr + z.stride * k + METASIZE, z.stride - METASIZE⟩ := by
      simp [Heap.payload, Heap.extent, Heap.slotAddr, Heap.takeSlot, Heap.mark, Heap.openArena]
    have hlen := pl.arenaLen_ge z
    have hmul := Nat.mul_le_mul_left z.stride (by omega : k + 1 ≤ 100)
    rw [Nat.mul_succ] at hmul
    have hfirst : ∀ m, Agree m (setMetaClientSize m ptr n) (ptr + z.stride * k + METASIZE)
        (z.stride - METASIZE) := fun m ↦
      agree_setMetaClientSize n (.inr (by rw [METASIZE]; omega))
    rw [hbase, mem_openArena]
    refine ((agree_initHeaders_payload z ptr k _ 100).trans (hfirst _) _ (Nat.le_add_right _ _)
      (by omega)).trans ?_
    rw [fill, if_pos (by omega)]

/-- The payload of a LARGE block reads zero when it was mapped. -/
theorem largeOpened_zero {ptr j : Nat} : ∀ i < pl.largeLen n - METASIZE,
    (h.openLarge pl n ptr j).mem (ptr + METASIZE + i) = 0#8 := by
  intro i hi
  have hag : Agree (fill h.mem ptr (pl.largeLen n) 0#8) (h.openLarge pl n ptr j).mem
      (ptr + METASIZE) (pl.largeLen n - METASIZE) :=
    (agree_writeMeta _ _ (.inr (Nat.le_refl _))).trans
      (agree_setMetaClientSize n (.inr (by rw [METASIZE])))
  rw [hag _ (Nat.le_add_right _ _) (by omega), fill, if_pos (by omega)]

/-- A LARGE block reads zero when it is handed out. -/
theorem MallocStep.large_zero (hi : h.WF pl) (hm : MallocStep pl os h n r h') (hr : r ≠ 0)
    (hlarge : zoneOf n = .large) (hc : h'.cell s = some c) (hp : c.ptr = r) :
    ∀ i < c.room, h'.mem (r + i) = 0#8 := by
  cases hm with
  | poolSlot hz => exact absurd (hz.symm.trans hlarge) (by simp)
  | arenaOpened hz => exact absurd (hz.symm.trans hlarge) (by simp)
  | @largeOpened ptr j _ _ hfits hyes hj =>
    have hb := Heap.becomes_openLarge hi hlarge hfits ⟨hj.1, hj.2.1⟩ (OS.answer_eq_some hyes)
    have hnew := (congrFun hb.cell (.large j)).trans (Function.update_self _ _ _)
    -- the block is the one that was mapped
    obtain rfl := hb.wf.ptr_inj hnew hc hp.symm
    obtain rfl := Option.some_inj.mp (hnew.symm.trans hc)
    exact largeOpened_zero
  | _ => exact absurd rfl hr

/-- What `malloc` hands out of an arena that was open holds what was there. -/
theorem MallocStep.pool_reads {q : Region} (hi : h.WF pl) (hm : MallocStep pl os h n r h')
    (hopen : h.poolFlag z = true) (hk : k < 100) (hpay : h'.payload (.pool z k) = q) :
    h.payload (.pool z k) = q ∧ Agree h.mem h'.mem q.base q.len := by
  obtain ⟨-, hplace⟩ := hm.payload_eq (k := k) hopen
  obtain rfl := hplace.symm.trans hpay
  exact ⟨rfl, hm.keepsPayload hi (s := .pool z k) ⟨hopen, hk⟩⟩

/-! ## Steps and runs -/

/-- A step after which the slot is free. -/
def IdleStep (pl : Platform) (s : Slot) (w : World) (a : Action) (w' : World) : Prop :=
  Step pl w a w' ∧ w'.heap.cell s = none

/-- **Nothing writes to the payload of a slot that is free.** -/
theorem IdleStep.keepsPayload (hw : w.WF pl) (hstep : IdleStep pl (.pool z k) w a w')
    (hopen : w.heap.poolFlag z = true) (hk : k < 100) :
    w.heap.KeepsPayload w'.heap (.pool z k) := by
  obtain ⟨hstep, hfree⟩ := hstep
  have hs : w.heap.Exists (.pool z k) := ⟨hopen, hk⟩
  cases hstep with
  | @call t call mmap munmap r h' hrun =>
    obtain ⟨h₁, hcall, rfl⟩ := hw.call_step hrun
    have hfree : h₁.cell (.pool z k) = none := hfree
    show (w.heap.lock t).KeepsPayload h₁ (.pool z k)
    exact hcall.keepsPayload (hw.heap.lock t) hopen hk hfree
  | @write _ _ i v b hb hp hi =>
    subst hp
    obtain ⟨s', c, hc, hat⟩ := hw.cell_of_live hb
    obtain ⟨-, hcell, -⟩ := hw.cell_write hc hat hi v
    have hne : Slot.pool z k ≠ s' := by
      rintro rfl
      exact absurd (hfree.symm.trans ((congrFun hcell _).trans hc)) (by simp)
    have hap := hw.heap.payload_apart_cell hs hc hne
    have hle := (hw.heap.cell_size_le hc).2
    have hsize := hat.size
    simp only [Region.Apart, Cell.payload, hat.ptr] at hap
    exact agree_poke v (by omega)
  | host hm =>
    have hlen := (hw.heap.extent_mapped hs).2
    exact (hw.agree_host hm hs).mono (Nat.le_add_right _ _) (by simp only [Heap.payload]; omega)

/-- An arena is set up in one step, and reads zero behind it. -/
theorem Step.opened_zero (hw : w.WF pl) (hstep : IdleStep pl (.pool z k) w a w')
    (hclosed : w.heap.poolFlag z = false) (hopen : w'.heap.poolFlag z = true) (hk : k < 100) :
    ∀ i < z.stride - METASIZE, w'.heap.mem ((w'.heap.payload (.pool z k)).base + i) = 0#8 := by
  obtain ⟨hstep, hfree⟩ := hstep
  have hno : w'.heap.poolFlag ≠ w.heap.poolFlag := by
    intro he
    rw [he, hclosed] at hopen
    exact absurd hopen (by decide)
  cases hstep with
  | @call t call mmap munmap r h' hrun =>
    obtain ⟨h₁, hcall, rfl⟩ := hw.call_step hrun
    obtain ⟨h₂, hreq, harenas, hkeep⟩ := hcall.settles (hw.heap.lock t)
    have hopen₂ : h₂.poolFlag z = true := by
      rw [← harenas.poolFlag]
      exact hopen
    rcases hreq with rfl | ⟨n, hm⟩
    · exact absurd harenas.poolFlag hno
    · intro i hi
      have hpay : h₁.payload (.pool z k) = h₂.payload (.pool z k) := by
        simp only [Heap.payload, Heap.extent, Heap.slotAddr, harenas.base]
      have hag := hkeep (.pool z k) ⟨hopen₂, hk⟩ hfree
      show h₁.mem ((h₁.payload (.pool z k)).base + i) = 0#8
      rw [hpay, hag.offset hi]
      exact hm.opened_zero hclosed hopen₂ hk i hi
  | write => exact absurd rfl hno
  | host => exact absurd rfl hno

/-- The payload of a slot does not move. -/
theorem Step.payload_eq (hw : w.WF pl) (hstep : Step pl w a w') (hopen : w.heap.poolFlag z = true) :
    w'.heap.poolFlag z = true ∧ w'.heap.payload (.pool z k) = w.heap.payload (.pool z k) := by
  obtain ⟨hopen', hbase⟩ := hstep.arenas_kept hw hopen
  refine ⟨hopen', ?_⟩
  simp only [Heap.payload, Heap.extent, Heap.slotAddr, hbase]

/-- Where the bytes of a free slot are from, in the world `w` that the run `as` has led to: they are
zero, as in a new arena; or they are what the slot held when it was taken last, in the world that
the part `bs` of the run has led to. -/
inductive Residue (pl : Platform) (m : Memory) (s : Slot) (as : List Action) (w : World) : Prop
  | zero (hzero : ∀ i < (w.heap.payload s).len, w.heap.mem ((w.heap.payload s).base + i) = 0#8)
  | left {bs cs : List Action} {u : World} (has : as = bs ++ cs)
      (hrun : Run (Step pl) (World.initial m) bs u) (htaken : u.heap.Taken s)
      (hidle : Run (IdleStep pl s) u cs w) (hplace : w.heap.payload s = u.heap.payload s)
      (hkeep : u.heap.KeepsPayload w.heap s)

/-- The bytes of a free slot, one by one. -/
theorem Residue.bytes {room : Nat} (hres : Residue pl m s as w)
    (hplace : w.heap.payload s = ⟨r, room⟩) :
    (∀ i < room, w.heap.mem (r + i) = 0#8) ∨
      ∃ bs cs u c₀, as = bs ++ cs ∧ Run (Step pl) (World.initial m) bs u ∧
        u.heap.cell s = some c₀ ∧ c₀.ptr = r ∧ Run (IdleStep pl s) u cs w ∧
        ∀ i < room, w.heap.mem (r + i) = u.heap.mem (r + i) := by
  cases hres with
  | zero hzero =>
    rw [hplace] at hzero
    exact .inl hzero
  | @left bs cs u has hrun htaken hidle hplace' hkeep =>
    have hbase := hplace'.symm.trans hplace
    rw [Heap.KeepsPayload, hbase] at hkeep
    exact .inr ⟨bs, cs, u, _, has, hrun, Heap.cell_of_taken htaken, congrArg Region.base hbase,
      hidle, fun i hi ↦ hkeep.offset hi⟩

/-- **What a free slot holds.** -/
theorem residue_of_free (hrun : Run (Step pl) (World.initial m) as w) (hk : k < 100) :
    w.WF pl ∧ (w.heap.poolFlag z = true → w.heap.cell (.pool z k) = none →
      Residue pl m (.pool z k) as w) := by
  induction hrun with
  | nil => exact ⟨.initial pl m, fun hopen ↦ absurd hopen (by simp [World.initial, Heap.initial])⟩
  | @snoc u w as a hrun hstep ih =>
    obtain ⟨hu, ih⟩ := ih
    refine ⟨hstep.wf hu, fun hopen hfree ↦ ?_⟩
    by_cases hopen₀ : u.heap.poolFlag z = true
    · have hplace := (hstep.payload_eq (k := k) hu hopen₀).2
      have hkeep := IdleStep.keepsPayload hu ⟨hstep, hfree⟩ hopen₀ hk
      cases hcell : u.heap.cell (.pool z k) with
      | none =>
        -- the slot has been free before
        cases ih hopen₀ hcell with
        | zero hzero =>
          refine .zero fun i hi ↦ ?_
          rw [hplace] at hi ⊢
          rw [Agree.offset hkeep hi]
          exact hzero i hi
        | @left bs cs v has hrun' htaken hidle hplace' hkeep' =>
          have has' : as ++ [a] = bs ++ (cs ++ [a]) := by rw [has, List.append_assoc]
          refine .left has' hrun' htaken (hidle.snoc ⟨hstep, hfree⟩) (hplace.trans hplace') ?_
          rw [Heap.KeepsPayload, hplace'] at hkeep
          exact Agree.trans hkeep' hkeep
      | some c =>
        -- this step has given it back
        exact .left rfl hrun (Heap.taken_of_cell hcell) (.single ⟨hstep, hfree⟩) hplace hkeep
    · exact .zero (Step.opened_zero hu ⟨hstep, hfree⟩ (by simpa using hopen₀) hopen hk)

/-- **What `malloc` hands out.**  After every run, a block that `malloc` has handed out reads zero,
in all of its room; or it reads what stood there when the slot was taken last, and the slot has been
free ever since. -/
theorem malloc_contents {mmap : Option Nat} {munmap : Bool}
    (hrun : Run (Step pl) (World.initial m) as w)
    (hans : Answered pl w (.call t (.malloc n) mmap munmap, some r) w') (hr : r ≠ 0) :
    ∃ s c, w'.heap.cell s = some c ∧ c.ptr = r ∧
      ((∀ i < c.room, w'.heap.mem (r + i) = 0#8) ∨
        ∃ bs cs u c₀, as = bs ++ cs ∧ Run (Step pl) (World.initial m) bs u ∧
          u.heap.cell s = some c₀ ∧ c₀.ptr = r ∧ Run (IdleStep pl s) u cs w ∧
          ∀ i < c.room, w'.heap.mem (r + i) = u.heap.mem (r + i)) := by
  have hw : w.WF pl := (residue_of_free (z := .tiny) (k := 0) hrun (by decide)).1
  obtain ⟨h₁, hstep, hheap⟩ := hans.call_step hw
  have hi := hw.heap.lock t
  cases hstep with
  | malloc hm =>
    rcases hm.effect hi (reqSize_pos _) with ⟨h0, -⟩ | ⟨s, c, -, hfree, hzone, hp, -, hb⟩
    · exact absurd h0 hr
    have hc : h₁.cell s = some c := (congrFun hb.cell s).trans (Function.update_self _ _ _)
    have hpay : h₁.payload s = ⟨r, c.room⟩ := by rw [Heap.payload_of_cell hc, Cell.payload, hp]
    refine ⟨s, c, by rw [hheap]; exact hc, hp, ?_⟩
    rw [hheap]
    show (∀ i < c.room, h₁.mem (r + i) = 0#8) ∨ _
    cases s with
    | large j => exact .inl (hm.large_zero hi hr hzone.symm hc hp)
    | pool z k =>
      have hk : k < 100 := hb.wf.index_lt (Heap.taken_of_cell hc)
      by_cases hopen : w.heap.poolFlag z = true
      · obtain ⟨hplace, hkeep⟩ := hm.pool_reads hi hopen hk hpay
        rcases ((residue_of_free hrun hk).2 hopen hfree).bytes hplace with hzero |
          ⟨bs, cs, u, c₀, has, hrun', hc₀, hp₀, hidle, hleft⟩
        · exact .inl fun i hroom ↦ (hkeep.offset hroom).trans (hzero i hroom)
        · exact .inr ⟨bs, cs, u, c₀, has, hrun', hc₀, hp₀, hidle,
            fun i hroom ↦ (hkeep.offset hroom).trans (hleft i hroom)⟩
      · -- the arena is new
        have hclosed : w.heap.poolFlag z = false := by simpa using hopen
        have hopen₁ : h₁.poolFlag z = true := (hb.wf.exists_of_taken (Heap.taken_of_cell hc)).1
        have hzero := hm.opened_zero hclosed hopen₁ hk
        have hlen : (h₁.payload (.pool z k)).len = z.stride - METASIZE := rfl
        rw [hpay] at hzero hlen
        exact .inl fun i hroom ↦ hzero i (hlen ▸ hroom)

/-- A block in which a byte was stored. -/
def World.stored : World :=
  ((World.initial fun _ ↦ 0#8).after .pages4k 1 (.malloc 1) (some 0x1000) true).write 0x1010 0 7#8

/-- The slot is handed out again. -/
def World.reused : World :=
  (World.stored.after .pages4k 1 (.free 0x1010) none true).after .pages4k 2 (.malloc 20) none true

theorem World.run_stored : Run (Step .pages4k) (World.initial fun _ ↦ 0#8)
    [.call 1 (.malloc 1) (some 0x1000) true, .write 1 0x1010 0 7#8] World.stored := by
  have hmalloc : Step .pages4k (World.initial fun _ ↦ 0#8) (.call 1 (.malloc 1) (some 0x1000) true)
      ((World.initial fun _ ↦ 0#8).after .pages4k 1 (.malloc 1) (some 0x1000) true) :=
    .of_answer (r := 0x1010) (by decide +kernel)
  have hlive : ((World.initial fun _ ↦ 0#8).after .pages4k 1 (.malloc 1) (some 0x1000)
      true).live.map (fun b ↦ (b.ptr, b.size)) = [(0x1010, 1)] := by decide +kernel
  obtain ⟨b, hb, hkey⟩ := List.mem_map.mp (hlive ▸ List.mem_singleton_self (0x1010, 1))
  obtain ⟨hptr, hsize⟩ := Prod.mk.inj hkey
  exact (Run.single hmalloc).snoc (.write hb hptr (by omega))

/-- **The byte is still there**: a block holds what was left in its slot. -/
theorem malloc_contents_reused : ∃ s bs cs u c₀,
    [.call 1 (.malloc 1) (some 0x1000) true, .write 1 0x1010 0 7#8,
        .call 1 (.free 0x1010) none true] = bs ++ cs ∧
      Run (Step .pages4k) (World.initial fun _ ↦ 0#8) bs u ∧
      u.heap.cell s = some c₀ ∧ c₀.ptr = 0x1010 ∧ u.heap.mem 0x1010 = 7#8 := by
  have hfree : Step .pages4k World.stored (.call 1 (.free 0x1010) none true) _ :=
    .of_answer (r := 0) (by decide +kernel)
  have hans : Answered .pages4k (World.stored.after .pages4k 1 (.free 0x1010) none true)
      (.call 2 (.malloc 20) none true, some 0x1010) World.reused := .of_answer (by decide +kernel)
  have hread : World.reused.heap.mem 0x1010 = 7#8 := by decide +kernel
  have hw := hfree.wf (residue_of_free (z := .tiny) (k := 0) World.run_stored (by decide)).1
  obtain ⟨s, c, hc, -, hfrom⟩ := malloc_contents (World.run_stored.snoc hfree) hans (by decide)
  have hroom := (hans.1.wf hw).heap.cell_size_le hc
  rcases hfrom with hzero | ⟨bs, cs, u, c₀, has, hrun, hc₀, hp₀, -, hleft⟩
  · -- a zero would have been seen
    exact absurd ((hzero 0 (by omega)).symm.trans hread) (by decide)
  · exact ⟨s, bs, cs, u, c₀, has, hrun, hc₀, hp₀, (hleft 0 (by omega)).symm.trans hread⟩

end FtMalloc
