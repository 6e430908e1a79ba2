import FtMalloc.Malloc

/-!
# Effects on slots

The states that the functions end in are built from a handful of changes.  Those of this file leave
the mappings of the process alone: a bit is set or cleared, a size is recorded, and bookkeeping that
no slot depends on.  For each of them it is shown that it keeps the invariant (`Heap.WF.…`) and what
it does to the cells (`Heap.cell_…`).  `Heap.Becomes` puts the two together.
-/

set_option autoImplicit false

namespace FtMalloc

open ByteMemory CharMap PowerRound

variable {pl : Platform} {h h' : Heap}

/-- A slot that is taken in both states or in neither, at the same place and with the same size on
record, has the same cell. -/
theorem Heap.cell_congr {s : Slot} (ht : h'.Taken s ↔ h.Taken s)
    (he : h.Taken s → h'.extent s = h.extent s) (hr : h.Taken s → h'.recorded s = h.recorded s) :
    h'.cell s = h.cell s := by
  by_cases hs : h.Taken s
  · rw [Heap.cell_of_taken hs, Heap.cell_of_taken (ht.mpr hs), he hs, hr hs]
  · rw [Heap.cell_eq_none.mpr hs, Heap.cell_eq_none.mpr (mt ht.mp hs)]

/-- The payloads of all taken slots read the same in `h'` as in `h`. -/
def Heap.KeepsPayloads (h h' : Heap) : Prop :=
  ∀ s c, h.cell s = some c → Agree h.mem h'.mem c.ptr c.room

theorem Heap.KeepsPayloads.refl (h : Heap) : h.KeepsPayloads h :=
  fun _ c _ ↦ Agree.refl h.mem c.ptr c.room

/-- `h'` is what `h` has become: well formed, with these cells, and with every payload of `h` as it
was. -/
structure Heap.Becomes (pl : Platform) (h : Heap) (cells : Slot → Option Cell) (h' : Heap) :
    Prop where
  wf : h'.WF pl
  cell : h'.cell = cells
  payloads : h.KeepsPayloads h'

theorem Heap.Becomes.refl (hi : h.WF pl) : h.Becomes pl h.cell h := ⟨hi, rfl, .refl h⟩

theorem Heap.Becomes.trans {h₁ h₂ : Heap} {cells : Slot → Option Cell}
    (h₁h : h.Becomes pl h.cell h₁) (h₂h₁ : h₁.Becomes pl cells h₂) : h.Becomes pl cells h₂ where
  wf := h₂h₁.wf
  cell := h₂h₁.cell
  payloads := fun s c hc ↦
    (h₁h.payloads s c hc).trans (h₂h₁.payloads s c (by rw [h₁h.cell]; exact hc))

/-- A cell that becomes the only change of a well-formed state had a free address. -/
theorem Heap.Becomes.ptr_new {s t : Slot} {c d : Cell}
    (hb : h.Becomes pl (Function.update h.cell s (some c)) h') (hfree : h.cell s = none)
    (hd : h.cell t = some d) : d.ptr ≠ c.ptr := by
  have hts : t ≠ s := by
    rintro rfl
    exact absurd (hfree.symm.trans hd) (by simp)
  intro e
  refine hts (hb.wf.ptr_inj (s := t) (t := s) (c := d) (d := c) ?_ ?_ e)
  · rw [hb.cell, Function.update_of_ne hts, hd]
  · rw [hb.cell, Function.update_self]

/-! ## Bits -/

theorem bit_mark {z y : Pool} {k j : Nat} :
    bit ((h.mark z k).bitmap y) j = true ↔ (y = z ∧ j = k) ∨ bit (h.bitmap y) j = true := by
  by_cases hy : y = z
  · subst hy
    simp [Heap.mark, bit_insert]
  · simp [Heap.mark, hy]

/-- Handing out a slot of an arena keeps the invariant, when a size in range is on record for
it. -/
theorem Heap.WF.mark (hi : h.WF pl) {z : Pool} {k : Nat} (hopen : h.poolFlag z = true)
    (hk : k < 100) (hsize : 0 < metaClientSize h.mem (h.slotAddr z k) ∧
      metaClientSize h.mem (h.slotAddr z k) + METASIZE ≤ z.stride) : (h.mark z k).WF pl :=
  { hi with
    bit_lt := fun y j hb ↦ by
      rcases bit_mark.mp hb with ⟨rfl, rfl⟩ | hb
      · exact ⟨hopen, hk⟩
      · exact hi.bit_lt y j hb
    clientSize := fun y j hb ↦ by
      rcases bit_mark.mp hb with ⟨rfl, rfl⟩ | hb
      · exact hsize
      · exact hi.clientSize y j hb }

theorem Heap.cell_mark (z : Pool) (k : Nat) :
    (h.mark z k).cell = Function.update h.cell (.pool z k)
      (some ⟨h.slotAddr z k + METASIZE, z.stride - METASIZE, h.recorded (.pool z k)⟩) := by
  funext s
  by_cases hs : s = .pool z k
  · subst hs
    rw [Function.update_self]
    exact Heap.cell_of_taken (h := h.mark z k) (bit_mark.mpr (.inl ⟨rfl, rfl⟩))
  · rw [Function.update_of_ne hs]
    refine Heap.cell_congr ?_ (fun _ ↦ by cases s <;> rfl) (fun _ ↦ by cases s <;> rfl)
    cases s with
    | pool y j =>
      refine bit_mark.trans ⟨fun hb ↦ hb.resolve_left ?_, .inr⟩
      rintro ⟨rfl, rfl⟩
      exact hs rfl
    | large i => exact Iff.rfl

/-- The state with slot `k` of the pool marked as free. -/
def Heap.unmark (h : Heap) (z : Pool) (k : Nat) : Heap :=
  { h with bitmap := Function.update h.bitmap z (CharMap.erase (h.bitmap z) k) }

theorem bit_unmark {z y : Pool} {k j : Nat} :
    bit ((h.unmark z k).bitmap y) j = true ↔ ¬ (y = z ∧ j = k) ∧ bit (h.bitmap y) j = true := by
  by_cases hy : y = z
  · subst hy
    simp [Heap.unmark, bit_erase]
  · simp [Heap.unmark, hy]

theorem Heap.WF.unmark (hi : h.WF pl) (z : Pool) (k : Nat) : (h.unmark z k).WF pl :=
  { hi with
    bit_lt := fun y j hb ↦ hi.bit_lt y j (bit_unmark.mp hb).2
    clientSize := fun y j hb ↦ hi.clientSize y j (bit_unmark.mp hb).2 }

theorem Heap.cell_unmark (z : Pool) (k : Nat) :
    (h.unmark z k).cell = Function.update h.cell (.pool z k) none := by
  funext s
  by_cases hs : s = .pool z k
  · subst hs
    rw [Function.update_self]
    exact Heap.cell_eq_none.mpr fun ht ↦ (bit_unmark.mp ht).1 ⟨rfl, rfl⟩
  · rw [Function.update_of_ne hs]
    refine Heap.cell_congr ?_ (fun _ ↦ by cases s <;> rfl) (fun _ ↦ by cases s <;> rfl)
    cases s with
    | pool y j =>
      refine bit_unmark.trans ⟨And.right, fun hb ↦ ⟨?_, hb⟩⟩
      rintro ⟨rfl, rfl⟩
      exact hs rfl
    | large i => exact Iff.rfl

/-! ## Recorded sizes -/

/-- Recording a size in one header leaves the first nine bytes of every header alone. -/
theorem Heap.WF.agree_setClientSize (hi : h.WF pl) {s t : Slot} (ht : h.Exists t)
    (hs : h.Exists s) (n : Nat) :
    Agree h.mem (setMetaClientSize h.mem (h.extent t).base n) (h.extent s).base 9 := by
  by_cases hst : s = t
  · subst hst
    exact agree_setMetaClientSize n (by omega)
  · have hap := hi.extent_apart hs ht hst
    have hms := hi.extent_mapped hs
    have hmt := hi.extent_mapped ht
    simp only [Region.Apart, METASIZE] at hap hms hmt
    exact agree_setMetaClientSize n (by omega)

/-- Recording a size in one header leaves the other headers alone. -/
theorem Heap.WF.agree_setClientSize_of_ne (hi : h.WF pl) {s t : Slot} (ht : h.Exists t)
    (hs : h.Exists s) (hne : s ≠ t) (n : Nat) :
    Agree h.mem (setMetaClientSize h.mem (h.extent t).base n) (h.extent s).base METASIZE := by
  have hap := hi.extent_apart hs ht hne
  have hms := hi.extent_mapped hs
  have hmt := hi.extent_mapped ht
  simp only [Region.Apart, METASIZE] at hap hms hmt
  exact agree_setMetaClientSize n (by rw [METASIZE]; omega)

/-- The size recorded in the header of a slot shows there, and the sizes in the other headers
stay. -/
theorem Heap.WF.clientSize_set (hi : h.WF pl) {s t : Slot} (ht : h.Exists t) (hs : h.Exists s)
    (n : Nat) : metaClientSize (setMetaClientSize h.mem (h.extent t).base n) (h.extent s).base
      = if s = t then asInt n else metaClientSize h.mem (h.extent s).base := by
  split
  · rename_i hst
    rw [hst, metaClientSize_set]
  · rename_i hst
    exact metaClientSize_congr ((hi.agree_setClientSize_of_ne ht hs hst n).mono
      (Nat.le_add_right _ _) (Nat.le_refl _))

/-- A size that fits a pool slot is small enough for an `int`. -/
theorem Pool.asInt_of_fits {z : Pool} {n : Nat} (hfit : n + METASIZE ≤ z.stride) :
    asInt n = (n : Int) := by
  have hz := z.stride_bounds
  rw [SMALL] at hz
  exact asInt_of_lt (by omega)

/-- Recording a size that fits in the header of a pool slot keeps the invariant. -/
theorem Heap.WF.setClientSize (hi : h.WF pl) {z : Pool} {k n : Nat} (ht : h.Exists (.pool z k))
    (hn : 0 < n) (hfit : n + METASIZE ≤ z.stride) :
    ({ h with mem := setMetaClientSize h.mem (h.slotAddr z k) n } : Heap).WF pl := by
  refine hi.of_mem (fun s hs ↦ hi.agree_setClientSize ht hs n) (fun y j hb ↦ ?_) (fun i hl ↦ ?_)
    hi.large_free
  · have hset := hi.clientSize_set (s := .pool y j) ht (hi.bit_lt y j hb) n
    simp only [Heap.extent] at hset
    rw [hset]
    split
    · rename_i he
      obtain ⟨rfl, rfl⟩ : y = z ∧ j = k := by simpa using he
      rw [Pool.asInt_of_fits hfit]
      omega
    · exact hi.clientSize y j hb
  · have hset := hi.clientSize_set (s := .large i) ht hl n
    rw [if_neg (by simp)] at hset
    have hsz := hi.large_size i hl
    exact ⟨hsz.1, hsz.2, hset.trans (hi.large_client i hl)⟩

/-- Recording a size in a header does nothing to the cells of the other slots. -/
theorem Heap.cell_setClientSize_of_ne (hi : h.WF pl) {s t : Slot} (ht : h.Exists t) (hne : s ≠ t)
    (n : Nat) :
    ({ h with mem := setMetaClientSize h.mem (h.extent t).base n } : Heap).cell s = h.cell s := by
  have hag := fun hs : h.Taken s ↦
    hi.agree_setClientSize_of_ne ht (hi.exists_of_taken hs) hne n
  cases s with
  | pool y j =>
    refine Heap.cell_congr Iff.rfl (fun _ ↦ rfl) fun hs ↦ congrArg Int.toNat ?_
    exact metaClientSize_congr ((hag hs).mono (Nat.le_add_right _ _) (Nat.le_refl _))
  | large i =>
    refine Heap.cell_congr Iff.rfl (fun hs ↦ ?_) (fun _ ↦ rfl)
    have hm : metaSize _ (h.large i) = metaSize h.mem (h.large i) :=
      metaSize_congr ((hag hs).mono (Nat.le_refl _) (Nat.add_le_add_left (by decide) _))
    simp only [Heap.extent] at hm ⊢
    rw [hm]

/-- Recording a size in a header of a slot leaves all payloads alone. -/
theorem Heap.keepsPayloads_setClientSize (hi : h.WF pl) {t : Slot} (ht : h.Exists t) (n : Nat) :
    h.KeepsPayloads { h with mem := setMetaClientSize h.mem (h.extent t).base n } := by
  intro s c hc
  have hap := hi.payload_apart_header hc ht
  simp only [Region.Apart, Cell.payload, METASIZE] at hap
  exact agree_setMetaClientSize n (by omega)

/-- The size `n` on record for the slot `s`. -/
def Heap.record (h : Heap) (n : Nat) : Slot → Heap
  | .pool z k => { h with mem := setMetaClientSize h.mem (h.slotAddr z k) n }
  | .large i => { h with
      mem := setMetaClientSize h.mem (h.large i) n
      largeRequestSizes := Function.update h.largeRequestSizes i n }

theorem Heap.mem_record (n : Nat) (s : Slot) :
    (h.record n s).mem = setMetaClientSize h.mem (h.extent s).base n := by
  cases s <;> rfl

/-- **A size that fits may be recorded** for a slot that is handed out. -/
theorem Heap.WF.record (hi : h.WF pl) {s : Slot} {n : Nat} (hs : h.Taken s) (hn : 0 < n)
    (hfit : n + METASIZE ≤ (h.extent s).len) : (h.record n s).WF pl := by
  have hex := hi.exists_of_taken hs
  cases s with
  | pool z k => exact hi.setClientSize hex hn hfit
  | large i =>
    refine hi.of_mem (fun t ht ↦ hi.agree_setClientSize hex ht n) (fun y j hb ↦ ?_) (fun j hj ↦ ?_)
      fun j hj ↦ ?_
    · have hset := hi.clientSize_set (s := .pool y j) hex (hi.bit_lt y j hb) n
      rw [if_neg (by simp)] at hset
      simp only [Heap.extent] at hset
      rw [hset]
      exact hi.clientSize y j hb
    · have hset := hi.clientSize_set (s := .large j) hex hj n
      simp only [Heap.extent] at hset
      rw [hset]
      by_cases hji : j = i
      · subst hji
        rw [Function.update_self, if_pos rfl]
        exact ⟨hn, hfit, rfl⟩
      · have hsz := hi.large_size j hj
        rw [Function.update_of_ne hji, if_neg (by simpa using hji)]
        exact ⟨hsz.1, hsz.2, hi.large_client j hj⟩
    · have hji : j ≠ i := by
        rintro rfl
        exact hs hj
      rw [Function.update_of_ne hji]
      exact hi.large_free j hj

/-- A recorded size shows in the cell of its slot, and the other cells stay. -/
theorem Heap.cell_record (hi : h.WF pl) {s : Slot} {n : Nat} {c : Cell} (hc : h.cell s = some c)
    (hfit : n ≤ c.room) :
    (h.record n s).cell = Function.update h.cell s (some { c with size := n }) := by
  have hs := Heap.taken_of_cell hc
  have hex := hi.exists_of_taken hs
  have hroom := hi.extent_of_cell hc
  obtain ⟨-, rfl⟩ := Heap.cell_eq_some.mp hc
  funext t
  by_cases hts : t = s
  · subst hts
    rw [Function.update_self]
    cases t with
    | pool z k =>
      have hz := z.stride_bounds
      have hrec : (h.record n (.pool z k)).recorded (.pool z k) = n := by
        show (metaClientSize (setMetaClientSize h.mem (h.slotAddr z k) n)
          (h.slotAddr z k)).toNat = n
        simp only [Heap.extent, METASIZE] at hfit hz
        rw [metaClientSize_set, Pool.asInt_of_fits (z := z) (by rw [METASIZE]; omega)]
        exact Int.toNat_natCast n
      rw [Heap.cell_of_taken (h := h.record n (.pool z k)) (s := .pool z k) hs, hrec]
      rfl
    | large i =>
      have hag : Agree h.mem (setMetaClientSize h.mem (h.large i) n) (h.large i) 9 :=
        hi.agree_setClientSize (s := .large i) hex hex n
      have hext : (h.record n (.large i)).extent (.large i) = h.extent (.large i) :=
        congrArg (Region.mk _) (metaSize_congr hag)
      have hrec : (h.record n (.large i)).recorded (.large i) = n := Function.update_self _ _ _
      rw [Heap.cell_of_taken (h := h.record n (.large i)) (s := .large i) hs, hext, hrec]
  · rw [Function.update_of_ne hts, ← Heap.cell_setClientSize_of_ne hi hex hts n]
    cases s with
    | pool z k => rfl
    | large i =>
      refine Heap.cell_congr (by cases t <;> exact Iff.rfl) (fun _ ↦ by cases t <;> rfl) fun _ ↦ ?_
      cases t with
      | pool y j => rfl
      | large j => exact Function.update_of_ne (fun e ↦ hts (by rw [e])) _ _

theorem Heap.keepsPayloads_record (hi : h.WF pl) {s : Slot} (hs : h.Exists s) (n : Nat) :
    h.KeepsPayloads (h.record n s) := by
  intro t c hc
  rw [Heap.mem_record]
  exact Heap.keepsPayloads_setClientSize hi hs n t c hc

/-! ## Handing out a slot -/

theorem Heap.takeSlot_eq (z : Pool) (k n : Nat) : h.takeSlot z k n =
    ({ h with mem := setMetaClientSize h.mem (h.slotAddr z k) n } : Heap).mark z k := rfl

theorem Heap.WF.takeSlot (hi : h.WF pl) {z : Pool} {k n : Nat} (hopen : h.poolFlag z = true)
    (hk : k < 100) (hn : 0 < n) (hfit : n + METASIZE ≤ z.stride) : (h.takeSlot z k n).WF pl := by
  rw [Heap.takeSlot_eq]
  refine Heap.WF.mark (hi.setClientSize ⟨hopen, hk⟩ hn hfit) hopen hk ?_
  show 0 < metaClientSize (setMetaClientSize h.mem (h.slotAddr z k) n) (h.slotAddr z k) ∧
    metaClientSize (setMetaClientSize h.mem (h.slotAddr z k) n) (h.slotAddr z k) + METASIZE
      ≤ z.stride
  rw [metaClientSize_set, Pool.asInt_of_fits hfit]
  omega

/-- **A slot that is handed out becomes a cell** with the requested size, and the others stay. -/
theorem Heap.cell_takeSlot (hi : h.WF pl) {z : Pool} {k n : Nat} (hopen : h.poolFlag z = true)
    (hk : k < 100) (hfit : n + METASIZE ≤ z.stride) :
    (h.takeSlot z k n).cell = Function.update h.cell (.pool z k)
      (some ⟨h.slotAddr z k + METASIZE, z.stride - METASIZE, n⟩) := by
  have hrec : ({ h with mem := setMetaClientSize h.mem (h.slotAddr z k) n } : Heap).recorded
      (.pool z k) = n := by
    show (metaClientSize (setMetaClientSize h.mem (h.slotAddr z k) n) (h.slotAddr z k)).toNat = n
    rw [metaClientSize_set, Pool.asInt_of_fits hfit]
    omega
  rw [Heap.takeSlot_eq, Heap.cell_mark, hrec]
  funext s
  by_cases hs : s = .pool z k
  · subst hs
    rw [Function.update_self, Function.update_self]
    rfl
  · rw [Function.update_of_ne hs, Function.update_of_ne hs,
      ← Heap.cell_setClientSize_of_ne hi (t := .pool z k) ⟨hopen, hk⟩ hs n]
    rfl

theorem Heap.keepsPayloads_takeSlot (hi : h.WF pl) {z : Pool} {k : Nat} (n : Nat)
    (hopen : h.poolFlag z = true) (hk : k < 100) : h.KeepsPayloads (h.takeSlot z k n) :=
  Heap.keepsPayloads_setClientSize hi (t := .pool z k) ⟨hopen, hk⟩ n

/-! ## Bookkeeping no slot depends on -/

theorem Heap.WF.cachePage (hi : h.WF pl) : (h.cachePage pl).WF pl :=
  { hi with cache := .inr rfl }

theorem Heap.WF.touchTable (hi : h.WF pl) : h.touchTable.WF pl :=
  { hi with large_flag := fun hf ↦ absurd hf (by simp [Heap.touchTable]) }

theorem Heap.WF.setErrno (hi : h.WF pl) (e : Nat) : ({ h with errno := e } : Heap).WF pl :=
  { hi with }

theorem Heap.WF.setMutex (hi : h.WF pl) (o : Option Nat) : ({ h with mutex := o } : Heap).WF pl :=
  { hi with }

theorem Heap.WF.refuse (hi : h.WF pl) (len : Nat) : (h.refuse len).WF pl :=
  { hi with }

theorem Heap.WF.reserve (hi : h.WF pl) {z : Pool} (hz : h.pageFlag z = 0#32) :
    (h.reserve z).WF pl :=
  { hi with
    flags := fun y ↦ by
      by_cases hy : y = z
      · subst hy
        right
        simp [Heap.reserve, hz]
      · simpa [Heap.reserve, hy] using hi.flags y }

/-- The base address of an arena that was not set up is of no consequence. -/
theorem Heap.WF.setBase (hi : h.WF pl) {z : Pool} (hclosed : h.poolFlag z = false) (p : Nat) :
    ({ h with base := Function.update h.base z p } : Heap).WF pl := by
  have hne : ∀ y, h.poolFlag y = true → y ≠ z := by
    rintro y hy rfl
    rw [hclosed] at hy
    exact absurd hy (by decide)
  have haddr : ∀ y k, h.poolFlag y = true →
      ({ h with base := Function.update h.base z p } : Heap).slotAddr y k = h.slotAddr y k := by
    intro y k hy
    simp [Heap.slotAddr, Function.update_of_ne (hne y hy)]
  have hregion : ({ h with base := Function.update h.base z p } : Heap).region pl
      = h.region pl := by
    funext o
    cases o with
    | arena y =>
      simp only [Heap.region]
      split
      · rename_i hy
        rw [Function.update_of_ne (hne y hy)]
      · rfl
    | large i => rfl
  have howned := hi.owned
  rw [← hregion] at howned
  exact { hi with
    header := fun y k hy hk ↦ by rw [haddr y k hy]; exact hi.header y k hy hk
    clientSize := fun y k hb ↦ by
      rw [haddr y k (hi.bit_lt y k hb).1]
      exact hi.clientSize y k hb
    region_mapped := howned.kind
    region_apart := howned.apart
    mem_mapped := howned.mem }

theorem Heap.WF.failArena (hi : h.WF pl) {z : Pool} (hclosed : h.poolFlag z = false)
    (hflag : h.pageFlag z = 0#32) : (h.failArena pl z).WF pl :=
  Heap.WF.setBase (((hi.cachePage).reserve hflag).refuse (pl.arenaLen z)) hclosed MAP_FAILED

theorem Heap.cell_failArena (hi : h.WF pl) {z : Pool} (hclosed : h.poolFlag z = false) :
    (h.failArena pl z).cell = h.cell := by
  have hne : ∀ y k, bit (h.bitmap y) k = true → y ≠ z := by
    rintro y k hb rfl
    exact absurd (hi.bit_lt y k hb).1 (by rw [hclosed]; decide)
  funext s
  cases s with
  | pool y k =>
    refine Heap.cell_congr Iff.rfl (fun ht ↦ ?_) (fun ht ↦ ?_)
    · simp [Heap.extent, Heap.slotAddr, Heap.failArena, Function.update_of_ne (hne y k ht)]
    · simp [Heap.recorded, Heap.slotAddr, Heap.failArena, Heap.refuse, Heap.reserve,
        Heap.cachePage, Function.update_of_ne (hne y k ht)]
  | large i => rfl

end FtMalloc
