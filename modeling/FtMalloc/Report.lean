import Mathlib.Algebra.BigOperators.Ring.Finset
import Mathlib.Algebra.Order.BigOperators.Group.List
import FtMalloc.ShowAllocMem
import FtMalloc.World

/-!
# What the report says of the live blocks

A report is right about a world (`World.Reports`) when the entries under each heading are the live
blocks of the class, each once and with the size last requested for it, and the total is the sum of
these sizes over all live blocks.

The entries are always those of the live blocks (`rows_perm`), but what they count is `client_size`,
an `int`, and `%d` prints an `int` of `total_size` too.  So the report is right exactly as long as
all sizes together are at most `INT_MAX` (`report_exact_iff`): beyond that the last line cannot be.
-/

set_option autoImplicit false

namespace FtMalloc

open ByteMemory CharMap

/-- The greatest `int`. -/
def INT_MAX : Nat := 0x7FFFFFFF

variable {pl : Platform} {h : Heap} {w : World}

/-! ## Being right -/

/-- What the entries of a class should say: the headers of the live blocks of the class, and their
sizes. -/
def World.entries (w : World) (Z : Zone) : List (Nat × Int) :=
  (w.live.filter fun b ↦ b.zone = Z).map fun b ↦ (b.ptr, (b.size : Int))

/-- What the entries do say: the payload behind the header, and the number of bytes. -/
def Report.entries (rep : Report) (Z : Zone) : List (Nat × Int) :=
  (rep.rows Z).map fun r ↦ (r.start + METASIZE, r.bytes)

/-- The sizes of all live blocks together. -/
def World.total (w : World) : Nat := (w.live.map Block.size).sum

/-- The text is a report with one entry for each live block, under the heading of its class and
with the size last requested, and none for anything else, and with the sum of the sizes on its
last line. -/
def World.Reports (w : World) (out : List Byte) : Prop :=
  ∃ rep : Report, out = rep.text ∧ (∀ Z, (rep.entries Z).Perm (w.entries Z)) ∧ rep.total = w.total

/-- With every write succeeding, `show_alloc_mem` called by thread `self` comes back, leaves the
state as it was, and sends `out` to descriptor 1 and nothing else. -/
def World.Shows (w : World) (self table : Nat) (out : List Byte) : Prop :=
  ∃ log, (∀ err, showAllocMem self table err w.heap (fun _ ↦ true) []
    = some (.ok () w.heap, log)) ∧ sent log = out.map (1, ·)

/-- The mutex is no part of the report. -/
theorem Heap.report_lock (h : Heap) (self table : Nat) :
    (h.lock self).report table = h.report table := by
  have ht : ∀ s, (h.lock self).Taken s ↔ h.Taken s := fun s ↦ by cases s <;> exact Iff.rfl
  have hrow : ∀ s, (h.lock self).row s = h.row s := fun s ↦ by cases s <;> rfl
  have hrows : (h.lock self).rows = h.rows := by
    funext Z k n
    simp only [Heap.rows, ht, hrow]
  simp only [Heap.report, hrows]
  rfl

/-- The report of a well-formed world. -/
theorem World.WF.shows (hw : w.WF pl) (self table : Nat) :
    w.Shows self table (w.heap.report table).text := by
  have hlock : manageFreeMutexLock self w.heap = .ok ⟨⟩ (w.heap.lock self) := by
    rw [manageFreeMutexLock, get_bind, hw.unlocked]
    rfl
  have hunlock : manageFreeMutexUnlock (w.heap.lock self) = .ok ⟨⟩ w.heap := by
    have hnone : ({ w.heap with mutex := none } : Heap) = w.heap := by rw [← hw.unlocked]
    rw [manageFreeMutexUnlock, modify_apply]
    exact congrArg _ hnone
  obtain ⟨log, hrun, hsent⟩ := showReport_emits (hw.heap.lock self) table []
  refine ⟨log, fun err ↦ ?_, by rw [hsent, Heap.report_lock]; rfl⟩
  rw [showAllocMem_eq hlock hrun, errnoAfter_true]
  exact congrArg (fun x ↦ some (x, log)) hunlock

/-! ## The entries -/

/-- The header of a slot that is taken holds the size on record, as an `int`. -/
theorem Heap.WF.clientSize_eq (hi : h.WF pl) {s : Slot} (ht : h.Taken s) :
    metaClientSize h.mem (h.extent s).base = asInt (h.recorded s) := by
  cases s with
  | pool z k =>
    have hsz := hi.clientSize z k ht
    have hz := z.stride_bounds
    rw [SMALL] at hz
    simp only [Heap.recorded, Heap.extent]
    rw [asInt_of_bounds (by omega) (by omega)]
    omega
  | large i => exact hi.large_client i ht

theorem Heap.row_start (s : Slot) : (h.row s).start = (h.extent s).base := by
  cases s <;> rfl

theorem Heap.row_bytes (s : Slot) :
    (h.row s).bytes = metaClientSize h.mem (h.extent s).base := by
  cases s <;> rfl

/-- **The entries of the report are those of the live blocks**, but for what an `int` makes of their
sizes. -/
theorem World.WF.rows_perm (hw : w.WF pl) (Z : Zone) :
    ((w.heap.rows Z 0 100).map fun r ↦ (r.start + METASIZE, r.bytes)).Perm
      ((w.live.filter fun b ↦ b.zone = Z).map fun b ↦ (b.ptr, asInt b.size)) := by
  have hcell : ∀ {j}, j < 100 ∧ w.heap.Taken (Z.slot j) → w.heap.cell (Z.slot j) = some _ :=
    fun h ↦ Heap.cell_of_taken h.2
  rw [Heap.rows, List.map_map]
  refine (List.perm_ext_iff_of_nodup ?_ ?_).mpr ?_
  · refine List.Nodup.map_on (fun j hj k hk hjk ↦ ?_) (List.Nodup.filter _ List.nodup_range')
    have hj := hcell (by simpa using (List.mem_filter.mp hj).2)
    have hk := hcell (by simpa using (List.mem_filter.mp hk).2)
    have hptr := congrArg Prod.fst hjk
    simp only [Function.comp_apply, Heap.row_start] at hptr
    simpa using congrArg Slot.index (hw.heap.ptr_inj hj hk hptr)
  · refine List.Nodup.of_map Prod.fst ?_
    rw [List.map_map]
    exact hw.tracks.nodup.sublist (List.filter_sublist.map _)
  · rintro ⟨p, i⟩
    simp only [List.mem_map, List.mem_filter, List.mem_range'_1, decide_eq_true_eq,
      Function.comp_apply, Prod.mk.injEq, Heap.row_start, Heap.row_bytes]
    constructor
    · rintro ⟨j, ⟨-, hj⟩, rfl, rfl⟩
      obtain ⟨b, hb, hat⟩ := hw.tracks.complete _ _ (hcell hj)
      refine ⟨b, ⟨hb, by rw [← hat.zone, Zone.zone_slot]⟩, hat.ptr.symm, ?_⟩
      rw [hw.heap.clientSize_eq hj.2, ← hat.size]
    · rintro ⟨b, ⟨hb, rfl⟩, rfl, rfl⟩
      obtain ⟨s, c, hc, hat⟩ := hw.cell_of_live hb
      have ht := Heap.taken_of_cell hc
      have hlt := hw.heap.index_lt ht
      refine ⟨s.index, ⟨⟨Nat.zero_le _, by omega⟩, hlt, ?_⟩, ?_, ?_⟩ <;>
        rw [← hat.zone, Zone.slot_index]
      · exact ht
      · rw [← hat.ptr, (hw.heap.extent_of_cell hc).1]
      · rw [hw.heap.clientSize_eq ht, ← hat.size, (Heap.cell_eq_some.mp hc).2]

/-! ## The total -/

/-- Adding up entries, in a `size_t`. -/
theorem addRows_eq (rows : List Row) : ∀ total, total < 2 ^ 64 →
    addRows total rows = addInt total (rows.map Row.bytes).sum := by
  induction rows with
  | nil =>
    intro total hlt
    show total = ((total + 0) % 2 ^ 64 : Int).toNat
    omega
  | cons r rows ih =>
    intro total hlt
    show addRows (addInt total r.bytes) rows = _
    rw [ih _ (addInt_lt _ _), List.map_cons, List.sum_cons, addInt, addInt, addInt]
    omega

/-- A sum over the live blocks is the sum of those over the blocks of each class. -/
theorem sum_zones (f : Block → Int) (live : List Block) :
    ((live.filter fun b ↦ b.zone = .pool .tiny).map f).sum +
        (((live.filter fun b ↦ b.zone = .pool .small).map f).sum +
          ((live.filter fun b ↦ b.zone = .large).map f).sum) = (live.map f).sum := by
  induction live with
  | nil => rfl
  | cons b live ih =>
    rw [List.map_cons, List.sum_cons, ← ih]
    match hz : b.zone with
    | .pool .tiny => simp [hz]; omega
    | .pool .small => simp [hz]; omega
    | .large => simp [hz]; omega

/-- The number on the last line. -/
theorem World.WF.report_total (hw : w.WF pl) (table : Nat) :
    (w.heap.report table).total = asInt (w.live.map fun b ↦ asInt b.size).sum := by
  have hzone : ∀ Z, ((w.heap.rows Z 0 100).map Row.bytes).sum
      = ((w.live.filter fun b ↦ b.zone = Z).map fun b ↦ asInt b.size).sum := by
    intro Z
    have hperm := ((hw.rows_perm Z).map Prod.snd).sum_eq
    rw [List.map_map, List.map_map] at hperm
    exact hperm
  have hwrap : ∀ i, asInt (addInt 0 i) = asInt i := by
    intro i
    have hcast : ((addInt 0 i : Nat) : Int) = i % 2 ^ 64 := by
      rw [addInt]
      omega
    rw [hcast, asInt_emod]
  show asInt (addRows 0 _) = _
  rw [addRows_eq _ 0 (by decide), hwrap, List.map_append, List.map_append, List.sum_append,
    List.sum_append, hzone, hzone, hzone, sum_zones]

/-! ## The last line -/

/-- What stands after the last blank can be read off a text. -/
theorem eq_of_append_blank {front front' last last' : List Byte} {c : Byte} (hl : c ∉ last)
    (hl' : c ∉ last') (h : front ++ c :: last = front' ++ c :: last') : last = last' := by
  rcases List.append_eq_append_iff.mp h with ⟨as, -, he⟩ | ⟨as, -, he⟩ <;> cases as with
  | nil => simpa [eq_comm] using he
  | cons x xs =>
    rw [List.cons_append, List.cons.injEq] at he
    simp [he.2] at hl hl'

/-- **The total can be read off the text of a report.** -/
theorem totalText_inj {front front' : List Byte} {n m : Int}
    (h : front ++ totalText n = front' ++ totalText m) : n = m := by
  have hblank : ∀ i, ascii ' ' ∉ intText i := by
    intro i hi
    rcases List.mem_append.mp hi with hi | hi
    · split at hi
      · exact absurd hi (by decide)
      · exact absurd hi (by simp)
    · obtain ⟨d, hd, hc⟩ := eq_decimal_of_mem_natText hi
      exact (decimal_ne d hd).2 hc.symm
  have htotal : ∀ i, totalText i = chars "Total size:" ++ ascii ' ' :: intText i
      ++ chars " byte\n" := by
    intro i
    have hchars : chars "Total size: " = chars "Total size:" ++ [ascii ' '] := by decide
    rw [totalText, hchars]
    simp
  simp only [htotal, ← List.append_assoc, List.append_cancel_right_eq] at h
  exact intText_inj (eq_of_append_blank (hblank n) (hblank m) h)

/-! ## Right or wrong -/

/-- **The report is right exactly as long as the sizes add up to an `int`.** -/
theorem World.WF.reports_iff (hw : w.WF pl) (table : Nat) :
    w.Reports (w.heap.report table).text ↔ w.total ≤ INT_MAX := by
  constructor
  · rintro ⟨rep, htext, -, htotal⟩
    rw [Report.text_eq, Report.text_eq] at htext
    have hle := (asInt_bounds (w.live.map fun b ↦ asInt b.size).sum).2
    rw [← hw.report_total table, totalText_inj htext, htotal] at hle
    rw [INT_MAX]
    omega
  · intro hle
    have hsize : ∀ b ∈ w.live, asInt b.size = (b.size : Int) := by
      intro b hb
      have hmem : b.size ≤ w.total := List.le_sum_of_mem (List.mem_map_of_mem hb)
      rw [INT_MAX] at hle
      exact asInt_of_lt (by omega)
    refine ⟨w.heap.report table, rfl, fun Z ↦ ?_, ?_⟩
    · have hentries : w.entries Z
          = (w.live.filter fun b ↦ b.zone = Z).map fun b ↦ (b.ptr, asInt b.size) :=
        List.map_congr_left fun b hb ↦ by rw [hsize b (List.mem_filter.mp hb).1]
      rw [hentries]
      exact hw.rows_perm Z
    · have hsum : (w.live.map fun b ↦ asInt b.size).sum = (w.total : Int) := by
        rw [List.map_congr_left hsize, World.total, Nat.cast_list_sum, List.map_map]
        rfl
      rw [hw.report_total, hsum]
      rw [INT_MAX] at hle
      exact asInt_of_lt (by omega)

/-- **The report is right exactly when the sizes of the live blocks add up to an `int`.**  In every
world the library can get into, `show_alloc_mem` comes back when every write succeeds, and sends one
text.  That text has one entry for each live block, under the heading of its class and with the size
last requested for it, none for anything else, and the sum of the sizes on its last line, exactly if
that sum is at most `INT_MAX`. -/
theorem report_exact_iff (hw : w.Reachable pl) (self table : Nat) :
    ∃ out, w.Shows self table out ∧ (w.Reports out ↔ w.total ≤ INT_MAX) :=
  ⟨_, hw.wf.shows self table, hw.wf.reports_iff table⟩

/-- The report of a TINY block of 1 byte and a LARGE one of 600 is right. -/
theorem report_exact_iff_twoBlocks :
    ∃ out, World.twoBlocks.Shows 1 0x5000 out ∧ World.twoBlocks.Reports out := by
  obtain ⟨out, hshow, hiff⟩ := report_exact_iff World.reachable_twoBlocks 1 0x5000
  exact ⟨out, hshow, hiff.mpr (by decide +kernel)⟩

/-- The world after a request for 2 GiB was served. -/
def World.twoGiB : World :=
  (World.initial fun _ ↦ 0#8).after .pages4k 1 (.malloc 2147483648) (some 0x10000) true

/-- **A block of 2 GiB is misreported**: the last line says `-2147483648`. -/
theorem twoGiB_misreported : World.twoGiB.Reachable .pages4k ∧
    World.twoGiB.live.map Block.size = [2147483648] ∧
    ∃ out front, World.twoGiB.Shows 1 0x5000 out ∧ out = front ++ totalText (-2147483648) ∧
      ¬ World.twoGiB.Reports out := by
  have hreach : World.twoGiB.Reachable .pages4k :=
    ⟨_, _, ⟨_, rfl⟩, Run.single (Step.of_answer (r := 0x10010) (by decide +kernel))⟩
  have hsizes : World.twoGiB.live.map Block.size = [2147483648] := by decide +kernel
  have hw := hreach.wf
  refine ⟨hreach, hsizes, _, (World.twoGiB.heap.report 0x5000).front, hw.shows 1 0x5000, ?_, ?_⟩
  · have hasInt : World.twoGiB.live.map (fun b ↦ asInt b.size)
        = (World.twoGiB.live.map Block.size).map fun n : Nat ↦ asInt (n : Int) := by
      rw [List.map_map]
      rfl
    rw [Report.text_eq, hw.report_total, hasInt, hsizes]
    rfl
  · rw [hw.reports_iff, World.total, hsizes]
    decide

end FtMalloc
