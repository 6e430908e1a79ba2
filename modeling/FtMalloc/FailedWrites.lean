import FtMalloc.Report

/-!
# A report whose writes fail

`ft_printf` comes back whichever of its writes fail, and `show_alloc_mem` does not look at its
answers.

* `showReport_returns` — whatever the headers hold and whichever writes fail, the report is worked
  off to its last line.
* `report_line_by_line` — in a world the library can get into, a failed write costs the rest of its
  line at most, and sets `errno`; all else stays as it is.
-/

set_option autoImplicit false

namespace FtMalloc

open ByteMemory CharMap Numeral

variable {pl : Platform} {w : World}

theorem showEntry_returns (m : Memory) (Z : Zone) (hdr size total : Nat) :
    Returns (showEntry m Z hdr size total) fun _ ↦ True := by
  have hexp : ∃ out, expand (cstr Z.entry) [.word hdr, .word (addInt hdr (metaClientSize m hdr)),
      .int (metaClientSize m hdr), .word size] = some out := by
    rw [cstr_entry, expand_arg (by decide) rfl, expand_lit (by decide), expand_arg (by decide) rfl,
      expand_lit (by decide), expand_arg (by decide) rfl, expand_lit (plain_label Z),
      expand_arg (by decide) rfl, expand_lit (by decide), expand_nul]
    exact ⟨_, rfl⟩
  obtain ⟨out, hexp⟩ := hexp
  obtain ⟨p, hplan, -⟩ := plan_of_expand hexp
  exact (ftPrintf_returns hplan).bind fun _ _ ↦ .pure trivial

theorem showFos_returns (h : Heap) (z : Pool) (idx : Nat) : ∀ rest cnt total,
    Returns (showFos h z idx rest cnt total) fun _ ↦ True := by
  intro rest
  induction rest with
  | nil => exact fun cnt total ↦ .pure trivial
  | cons fos rest ih =>
    intro cnt total
    rw [showFos]
    split
    · exact .pure trivial
    · split
      · exact (showEntry_returns _ _ _ _ _).bind fun total _ ↦ ih _ total
      · exact ih _ total

theorem showIdx_returns (h : Heap) (z : Pool) : ∀ rest cnt total,
    Returns (showIdx h z rest cnt total) fun _ ↦ True := by
  intro rest
  induction rest with
  | nil => exact fun cnt total ↦ .pure trivial
  | cons idx rest ih =>
    exact fun cnt total ↦ (showFos_returns h z idx _ cnt total).bind fun r _ ↦ ih r.1 r.2

theorem showTable_returns (h : Heap) : ∀ rest total,
    Returns (showTable h rest total) fun _ ↦ True := by
  intro rest
  induction rest with
  | nil => exact fun total ↦ .pure trivial
  | cons idx rest ih =>
    intro total
    rw [showTable]
    split
    · exact (showEntry_returns _ _ _ _ _).bind fun total _ ↦ ih total
    · exact ih total

theorem showPool_returns (h : Heap) (z : Pool) (total : Nat) :
    Returns (showPool h z total) fun _ ↦ True := by
  have hplan : ∃ p, plan (cstr z.heading) [.word (h.base z)] = some p := by
    cases z <;> exact ⟨_, rfl⟩
  obtain ⟨p, hplan⟩ := hplan
  exact (ftPrintf_returns hplan).bind fun _ _ ↦ showIdx_returns h z _ _ total

/-- **`show_alloc_mem` comes to its end**, whichever of its writes fail. -/
theorem showReport_returns (h : Heap) (table : Nat) :
    Returns (showReport h table) fun _ ↦ True := by
  refine (showPool_returns h .tiny 0).bind fun tiny _ ↦ ?_
  refine (showPool_returns h .small tiny).bind fun small _ ↦ ?_
  refine (ftPrintf_returns rfl).bind fun _ _ ↦ ?_
  refine (showTable_returns h _ small).bind fun total _ ↦ ?_
  exact (ftPrintf_returns rfl).bind fun _ _ ↦ .pure trivial

/-- **A report whose writes fail.**  In every world the library can get into, and whichever writes
fail, `show_alloc_mem` comes back and leaves the state as it was, but for `errno`, where the last
write that failed leaves its error.  It tries the lines of the report one after the other: of each
line a beginning, and the whole line unless one of the writes for this line fails.  What is sent in
the end is the text of the report, with gaps. -/
theorem report_line_by_line (hw : w.Reachable pl) (self table : Nat) (writes : Nat → Bool)
    (err : Nat → Nat) :
    ∃ parts : List (List Write),
      showAllocMem self table err w.heap writes [] = some (.ok () { w.heap with
        errno := errnoAfter writes err 0 parts.flatten.length w.heap.errno }, parts.flatten) ∧
      List.Forall₂ (Tries 1) parts (w.heap.report table).lines ∧
      (sent parts.flatten).Sublist ((w.heap.report table).text.map (1, ·)) := by
  have hlock := manageFreeMutexLock_free self hw.wf.unlocked
  obtain ⟨parts, hrun, htries, -⟩ := showReport_lines (hw.wf.heap.lock self) table writes []
  rw [Heap.report_lock] at htries
  refine ⟨parts, ?_, htries, Report.flatten_lines _ ▸ sent_sublist_of_tries htries⟩
  rw [showAllocMem_eq hlock hrun, List.nil_append, manageFreeMutexUnlock, modify_apply]
  show some (EStateM.Result.ok () ({ w.heap with mutex := none, errno := _ } : Heap), _) = _
  rw [← hw.wf.unlocked]
  rfl

/-- The report of two blocks when the fourth write fails with `EIO`. -/
theorem report_line_by_line_twoBlocks : ∃ parts : List (List Write),
    showAllocMem 1 0x5000 (fun _ ↦ 5) World.twoBlocks.heap (fun k ↦ k ≠ 3) []
        = some (.ok () { World.twoBlocks.heap with errno := 5 }, parts.flatten) ∧
      List.Forall₂ (Tries 1) parts (World.twoBlocks.heap.report 0x5000).lines ∧
      (sent parts.flatten).Sublist ((World.twoBlocks.heap.report 0x5000).text.map (1, ·)) := by
  obtain ⟨parts, hrun, htries, hsub⟩ :=
    report_line_by_line World.reachable_twoBlocks 1 0x5000 (fun k ↦ k ≠ 3) fun _ ↦ 5
  have hfourth : (showAllocMem 1 0x5000 (fun _ ↦ 5) World.twoBlocks.heap (fun k ↦ k ≠ 3) []).map
      (fun done ↦ decide (3 < done.2.length)) = some true := by decide +kernel
  have hlen : 3 < parts.flatten.length := by
    rw [hrun, Option.map_some] at hfourth
    exact of_decide_eq_true (Option.some_inj.mp hfourth)
  have herrno : ∀ n, 3 < n → errnoAfter (fun k ↦ k ≠ 3) (fun _ ↦ 5) 0 n
      World.twoBlocks.heap.errno = 5 := by
    intro n hn
    induction n, hn using Nat.le_induction with
    | base => rfl
    | succ n hn ih =>
      rw [errnoAfter, ih]
      split <;> rfl
  rw [herrno _ hlen] at hrun
  exact ⟨parts, hrun, htries, hsub⟩

end FtMalloc
