import FtMalloc.Layout
import FtMalloc.Lines

/-!
# `show_alloc_mem`

The report goes through the two bitmaps the way `find_free_zone` does, with a counter of 8 bits that
stops it at the hundredth slot, and then through the LARGE table.  For every slot that is taken it
prints an entry out of the header and adds `client_size`, an `int`, to `total_size`, a `size_t`.

The second half of the file says what is sent: `showReport_lines` gives the lines that the report
tries, whichever writes succeed, and `showReport_emits` the report as the text of a `Report`, a
heading and one row a taken slot for each of the three classes, and the total, when all of them do.
-/

set_option autoImplicit false

namespace FtMalloc

open ByteMemory CharMap Numeral

/-! ## The code -/

/-- An `int` added to a `size_t` or to an address. -/
def addInt (x : Nat) (i : Int) : Nat := ((x + i) % 2 ^ 64).toNat

/-- `meta->size & ~INDEX_MASK`. -/
def maskedSize (m : Memory) (hdr : Nat) : Nat :=
  (BitVec.ofNat 64 (metaSize m hdr) &&& ~~~(BitVec.ofNat 64 INDEX_MASK)).toNat

/-- The heading of a pool. -/
def Pool.heading : Pool → String
  | .tiny => "TINY : %p\n"
  | .small => "SMALL : %p\n"

/-- The format of an entry. -/
def Zone.entry : Zone → String
  | .pool .tiny => "%P - %P : %d byte tiny zone is %d \n"
  | .pool .small => "%P - %P : %d byte small zone is %d \n"
  | .large => "%P - %P : %d byte Large zone is %d \n"

/-- An entry for the header at `hdr`, with `size` in its last place, and the new `total_size`. -/
def showEntry (m : Memory) (Z : Zone) (hdr size total : Nat) : Print Nat := do
  let client := metaClientSize m hdr
  let _ ← ftPrintf (some (cstr Z.entry))
    [.word hdr, .word (addInt hdr client), .int client, .word size]
  return addInt total client

/-- The inner loop over a bitmap, over the bit positions `fos` still to come. -/
def showFos (h : Heap) (z : Pool) (idx : Nat) :
    List Nat → BitVec 8 → Nat → Print (BitVec 8 × Nat)
  | [], cnt, total => return (cnt, total)
  | fos :: rest, cnt, total =>
    if 100#8 ≤ cnt then return (cnt, total)
    else if (charTest (h.bitmap z idx) fos).setWidth 8 ≠ 0#8 then do
      let hdr := h.slotAddr z (idx * 8 + fos)
      let total ← showEntry h.mem (.pool z) hdr (maskedSize h.mem hdr) total
      showFos h z idx rest (cnt + 1#8) total
    else showFos h z idx rest (cnt + 1#8) total

/-- The outer loop over a bitmap, over the bytes `idx` still to come. -/
def showIdx (h : Heap) (z : Pool) : List Nat → BitVec 8 → Nat → Print Nat
  | [], _, total => return total
  | idx :: rest, cnt, total => do
    let (cnt, total) ← showFos h z idx (List.range 0x08) cnt total
    showIdx h z rest cnt total

/-- The part of the report about a pool. -/
def showPool (h : Heap) (z : Pool) (total : Nat) : Print Nat := do
  let _ ← ftPrintf (some (cstr z.heading)) [.word (h.base z)]
  showIdx h z (List.range 0x0D) 0#8 total

/-- The loop over the LARGE table, over the indices still to come. -/
def showTable (h : Heap) : List Nat → Nat → Print Nat
  | [], total => return total
  | idx :: rest, total =>
    if h.large idx ≠ 0 then do
      let total ← showEntry h.mem .large (h.large idx) (metaSize h.mem (h.large idx)) total
      showTable h rest total
    else showTable h rest total

/-- What `show_alloc_mem` does between `lock` and `unlock`; `table` is the address of
`manage_free.large`. -/
def showReport (h : Heap) (table : Nat) : Print Unit := do
  let total ← showPool h .tiny 0
  let total ← showPool h .small total
  let _ ← ftPrintf (some (cstr "LARGE : %P\n")) [.word table]
  let total ← showTable h (List.range 100) total
  let _ ← ftPrintf (some (cstr "Total size: %d byte\n")) [.word total]
  return ()

/-- `errno` behind the `n` writes from the `k`-th on: a write that fails leaves its error there,
`err` numbers them as `writes` does, and a write that succeeds leaves `errno` alone. -/
def errnoAfter (writes : Nat → Bool) (err : Nat → Nat) (k : Nat) : Nat → Nat → Nat
  | 0, errno => errno
  | n + 1, errno => if writes (k + n) then errnoAfter writes err k n errno else err (k + n)

/-- `show_alloc_mem`, called by thread `self`; `err` says which errors its writes meet. -/
def showAllocMem (self table : Nat) (err : Nat → Nat) (h : Heap) :
    Print (EStateM.Result Halt Heap Unit) :=
  match manageFreeMutexLock self h with
  | .ok _ h' => do
    let start ← get
    showReport h' table
    let log ← get
    let errno := errnoAfter (← read) err start.length (log.length - start.length) h'.errno
    return manageFreeMutexUnlock { h' with errno := errno }
  | .error e h' => return .error e h'

/-- Where every write succeeds, `errno` stays as it is. -/
theorem errnoAfter_true (err : Nat → Nat) (k errno : Nat) : ∀ n,
    errnoAfter (fun _ ↦ true) err k n errno = errno
  | 0 => rfl
  | n + 1 => errnoAfter_true err k errno n

/-- `show_alloc_mem`, from what it does between `lock` and `unlock`. -/
theorem showAllocMem_eq {self table : Nat} {err : Nat → Nat} {h h₁ : Heap} {writes : Nat → Bool}
    {log : List Write} (hlock : manageFreeMutexLock self h = .ok () h₁)
    (hrun : showReport h₁ table writes [] = some ((), log)) :
    showAllocMem self table err h writes []
      = some (manageFreeMutexUnlock
          { h₁ with errno := errnoAfter writes err 0 log.length h₁.errno }, log) := by
  rw [showAllocMem, hlock]
  show (showReport h₁ table writes []).bind _ = _
  rw [hrun]
  rfl

/-- The two loops over a bitmap as one, over the slots still to come. -/
def showSlots (h : Heap) (z : Pool) : List Nat → Nat → Print Nat
  | [], total => return total
  | k :: rest, total =>
    if bit (h.bitmap z) k = true then do
      let hdr := h.slotAddr z k
      let total ← showEntry h.mem (.pool z) hdr (maskedSize h.mem hdr) total
      showSlots h z rest total
    else showSlots h z rest total

theorem showSlots_append (h : Heap) (z : Pool) (slots' : List Nat) : ∀ slots total,
    showSlots h z (slots ++ slots') total
      = showSlots h z slots total >>= fun total ↦ showSlots h z slots' total
  | [], _ => rfl
  | k :: slots, total => by
    rw [List.cons_append, showSlots, showSlots]
    split
    · simp only [bind_assoc, showSlots_append h z slots' slots]
    · exact showSlots_append h z slots' slots total

/-! ## The text of a report -/

/-- What an entry says. -/
structure Row where
  /-- The first address of an entry, that of the header. -/
  start : Nat
  /-- The second address. -/
  stop : Nat
  /-- The number of bytes. -/
  bytes : Int
  /-- The number at the end. -/
  room : Int

/-- What a report says. -/
structure Report where
  /-- The addresses in the headings. -/
  heading : Zone → Nat
  /-- The entries under each heading. -/
  rows : Zone → List Row
  /-- The number on the last line. -/
  total : Int

/-- The name of a class in its heading. -/
def Zone.title : Zone → List Byte
  | .pool .tiny => chars "TINY : "
  | .pool .small => chars "SMALL : "
  | .large => chars "LARGE : "

/-- The name of a class in its entries. -/
def Zone.label : Zone → List Byte
  | .pool .tiny => chars "tiny"
  | .pool .small => chars "small"
  | .large => chars "Large"

/-- The digits of the addresses in the headings. -/
def Zone.table : Zone → Nat → Byte
  | .pool _ => hexLower
  | .large => hexUpper

/-- The line of an entry. -/
def Row.text (Z : Zone) (r : Row) : List Byte :=
  addressText hexUpper r.start ++ (chars " - " ++ (addressText hexUpper r.stop ++ (chars " : " ++
    (intText r.bytes ++ (chars " byte " ++ Z.label ++ chars " zone is " ++
      (intText r.room ++ chars " \n"))))))

/-- The lines of several entries. -/
def rowsText (Z : Zone) (rows : List Row) : List Byte := rows.flatMap (Row.text Z)

/-- The heading of a class. -/
def headingText (Z : Zone) (p : Nat) : List Byte := Z.title ++ (addressText Z.table p ++ chars "\n")

/-- The part of a report about one class. -/
def Report.zoneText (rep : Report) (Z : Zone) : List Byte :=
  headingText Z (rep.heading Z) ++ rowsText Z (rep.rows Z)

/-- The last line of a report. -/
def totalText (total : Int) : List Byte :=
  chars "Total size: " ++ (intText total ++ chars " byte\n")

/-- The text of a report. -/
def Report.text (rep : Report) : List Byte :=
  rep.zoneText (.pool .tiny) ++ (rep.zoneText (.pool .small) ++
    (rep.zoneText .large ++ totalText rep.total))

/-- The lines about a class. -/
def Report.zoneLines (rep : Report) (Z : Zone) : List (List Byte) :=
  headingText Z (rep.heading Z) :: (rep.rows Z).map (Row.text Z)

/-- The lines of a report. -/
def Report.lines (rep : Report) : List (List Byte) :=
  rep.zoneLines (.pool .tiny) ++ (rep.zoneLines (.pool .small) ++
    (rep.zoneLines .large ++ [totalText rep.total]))

/-- The lines make up the text. -/
theorem Report.flatten_lines (rep : Report) : rep.lines.flatten = rep.text := by
  have hzone : ∀ Z, (rep.zoneLines Z).flatten = rep.zoneText Z := by
    intro Z
    rw [Report.zoneLines, List.flatten_cons, ← List.flatMap_def]
    rfl
  rw [Report.lines, List.flatten_append, List.flatten_append, List.flatten_append, hzone, hzone,
    hzone, List.flatten_singleton]
  rfl

/-- A report without its last line. -/
def Report.front (rep : Report) : List Byte :=
  rep.zoneText (.pool .tiny) ++ (rep.zoneText (.pool .small) ++ rep.zoneText .large)

theorem Report.text_eq (rep : Report) : rep.text = rep.front ++ totalText rep.total := by
  rw [Report.text, Report.front, List.append_assoc, List.append_assoc]

/-! ## What is sent -/

theorem cstr_entry (Z : Zone) : cstr Z.entry = ascii '%' :: ascii 'P' :: (chars " - " ++
    ascii '%' :: ascii 'P' :: (chars " : " ++ ascii '%' :: ascii 'd' ::
      (chars " byte " ++ Z.label ++ chars " zone is " ++ ascii '%' :: ascii 'd' ::
        (chars " \n" ++ [0#8])))) := by
  cases Z with
  | pool z => cases z <;> decide
  | large => decide

/-- The characters of the formats between two conversions are plain. -/
theorem plain_label (Z : Zone) :
    ∀ c ∈ chars " byte " ++ Z.label ++ chars " zone is ", c ≠ 0#8 ∧ c ≠ ascii '%' := by
  cases Z with
  | pool z => cases z <;> decide
  | large => decide

theorem metaClientSize_bounds (m : Memory) (p : Nat) :
    -2 ^ 31 ≤ metaClientSize m p ∧ metaClientSize m p < 2 ^ 31 := by
  rw [metaClientSize, BitVec.toInt_ofNat']
  simp only [Int.bmod]
  omega

theorem addInt_lt (x : Nat) (i : Int) : addInt x i < 2 ^ 64 := by
  rw [addInt]
  omega

/-- What the entry for the header at `hdr` says, with `size` in its last place. -/
def headerRow (m : Memory) (hdr size : Nat) : Row :=
  ⟨hdr, addInt hdr (metaClientSize m hdr), metaClientSize m hdr, asInt size⟩

theorem expand_entry (m : Memory) (Z : Zone) {hdr : Nat} (size : Nat) (hp : hdr < 2 ^ 64) :
    expand (cstr Z.entry) [.word hdr, .word (addInt hdr (metaClientSize m hdr)),
        .int (metaClientSize m hdr), .word size]
      = some ((headerRow m hdr size).text Z) := by
  have hc := metaClientSize_bounds m hdr
  rw [cstr_entry, expand_arg (by decide) (argText_upper hp), expand_lit (by decide),
    expand_arg (by decide) (argText_upper (addInt_lt _ _)), expand_lit (by decide),
    expand_arg (by decide) (argText_int hc.1 hc.2), expand_lit (plain_label Z),
    expand_arg (by decide) (argText_word size), expand_lit (by decide), expand_nul]
  simp [Row.text, headerRow]

theorem length_row (Z : Zone) {r : Row} (hstart : r.start < 2 ^ 64) (hstop : r.stop < 2 ^ 64)
    (hbytes : -2 ^ 31 ≤ r.bytes ∧ r.bytes < 2 ^ 31) (hroom : -2 ^ 31 ≤ r.room ∧ r.room < 2 ^ 31) :
    (r.text Z).length < 2 ^ 31 := by
  have h1 := length_addressText hexUpper hstart
  have h2 := length_addressText hexUpper hstop
  have h3 := length_intText hbytes.1 hbytes.2
  have h4 := length_intText hroom.1 hroom.2
  have h5 : (chars " byte " ++ Z.label ++ chars " zone is ").length ≤ 20 := by
    cases Z with
    | pool z => cases z <;> decide
    | large => decide
  have h6 : (chars " - ").length = 3 := by decide
  have h7 : (chars " : ").length = 3 := by decide
  have h8 : (chars " \n").length = 2 := by decide
  simp only [Row.text, List.length_append] at *
  omega

/-- An entry is a line. -/
theorem showEntry_lines (m : Memory) (Z : Zone) {hdr : Nat} (size total : Nat) (hp : hdr < 2 ^ 64) :
    Lines (showEntry m Z hdr size total) (addInt total (headerRow m hdr size).bytes)
      [(headerRow m hdr size).text Z] :=
  .printf_bind (expand_entry m Z size hp) (length_row Z hp (addInt_lt _ _)
    (metaClientSize_bounds m hdr) (asInt_bounds _)) (.pure _)

/-- What the entry of a slot says. -/
def Heap.row (h : Heap) : Slot → Row
  | .pool z k => headerRow h.mem (h.slotAddr z k) (maskedSize h.mem (h.slotAddr z k))
  | .large i => headerRow h.mem (h.large i) (metaSize h.mem (h.large i))

/-- The entries of the slots of a class that are taken, among the `n` from number `k` on. -/
def Heap.rows (h : Heap) (Z : Zone) (k n : Nat) : List Row :=
  ((List.range' k n).filter fun j ↦ j < 100 ∧ h.Taken (Z.slot j)).map fun j ↦ h.row (Z.slot j)

/-- `total_size` after some entries. -/
def addRows (total : Nat) (rows : List Row) : Nat := rows.foldl (fun t r ↦ addInt t r.bytes) total

section Scans

variable {pl : Platform} {h : Heap}

theorem Heap.rows_taken {Z : Zone} {k : Nat} (n : Nat) (hk : k < 100) (ht : h.Taken (Z.slot k)) :
    h.rows Z k (n + 1) = h.row (Z.slot k) :: h.rows Z (k + 1) n := by
  rw [Heap.rows, List.range'_succ, List.filter_cons_of_pos (by simpa using ⟨hk, ht⟩), List.map_cons]
  rfl

theorem Heap.rows_free {Z : Zone} {k : Nat} (n : Nat) (hfree : ¬ (k < 100 ∧ h.Taken (Z.slot k))) :
    h.rows Z k (n + 1) = h.rows Z (k + 1) n := by
  rw [Heap.rows, List.range'_succ, List.filter_cons_of_neg (by simpa using hfree)]
  rfl

theorem addRows_append (total : Nat) (rows rows' : List Row) :
    addRows total (rows ++ rows') = addRows (addRows total rows) rows' := List.foldl_append

/-- The address of a header is an address. -/
theorem Heap.WF.base_lt (hi : h.WF pl) {s : Slot} (ht : h.Taken s) :
    (h.extent s).base < 2 ^ 64 := by
  have hm := (hi.extent_mapped (hi.exists_of_taken ht)).1
  have hpos := hm.len_pos
  have hstop := hm.stop_le
  omega

/-- The inner loop over a bitmap, `n` rounds before its end, is the loop over the slots of the byte.
The counter stops it at the hundredth slot. -/
theorem showFos_eq (h : Heap) (z : Pool) (idx : Nat) : ∀ n fos total, fos + n = 8 →
    showFos h z idx (List.range' fos n) (BitVec.ofNat 8 (min 100 (8 * idx + fos))) total
      = (do
          let total ← showSlots h z ((List.range' (8 * idx + fos) n).filter (· < 100)) total
          return (BitVec.ofNat 8 (min 100 (8 * idx + 8)), total)) := by
  intro n
  induction n with
  | zero =>
    intro fos total hfos
    obtain rfl : fos = 8 := by omega
    rfl
  | succ n ih =>
    intro fos total hfos
    have hcnt : 100#8 ≤ BitVec.ofNat 8 (min 100 (8 * idx + fos)) ↔ 100 ≤ 8 * idx + fos := by
      rw [BitVec.le_def, BitVec.toNat_ofNat, BitVec.toNat_ofNat]
      omega
    rw [List.range'_succ, showFos]
    by_cases hfull : 100 ≤ 8 * idx + fos
    · have hnone : (List.range' (8 * idx + fos) (n + 1)).filter (· < 100) = [] := by
        refine List.filter_eq_nil_iff.mpr fun k hk ↦ ?_
        have := (List.mem_range'_1.mp hk).1
        simp only [decide_eq_true_eq]
        omega
      rw [if_pos (hcnt.mpr hfull), hnone, Nat.min_eq_left hfull, Nat.min_eq_left (by omega)]
      rfl
    have hnext : BitVec.ofNat 8 (min 100 (8 * idx + fos)) + 1#8
        = BitVec.ofNat 8 (min 100 (8 * idx + (fos + 1))) := by
      rw [← BitVec.toNat_inj, BitVec.toNat_add, BitVec.toNat_ofNat, BitVec.toNat_ofNat,
        BitVec.toNat_ofNat]
      omega
    have hbit : bit (h.bitmap z) (8 * idx + fos) = (h.bitmap z idx).getLsbD fos := by
      rw [bit]
      congr 2 <;> omega
    have hfind : (charTest (h.bitmap z idx) fos).setWidth 8 ≠ 0#8
        ↔ bit (h.bitmap z) (8 * idx + fos) = true := by
      rw [Ne, charTest_narrow_eq_zero_iff (h.bitmap z idx) (by omega), ← hbit, Bool.not_eq_false]
    have hslots : (List.range' (8 * idx + fos) (n + 1)).filter (· < 100)
        = (8 * idx + fos) :: (List.range' (8 * idx + (fos + 1)) n).filter (· < 100) := by
      rw [List.range'_succ, List.filter_cons_of_pos (by simpa using hfull)]
      rfl
    simp only [hfind]
    rw [if_neg (mt hcnt.mp hfull), hnext, Nat.mul_comm idx 8, hslots, showSlots]
    split
    · simp only [ih (fos + 1) _ (by omega), bind_assoc]
    · exact ih (fos + 1) total (by omega)

/-- The outer loop over a bitmap, `n` rounds before its end. -/
theorem showIdx_range' (h : Heap) (z : Pool) : ∀ n idx total,
    showIdx h z (List.range' idx n) (BitVec.ofNat 8 (min 100 (8 * idx))) total
      = showSlots h z ((List.range' (8 * idx) (8 * n)).filter (· < 100)) total := by
  intro n
  induction n with
  | zero => exact fun idx total ↦ rfl
  | succ n ih =>
    intro idx total
    have hslots : List.range' (8 * idx) (8 * (n + 1))
        = List.range' (8 * idx) 8 ++ List.range' (8 * (idx + 1)) (8 * n) := by
      rw [show 8 * (n + 1) = 8 + 8 * n by omega, ← List.range'_append_1]
      rfl
    have hfos := showFos_eq h z idx 8 0 total rfl
    rw [Nat.add_zero] at hfos
    rw [hslots, List.filter_append, showSlots_append, List.range'_succ, showIdx,
      List.range_eq_range', hfos]
    simp only [bind_assoc, pure_bind]
    exact bind_congr fun total ↦ ih (idx + 1) total

/-- **The two loops over a bitmap** are one loop over the slots `0, …, 99`. -/
theorem showIdx_eq (h : Heap) (z : Pool) (total : Nat) :
    showIdx h z (List.range 0x0D) 0#8 total = showSlots h z (List.range 100) total := by
  have hall : (List.range' 0 104).filter (· < 100) = List.range 100 := by decide
  rw [List.range_eq_range', ← hall]
  exact showIdx_range' h z 13 0 total

/-- The loop over the slots of a pool tries one line for each that is taken. -/
theorem showSlots_lines (hi : h.WF pl) (z : Pool) : ∀ slots total,
    Lines (showSlots h z slots total)
      (addRows total ((slots.filter fun k ↦ h.Taken (.pool z k)).map fun k ↦ h.row (.pool z k)))
      (((slots.filter fun k ↦ h.Taken (.pool z k)).map fun k ↦ h.row (.pool z k)).map
        (Row.text (.pool z))) := by
  intro slots
  induction slots with
  | nil => exact fun total ↦ .pure total
  | cons k slots ih =>
    intro total
    rw [showSlots]
    by_cases ht : h.Taken (.pool z k)
    · have hbit : bit (h.bitmap z) k = true := ht
      rw [if_pos hbit, List.filter_cons_of_pos (by simpa using ht)]
      exact (showEntry_lines h.mem (.pool z) _ total (hi.base_lt ht)).bind (ih _)
    · have hbit : ¬ bit (h.bitmap z) k = true := ht
      rw [if_neg hbit, List.filter_cons_of_neg (by simpa using ht)]
      exact ih total

/-- The loop over the LARGE table, `n` rounds before its end. -/
theorem showTable_lines (hi : h.WF pl) : ∀ n idx total, idx + n = 100 →
    Lines (showTable h (List.range' idx n) total) (addRows total (h.rows .large idx n))
      ((h.rows .large idx n).map (Row.text .large)) := by
  intro n
  induction n with
  | zero => exact fun idx total _ ↦ .pure total
  | succ n ih =>
    intro idx total hidx
    rw [List.range'_succ, showTable]
    by_cases ht : h.large idx ≠ 0
    · rw [if_pos ht, Heap.rows_taken (Z := .large) n (by omega) ht]
      exact (showEntry_lines h.mem .large _ total (hi.base_lt (s := .large idx) ht)).bind
        (ih (idx + 1) _ (by omega))
    · rw [if_neg ht, Heap.rows_free (Z := .large) n (fun hk ↦ ht hk.2)]
      exact ih (idx + 1) total (by omega)

/-- A heading is a line. -/
theorem heading_lines (Z : Zone) (p : Nat) {format : String} {c : Byte} {β : Type} {m : Print β}
    {b : β} {lines : List (List Byte)} (hc : c ≠ ascii '%')
    (hformat : cstr format = Z.title ++ ascii '%' :: c :: (chars "\n" ++ [0#8]))
    (htext : argText c (.word p) = some (addressText Z.table (p % 2 ^ 64)))
    (hm : Lines m b lines) : Lines (ftPrintf (some (cstr format)) [.word p] >>= fun _ ↦ m) b
      (headingText Z (p % 2 ^ 64) :: lines) := by
  have htitle : (∀ c ∈ Z.title, c ≠ 0#8 ∧ c ≠ ascii '%') ∧ Z.title.length ≤ 8 := by
    cases Z with
    | pool z => cases z <;> decide
    | large => decide
  refine .printf_bind ?_ ?_ hm
  · rw [hformat, expand_lit htitle.1, expand_arg hc htext, expand_lit (by decide), expand_nul]
    simp [headingText]
  · have hlen := length_addressText Z.table (Nat.mod_lt p (by decide : 0 < 2 ^ 64))
    have hnl : (chars "\n").length = 1 := by decide
    simp only [headingText, List.length_append]
    omega

/-- What the report of a state says. -/
def Heap.report (h : Heap) (table : Nat) : Report where
  heading := fun
    | .pool z => h.base z % 2 ^ 64
    | .large => table % 2 ^ 64
  rows := fun Z ↦ h.rows Z 0 100
  total := asInt (addRows 0 (h.rows (.pool .tiny) 0 100 ++ (h.rows (.pool .small) 0 100 ++
    h.rows .large 0 100)))

theorem showPool_lines (hi : h.WF pl) (table : Nat) (z : Pool) (total : Nat) :
    Lines (showPool h z total) (addRows total (h.rows (.pool z) 0 100))
      ((h.report table).zoneLines (.pool z)) := by
  have hrows : h.rows (.pool z) 0 100 = ((List.range 100).filter fun k ↦ h.Taken (.pool z k)).map
      fun k ↦ h.row (.pool z k) := by
    rw [Heap.rows, ← List.range_eq_range']
    refine congrArg (List.map _) (List.filter_congr fun k hk ↦ ?_)
    simp only [List.mem_range.mp hk, true_and]
    rfl
  refine heading_lines (.pool z) (h.base z) (c := ascii 'p') (by decide) (by cases z <;> decide) rfl
    ?_
  show Lines (showIdx h z (List.range 0x0D) 0#8 total) _ ((h.rows (.pool z) 0 100).map _)
  rw [showIdx_eq, hrows]
  exact showSlots_lines hi z _ total

/-- **The report is tried line by line.** -/
theorem showReport_lines (hi : h.WF pl) (table : Nat) :
    Lines (showReport h table) () (h.report table).lines := by
  have htotal : addRows 0 (h.rows (.pool .tiny) 0 100 ++ (h.rows (.pool .small) 0 100 ++
      h.rows .large 0 100)) = addRows (addRows (addRows 0 (h.rows (.pool .tiny) 0 100))
        (h.rows (.pool .small) 0 100)) (h.rows .large 0 100) := by
    rw [addRows_append, addRows_append]
  have hlast : ∀ total, Lines (do
      let _ ← ftPrintf (some (cstr "Total size: %d byte\n")) [.word total]
      return ()) () [totalText (asInt total)] := by
    intro total
    have hformat : cstr "Total size: %d byte\n" = chars "Total size: " ++ ascii '%' :: ascii 'd' ::
        (chars " byte\n" ++ [0#8]) := by decide
    refine .printf_bind ?_ ?_ (.pure ())
    · rw [hformat, expand_lit (by decide), expand_arg (by decide) (argText_word total),
        expand_lit (by decide), expand_nul]
      simp [totalText]
    · have hlen := length_intText (asInt_bounds total).1 (asInt_bounds total).2
      have h1 : (chars "Total size: ").length = 12 := by decide
      have h2 : (chars " byte\n").length = 6 := by decide
      simp only [totalText, List.length_append]
      omega
  refine (showPool_lines hi table .tiny 0).bind ((showPool_lines hi table .small _).bind ?_)
  refine heading_lines .large table (c := ascii 'P') (by decide) (by decide) rfl ?_
  refine (showTable_lines hi 100 0 _ rfl).bind ?_
  rw [← htotal]
  exact hlast _

/-- **What `show_alloc_mem` sends** when every write succeeds. -/
theorem showReport_emits (hi : h.WF pl) (table : Nat) :
    Emits 1 (showReport h table) () (h.report table).text := by
  rw [← Report.flatten_lines]
  exact (showReport_lines hi table).emits

end Scans

end FtMalloc
