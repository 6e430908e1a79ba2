import FtMalloc.Digits
import FtMalloc.Lib.Delimits
import FtMalloc.Observe
import FtMalloc.Report

/-!
# Reading a report back

A report is a text for people, but nothing in it is lost: addresses and numbers are closed by a
blank or a newline, no entry begins like a heading, and so a report is determined by its text
(`Report.text_inj`).

What a report tells of the state it was made in is `same_report_iff`: for each pool whether its
arena was set up, was lost, or was never asked for, and for each block, in the order of the slots,
its address, its size and the length of what it lies in, both as an `int`.  The heading of a pool
is enough for the first, since the pointer to the arena has a value of its own in each of the three
cases (`Heap.Headed`).

With `indistinguishable_iff` in mind this is more than any caller can find out: as long as no
mapping has 4 GiB, two worlds with one report have the same live blocks, and no sequence of calls
tells them apart (`report_decides`).
-/

set_option autoImplicit false

namespace FtMalloc

open ByteMemory Numeral CharMap

/-! ## The words -/

/-- Sixteen digits that can be told apart, and none of them a blank. -/
structure HexTable (table : Nat → Byte) : Prop where
  blank : ∀ d < 16, table d ≠ ascii ' ' ∧ table d ≠ ascii '\n'
  value : ∃ read : Byte → Nat, ∀ d < 16, read (table d) = d

theorem hexTable_upper : HexTable hexUpper :=
  ⟨by decide, fun c ↦ (chars "0123456789ABCDEF").idxOf c, by decide⟩

theorem hexTable_lower : HexTable hexLower :=
  ⟨by decide, fun c ↦ (chars "0123456789abcdef").idxOf c, by decide⟩

theorem Zone.hexTable (Z : Zone) : HexTable Z.table := by
  cases Z with
  | pool z => exact hexTable_lower
  | large => exact hexTable_upper

variable {table : Nat → Byte} {p q : Nat}

/-- An address is written without blanks. -/
theorem HexTable.address_ne (ht : HexTable table) (p : Nat) :
    ∀ c ∈ addressText table p, c ≠ ascii ' ' ∧ c ≠ ascii '\n' := by
  rw [addressText]
  split
  · decide
  · intro c hc
    rcases List.mem_append.mp hc with hc | hc
    · exact (by decide : ∀ c ∈ chars "0x", c ≠ ascii ' ' ∧ c ≠ ascii '\n') c hc
    · obtain ⟨d, hd, rfl⟩ := List.mem_map.mp hc
      exact ht.blank d (lt_of_mem_digits (by decide) hd)

/-- **An address is known by its text.** -/
theorem HexTable.address_inj (ht : HexTable table) (h : addressText table p = addressText table q) :
    p = q := by
  have hnil : ∀ s, chars "(nil)" ≠ chars "0x" ++ s := by
    intro s
    have hcut : chars "(nil)" = ascii '(' :: chars "nil)" := by decide
    have hcut' : chars "0x" = ascii '0' :: chars "x" := by decide
    rw [hcut, hcut', List.cons_append]
    exact fun he ↦ absurd (List.cons.inj he).1 (by decide)
  rw [addressText, addressText] at h
  split at h <;> split at h
  · omega
  · exact absurd h (hnil _)
  · exact absurd h.symm (hnil _)
  · obtain ⟨read, hread⟩ := ht.value
    have hback : ∀ n, (hexText table n).map read = digits 16 n := by
      intro n
      rw [hexText, List.map_map]
      exact (List.map_congr_left fun d hd ↦ hread d (lt_of_mem_digits (by decide) hd)).trans
        (List.map_id _)
    rw [← digits_inj (b := 16), ← hback, List.append_cancel_left h, hback]

/-- A number is written without blanks. -/
theorem intText_ne (n : Int) : ∀ c ∈ intText n, c ≠ ascii ' ' := by
  rintro _ hc rfl
  rcases List.mem_append.mp hc with hc | hc
  · split at hc
    · exact absurd hc (by decide)
    · exact absurd hc (by simp)
  · obtain ⟨d, hd, hc⟩ := eq_decimal_of_mem_natText hc
    exact (decimal_ne d hd).2 hc.symm

/-! ## The lines -/

/-- The first character of an entry. -/
def StartsRow (c : Byte) : Prop := c = ascii '0' ∨ c = ascii '('

/-- **An entry is known by its line.** -/
theorem Row.delimits (Z : Zone) : Delimits (Row.text Z) id := by
  have htext : Row.text Z = fun r ↦ (addressText hexUpper r.start ++ ascii ' ' :: chars "- ") ++
      ((addressText hexUpper r.stop ++ ascii ' ' :: chars ": ") ++
        ((intText r.bytes ++ ascii ' ' :: (chars "byte " ++ Z.label ++ chars " zone is ")) ++
          (intText r.room ++ ascii ' ' :: chars "\n"))) := by
    have h1 : chars " - " = ascii ' ' :: chars "- " := by decide
    have h2 : chars " : " = ascii ' ' :: chars ": " := by decide
    have h3 : chars " byte " = ascii ' ' :: chars "byte " := by decide
    have h4 : chars " \n" = ascii ' ' :: chars "\n" := by decide
    funext r
    rw [Row.text, h1, h2, h3, h4]
    simp
  have haddress : ∀ (at' : Row → Nat) s,
      Delimits (fun r ↦ addressText hexUpper (at' r) ++ ascii ' ' :: s) at' := fun at' s ↦
    .word s (fun _ _ ↦ hexTable_upper.address_inj)
      fun r hc ↦ (hexTable_upper.address_ne (at' r) _ hc).1 rfl
  have hint : ∀ (num : Row → Int) s, Delimits (fun r ↦ intText (num r) ++ ascii ' ' :: s) num :=
    fun num s ↦ .word s (fun _ _ ↦ intText_inj) fun r hc ↦ intText_ne (num r) _ hc rfl
  have hrow := (haddress Row.start (chars "- ")).append ((haddress Row.stop (chars ": ")).append
    ((hint Row.bytes (chars "byte " ++ Z.label ++ chars " zone is ")).append
      (hint Row.room (chars "\n"))))
  rw [htext]
  exact hrow.map (m := fun q ↦ Row.mk q.1 q.2.1 q.2.2.1 q.2.2.2)

theorem Row.starts (Z : Zone) (r : Row) : ∃ c s, r.text Z = c :: s ∧ StartsRow c := by
  rw [Row.text, addressText]
  split
  · exact ⟨ascii '(', _, rfl, .inr rfl⟩
  · exact ⟨ascii '0', _, rfl, .inl rfl⟩

/-- **The part of a report about a class is known by its text.** -/
theorem zoneText_inj (Z : Zone) {rep rep' : Report} {c d : Byte} {x y : List Byte}
    (hc : ¬ StartsRow c) (hd : ¬ StartsRow d)
    (h : rep.zoneText Z ++ c :: x = rep'.zoneText Z ++ d :: y) :
    rep.heading Z = rep'.heading Z ∧ rep.rows Z = rep'.rows Z ∧ c :: x = d :: y := by
  have hnl : chars "\n" = [ascii '\n'] := by decide
  have hhead : Delimits (headingText Z) id := by
    have hword : Delimits (fun p ↦ addressText Z.table p ++ ascii '\n' :: []) id :=
      .word [] (fun _ _ ↦ Z.hexTable.address_inj) fun p hc ↦ (Z.hexTable.address_ne p _ hc).2 rfl
    exact hword.lit Z.title
  rw [Report.zoneText, Report.zoneText, List.append_assoc, List.append_assoc] at h
  obtain ⟨hp, h⟩ := hhead _ _ _ _ h
  obtain ⟨hrows, hrest⟩ := (Row.delimits Z).lines (Row.starts Z) _ _ _ _ _ _ hc hd h
  rw [List.map_id, List.map_id] at hrows
  exact ⟨hp, hrows, hrest⟩

/-- No heading begins like an entry. -/
theorem Report.zoneText_cons (rep : Report) (Z : Zone) :
    ∃ c x, rep.zoneText Z = c :: x ∧ ¬ StartsRow c := by
  have htitle : ∃ c s, Z.title = c :: s ∧ ¬ StartsRow c := by
    match Z with
    | .pool .tiny => exact ⟨ascii 'T', chars "INY : ", by decide, by rw [StartsRow]; decide⟩
    | .pool .small => exact ⟨ascii 'S', chars "MALL : ", by decide, by rw [StartsRow]; decide⟩
    | .large => exact ⟨ascii 'L', chars "ARGE : ", by decide, by rw [StartsRow]; decide⟩
  obtain ⟨c, s, hc, hno⟩ := htitle
  exact ⟨c, _, by rw [Report.zoneText, headingText, hc]; rfl, hno⟩

theorem totalText_cons (n : Int) : ∃ c x, totalText n = c :: x ∧ ¬ StartsRow c := by
  have hcut : chars "Total size: " = ascii 'T' :: chars "otal size: " := by decide
  exact ⟨ascii 'T', _, by rw [totalText, hcut]; rfl, by rw [StartsRow]; decide⟩

/-- **A report is known by its text.** -/
theorem Report.text_inj {rep rep' : Report} (h : rep.text = rep'.text) : rep = rep' := by
  rw [Report.text, Report.text] at h
  have hzone : ∀ (Z : Zone) {f f' : List Byte},
      (∃ c x, f = c :: x ∧ ¬ StartsRow c) → (∃ c x, f' = c :: x ∧ ¬ StartsRow c) →
      rep.zoneText Z ++ f = rep'.zoneText Z ++ f' →
      rep.heading Z = rep'.heading Z ∧ rep.rows Z = rep'.rows Z ∧ f = f' := by
    rintro Z f f' ⟨c, x, rfl, hc⟩ ⟨d, y, rfl, hd⟩ h
    exact zoneText_inj Z hc hd h
  have hbehind : ∀ (rep : Report) Z f, ∃ c x, rep.zoneText Z ++ f = c :: x ∧ ¬ StartsRow c := by
    intro rep Z f
    obtain ⟨c, x, hx, hc⟩ := rep.zoneText_cons Z
    exact ⟨c, x ++ f, by rw [hx, List.cons_append], hc⟩
  obtain ⟨hp₁, hr₁, h⟩ := hzone _ (hbehind _ _ _) (hbehind _ _ _) h
  obtain ⟨hp₂, hr₂, h⟩ := hzone _ (hbehind _ _ _) (hbehind _ _ _) h
  obtain ⟨hp₃, hr₃, h⟩ := hzone _ (totalText_cons _) (totalText_cons _) h
  have htotal : rep.total = rep'.total := @totalText_inj [] [] _ _ h
  cases rep with
  | mk heading rows total =>
    cases rep' with
    | mk heading' rows' total' =>
      obtain rfl : heading = heading' := funext fun Z ↦ by
        rcases Z with ⟨_ | _⟩ | _
        exacts [hp₁, hp₂, hp₃]
      obtain rfl : rows = rows' := funext fun Z ↦ by
        rcases Z with ⟨_ | _⟩ | _
        exacts [hr₁, hr₂, hr₃]
      obtain rfl : total = total' := htotal
      rfl

/-! ## The arenas -/

/-- What became of an arena. -/
inductive Arena
  | unused
  | lost
  | mapped (base : Nat)
  deriving DecidableEq

/-- What the pointer to the arena is. -/
def Arena.address : Arena → Nat
  | .unused => 0
  | .lost => MAP_FAILED
  | .mapped base => base

/-- The arena of a pool: it was set up, or it was never asked for, or its `mmap` failed. -/
def Heap.arena (h : Heap) (z : Pool) : Arena :=
  if h.poolFlag z = true then .mapped (h.base z)
  else if h.pageFlag z = 0#32 then .unused else .lost

/-- The pointers to the arenas say what became of them. -/
def Heap.Headed (h : Heap) : Prop := ∀ z, h.base z = (h.arena z).address

variable {pl : Platform} {os : OS} {h h' h₁ : Heap} {n r : Nat} {w w' : World} {a : Action}
  {z : Pool}

theorem Heap.SameArenas.arena (ha : h.SameArenas h') : h'.arena z = h.arena z := by
  rw [Heap.arena, Heap.arena, ha.poolFlag, ha.pageFlag, ha.base]

theorem Heap.SameArenas.headed (ha : h.SameArenas h') (hh : h.Headed) : h'.Headed := fun z ↦ by
  rw [ha.arena, ha.base, hh z]

/-- The first request for an arena sets it up, or loses it. -/
theorem MallocStep.headed (hm : MallocStep pl os h n r h') (hh : h.Headed) : h'.Headed := by
  have hother : ∀ {y z : Pool}, zoneOf n = .pool z → y ≠ z → h'.base y = (h'.arena y).address := by
    intro y z hz hyz
    have hne : zoneOf n ≠ .pool y := fun hy ↦ hyz (Zone.pool.inj (hy.symm.trans hz))
    obtain ⟨hbase, hopen, hflag⟩ := hm.arena_of_ne hne
    rw [Heap.arena, hbase, hopen, hflag]
    exact hh y
  have hsame : h.SameArenas h' → h'.Headed := fun ha ↦ ha.headed hh
  cases hm with
  | poolFull | poolSlot | arenaRefused => exact hsame ⟨rfl, rfl, rfl⟩
  | tableFull | largeFailed | largeOpened => exact hsame ⟨rfl, rfl, rfl⟩
  | tooLarge _ _ _ hh' => rcases hh' with rfl | rfl <;> exact hsame ⟨rfl, rfl, rfl⟩
  | @arenaFailed z hz hclosed hflag =>
    intro y
    by_cases hyz : y = z
    · subst hyz
      have hno : ¬ h.poolFlag y = true := by simp [hclosed]
      have hlost : (h.failArena pl y).arena y = .lost :=
        (if_neg hno).trans (if_neg (reserve_pageFlag_ne h hflag))
      rw [hlost]
      exact Function.update_self y MAP_FAILED h.base
    · exact hother hz hyz
  | @arenaOpened z ptr hz =>
    intro y
    by_cases hyz : y = z
    · subst hyz
      have hopen : ((h.openArena pl y ptr).takeSlot y 0 n).poolFlag y = true := by
        simp [Heap.takeSlot, Heap.mark, Heap.openArena]
      rw [Heap.arena, if_pos hopen, Arena.address]
    · exact hother hz hyz

/-- The pointers stay right. -/
theorem Step.headed (hw : w.WF pl) (hstep : Step pl w a w') (hh : w.heap.Headed) :
    w'.heap.Headed := by
  cases hstep with
  | @call t call mmap munmap r h' hrun =>
    obtain ⟨h₁, hcall, rfl⟩ := hw.call_step hrun
    have hlock : (w.heap.lock t).Headed := hh
    rcases hcall.request (hw.heap.lock t) with ⟨n, h₂, -, hm, he⟩ | ⟨-, he⟩
    · exact he.sameArenas.headed (hm.headed hlock)
    · exact he.sameArenas.headed hlock
  | write => exact hh
  | host => exact hh

theorem World.Reachable.headed (hw : w.Reachable pl) : w.heap.Headed := by
  refine (hw.invariant (p := fun u ↦ u.WF pl ∧ u.heap.Headed) ?_ fun _ _ _ hu hstep ↦
    ⟨hstep.wf hu.1, hstep.headed hu.1 hu.2⟩).2
  rintro _ ⟨m, rfl⟩
  exact ⟨.initial pl m, fun z ↦ rfl⟩

/-- An arena that was set up is at an address that says so. -/
theorem Heap.WF.arena_ne (hi : h.WF pl) {p : Nat} (hp : h.arena z = .mapped p) :
    p ≠ 0 ∧ p ≠ MAP_FAILED := by
  rw [Heap.arena] at hp
  split at hp
  · rename_i hopen
    obtain rfl := Arena.mapped.inj hp
    exact hi.base_ne hopen
  · split at hp <;> exact absurd hp (by simp)

/-- The pointer to an arena tells what became of it. -/
theorem Arena.address_inj {b c : Arena} (hb : ∀ p, b = .mapped p → p ≠ 0 ∧ p ≠ MAP_FAILED)
    (hc : ∀ p, c = .mapped p → p ≠ 0 ∧ p ≠ MAP_FAILED) (h : b.address = c.address) : b = c := by
  have hfail : MAP_FAILED ≠ 0 := by decide
  cases b <;> cases c <;> simp_all [Arena.address]

/-- **Two states have the same arenas** if they have the same pointers to them. -/
theorem Heap.Headed.base_eq_iff {pl' : Platform} (hi : h.WF pl) (hi' : h'.WF pl') (hh : h.Headed)
    (hh' : h'.Headed) (z : Pool) : h'.base z = h.base z ↔ h'.arena z = h.arena z := by
  rw [hh z, hh' z]
  exact ⟨Arena.address_inj (fun _ ↦ hi'.arena_ne) fun _ ↦ hi.arena_ne, congrArg _⟩

theorem Heap.Headed.base_lt (hi : h.WF pl) (hh : h.Headed) (z : Pool) : h.base z < 2 ^ 64 := by
  by_cases hopen : h.poolFlag z = true
  · have hm := hi.region_mapped (.arena z) ⟨h.base z, pl.arenaLen z⟩ (if_pos hopen)
    have hpos := hm.len_pos
    have hstop := hm.stop_le
    dsimp only at hpos hstop
    omega
  · rw [hh z, Heap.arena, if_neg hopen]
    split <;> decide

/-! ## The entries -/

/-- The cells of a class, in the order of their slots. -/
def Heap.cells (h : Heap) (Z : Zone) : List Cell :=
  (List.range 100).filterMap fun k ↦ h.cell (Z.slot k)

/-- What a report says of a cell: its address, and its size and the length of what it lies in, each
as an `int`. -/
def Cell.shown (c : Cell) : Nat × Int × Int := (c.ptr, asInt c.size, asInt (c.room + METASIZE))

/-- The entry for a cell. -/
def Cell.row (c : Cell) : Row where
  start := c.ptr - METASIZE
  stop := addInt (c.ptr - METASIZE) (asInt c.size)
  bytes := asInt c.size
  room := asInt (c.room + METASIZE)

variable {s : Slot} {c d : Cell} {Z : Zone}

/-- `INDEX_MASK` takes the index out of the size of a header. -/
theorem maskedSize_eq {m : Memory} {hdr k : Nat} (z : Pool) (hk : k < 100)
    (hsize : metaSize m hdr = z.stride ||| (k >>> 3)) : maskedSize m hdr = z.stride := by
  have hall : ∀ k < 100, (BitVec.ofNat 64 (z.stride ||| (k >>> 3)) &&&
      ~~~(BitVec.ofNat 64 INDEX_MASK)).toNat = z.stride := by
    cases z <;> decide
  rw [maskedSize, hsize]
  exact hall k hk

/-- The entry of a slot that is taken. -/
theorem Heap.WF.row_eq (hi : h.WF pl) (hc : h.cell s = some c) : h.row s = c.row := by
  have ht := Heap.taken_of_cell hc
  obtain ⟨hptr, hroom⟩ := hi.extent_of_cell hc
  have hrow : h.row s = headerRow h.mem (h.extent s).base (h.extent s).len := by
    cases s with
    | pool z k =>
      obtain ⟨hopen, hk⟩ := hi.bit_lt z k ht
      show headerRow _ _ (maskedSize h.mem (h.slotAddr z k)) = _
      rw [maskedSize_eq z hk (hi.header z k hopen hk).1]
      rfl
    | large i => rfl
  have hsize : metaClientSize h.mem (h.extent s).base = asInt c.size := by
    rw [hi.clientSize_eq ht, (Heap.cell_eq_some.mp hc).2]
  have hbase : c.ptr - METASIZE = (h.extent s).base := by omega
  rw [hrow, headerRow, hsize, Cell.row, hbase, ← hroom, Nat.cast_add]

/-- The entries of a class are those of its cells. -/
theorem Heap.WF.rows_eq (hi : h.WF pl) (Z : Zone) : h.rows Z 0 100 = (h.cells Z).map Cell.row := by
  rw [Heap.rows, Heap.cells, ← List.range_eq_range', List.map_filterMap, ← List.filterMap_eq_map,
    List.filterMap_filter]
  refine List.filterMap_congr fun k hk ↦ ?_
  have hlt := List.mem_range.mp hk
  by_cases ht : h.Taken (Z.slot k)
  · have hc := Heap.cell_of_taken ht
    rw [if_pos (by simpa using ⟨hlt, ht⟩), hc, Option.map_some, ← hi.row_eq hc]
    rfl
  · rw [if_neg (by simpa using fun _ ↦ ht), Heap.cell_eq_none.mpr ht, Option.map_none]

theorem Heap.mem_cells (hi : h.WF pl) : c ∈ h.cells Z ↔ ∃ s, s.zone = Z ∧ h.cell s = some c := by
  rw [Heap.cells, List.mem_filterMap]
  constructor
  · rintro ⟨k, -, hc⟩
    exact ⟨Z.slot k, Z.zone_slot k, hc⟩
  · rintro ⟨s, rfl, hc⟩
    exact ⟨s.index, List.mem_range.mpr (hi.index_lt (Heap.taken_of_cell hc)),
      by rwa [Zone.slot_index]⟩

/-- What is shown of the cells of a class is what its entries say. -/
theorem Heap.WF.rows_eq_iff {pl' : Platform} (hi : h.WF pl) (hi' : h'.WF pl') :
    h'.rows Z 0 100 = h.rows Z 0 100 ↔
      (h'.cells Z).map Cell.shown = (h.cells Z).map Cell.shown := by
  have hrow : ∀ g : Heap, (g.cells Z).map Cell.row = ((g.cells Z).map Cell.shown).map fun q ↦
      ⟨q.1 - METASIZE, addInt (q.1 - METASIZE) q.2.1, q.2.1, q.2.2⟩ := by
    intro g
    rw [List.map_map]
    rfl
  have hshown : ∀ {g : Heap} {p : Platform}, g.WF p → (g.cells Z).map Cell.shown =
      ((g.cells Z).map Cell.row).map fun r ↦ (r.start + METASIZE, r.bytes, r.room) := by
    intro g p hg
    rw [List.map_map]
    refine List.map_congr_left fun c hc ↦ Prod.ext ?_ rfl
    obtain ⟨s, -, hcell⟩ := (Heap.mem_cells hg).mp hc
    have hptr := (hg.extent_of_cell hcell).1
    show c.ptr = c.ptr - METASIZE + METASIZE
    omega
  rw [hi.rows_eq, hi'.rows_eq]
  exact ⟨fun heq ↦ by rw [hshown hi, hshown hi', heq], fun heq ↦ by rw [hrow, hrow, heq]⟩

/-! ## What a report tells -/

variable {self self' table : Nat} {out out' : List Byte}

/-- The text that is sent is that of the report. -/
theorem World.WF.shows_iff (hw : w.WF pl) :
    w.Shows self table out ↔ out = (w.heap.report table).text := by
  constructor
  · rintro ⟨log, hrun, hsent⟩
    obtain ⟨log', hrun', hsent'⟩ := hw.shows self table
    have hthe := (hrun fun _ ↦ 0).symm.trans (hrun' fun _ ↦ 0)
    obtain rfl := congrArg Prod.snd (Option.some_inj.mp hthe)
    exact List.map_injective_iff.mpr (fun _ _ h ↦ congrArg Prod.snd h) (hsent.symm.trans hsent')
  · rintro rfl
    exact hw.shows self table

/-- Two states have the same report if they have the same arenas and the same is shown of their
cells. -/
theorem Heap.Headed.report_eq_iff {pl' : Platform} (hi : h.WF pl) (hi' : h'.WF pl') (hh : h.Headed)
    (hh' : h'.Headed) (table : Nat) :
    h'.report table = h.report table ↔ (∀ z, h'.arena z = h.arena z) ∧
      ∀ Z, (h'.cells Z).map Cell.shown = (h.cells Z).map Cell.shown := by
  have hlt : ∀ {g : Heap} {p : Platform}, g.WF p → g.Headed → ∀ z, g.base z % 2 ^ 64 = g.base z :=
    fun hg hgh z ↦ Nat.mod_eq_of_lt (hgh.base_lt hg z)
  constructor
  · intro heq
    have hhead := congrFun (congrArg Report.heading heq)
    have hrows := congrFun (congrArg Report.rows heq)
    refine ⟨fun z ↦ (hh.base_eq_iff hi hi' hh' z).mp ?_, fun Z ↦ (hi.rows_eq_iff hi').mp (hrows Z)⟩
    exact (hlt hi' hh' z).symm.trans ((hhead (.pool z)).trans (hlt hi hh z))
  · rintro ⟨harenas, hcells⟩
    have hrows : ∀ Z, h'.rows Z 0 100 = h.rows Z 0 100 :=
      fun Z ↦ (hi.rows_eq_iff hi').mpr (hcells Z)
    have hbase : ∀ z, h'.base z = h.base z :=
      fun z ↦ (hh.base_eq_iff hi hi' hh' z).mpr (harenas z)
    simp only [Heap.report, hrows, hbase]

theorem World.WF.texts_iff {pl' : Platform} (hw : w.WF pl) (hh : w.heap.Headed)
    (hw' : w'.WF pl') (hh' : w'.heap.Headed) (hshow : w.Shows self table out)
    (hshow' : w'.Shows self' table out') :
    out' = out ↔ (∀ z, w'.heap.arena z = w.heap.arena z) ∧
      ∀ Z, (w'.heap.cells Z).map Cell.shown = (w.heap.cells Z).map Cell.shown := by
  rw [hw.shows_iff.mp hshow, hw'.shows_iff.mp hshow']
  rw [← hh.report_eq_iff hw.heap hw'.heap hh' table]
  exact ⟨Report.text_inj, congrArg _⟩

/-- **What a report tells**: of each arena whether it was set up, was lost, or was never asked for,
and of each block, in the order of the slots of its class, its address, and its size and the length
of what it lies in, both as an `int`.  Two worlds send the same text exactly if they agree on
this. -/
theorem same_report_iff {pl' : Platform} (hw : w.Reachable pl) (hw' : w'.Reachable pl')
    (hshow : w.Shows self table out) (hshow' : w'.Shows self' table out') :
    out' = out ↔ (∀ z, w'.heap.arena z = w.heap.arena z) ∧
      ∀ Z, (w'.heap.cells Z).map Cell.shown = (w.heap.cells Z).map Cell.shown :=
  hw.wf.texts_iff hw.headed hw'.wf hw'.headed hshow hshow'

/-- Two blocks, and one of them reallocated for 50 bytes. -/
def World.grown : World := World.twoBlocks.after .pages4k 1 (.realloc 0x1010 50) none true

theorem World.reachable_grown : World.grown.Reachable .pages4k :=
  World.reachable_twoBlocks.next (Step.of_answer (r := 0x1010) (by decide +kernel))

/-- A block of 1 byte that is reallocated for 50 has another entry. -/
theorem same_report_iff_grown :
    (World.grown.heap.report 0x5000).text ≠ (World.twoBlocks.heap.report 0x5000).text := by
  have hw := World.reachable_twoBlocks
  have hw' := World.reachable_grown
  intro heq
  have hcells := ((same_report_iff hw hw' (hw.wf.shows 1 0x5000) (hw'.wf.shows 1 0x5000)).mp heq).2
  exact absurd (hcells (.pool .tiny)) (by decide +kernel)

/-! ## What it says of the blocks -/

theorem asInt_inj {n m : Nat} (hn : n < 2 ^ 32) (hm : m < 2 ^ 32) (h : asInt n = asInt m) :
    n = m := by
  simp only [asInt, BitVec.toInt_ofInt, Int.bmod] at h
  omega

/-- No mapping of the library has 4 GiB. -/
def Heap.Below4GiB (h : Heap) : Prop := ∀ r ∈ h.mapped, r.len < 2 ^ 32

theorem Heap.WF.len_lt (hi : h.WF pl) (hsmall : h.Below4GiB) (hc : h.cell s = some c) :
    c.room + METASIZE < 2 ^ 32 := by
  rw [(hi.extent_of_cell hc).2]
  cases s with
  | pool z k =>
    have hz := z.stride_bounds
    rw [SMALL] at hz
    show z.stride < 2 ^ 32
    omega
  | large i =>
    exact hsmall _ ((hi.mem_mapped _).mpr ⟨.large i, if_pos (Heap.taken_of_cell hc)⟩)

/-- A cell is known by what is shown of it, as long as no mapping has 4 GiB. -/
theorem Heap.mem_cells_of_shown (hi : h.WF pl) (hi' : h'.WF pl) (hsmall : h.Below4GiB)
    (hsmall' : h'.Below4GiB)
    (heq : (h'.cells Z).map Cell.shown = (h.cells Z).map Cell.shown) (hc : c ∈ h'.cells Z) :
    c ∈ h.cells Z := by
  obtain ⟨d, hd, hshown⟩ := List.mem_map.mp (heq ▸ List.mem_map_of_mem hc)
  obtain ⟨s, -, hcell⟩ := (Heap.mem_cells hi').mp hc
  obtain ⟨s', -, hcell'⟩ := (Heap.mem_cells hi).mp hd
  have hlt := hi'.len_lt hsmall' hcell
  have hlt' := hi.len_lt hsmall hcell'
  have hle := (hi'.cell_size_le hcell).2
  have hle' := (hi.cell_size_le hcell').2
  obtain ⟨hptr, hrest⟩ := Prod.mk.inj hshown
  obtain ⟨hsize, hlen⟩ := Prod.mk.inj hrest
  have hsize := asInt_inj (by omega) (by omega) hsize
  have hroom := asInt_inj hlt' hlt (by simpa using hlen)
  have hcd : d = c := by
    cases d
    cases c
    simp only [Cell.mk.injEq]
    dsimp only at hptr hsize hroom
    omega
  exact hcd ▸ hd

theorem World.WF.nodup_keys (hw : w.WF pl) :
    (w.live.map fun b ↦ (b.zone, b.ptr, b.size)).Nodup := by
  refine List.Nodup.of_map (fun q : Zone × Nat × Nat ↦ q.2.1) ?_
  rw [List.map_map]
  exact hw.tracks.nodup

/-- The live blocks are the cells. -/
theorem World.WF.mem_keys (hw : w.WF pl) {p n : Nat} :
    (Z, p, n) ∈ w.live.map (fun b ↦ (b.zone, b.ptr, b.size)) ↔
      ∃ c, c ∈ w.heap.cells Z ∧ c.ptr = p ∧ c.size = n := by
  simp only [Heap.mem_cells hw.heap, List.mem_map, Prod.mk.injEq]
  constructor
  · rintro ⟨b, hb, rfl, rfl, rfl⟩
    obtain ⟨s, c, hc, hat⟩ := hw.cell_of_live hb
    exact ⟨c, ⟨s, hat.zone, hc⟩, hat.ptr, hat.size⟩
  · rintro ⟨c, ⟨s, rfl, hc⟩, rfl, rfl⟩
    obtain ⟨b, hb, hat⟩ := hw.tracks.complete s c hc
    exact ⟨b, hb, hat.zone.symm, hat.ptr.symm, hat.size.symm⟩

/-- The arenas and the cells are all that callers can see. -/
theorem Heap.SameFace.of_arena (harenas : ∀ z, h'.arena z = h.arena z)
    (hcells : ∀ c, (∃ s, h'.cell s = some c) ↔ ∃ s, h.cell s = some c) : h.SameFace h' := by
  have hopened : ∀ z, h'.poolFlag z = h.poolFlag z ∧ (h.poolFlag z = true → h'.base z = h.base z) ∧
      (h'.Stuck z ↔ h.Stuck z) := by
    intro z
    have ha := harenas z
    rw [Heap.arena, Heap.arena] at ha
    rw [Heap.Stuck, Heap.Stuck]
    cases hopen : h.poolFlag z <;> cases hopen' : h'.poolFlag z <;>
      simp only [hopen, hopen', if_true, Bool.false_eq_true, if_false] at ha ⊢
    · -- neither is set up
      by_cases h0 : h.pageFlag z = 0#32 <;> by_cases h0' : h'.pageFlag z = 0#32 <;> simp_all
    · split at ha <;> exact absurd ha (by simp)
    · split at ha <;> exact absurd ha (by simp)
    · simpa using Arena.mapped.inj ha
  refine ⟨fun q ↦ ?_, fun z ↦ (hopened z).1, fun z ↦ (hopened z).2.1, fun z ↦ (hopened z).2.2⟩
  constructor
  · rintro ⟨s, c, hc, hq⟩
    obtain ⟨s', hc'⟩ := (hcells c).mp ⟨s, hc⟩
    exact ⟨s', c, hc', hq⟩
  · rintro ⟨s, c, hc, hq⟩
    obtain ⟨s', hc'⟩ := (hcells c).mpr ⟨s, hc⟩
    exact ⟨s', c, hc', hq⟩

/-- **The report decides.**  As long as no mapping has 4 GiB, two worlds that send the same report
have the same live blocks, with the same sizes, and no sequence of calls tells them apart. -/
theorem report_decides (hw : w.Reachable pl) (hw' : w'.Reachable pl)
    (hsmall : w.heap.Below4GiB) (hsmall' : w'.heap.Below4GiB)
    (hshow : w.Shows self table out) (hshow' : w'.Shows self' table out) :
    (w'.live.map fun b ↦ (b.zone, b.ptr, b.size)).Perm
        (w.live.map fun b ↦ (b.zone, b.ptr, b.size)) ∧
      w'.traces pl = w.traces pl := by
  obtain ⟨harenas, hcells⟩ := (hw.wf.texts_iff hw.headed hw'.wf hw'.headed hshow hshow').mp rfl
  have hmem : ∀ Z c, c ∈ w'.heap.cells Z ↔ c ∈ w.heap.cells Z := fun Z c ↦
    ⟨Heap.mem_cells_of_shown hw.wf.heap hw'.wf.heap hsmall hsmall' (hcells Z),
      Heap.mem_cells_of_shown hw'.wf.heap hw.wf.heap hsmall' hsmall (hcells Z).symm⟩
  refine ⟨(List.perm_ext_iff_of_nodup hw'.wf.nodup_keys hw.wf.nodup_keys).mpr ?_, ?_⟩
  · rintro ⟨Z, p, n⟩
    rw [hw'.wf.mem_keys, hw.wf.mem_keys]
    exact exists_congr fun c ↦ and_congr_left fun _ ↦ hmem Z c
  · refine (hw.wf.traces_eq_iff hw'.wf).mpr (.of_arena harenas fun c ↦ ?_)
    have hcell : ∀ {g : Heap}, g.WF pl → ((∃ s, g.cell s = some c) ↔ ∃ Z, c ∈ g.cells Z) := by
      intro g hg
      simp only [Heap.mem_cells hg]
      exact ⟨fun ⟨s, hc⟩ ↦ ⟨s.zone, s, rfl, hc⟩, fun ⟨_, s, _, hc⟩ ↦ ⟨s, hc⟩⟩
    rw [hcell hw'.wf.heap, hcell hw.wf.heap]
    exact exists_congr fun Z ↦ hmem Z c

/-- Two LARGE blocks were handed out, the first of them was freed, and the second one written to. -/
def World.shifted : World :=
  let w₁ := (World.initial fun _ ↦ 0#8).after .pages4k 1 (.malloc 1) (some 0x1000) true
  let w₂ := w₁.after .pages4k 1 (.malloc 600) (some 0x6000) true
  let w₃ := w₂.after .pages4k 2 (.malloc 600) (some 0x4000) true
  (w₃.after .pages4k 1 (.free 0x6010) none true).write 0x4010 0 9#8

theorem World.reachable_shifted : World.shifted.Reachable .pages4k := by
  let w₀ := World.initial fun _ ↦ 0#8
  let w₁ := w₀.after .pages4k 1 (.malloc 1) (some 0x1000) true
  let w₂ := w₁.after .pages4k 1 (.malloc 600) (some 0x6000) true
  let w₃ := w₂.after .pages4k 2 (.malloc 600) (some 0x4000) true
  let w₄ := w₃.after .pages4k 1 (.free 0x6010) none true
  have h₁ : Step .pages4k w₀ (.call 1 (.malloc 1) (some 0x1000) true) w₁ :=
    .of_answer (r := 0x1010) (by decide +kernel)
  have h₂ : Step .pages4k w₁ (.call 1 (.malloc 600) (some 0x6000) true) w₂ :=
    .of_answer (r := 0x6010) (by decide +kernel)
  have h₃ : Step .pages4k w₂ (.call 2 (.malloc 600) (some 0x4000) true) w₃ :=
    .of_answer (r := 0x4010) (by decide +kernel)
  have h₄ : Step .pages4k w₃ (.call 1 (.free 0x6010) none true) w₄ :=
    .of_answer (r := 0) (by decide +kernel)
  obtain ⟨b, hb, hp, hsize⟩ : ∃ b ∈ w₄.live, b.ptr = 0x4010 ∧ 0 < b.size := by decide +kernel
  have h₅ : Step .pages4k w₄ (.write 2 0x4010 0 9#8) World.shifted := .write hb hp hsize
  have hstart : w₀.Reachable .pages4k := Reach.start ⟨_, rfl⟩
  exact ((((hstart.next h₁).next h₂).next h₃).next h₄).next h₅

/-- The LARGE block stands elsewhere in the table, and holds something else; the report is the same,
and so are the blocks and the answers to come. -/
theorem report_decides_shifted :
    World.twoBlocks.heap.large 0 = 0x4000 ∧ World.shifted.heap.large 0 = 0 ∧
      World.shifted.heap.large 1 = 0x4000 ∧
      World.shifted.heap.mem 0x4010 ≠ World.twoBlocks.heap.mem 0x4010 ∧
      (World.shifted.live.map fun b ↦ (b.zone, b.ptr, b.size)).Perm
        (World.twoBlocks.live.map fun b ↦ (b.zone, b.ptr, b.size)) ∧
      World.shifted.traces .pages4k = World.twoBlocks.traces .pages4k := by
  have hw := World.reachable_twoBlocks
  have hw' := World.reachable_shifted
  have harenas : ∀ z, World.shifted.heap.arena z = World.twoBlocks.heap.arena z := by
    intro z
    cases z <;> decide +kernel
  have hcells : ∀ Z, (World.shifted.heap.cells Z).map Cell.shown
      = (World.twoBlocks.heap.cells Z).map Cell.shown := by
    intro Z
    cases Z with
    | pool z => cases z <;> decide +kernel
    | large => decide +kernel
  have hshow' := hw'.wf.shows 1 0x5000
  rw [(hw.headed.report_eq_iff hw.wf.heap hw'.wf.heap hw'.headed _).mpr ⟨harenas, hcells⟩] at hshow'
  have hsmall : ∀ r ∈ World.twoBlocks.heap.mapped, r.len < 2 ^ 32 := by decide +kernel
  have hsmall' : ∀ r ∈ World.shifted.heap.mapped, r.len < 2 ^ 32 := by decide +kernel
  obtain ⟨hperm, htraces⟩ := report_decides hw hw' hsmall hsmall' (hw.wf.shows 1 0x5000) hshow'
  exact ⟨by decide +kernel, by decide +kernel, by decide +kernel, by decide +kernel, hperm, htraces⟩

end FtMalloc
