import FtMalloc.Classes
import FtMalloc.Machine

/-!
# What callers can tell apart

Two worlds are the same to their callers if every sequence of calls has the same answers from both
on (`World.traces`).  `World.WF.traces_eq_iff` says when that is: the live blocks are at the same
addresses and have the same room, the same arenas are open, at the same addresses, and the same
arenas are lost for good (`Heap.SameFace`).  Sizes on record, the order of the LARGE table, headers
and `errno` do not show.

* `Machine.Like` is the relation of two machines that no call takes apart (`Machine.exec_like`), and
  with it `World.traces_subset` is a simulation.
* The other direction is a family of experiments, one for each clause of `Heap.SameFace`: a
  `realloc` that fits tells the room of a block, a `malloc` while the kernel refuses to map tells
  where an arena is, and a `malloc` once all LARGE blocks are given back tells whether an arena can
  still be set up.
-/

set_option autoImplicit false

namespace FtMalloc

open ByteMemory CharMap FirstFree

/-! ## Classes that look alike -/

/-- The class offers the region to the holder of a block. -/
def ClassView.Offers (v : ClassView) (q : Region) : Prop :=
  ∃ k < 100, ∃ c, v.cells k = some c ∧ c.payload = q

/-- Two views of a pool that differ in nothing but sizes on record, and in what is never read. -/
structure ClassView.Like (v v' : ClassView) : Prop where
  cells : ∀ k, (v'.cells k).map Cell.payload = (v.cells k).map Cell.payload
  opened : v'.opened = v.opened
  base : v.opened = true → v'.base = v.base
  refused : v.opened = false → (v'.pageFlag = 0#32 ↔ v.pageFlag = 0#32)

/-- The pools look alike, and the LARGE class offers the same regions. -/
structure Machine.Like (V V' : Machine) : Prop where
  pool : ∀ z, (V (.pool z)).Like (V' (.pool z))
  large : ∀ q, (V' .large).Offers q ↔ (V .large).Offers q

variable {pl : Platform} {os : OS} {h h' h₁ : Heap} {n r p k t : Nat} {s : Slot} {c d : Cell}
  {call : Call} {z : Pool} {Z : Zone} {V V' V₁ : Machine} {w w' w₁ : World} {v v' : ClassView}
  {q : Region} {answer : Option Nat}

namespace ClassView

theorem offers_mapCells {f : Option Cell → Option Cell}
    (hf : ∀ o, (f o).map Cell.payload = o.map Cell.payload) :
    (v.mapCells f).Offers q ↔ v.Offers q := by
  have hiff : ∀ k, (∃ c, f (v.cells k) = some c ∧ c.payload = q)
      ↔ ∃ c, v.cells k = some c ∧ c.payload = q := by
    intro k
    rw [← Option.map_eq_some_iff, hf, Option.map_eq_some_iff]
  exact exists_congr fun k ↦ and_congr_right fun _ ↦ hiff k

/-- A size on record does not show. -/
theorem offers_resize : (v.resize p n).Offers q ↔ v.Offers q :=
  offers_mapCells fun o ↦ by
    cases o with
    | none => rfl
    | some c =>
      simp only [Option.map_some, Option.some_inj]
      split <;> rfl

/-- What is left when a block is given back. -/
theorem offers_release : (v.release p).Offers q ↔ v.Offers q ∧ q.base ≠ p := by
  constructor
  · rintro ⟨k, hk, c, hc, rfl⟩
    obtain ⟨hc, hp⟩ := Option.filter_eq_some_iff.mp hc
    exact ⟨⟨k, hk, c, hc, rfl⟩, of_decide_eq_true hp⟩
  · rintro ⟨⟨k, hk, c, hc, rfl⟩, hp⟩
    exact ⟨k, hk, c, Option.filter_eq_some_iff.mpr ⟨hc, decide_eq_true hp⟩, rfl⟩

@[simp] theorem cells_put (v : ClassView) (k : Nat) (c : Cell) :
    (v.put k c).cells = Function.update v.cells k (some c) := rfl

/-- What there is once a free slot has got a cell. -/
theorem offers_put (hk : least 100 v.taken = some k) :
    (v.put k c).Offers q ↔ v.Offers q ∨ c.payload = q := by
  obtain ⟨hlt, hfree, -⟩ := least_eq_some.mp hk
  have hnone : v.cells k = none := by
    simpa [ClassView.taken, hlt] using hfree
  constructor
  · rintro ⟨j, hj, d, hd, rfl⟩
    by_cases hjk : j = k
    · rw [hjk, cells_put, Function.update_self, Option.some_inj] at hd
      exact .inr (congrArg Cell.payload hd)
    · rw [cells_put, Function.update_of_ne hjk] at hd
      exact .inl ⟨j, hj, d, hd, rfl⟩
  · rintro (⟨j, hj, d, hd, rfl⟩ | rfl)
    · refine ⟨j, hj, d, ?_, rfl⟩
      have hjk : j ≠ k := by
        rintro rfl
        exact absurd (hnone.symm.trans hd) (by simp)
      exact (Function.update_of_ne hjk _ _).trans hd
    · exact ⟨k, hlt, c, Function.update_self _ _ _, rfl⟩

/-- A class finds a block where it offers one. -/
theorem find_isSome : (v.find p).isSome ↔ ∃ ρ, v.Offers ⟨p, ρ⟩ := by
  constructor
  · intro hsome
    obtain ⟨c, hfind⟩ := Option.isSome_iff_exists.mp hsome
    obtain ⟨k, hk, hc⟩ := List.exists_of_findSome?_eq_some hfind
    obtain ⟨hcell, hp⟩ := Option.filter_eq_some_iff.mp hc
    obtain rfl := of_decide_eq_true hp
    exact ⟨c.room, k, List.mem_range.mp hk, c, hcell, rfl⟩
  · rintro ⟨ρ, k, hk, c, hc, hq⟩
    rw [Option.isSome_iff_ne_none]
    intro hnone
    have hno := List.findSome?_eq_none_iff.mp hnone k (List.mem_range.mpr hk)
    have hp : c.ptr = p := congrArg Region.base hq
    rw [hc, Option.filter_some, if_pos (decide_eq_true hp)] at hno
    exact absurd hno (by simp)

namespace Like

theorem taken (hl : v.Like v') : v'.taken = v.taken := by
  refine Finset.filter_congr fun k _ ↦ ?_
  rw [← Option.isSome_map (f := Cell.payload), hl.cells, Option.isSome_map]

theorem put (hl : v.Like v') (k : Nat) (c : Cell) : (v.put k c).Like (v'.put k c) where
  cells := fun j ↦ by
    by_cases hj : j = k
    · simp [ClassView.put, hj]
    · simpa [ClassView.put, hj] using hl.cells j
  opened := hl.opened
  base := hl.base
  refused := hl.refused

theorem mapCells {f : Option Cell → Option Cell} (hf : ∀ o o' : Option Cell,
      o'.map Cell.payload = o.map Cell.payload →
      (f o').map Cell.payload = (f o).map Cell.payload) (hl : v.Like v') :
    (v.mapCells f).Like (v'.mapCells f) where
  cells := fun k ↦ hf _ _ (hl.cells k)
  opened := hl.opened
  base := hl.base
  refused := hl.refused

theorem release (hl : v.Like v') (p : Nat) : (v.release p).Like (v'.release p) := by
  refine hl.mapCells fun o o' ho ↦ ?_
  cases o <;> cases o' <;> simp only [Option.map_none, Option.map_some] at ho
  · rfl
  · exact absurd ho (by simp)
  · exact absurd ho (by simp)
  · rename_i c c'
    have hp : c'.ptr = c.ptr := congrArg Region.base (Option.some_inj.mp ho)
    rw [Option.filter_some, Option.filter_some, hp]
    split
    · exact ho
    · rfl

/-- A size that is put on record does not show. -/
theorem resize (hl : v.Like v') (p n : Nat) : (v.resize p n).Like (v'.resize p n) := by
  have hkeep : ∀ c : Cell,
      (if c.ptr = p then { c with size := n } else c : Cell).payload = c.payload := by
    intro c
    split <;> rfl
  refine hl.mapCells fun o o' ho ↦ ?_
  simpa only [Option.map_map, Function.comp_def, hkeep] using ho

/-- **A pool serves a request the same way** as one that looks alike. -/
theorem servePool (hl : v.Like v') (z : Pool) (n : Nat) (answer : Option Nat) :
    (v'.servePool z n answer).1 = (v.servePool z n answer).1 ∧
      (v.servePool z n answer).2.Like (v'.servePool z n answer).2 := by
  have hopened : v'.opened = v.opened := hl.opened
  cases hopen : v.opened with
  | true =>
    rw [hopen] at hopened
    cases hk : least 100 v.taken with
    | none =>
      rw [servePool_full hopen hk, servePool_full hopened (hl.taken ▸ hk)]
      exact ⟨rfl, hl⟩
    | some k =>
      rw [servePool_slot hopen hk, servePool_slot hopened (hl.taken ▸ hk), hl.base hopen]
      exact ⟨rfl, hl.put k _⟩
  | false =>
    rw [hopen] at hopened
    by_cases hflag : v.pageFlag = 0#32
    · have hflag' := (hl.refused hopen).mpr hflag
      have hcells := hl.cells
      cases answer with
      | none =>
        rw [servePool_failed hopen hflag, servePool_failed hopened hflag']
        exact ⟨rfl, hcells, hl.opened, fun _ ↦ rfl, fun _ ↦ Iff.rfl⟩
      | some ptr =>
        rw [servePool_opened hopen hflag, servePool_opened hopened hflag']
        have hlike : ClassView.Like ⟨v.cells, ptr, true, BitVec.ofNat 32 z.stride⟩
            ⟨v'.cells, ptr, true, BitVec.ofNat 32 z.stride⟩ :=
          ⟨hcells, rfl, fun _ ↦ rfl, fun _ ↦ Iff.rfl⟩
        exact ⟨rfl, hlike.put 0 _⟩
    · have hflag' := mt (hl.refused hopen).mp hflag
      rw [servePool_refused hopen hflag, servePool_refused hopened hflag']
      exact ⟨rfl, hl⟩

end Like

/-- **The LARGE class serves a request the same way** if it has room and offers the same. -/
theorem serveLarge_offers (pl : Platform)
    (hfull : least 100 v'.taken = none ↔ least 100 v.taken = none)
    (hoff : ∀ q, v'.Offers q ↔ v.Offers q) (n : Nat) (answer : Option Nat) :
    (v'.serveLarge pl n answer).1 = (v.serveLarge pl n answer).1 ∧
      ∀ q, (v'.serveLarge pl n answer).2.Offers q ↔ (v.serveLarge pl n answer).2.Offers q := by
  by_cases hno : least 100 v.taken = none ∨ answer = none ∨ ¬ pl.Fits n
  · have hno' : least 100 v'.taken = none ∨ answer = none ∨ ¬ pl.Fits n :=
      hno.imp_left hfull.mpr
    rw [serveLarge_null hno, serveLarge_null hno']
    exact ⟨rfl, hoff⟩
  · push Not at hno
    obtain ⟨hroom, hyes, hfits⟩ := hno
    obtain ⟨k, hk⟩ := Option.ne_none_iff_exists'.mp hroom
    obtain ⟨k', hk'⟩ := Option.ne_none_iff_exists'.mp (mt hfull.mp hroom)
    obtain ⟨ptr, rfl⟩ := Option.ne_none_iff_exists'.mp hyes
    rw [serveLarge_opened hk hfits, serveLarge_opened hk' hfits]
    exact ⟨rfl, fun q ↦ by rw [offers_put hk, offers_put hk', hoff]⟩

end ClassView

/-! ## Machines that look alike -/

/-- The LARGE table of one of two states that offer the same is full if that of the other is. -/
theorem Heap.WF.table_full_congr (hi : h.WF pl) (hi' : h'.WF pl)
    (hoff : ∀ q, (h'.view .large).Offers q ↔ (h.view .large).Offers q) :
    least 100 (h'.view .large).taken = none ↔ least 100 (h.view .large).taken = none := by
  -- as many entries are in use as regions are offered
  have himage : ∀ {g : Heap}, g.WF pl → ∀ p, p ∈ (g.takenSet .large).image g.large ↔
      ∃ ρ, (g.view .large).Offers ⟨p + METASIZE, ρ⟩ := by
    intro g hg p
    rw [Finset.mem_image]
    constructor
    · rintro ⟨i, ht, rfl⟩
      rw [hg.mem_takenSet] at ht
      exact ⟨_, i, hg.large_lt i ht, _, Heap.cell_of_taken ht, rfl⟩
    · rintro ⟨ρ, i, -, c, hc, hq⟩
      have hptr := (hg.extent_of_cell (s := .large i) hc).1
      have hp : c.ptr = p + METASIZE := congrArg Region.base hq
      refine ⟨i, hg.mem_takenSet.mpr (Heap.taken_of_cell hc), ?_⟩
      have hbase : (h.extent (.large i)).base = h.large i := rfl
      have hbase' : (g.extent (.large i)).base = g.large i := rfl
      omega
  have hinj : ∀ {g : Heap}, g.WF pl → Set.InjOn g.large (g.takenSet .large : Set Nat) := by
    intro g hg i ht j ht' hij
    have hci := Heap.cell_of_taken (hg.mem_takenSet.mp ht)
    have hcj := Heap.cell_of_taken (hg.mem_takenSet.mp ht')
    exact Slot.large.inj (hg.ptr_inj hci hcj (congrArg (· + METASIZE) hij))
  have hcard : (h'.takenSet .large).card = (h.takenSet .large).card := by
    rw [← Finset.card_image_of_injOn (hinj hi'), ← Finset.card_image_of_injOn (hinj hi)]
    congr 1
    ext p
    rw [himage hi', himage hi]
    exact exists_congr fun ρ ↦ hoff _
  have hfull : ∀ g : Heap, least 100 (g.view .large).taken = none ↔
      100 ≤ (g.takenSet .large).card := by
    intro g
    have hsub : g.takenSet .large ⊆ Finset.range 100 := Finset.filter_subset _ _
    rw [Heap.taken_view, least_eq_none]
    constructor
    · intro hall
      have hle := Finset.card_le_card (fun k hk ↦ hall k (Finset.mem_range.mp hk) :
        Finset.range 100 ⊆ g.takenSet .large)
      rwa [Finset.card_range] at hle
    · intro hle k hk
      rw [Finset.eq_of_subset_of_card_le hsub (by rwa [Finset.card_range])]
      exact Finset.mem_range.mpr hk
  rw [hfull, hfull, hcard]

namespace Machine

/-- Some class offers the region. -/
def Offers (V : Machine) (q : Region) : Prop := ∃ Z, (V Z).Offers q

theorem offers_view (hi : h.WF pl) :
    Offers h.view q ↔ ∃ s c, h.cell s = some c ∧ c.payload = q := by
  constructor
  · rintro ⟨Z, k, -, c, hc, hq⟩
    exact ⟨_, c, (h.cells_view Z k).symm.trans hc, hq⟩
  · rintro ⟨s, c, hc, hq⟩
    refine ⟨s.zone, s.index, hi.index_lt (Heap.taken_of_cell hc), c, ?_, hq⟩
    rw [Heap.cells_view, Zone.slot_index, hc]

namespace Like

theorem offers_pool (hl : V.Like V') (z : Pool) :
    (V' (.pool z)).Offers q ↔ (V (.pool z)).Offers q := by
  have hiff : ∀ k, (∃ c, (V' (.pool z)).cells k = some c ∧ c.payload = q)
      ↔ ∃ c, (V (.pool z)).cells k = some c ∧ c.payload = q := by
    intro k
    rw [← Option.map_eq_some_iff, (hl.pool z).cells, Option.map_eq_some_iff]
  exact exists_congr fun k ↦ and_congr_right fun _ ↦ hiff k

theorem offers (hl : V.Like V') : V'.Offers q ↔ V.Offers q := by
  refine exists_congr fun Z ↦ ?_
  cases Z with
  | pool z => exact hl.offers_pool z
  | large => exact hl.large q

/-- The same is mapped. -/
theorem mapped (hl : V.Like V') (q : Region) : q ∈ V'.mapped pl ↔ q ∈ V.mapped pl := by
  have harena : ∀ z, V'.region pl (.arena z) = V.region pl (.arena z) := by
    intro z
    rw [region, region, (hl.pool z).opened]
    split
    · rename_i hopen
      rw [(hl.pool z).base hopen]
    · rfl
  have hlarge : ∀ {U : Machine}, (∃ i < 100, U.region pl (.large i) = some q) ↔
      ∃ u, (U .large).Offers u ∧ q = ⟨u.base - METASIZE, u.len + METASIZE⟩ := by
    intro U
    constructor
    · rintro ⟨i, hi, hq⟩
      obtain ⟨c, hc, rfl⟩ := Option.map_eq_some_iff.mp hq
      exact ⟨c.payload, ⟨i, hi, c, hc, rfl⟩, rfl⟩
    · rintro ⟨_, ⟨i, hi, c, hc, rfl⟩, rfl⟩
      exact ⟨i, hi, Option.map_eq_some_iff.mpr ⟨c, hc, rfl⟩⟩
  have hmem : ∀ {U : Machine}, q ∈ U.mapped pl ↔ (∃ z, U.region pl (.arena z) = some q) ∨
      ∃ i < 100, U.region pl (.large i) = some q := by
    intro U
    rw [Machine.mapped, List.mem_filterMap]
    constructor
    · rintro ⟨o, ho, hq⟩
      cases o with
      | arena z => exact .inl ⟨z, hq⟩
      | large i => exact .inr ⟨i, by simpa using ho, hq⟩
    · rintro (⟨z, hq⟩ | ⟨i, hi, hq⟩)
      · exact ⟨.arena z, by cases z <;> simp, hq⟩
      · exact ⟨.large i, by simpa using hi, hq⟩
  rw [hmem, hmem, hlarge, hlarge]
  simp only [harena, hl.large]

/-- A request is served the same way. -/
theorem request (hi : h.WF pl) (hi' : h'.WF pl) (hl : Like h.view h'.view) (os : OS) (n : Nat) :
    (request h'.view pl os n).1 = (request h.view pl os n).1 ∧
      (request h.view pl os n).2.Like (request h'.view pl os n).2 := by
  have hmapped : ∀ q, q ∈ Machine.mapped h'.view pl ↔ q ∈ Machine.mapped h.view pl :=
    fun q ↦ hl.mapped q
  simp only [Machine.request, OS.answer_congr hmapped, ClassView.serve]
  cases zoneOf n with
  | pool z =>
    obtain ⟨hr, hserved⟩ :=
      (hl.pool z).servePool z n (os.answer (Machine.mapped h.view pl) (pl.reqLen n))
    refine ⟨hr, fun y ↦ ?_, fun q ↦ ?_⟩
    · by_cases hy : y = z
      · subst hy
        rw [Function.update_self, Function.update_self]
        exact hserved
      · rw [Function.update_of_ne (by simpa using hy), Function.update_of_ne (by simpa using hy)]
        exact hl.pool y
    · rw [Function.update_of_ne (by simp), Function.update_of_ne (by simp)]
      exact hl.large q
  | large =>
    obtain ⟨hr, hserved⟩ := ClassView.serveLarge_offers pl (hi.table_full_congr hi' hl.large)
      hl.large n (os.answer (Machine.mapped h.view pl) (pl.reqLen n))
    refine ⟨hr, fun y ↦ ?_, fun q ↦ ?_⟩
    · rw [Function.update_of_ne (by simp), Function.update_of_ne (by simp)]
      exact hl.pool y
    · rw [Function.update_self, Function.update_self]
      exact hserved q

/-- A block is given back the same way. -/
theorem release (hl : V.Like V') (hrel : V.release os p = some V₁) :
    ∃ V₁', V'.release os p = some V₁' ∧ V₁.Like V₁' := by
  have hfind : ((V' .large).find p).isSome ↔ ((V .large).find p).isSome := by
    rw [ClassView.find_isSome, ClassView.find_isSome]
    exact exists_congr fun ρ ↦ hl.large _
  rw [Machine.release] at hrel
  split at hrel
  · exact absurd hrel (by simp)
  · rename_i hcan
    obtain rfl := Option.some_inj.mp hrel
    refine ⟨_, if_neg fun hno ↦ hcan ⟨hno.1, hfind.mp hno.2⟩, fun z ↦ ?_, fun q ↦ ?_⟩
    · exact (hl.pool z).release p
    · rw [ClassView.offers_release, ClassView.offers_release, hl.large]

theorem resize (hl : V.Like V') (p n : Nat) :
    Like (fun Z ↦ (V Z).resize p n) fun Z ↦ (V' Z).resize p n where
  pool := fun z ↦ (hl.pool z).resize p n
  large := fun q ↦ by rw [ClassView.offers_resize, ClassView.offers_resize, hl.large]

/-- The same address has a live block, with the same room. -/
theorem find (hi : h.WF pl) (hi' : h'.WF pl) (hl : Like h.view h'.view) (p : Nat) :
    (find h'.view p).map (fun f ↦ f.2.room) = (find h.view p).map fun f ↦ f.2.room := by
  rcases hi.stray_or_cell p with hstray | ⟨s, c, hc, rfl⟩
  · have hstray' : h'.Stray p := by
      rintro s c hc rfl
      obtain ⟨s', c', hc', hq⟩ :=
        (offers_view hi).mp (hl.offers.mp ((offers_view hi').mpr ⟨s, c, hc, rfl⟩))
      exact hstray s' c' hc' (congrArg Region.base hq)
    rw [find_of_stray hstray, find_of_stray hstray']
  · obtain ⟨s', c', hc', hq⟩ :=
      (offers_view hi').mp (hl.offers.mpr ((offers_view hi).mpr ⟨s, c, hc, rfl⟩))
    have hp : c'.ptr = c.ptr := congrArg Region.base hq
    have hroom : c'.room = c.room := congrArg Region.len hq
    rw [find_of_cell hi hc, ← hp, find_of_cell hi' hc', Option.map_some, Option.map_some, hroom]

/-- **A call has the same answer**, and leaves machines that look alike. -/
theorem exec (hi : h.WF pl) (hi' : h'.WF pl) (hl : Like h.view h'.view)
    (hexec : exec h.view pl os call = some (r, V)) :
    ∃ V', Machine.exec h'.view pl os call = some (r, V') ∧ V.Like V' := by
  have hrequest : ∀ n, some (Machine.request h.view pl os n) = some (r, V) →
      ∃ V', some (Machine.request h'.view pl os n) = some (r, V') ∧ V.Like V' := by
    intro n hn
    obtain ⟨hr, hlike⟩ := hl.request hi hi' os n
    rw [Option.some_inj.mp hn] at hr hlike
    exact ⟨(Machine.request h'.view pl os n).2, congrArg some (Prod.ext hr rfl), hlike⟩
  have hrelease : ∀ {U U' : Machine} (a p : Nat), U.Like U' →
      (U.release os p).map (a, ·) = some (r, V) →
      ∃ V', (U'.release os p).map (a, ·) = some (r, V') ∧ V.Like V' := by
    intro U U' a p hU hn
    obtain ⟨V₁, hrel, hpair⟩ := Option.map_eq_some_iff.mp hn
    obtain ⟨rfl, rfl⟩ := Prod.mk.inj hpair
    obtain ⟨V₁', hrel', hlike⟩ := hU.release hrel
    exact ⟨V₁', by rw [hrel', Option.map_some], hlike⟩
  have hstay : ∀ a, some (a, (h.view : Machine)) = some (r, V) →
      ∃ V', some (a, (h'.view : Machine)) = some (r, V') ∧ V.Like V' := by
    intro a hn
    obtain ⟨rfl, rfl⟩ := Prod.mk.inj (Option.some_inj.mp hn)
    exact ⟨_, rfl, hl⟩
  cases call with
  | malloc n => exact hrequest _ hexec
  | free p => exact hrelease 0 p hl hexec
  | calloc nmemb size =>
    rw [Machine.exec] at hexec ⊢
    split at hexec
    · rename_i hover
      rw [if_pos hover]
      exact hstay 0 hexec
    · rename_i hfit
      rw [if_neg hfit]
      exact hrequest _ hexec
  | realloc p n =>
    rw [Machine.exec] at hexec ⊢
    by_cases hp : p = 0
    · rw [if_pos hp] at hexec ⊢
      exact hrequest _ hexec
    rw [if_neg hp] at hexec ⊢
    by_cases hn : n = 0
    · rw [if_pos hn] at hexec ⊢
      exact hrelease 0 p hl hexec
    rw [if_neg hn] at hexec ⊢
    have hfind := hl.find hi hi' p
    cases hf : Machine.find h.view p with
    | none =>
      rw [hf] at hexec hfind
      rw [Option.map_eq_none_iff.mp hfind]
      exact hstay 0 hexec
    | some f =>
      rw [hf] at hexec hfind
      obtain ⟨f', hf', hroom⟩ := Option.map_eq_some_iff.mp hfind
      rw [hf']
      dsimp only at hexec ⊢
      rw [hroom]
      by_cases hfit : n ≤ f.2.room
      · rw [if_pos hfit] at hexec ⊢
        obtain ⟨rfl, rfl⟩ := Prod.mk.inj (Option.some_inj.mp hexec)
        exact ⟨_, rfl, hl.resize p n⟩
      · rw [if_neg hfit] at hexec ⊢
        obtain ⟨hr, hlike⟩ := hl.request hi hi' os n
        rw [hr]
        by_cases h0 : (Machine.request h.view pl os n).1 = 0
        · rw [if_pos h0] at hexec ⊢
          exact hrequest n hexec
        · rw [if_neg h0] at hexec ⊢
          exact hrelease _ p hlike hexec

end Like

end Machine

/-- **Worlds whose classes look alike show the same.** -/
theorem World.traces_subset (hw : w.WF pl) (hw' : w'.WF pl)
    (hl : Machine.Like w.heap.view w'.heap.view) : w.traces pl ⊆ w'.traces pl := by
  rintro ls ⟨as, u, hrun, rfl⟩
  have hrun := hw.run_iff.mp ⟨as, u, hrun, rfl, rfl⟩
  let Sim : Machine → World → Prop :=
    fun V u' ↦ (∃ u : World, u.WF pl ∧ u.heap.view = V) ∧ u'.WF pl ∧ V.Like u'.heap.view
  have hstep : ∀ V l V₁ u', Sim V u' → Machine.Step pl V l V₁ →
      ∃ u₁', Answered pl u' l u₁' ∧ Sim V₁ u₁' := by
    rintro _ l V₁ u' ⟨⟨u, hu, rfl⟩, hu', hl⟩ hstep
    obtain ⟨u₁, hans, rfl⟩ := hstep.answered hu
    cases hstep with
    | call hexec =>
      obtain ⟨V₁', hexec', hl₁⟩ := hl.exec hu.heap hu'.heap hexec
      obtain ⟨u₁', hans', rfl⟩ := (Machine.Step.call hexec').answered hu'
      exact ⟨u₁', hans', ⟨u₁, hans.1.wf hu, rfl⟩, hans'.1.wf hu', hl₁⟩
  obtain ⟨u', hrun', -⟩ := hrun.simulate hstep (⟨⟨w, hw, rfl⟩, hw', hl⟩ : Sim w.heap.view w')
  exact ⟨_, u', hrun', List.filter_eq_self.mpr fun l hl ↦ (List.mem_filter.mp hl).2⟩

/-! ## The face of a world -/

/-- The two states have their live blocks at the same addresses, with the same room, and the same
arenas, as far as these are open; and the same arenas are lost. -/
structure Heap.SameFace (h h' : Heap) : Prop where
  blocks : ∀ q, (∃ s c, h'.cell s = some c ∧ c.payload = q) ↔
    ∃ s c, h.cell s = some c ∧ c.payload = q
  opened : ∀ z, h'.poolFlag z = h.poolFlag z
  base : ∀ z, h.poolFlag z = true → h'.base z = h.base z
  stuck : ∀ z, h'.Stuck z ↔ h.Stuck z

theorem Heap.SameFace.symm (hf : h.SameFace h') : h'.SameFace h where
  blocks := fun q ↦ (hf.blocks q).symm
  opened := fun z ↦ (hf.opened z).symm
  base := fun z hz ↦ (hf.base z ((hf.opened z).symm.trans hz)).symm
  stuck := fun z ↦ (hf.stuck z).symm

/-- A block of one of two states with the same face is in the same slot of the other, if it is in a
pool. -/
theorem Heap.SameFace.cell_pool (hi : h.WF pl) (hi' : h'.WF pl) (hf : h.SameFace h')
    (hc : h.cell (.pool z k) = some c) :
    ∃ d, h'.cell (.pool z k) = some d ∧ d.payload = c.payload := by
  obtain ⟨s, d, hd, hq⟩ := (hf.blocks c.payload).mpr ⟨_, c, hc, rfl⟩
  obtain ⟨hopen, hk⟩ := hi.exists_of_taken (Heap.taken_of_cell hc)
  have hexists : h'.Exists (.pool z k) := ⟨(hf.opened z).trans hopen, hk⟩
  have hsame : s = .pool z k := by
    by_contra hne
    -- the two slots share the address of the header
    have hap := hi'.extent_apart (hi'.exists_of_taken (Heap.taken_of_cell hd)) hexists hne
    have hlen := (hi'.extent_mapped (hi'.exists_of_taken (Heap.taken_of_cell hd))).2
    have hz := z.stride_bounds
    have hbase := hf.base z hopen
    have hp : d.ptr = c.ptr := congrArg Region.base hq
    have hpd := (hi'.extent_of_cell hd).1
    have hpc := (hi.extent_of_cell hc).1
    have hhdr : (h'.extent (.pool z k)).base = (h.extent (.pool z k)).base :=
      congrArg (· + z.stride * k) hbase
    have hstride : (h'.extent (.pool z k)).len = z.stride := rfl
    rw [Region.Apart, hhdr, hstride] at hap
    omega
  subst hsame
  exact ⟨d, hd, hq⟩

/-- **States with the same face look alike.** -/
theorem Heap.SameFace.like (hi : h.WF pl) (hi' : h'.WF pl) (hf : h.SameFace h') :
    Machine.Like h.view h'.view where
  pool := fun z ↦ by
    refine ⟨fun k ↦ ?_, hf.opened z, hf.base z, fun hclosed ↦ ?_⟩
    · refine Option.ext fun q ↦ ?_
      simp only [Option.map_eq_some_iff]
      constructor
      · rintro ⟨c, hc, rfl⟩
        exact hf.symm.cell_pool hi' hi hc
      · rintro ⟨c, hc, rfl⟩
        exact hf.cell_pool hi hi' hc
    · have hclosed₀ : h.poolFlag z = false := hclosed
      have hclosed' : h'.poolFlag z = false := (hf.opened z).trans hclosed
      have hstuck := hf.stuck z
      rw [Heap.Stuck, Heap.Stuck, and_iff_left hclosed₀, and_iff_left hclosed'] at hstuck
      exact not_iff_not.mp hstuck
  large := fun q ↦ by
    have hlarge : ∀ {g g' : Heap}, g.WF pl → g'.WF pl → g.SameFace g' →
        (g.view .large).Offers q → (g'.view .large).Offers q := by
      rintro g g' hg hg' hf ⟨i, -, c, hc, hq⟩
      obtain ⟨s, d, hd, hdq⟩ := (hf.blocks q).mpr ⟨.large i, c, hc, hq⟩
      cases s with
      | large j => exact ⟨j, hg'.large_lt j (Heap.taken_of_cell hd), d, hd, hdq⟩
      | pool z k =>
        obtain ⟨e, he, heq⟩ := hf.symm.cell_pool hg' hg hd
        have hp : e.ptr = c.ptr := congrArg Region.base (heq.trans (hdq.trans hq.symm))
        exact absurd (hg.ptr_inj he hc hp) (by simp)
    exact ⟨hlarge hi' hi hf.symm, hlarge hi hi' hf⟩

/-! ## Experiments -/

variable {l : Action × Option Nat} {ls : List (Action × Option Nat)} {mmap : Option Nat}
  {munmap : Bool}

/-- What is shown after a call. -/
theorem World.WF.cons_mem_traces (hw : w.WF pl) (hcall : l.1.isCall) :
    l :: ls ∈ w.traces pl ↔ ∃ w₁, Answered pl w l w₁ ∧ ls ∈ w₁.traces pl := by
  constructor
  · rintro ⟨as, w', hrun, hls⟩
    obtain ⟨V, hstep, hrest⟩ := Run.cons_iff.mp (hw.run_iff.mp ⟨as, w', hrun, hls, rfl⟩)
    obtain ⟨w₁, hans, rfl⟩ := hstep.answered hw
    obtain ⟨bs, w₂, hrun₂, hbs, -⟩ := (hans.1.wf hw).run_iff.mpr hrest
    exact ⟨w₁, hans, bs, w₂, hrun₂, hbs⟩
  · rintro ⟨w₁, hans, as, w', hrun, rfl⟩
    exact ⟨l :: as, w', .cons hans hrun, List.filter_cons_of_pos hcall⟩

/-- **An experiment goes on**: what shows all that another world shows still does after a call. -/
theorem World.traces_step (hw : w.WF pl) (hw' : w'.WF pl) (hsub : w.traces pl ⊆ w'.traces pl)
    (hcall : l.1.isCall) (hans : Answered pl w l w₁) :
    ∃ w₁', Answered pl w' l w₁' ∧ w₁.traces pl ⊆ w₁'.traces pl := by
  have hmem : ∀ ls ∈ w₁.traces pl, ∃ w₁', Answered pl w' l w₁' ∧ ls ∈ w₁'.traces pl :=
    fun ls hls ↦ (hw'.cons_mem_traces hcall).mp
      (hsub ((hw.cons_mem_traces hcall).mpr ⟨w₁, hans, hls⟩))
  obtain ⟨w₁', hans', -⟩ := hmem [] ⟨[], w₁, .nil _, rfl⟩
  refine ⟨w₁', hans', fun ls hls ↦ ?_⟩
  obtain ⟨u, hu, hls⟩ := hmem ls hls
  rwa [← hans'.1.next_eq, hu.1.next_eq]

/-- What a call did that has been answered. -/
theorem Answered.call_step (hw : w.WF pl)
    (hans : Answered pl w (.call t call mmap munmap, some r) w₁) :
    ∃ h₁, CallStep pl (pl.os mmap munmap) (w.heap.lock t) call r h₁ ∧ w₁.heap = h₁.unlock := by
  obtain ⟨hstep, hr⟩ := hans
  cases hstep with
  | @call _ _ _ _ r' h' hrun =>
    rw [World.outcome, World.answer, hrun, Option.some_inj] at hr
    subst hr
    exact hw.call_step hrun

/-- **A `realloc` that fits tells the room of a block.** -/
theorem World.room_le (hw : w.WF pl) (hw' : w'.WF pl) (hsub : w.traces pl ⊆ w'.traces pl)
    (hc : w.heap.cell s = some c) :
    ∃ s' c', w'.heap.cell s' = some c' ∧ c'.ptr = c.ptr ∧ c.room ≤ c'.room := by
  have hp := hw.heap.ptr_ne_zero hc
  have hroom : c.room ≠ 0 := by
    have := hw.heap.cell_size_le hc
    omega
  have hexec : Machine.exec w.heap.view pl (pl.os none true) (.realloc c.ptr c.room)
      = some (c.ptr, fun Z ↦ (w.heap.view Z).resize c.ptr c.room) := by
    rw [Machine.exec, if_neg hp, if_neg hroom, Machine.find_of_cell hw.heap hc]
    exact if_pos (Nat.le_refl _)
  obtain ⟨w₁, hans, -⟩ := (Machine.Step.call (t := 0) hexec).answered hw
  obtain ⟨w₁', hans', -⟩ := World.traces_step hw hw' hsub rfl hans
  obtain ⟨h₁, hstep, -⟩ := hans'.call_step hw'
  have hi' := hw'.heap.lock 0
  cases hstep with
  | realloc hr =>
    rcases hi'.stray_or_cell c.ptr with hstray | ⟨s', c', hc', hcp⟩
    · exact absurd (hr.of_stray hp hstray).1 hp
    · refine ⟨s', c', hc', hcp, ?_⟩
      rw [← hcp] at hr
      rcases hr.of_cell hi' hc' with ⟨h0, -⟩ | ⟨-, hfit, -⟩ | ⟨-, h0, -⟩ | ⟨hbig, -, _, hm, -⟩
      · exact absurd h0 hroom
      · exact hfit
      · exact absurd (hcp.symm.trans h0) hp
      · -- a new block is not where a live one is
        rcases hm.effect hi' (by omega) with ⟨h0, -⟩ | ⟨_, d, -, hfree, -, hd, -, hb⟩
        · exact absurd (hcp.symm.trans h0) hp
        · exact absurd hd.symm (hb.ptr_new hfree hc')

/-- The largest request of a pool. -/
theorem Pool.zoneOf_room (z : Pool) :
    zoneOf (z.stride - METASIZE) = .pool z ∧
      reqSize (z.stride - METASIZE) = z.stride - METASIZE := by
  cases z <;> decide

/-- A block is given back, if there is one. -/
theorem World.WF.free (hw : w.WF pl) (t p : Nat) :
    ∃ w₁, Answered pl w (.call t (.free p) none true, some 0) w₁ ∧
      FreeStep (w.heap.lock t) p (w₁.heap.lock t) := by
  have hexec : Machine.exec w.heap.view pl (pl.os none true) (.free p)
      = some (0, fun Z ↦ (w.heap.view Z).release p) := by
    rw [Machine.exec, Machine.release, if_neg (by simp [Platform.os]), Option.map_some]
  obtain ⟨w₁, hans, -⟩ := (Machine.Step.call (t := t) hexec).answered hw
  obtain ⟨h₁, hstep, hheap⟩ := hans.call_step hw
  refine ⟨w₁, hans, ?_⟩
  cases hstep with
  | free hf =>
    have hlock : w₁.heap.lock t = h₁ := by
      have hmutex : h₁.mutex = some t := by
        cases hf <;> rfl
      rw [hheap]
      show ({ h₁ with mutex := some t } : Heap) = h₁
      rw [← hmutex]
    rwa [hlock]

/-- A free that was answered. -/
theorem Answered.free (hw : w.WF pl)
    (hans : Answered pl w (.call t (.free p) mmap munmap, some r) w₁) :
    ∃ h₁, FreeStep (w.heap.lock t) p h₁ ∧ w₁.heap = h₁.unlock := by
  obtain ⟨h₁, hstep, hheap⟩ := hans.call_step hw
  cases hstep with
  | free hf => exact ⟨h₁, hf, hheap⟩

theorem FreeStep.sameArenas (hf : FreeStep h p h') : h.SameArenas h' := by
  cases hf <;> exact ⟨rfl, rfl, rfl⟩

/-- The ways a pool can serve a request. -/
theorem MallocStep.pool_served (hm : MallocStep pl os h n r h') (hz : zoneOf n = .pool z)
    (hr : r ≠ 0) : (h.poolFlag z = true ∧ ∃ k, r = h.slotAddr z k + METASIZE) ∨
      h.poolFlag z = false ∧ h.pageFlag z = 0#32 ∧
        ∃ ptr, os.answer h.mapped (pl.arenaLen z) = some ptr := by
  have hpool : ∀ {y : Pool}, zoneOf n = .pool y → y = z := fun hy ↦ Zone.pool.inj (hy.symm.trans hz)
  have hlarge : zoneOf n ≠ .large := fun hy ↦ by simp [hz] at hy
  cases hm with
  | poolFull | arenaRefused | arenaFailed | tableFull | tooLarge | largeFailed =>
    exact absurd rfl hr
  | poolSlot hy hopen =>
    obtain rfl := hpool hy
    exact .inl ⟨hopen, _, rfl⟩
  | arenaOpened hy hclosed hflag hyes =>
    obtain rfl := hpool hy
    exact .inr ⟨hclosed, hflag, _, hyes⟩
  | largeOpened hy => exact absurd hy hlarge

/-- **A `malloc` while the kernel refuses to map tells where an arena is**, once its first slot is
given back. -/
theorem World.arena_le (hw : w.WF pl) (hw' : w'.WF pl) (hsub : w.traces pl ⊆ w'.traces pl)
    (hopen : w.heap.poolFlag z = true) :
    w'.heap.poolFlag z = true ∧ w'.heap.base z ≤ w.heap.base z := by
  obtain ⟨hzone, hreq⟩ := z.zoneOf_room
  obtain ⟨w₁, hans, hfree⟩ := hw.free 0 (w.heap.base z + METASIZE)
  have hw₁ := hans.1.wf hw
  have hopen₁ : w₁.heap.poolFlag z = true := (congrFun hfree.sameArenas.poolFlag z).trans hopen
  have hbase₁ : w₁.heap.base z = w.heap.base z := congrFun hfree.sameArenas.base z
  -- the first slot is free now
  have hfirst : least 100 (w₁.heap.view (.pool z)).taken = some 0 := by
    refine hw₁.heap.least_view (Z := .pool z) (by decide) (fun ht ↦ ?_) (by simp)
    have hcell : w₁.heap.cell (.pool z 0) = some _ := Heap.cell_of_taken ht
    have hfilter := hfree.cell (hw.heap.lock 0) (.pool z 0)
    have hsame : (w₁.heap.lock 0).cell (.pool z 0) = w₁.heap.cell (.pool z 0) := rfl
    rw [hsame, hcell] at hfilter
    have hne := (Option.filter_eq_some_iff.mp hfilter.symm).2
    have hhdr : (w₁.heap.extent (.pool z 0)).base = w.heap.base z := by
      show w₁.heap.base z + z.stride * 0 = _
      rw [hbase₁, Nat.mul_zero, Nat.add_zero]
    exact of_decide_eq_true hne (congrArg (· + METASIZE) hhdr)
  have hexec : ∃ V, Machine.exec w₁.heap.view pl (pl.os none true) (.malloc (z.stride - METASIZE))
      = some (w.heap.base z + METASIZE, V) := by
    rw [Machine.exec, hreq, Machine.request, hzone, ClassView.serve, hzone]
    dsimp only
    rw [ClassView.servePool_slot hopen₁ hfirst]
    refine ⟨_, congrArg some (Prod.ext ?_ rfl)⟩
    show w₁.heap.base z + z.stride * 0 + METASIZE = _
    rw [hbase₁, Nat.mul_zero, Nat.add_zero]
  obtain ⟨V, hexec⟩ := hexec
  obtain ⟨w₂, hans₂, -⟩ := (Machine.Step.call (t := 0) hexec).answered hw₁
  -- the other world has to answer the same
  obtain ⟨w₁', hans', hsub₁⟩ := World.traces_step hw hw' hsub rfl hans
  have hw₁' := hans'.1.wf hw'
  obtain ⟨w₂', hans₂', -⟩ := World.traces_step hw₁ hw₁' hsub₁ rfl hans₂
  obtain ⟨h₁', hfree', hheap'⟩ := hans'.free hw'
  obtain ⟨h₂', hstep', -⟩ := hans₂'.call_step hw₁'
  have hopen' : w₁'.heap.poolFlag z = w'.heap.poolFlag z := by
    rw [hheap']
    exact congrFun hfree'.sameArenas.poolFlag z
  have hbase' : w₁'.heap.base z = w'.heap.base z := by
    rw [hheap']
    exact congrFun hfree'.sameArenas.base z
  cases hstep' with
  | malloc hm =>
    rw [hreq] at hm
    rcases hm.pool_served hzone (by simp [METASIZE]) with ⟨hserved, k, hr⟩ | ⟨-, -, _, hyes⟩
    · have hle : w₁'.heap.base z ≤ w₁'.heap.slotAddr z k := Nat.le_add_right _ _
      have hr : w.heap.base z + METASIZE = w₁'.heap.slotAddr z k + METASIZE := hr
      refine ⟨hopen'.symm.trans hserved, ?_⟩
      omega
    · exact absurd hyes (by simp [Platform.os, OS.answer])

/-- When nothing LARGE is live, the kernel has room for an arena. -/
theorem Heap.WF.exists_grants (hi : h.WF pl) (hclosed : h.poolFlag z = false)
    (hnone : ∀ i, h.large i = 0) : ∃ ptr, Grants h.mapped (pl.arenaLen z) ptr := by
  -- at most the other arena is mapped
  obtain ⟨y, hother⟩ : ∃ y, ∀ u, u ≠ z → u = y := by
    cases z
    · exact ⟨.small, fun u hu ↦ by cases u <;> simp_all⟩
    · exact ⟨.tiny, fun u hu ↦ by cases u <;> simp_all⟩
  have hmapped : ∀ r ∈ h.mapped, r = ⟨h.base y, pl.arenaLen y⟩ := by
    intro r hr
    obtain ⟨o, ho⟩ := (hi.mem_mapped r).mp hr
    cases o with
    | large i => simp [Heap.region, hnone] at ho
    | arena u =>
      rw [Heap.region] at ho
      split at ho
      · rename_i hopen
        have hne : u ≠ z := by
          rintro rfl
          exact absurd (hopen.symm.trans hclosed) (by decide)
        rw [hother u hne] at ho
        exact (Option.some_inj.mp ho).symm
      · exact absurd ho (by simp)
  have hlen : 0 < pl.arenaLen z := by
    have hge := pl.arenaLen_ge z
    have hz := z.stride_bounds
    omega
  have hlt := pl.arenaLen_lt z
  have hlt' := pl.arenaLen_lt y
  by_cases hap : h.base y + pl.arenaLen y ≤ 2 ^ 40 ∨ 2 ^ 40 + pl.arenaLen z ≤ h.base y
  · refine ⟨2 ^ 40, hlen, by decide, by decide, by omega, fun r hr ↦ ?_⟩
    rw [hmapped r hr]
    exact hap
  · refine ⟨2 ^ 50, hlen, by decide, by decide, by omega, fun r hr ↦ ?_⟩
    rw [hmapped r hr]
    simp only [Region.Apart]
    omega

/-- When nothing LARGE is live, an arena that can still be set up can be set up at once. -/
theorem World.WF.exists_opening (hw : w.WF pl) (hclosed : w.heap.poolFlag z = false)
    (hflag : w.heap.pageFlag z = 0#32) (hnone : ∀ i, w.heap.large i = 0) :
    ∃ ptr w₁, Answered pl w
      (.call 0 (.malloc (z.stride - METASIZE)) (some ptr) true, some (ptr + METASIZE)) w₁ := by
  obtain ⟨ptr, hgrants⟩ := hw.heap.exists_grants hclosed hnone
  obtain ⟨hzone, hreq⟩ := z.zoneOf_room
  have hyes : (pl.os (some ptr) true).answer w.heap.mapped (pl.arenaLen z) = some ptr :=
    Option.filter_some_pos (decide_eq_true hgrants)
  obtain ⟨r, h', -, hm⟩ :=
    mallocImpl_step (pl.os_on (some ptr) true) hw.heap (z.stride - METASIZE)
  rw [hreq] at hm
  have hpos : 0 < z.stride - METASIZE := by cases z <;> decide
  have hview := hm.view_pool hw.heap hzone
  rw [hyes, ClassView.servePool_opened hclosed hflag] at hview
  have hr : r = ptr + METASIZE := congrArg Prod.fst hview
  have hexec : Machine.exec w.heap.view pl (pl.os (some ptr) true) (.malloc (z.stride - METASIZE))
      = some (ptr + METASIZE, h'.view) := by
    rw [Machine.exec, hreq, Machine.request_view hw.heap hpos hm, hr]
  obtain ⟨w₁, hans, -⟩ := (Machine.Step.call (t := 0) hexec).answered hw
  exact ⟨ptr, w₁, hans⟩

/-- Once a LARGE block is given back, there is one less. -/
theorem FreeStep.card_large {i : Nat} (hi : h.WF pl) (hf : FreeStep h p h')
    (hc : h.cell (.large i) = some c) (hp : c.ptr = p) :
    (h'.takenSet .large).card + 1 = (h.takenSet .large).card := by
  have hset : h'.takenSet .large = (h.takenSet .large).erase i :=
    (congrFun (hf.first_free hi hc hp).1 .large).trans (Function.update_self _ _ _)
  have hmem : i ∈ h.takenSet .large :=
    (hi.mem_takenSet (Z := .large)).mpr (Heap.taken_of_cell hc)
  rw [hset, Finset.card_erase_add_one hmem]

/-- **A `malloc` once all LARGE blocks are given back tells whether an arena can still be set
up.** -/
theorem World.unstuck (hw : w.WF pl) (hw' : w'.WF pl) (hsub : w.traces pl ⊆ w'.traces pl)
    (hclosed : w.heap.poolFlag z = false) (hflag : w.heap.pageFlag z = 0#32)
    (hclosed' : w'.heap.poolFlag z = false) : w'.heap.pageFlag z = 0#32 := by
  -- by induction on the number of LARGE blocks
  induction hN : (w.heap.takenSet .large).card generalizing w w' with
  | zero =>
    have hnone : ∀ i, w.heap.large i = 0 := by
      intro i
      by_contra hi
      have hmem := hw.heap.mem_takenSet (Z := .large) (k := i).mpr hi
      rw [Finset.card_eq_zero.mp hN] at hmem
      exact absurd hmem (by simp)
    obtain ⟨ptr, w₁, hans⟩ := hw.exists_opening hclosed hflag hnone
    obtain ⟨w₁', hans', -⟩ := World.traces_step hw hw' hsub rfl hans
    obtain ⟨h₁, hstep, -⟩ := hans'.call_step hw'
    obtain ⟨hzone, hreq⟩ := z.zoneOf_room
    cases hstep with
    | malloc hm =>
      rw [hreq] at hm
      rcases hm.pool_served hzone (by simp [METASIZE]) with ⟨hopen, -⟩ | ⟨-, hfree, -⟩
      · exact absurd (hopen.symm.trans hclosed') (by decide)
      · exact hfree
  | succ N ih =>
    obtain ⟨i, hi⟩ := Finset.card_pos.mp (by omega : 0 < (w.heap.takenSet .large).card)
    have hc : (w.heap.lock 0).cell (.large i) = some _ :=
      Heap.cell_of_taken ((hw.heap.mem_takenSet (Z := .large)).mp hi)
    obtain ⟨w₁, hans, hfree⟩ := hw.free 0 ((w.heap.extent (.large i)).base + METASIZE)
    obtain ⟨w₁', hans', hsub₁⟩ := World.traces_step hw hw' hsub rfl hans
    obtain ⟨h₁', hfree', hheap'⟩ := hans'.free hw'
    have hsame' : h₁'.poolFlag = w'.heap.poolFlag ∧ h₁'.pageFlag = w'.heap.pageFlag :=
      ⟨hfree'.sameArenas.poolFlag, hfree'.sameArenas.pageFlag⟩
    have hcard : (w₁.heap.takenSet .large).card = N :=
      Nat.succ.inj ((hfree.card_large (hw.heap.lock 0) hc rfl).trans hN)
    have hflag' := ih (hans.1.wf hw) (hans'.1.wf hw') hsub₁
      ((congrFun hfree.sameArenas.poolFlag z).trans hclosed)
      ((congrFun hfree.sameArenas.pageFlag z).trans hflag)
      (by rw [hheap']; exact (congrFun hsame'.1 z).trans hclosed') hcard
    rw [hheap'] at hflag'
    exact (congrFun hsame'.2 z).symm.trans hflag'

/-- **Two worlds show the same exactly if they have the same face.** -/
theorem World.WF.traces_eq_iff (hw : w.WF pl) (hw' : w'.WF pl) :
    w'.traces pl = w.traces pl ↔ w.heap.SameFace w'.heap := by
  constructor
  · intro heq
    have hsub : w.traces pl ⊆ w'.traces pl := heq.symm.subset
    have hsub' : w'.traces pl ⊆ w.traces pl := heq.subset
    have hblock : ∀ {u u' : World}, u.WF pl → u'.WF pl → u.traces pl ⊆ u'.traces pl →
        u'.traces pl ⊆ u.traces pl → ∀ {s c}, u.heap.cell s = some c →
          ∃ s' c', u'.heap.cell s' = some c' ∧ c'.payload = c.payload := by
      intro u u' hu hu' hsub hsub' s c hc
      obtain ⟨s', c', hc', hp, hle⟩ := World.room_le hu hu' hsub hc
      obtain ⟨s₂, c₂, hc₂, hp₂, hle₂⟩ := World.room_le hu' hu hsub' hc'
      obtain rfl := hu.heap.ptr_inj hc₂ hc (hp₂.trans hp)
      obtain rfl := Option.some_inj.mp (hc₂.symm.trans hc)
      refine ⟨s', c', hc', ?_⟩
      rw [Cell.payload, Cell.payload, hp, Nat.le_antisymm hle₂ hle]
    have hopened : ∀ z, w'.heap.poolFlag z = w.heap.poolFlag z := fun z ↦
      Bool.eq_iff_iff.mpr
        ⟨fun h ↦ (World.arena_le hw' hw hsub' h).1, fun h ↦ (World.arena_le hw hw' hsub h).1⟩
    refine ⟨fun q ↦ ⟨?_, ?_⟩, hopened, fun z hz ↦ ?_, fun z ↦ ⟨?_, ?_⟩⟩
    · rintro ⟨s, c, hc, rfl⟩
      exact hblock hw' hw hsub' hsub hc
    · rintro ⟨s, c, hc, rfl⟩
      exact hblock hw hw' hsub hsub' hc
    · exact Nat.le_antisymm (World.arena_le hw hw' hsub hz).2
        (World.arena_le hw' hw hsub' ((hopened z).trans hz)).2
    · rintro ⟨hflag, hclosed⟩
      have hclosed₀ := (hopened z).symm.trans hclosed
      exact ⟨fun h0 ↦ hflag (World.unstuck hw hw' hsub hclosed₀ h0 hclosed), hclosed₀⟩
    · rintro ⟨hflag, hclosed⟩
      have hclosed' := (hopened z).trans hclosed
      exact ⟨fun h0 ↦ hflag (World.unstuck hw' hw hsub' hclosed' h0 hclosed), hclosed'⟩
  · intro hf
    have hl := hf.like hw.heap hw'.heap
    have hl' := hf.symm.like hw'.heap hw.heap
    exact Set.Subset.antisymm (World.traces_subset hw' hw hl') (World.traces_subset hw hw' hl)

/-- **What callers can tell apart.**  Two worlds the library can get into answer every sequence of
calls alike exactly if their live blocks are at the same addresses and have the same room, the same
arenas are open, at the same addresses, and the same arenas are lost.  What the blocks and the
headers hold, the sizes on record, the order of the LARGE table and `errno` do not show. -/
theorem indistinguishable_iff (hw : w.Reachable pl) (hw' : w'.Reachable pl) :
    w'.traces pl = w.traces pl ↔ w.heap.SameFace w'.heap := hw.wf.traces_eq_iff hw'.wf

/-- Two blocks, and the first of them with another size on record. -/
theorem indistinguishable_iff_twoBlocks :
    (World.twoBlocks.after .pages4k 1 (.realloc 0x1010 50) none true).traces .pages4k
        = World.twoBlocks.traces .pages4k ↔
      World.twoBlocks.heap.SameFace
        (World.twoBlocks.after .pages4k 1 (.realloc 0x1010 50) none true).heap :=
  indistinguishable_iff World.reachable_twoBlocks
    (World.reachable_twoBlocks.next (Step.of_answer (r := 0x1010) (by decide +kernel)))

end FtMalloc
