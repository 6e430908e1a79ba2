import FtMalloc.SystemCalls

/-!
# The mappings are accounted for

The log of system calls against the blocks of the clients.

* `World.Accounted` says that what is mapped is one mapping for each arena that was set up and one
  for each live LARGE block, and no other.
* `Traffic` says what one call adds to the log.

`mappings_accounted` puts the two together, for every run.
-/

set_option autoImplicit false

namespace FtMalloc

open ByteMemory

variable {pl : Platform} {w w' : World} {a : Action} {n r : Nat} {call : Call} {p : Region}

/-! ## The accounts -/

/-- The mapping of the LARGE block at `p`, as its header has it. -/
def World.mapping (w : World) (p : Nat) : Region :=
  ⟨p - METASIZE, metaSize w.heap.mem (p - METASIZE)⟩

/-- The arenas that were set up. -/
def World.arenas (pl : Platform) (w : World) : List Region :=
  ([.tiny, .small].filter fun z ↦ w.heap.poolFlag z).map fun z ↦ ⟨w.heap.base z, pl.arenaLen z⟩

/-- The mappings of the live LARGE blocks. -/
def World.blockMappings (w : World) : List Region :=
  (w.live.filter fun b ↦ b.zone = .large).map fun b ↦ w.mapping b.ptr

/-- What is mapped is accounted for. -/
structure World.Accounted (pl : Platform) (w : World) : Prop where
  /-- It is what was mapped and not given back. -/
  log : Outstanding w.heap.calls w.heap.mapped
  /-- It is one mapping for each arena that was set up, and one for each live LARGE block. -/
  perm : w.heap.mapped.Perm (w.arenas pl ++ w.blockMappings)
  /-- These are different mappings. -/
  nodup : w.heap.mapped.Nodup

variable {b : Block}

theorem World.mem_arenas {w : World} :
    p ∈ w.arenas pl ↔ ∃ z, w.heap.poolFlag z = true ∧ p = ⟨w.heap.base z, pl.arenaLen z⟩ := by
  rw [World.arenas, List.mem_map]
  constructor
  · rintro ⟨z, hz, rfl⟩
    exact ⟨z, (List.mem_filter.mp hz).2, rfl⟩
  · rintro ⟨z, hz, rfl⟩
    exact ⟨z, List.mem_filter.mpr ⟨by cases z <;> simp, hz⟩, rfl⟩

namespace World.WF

/-- The header of a LARGE block tells its mapping. -/
theorem mapping_eq (hw : w.WF pl) {i : Nat} {c : Cell} (hc : w.heap.cell (.large i) = some c)
    (hp : c.ptr = b.ptr) : w.mapping b.ptr = w.heap.extent (.large i) := by
  have he := (hw.heap.extent_of_cell hc).1
  have hbase : b.ptr - METASIZE = w.heap.large i := by
    rw [← hp, he, Nat.add_sub_cancel]
    rfl
  rw [World.mapping, hbase]
  rfl

/-- A live LARGE block has a mapping of its own. -/
theorem mapping_region (hw : w.WF pl) (hb : b ∈ w.live) (hz : b.zone = .large) :
    ∃ i, w.heap.region pl (.large i) = some (w.mapping b.ptr) ∧
      b.ptr = (w.mapping b.ptr).base + METASIZE := by
  obtain ⟨i, c, hc, hat⟩ := hw.entry_of_large hb hz
  rw [hw.mapping_eq hc hat.ptr]
  exact ⟨i, if_pos (Heap.taken_of_cell hc), by rw [← hat.ptr, (hw.heap.extent_of_cell hc).1]⟩

/-- Each mapping is an arena or belongs to a live LARGE block. -/
theorem mem_mapped_iff (hw : w.WF pl) : p ∈ w.heap.mapped ↔
    p ∈ w.arenas pl ∨ ∃ b ∈ w.live, b.zone = .large ∧ w.mapping b.ptr = p := by
  rw [hw.heap.mem_mapped, World.mem_arenas]
  constructor
  · rintro ⟨o, ho⟩
    cases o with
    | arena z =>
      obtain ⟨hz, hp⟩ := Option.ite_none_right_eq_some.mp ho
      exact .inl ⟨z, hz, (Option.some_inj.mp hp).symm⟩
    | large i =>
      obtain ⟨hi, hp⟩ := Option.ite_none_right_eq_some.mp ho
      have hc := Heap.cell_of_taken (h := w.heap) (s := .large i) hi
      obtain ⟨b, hb, hat⟩ := hw.tracks.complete _ _ hc
      refine .inr ⟨b, hb, hat.zone.symm, ?_⟩
      rw [hw.mapping_eq hc hat.ptr]
      exact Option.some_inj.mp hp
  · rintro (⟨z, hz, rfl⟩ | ⟨b, hb, hz, rfl⟩)
    · exact ⟨.arena z, if_pos hz⟩
    · obtain ⟨i, hr, -⟩ := hw.mapping_region hb hz
      exact ⟨_, hr⟩

/-- Two owners do not share a mapping. -/
theorem region_inj (hw : w.WF pl) {o o' : Owner} (ho : w.heap.region pl o = some p)
    (ho' : w.heap.region pl o' = some p) : o = o' := by
  by_contra hne
  exact Region.not_apart_self (hw.heap.region_mapped o p ho).len_pos
    (hw.heap.region_apart o o' p p hne ho ho')

theorem accounts_nodup (hw : w.WF pl) : (w.arenas pl ++ w.blockMappings).Nodup := by
  have hreg : ∀ z, w.heap.poolFlag z = true →
      w.heap.region pl (.arena z) = some ⟨w.heap.base z, pl.arenaLen z⟩ := fun z hz ↦ if_pos hz
  refine List.nodup_append.mpr ⟨?_, ?_, ?_⟩
  · refine List.Nodup.map_on (fun y hy z hz hyz ↦ ?_) (List.Nodup.filter _ (by decide))
    have hz' := hreg z (List.mem_filter.mp hz).2
    rw [← hyz] at hz'
    simpa using hw.region_inj (hreg y (List.mem_filter.mp hy).2) hz'
  · refine List.Nodup.map_on (fun x hx y hy hxy ↦ ?_)
      ((List.Nodup.of_map _ hw.tracks.nodup).filter _)
    obtain ⟨hx, hxz⟩ := List.mem_filter.mp hx
    obtain ⟨hy, hyz⟩ := List.mem_filter.mp hy
    obtain ⟨-, -, hxp⟩ := hw.mapping_region hx (of_decide_eq_true hxz)
    obtain ⟨-, -, hyp⟩ := hw.mapping_region hy (of_decide_eq_true hyz)
    exact hw.tracks.ptr_inj hx hy (by rw [hxp, hyp, hxy])
  · rintro r hr s hs rfl
    obtain ⟨z, hz, rfl⟩ := World.mem_arenas.mp hr
    obtain ⟨x, hx, hxr⟩ := List.mem_map.mp hs
    obtain ⟨hx, hxz⟩ := List.mem_filter.mp hx
    obtain ⟨i, hri, -⟩ := hw.mapping_region hx (of_decide_eq_true hxz)
    rw [hxr] at hri
    simpa using hw.region_inj (hreg z hz) hri

theorem mapped_perm (hw : w.WF pl) : w.heap.mapped.Perm (w.arenas pl ++ w.blockMappings) := by
  refine (List.perm_ext_iff_of_nodup hw.heap.mapped_nodup hw.accounts_nodup).mpr fun p ↦ ?_
  rw [hw.mem_mapped_iff, List.mem_append, World.blockMappings, List.mem_map]
  refine or_congr Iff.rfl ⟨?_, ?_⟩
  · rintro ⟨x, hx, hz, hp⟩
    exact ⟨x, List.mem_filter.mpr ⟨hx, decide_eq_true hz⟩, hp⟩
  · rintro ⟨x, hx, hp⟩
    obtain ⟨hx, hz⟩ := List.mem_filter.mp hx
    exact ⟨x, hx, of_decide_eq_true hz, hp⟩

/-- Every live block starts behind the start of a mapping, and inside it. -/
theorem ptr_in_mapping (hw : w.WF pl) (hb : b ∈ w.live) :
    ∃ r ∈ w.heap.mapped, r.base + METASIZE ≤ b.ptr ∧ b.ptr < r.base + r.len := by
  obtain ⟨s, c, hc, hat⟩ := hw.cell_of_live hb
  have hs := hw.heap.exists_of_taken (Heap.taken_of_cell hc)
  obtain ⟨r, hr, hin⟩ := Heap.WF.extent_within pl hs
  have hlen := (hw.heap.extent_mapped hs).2
  have he := (hw.heap.extent_of_cell hc).1
  have hp := hat.ptr
  have hin1 := hin.1
  have hin2 := hin.2
  exact ⟨r, (hw.heap.mem_mapped r).mpr ⟨_, hr⟩, by omega, by omega⟩

end World.WF

/-! ## One call -/

/-- The system calls `D` of a call that answers `r`. -/
structure Traffic (pl : Platform) (w : World) (call : Call) (r : Nat) (w' : World)
    (D : List Syscall) : Prop where
  log : w'.heap.calls = D ++ w.heap.calls
  /-- Arenas stay. -/
  arenas : ∀ z, w.heap.poolFlag z = true →
    w'.heap.poolFlag z = true ∧ w'.heap.base z = w.heap.base z
  /-- So do the mappings of LARGE blocks that are live before and after. -/
  blocks : ∀ b ∈ w.live, b.zone = .large → (∃ b' ∈ w'.live, b'.ptr = b.ptr) →
    w'.mapping b.ptr = w.mapping b.ptr
  /-- A mapping is made for an arena that was not there, or for a LARGE block that is new. -/
  mmap : ∀ len q, .mmap len (some q) ∈ D →
    (∃ z, w.heap.poolFlag z = false ∧ w'.heap.poolFlag z = true ∧ w'.heap.base z = q ∧
        len = pl.arenaLen z) ∨
      (∃ b ∈ w'.live, b.zone = .large ∧ b.ptr = r ∧ w'.mapping r = ⟨q, len⟩) ∧
        ∀ b ∈ w.live, b.ptr ≠ r
  /-- A mapping that is given back is that of a LARGE block, which is live no more. -/
  munmap : ∀ q len ok, .munmap q len ok ∈ D → ok = true ∧
    ∃ b ∈ w.live, b.zone = .large ∧ call.Frees r b.ptr ∧ w.mapping b.ptr = ⟨q, len⟩ ∧
      ∀ b' ∈ w'.live, b'.ptr ≠ b.ptr
  /-- A call makes no system call when it requests at most a slot of an arena that is there, and
  frees no LARGE block. -/
  pool : (∀ n, call.Requests w.heap n → ∃ z, zoneOf (reqSize n) = .pool z ∧
      w.heap.poolFlag z = true) →
    (∀ b ∈ w.live, call.Frees r b.ptr → b.zone ≠ .large) → D = []
  /-- Neither does a `free` or a `realloc` where nothing is live. -/
  stray : ∀ p ≠ 0, call.names = some p → (∀ b ∈ w.live, b.ptr ≠ p) → D = []
  /-- A call that fails to get a block leaves the mappings as they were. -/
  failed : r = 0 → (∀ p, ¬ call.Frees 0 p) →
    w'.heap.mapped = w.heap.mapped ∧ ∀ x ∈ D, ∃ len, x = .mmap len none

namespace World.WF

/-- No block is live where a mapping was given back. -/
theorem not_live_of_gone (hw : w.WF pl) (hw' : w'.WF pl)
    (hnew : ∀ q ∈ w'.heap.mapped, q ∈ w.heap.mapped ∨ ∀ q' ∈ w.heap.mapped, q'.Apart q)
    (hp : p ∈ w.heap.mapped) (hlen : METASIZE < p.len) (hgone : p ∉ w'.heap.mapped) :
    ∀ b ∈ w'.live, b.ptr ≠ p.base + METASIZE := by
  intro b hb hbp
  obtain ⟨q, hq, hlow, hhigh⟩ := hw'.ptr_in_mapping hb
  have hap : p.Apart q := by
    rcases hnew q hq with hold | hnew
    · refine hw.heap.owned.apart_of_mem hp hold ?_
      rintro rfl
      exact hgone hq
    · exact hnew p hp
  simp only [Region.Apart] at hap
  omega

/-- No block was live where a mapping is new. -/
theorem not_live_of_new (hw : w.WF pl) (hlen : METASIZE < p.len)
    (hap : ∀ q ∈ w.heap.mapped, q.Apart p) : ∀ b ∈ w.live, b.ptr ≠ p.base + METASIZE := by
  intro b hb hbp
  obtain ⟨q, hq, hlow, hhigh⟩ := hw.ptr_in_mapping hb
  have hqp := hap q hq
  simp only [Region.Apart] at hqp
  omega

theorem mapping_len (hw : w.WF pl) (hb : b ∈ w.live) (hz : b.zone = .large) :
    METASIZE < (w.mapping b.ptr).len := by
  obtain ⟨i, c, hc, hat⟩ := hw.entry_of_large hb hz
  rw [hw.mapping_eq hc hat.ptr]
  exact (hw.heap.extent_mapped (hw.heap.exists_of_taken (Heap.taken_of_cell hc))).2

/-- The LARGE block of a cell. -/
theorem block_of_entry (hw : w.WF pl) {i : Nat} {c : Cell}
    (hc : w.heap.cell (.large i) = some c) :
    ∃ b ∈ w.live, b.zone = .large ∧ b.ptr = c.ptr ∧ w.mapping b.ptr = w.heap.extent (.large i) := by
  obtain ⟨b, hb, hat⟩ := hw.tracks.complete _ _ hc
  exact ⟨b, hb, hat.zone.symm, hat.ptr.symm, hw.mapping_eq hc hat.ptr⟩

end World.WF

/-- The worlds before and after a call that answers `r`: its request, if it makes one, has led to
`h₁`, and the rest of the call to the heap of `w'`. -/
structure Passage (pl : Platform) (w : World) (call : Call) (n r : Nat) (h₁ : Heap) (w' : World) :
    Prop where
  before : w.WF pl
  after : w'.WF pl
  fetches : w.heap.Fetches pl n r h₁
  finishes : w.heap.Finishes call r h₁ w'.heap

namespace Passage

variable {h₁ : Heap} (hp : Passage pl w call n r h₁ w')

include hp

/-- The mappings after the call are old, or new and apart from the old. -/
theorem mapping_new {q : Region} (hq : q ∈ w'.heap.mapped) :
    q ∈ w.heap.mapped ∨ ∀ q' ∈ w.heap.mapped, q'.Apart q :=
  hp.fetches.apart_of_new (hp.finishes.mem_mapped hq)

/-- An arena stays where it is. -/
theorem arena_kept {z : Pool} (hz : w.heap.poolFlag z = true) :
    w'.heap.poolFlag z = true ∧ w'.heap.base z = w.heap.base z := by
  have harenas := hp.finishes.sameArenas
  rw [harenas.poolFlag, harenas.base]
  exact hp.fetches.arena_kept hz

/-- An arena after the call is old, or new and apart from the old mappings. -/
theorem arena_new {z : Pool} (hz : w'.heap.poolFlag z = true) :
    w.heap.poolFlag z = true ∧ w'.heap.base z = w.heap.base z ∨
      ∀ q ∈ w.heap.mapped, q.Apart ⟨w'.heap.base z, pl.arenaLen z⟩ := by
  have harenas := hp.finishes.sameArenas
  rw [harenas.poolFlag] at hz
  rw [harenas.base]
  rcases hp.fetches.arena_new hz with hold | hap
  · exact .inl ⟨hold, (hp.fetches.arena_kept hold).2⟩
  · exact .inr hap

/-- No block is live where the mapping of a LARGE block is gone. -/
theorem not_live (hb : b ∈ w.live) (hz : b.zone = .large)
    (hgone : w.mapping b.ptr ∉ w'.heap.mapped) : ∀ b' ∈ w'.live, b'.ptr ≠ b.ptr := by
  obtain ⟨i, hreg, hbase⟩ := hp.before.mapping_region hb hz
  rw [hbase]
  exact hp.before.not_live_of_gone hp.after (fun _ hq ↦ hp.mapping_new hq)
    ((hp.before.heap.mem_mapped _).mpr ⟨_, hreg⟩) (hp.before.mapping_len hb hz) hgone

/-- The mapping of a LARGE block stays as long as the block is live. -/
theorem mapping_kept (hb : b ∈ w.live) (hz : b.zone = .large)
    (hlive : ∃ b' ∈ w'.live, b'.ptr = b.ptr) : w'.mapping b.ptr = w.mapping b.ptr := by
  have hw := hp.before
  obtain ⟨b', hb', hbb⟩ := hlive
  obtain ⟨i, hreg, hbase⟩ := hw.mapping_region hb hz
  have hstill : w.mapping b.ptr ∈ w'.heap.mapped := by
    by_contra hout
    exact hp.not_live hb hz hout b' hb' hbb
  rcases hp.after.mem_mapped_iff.mp hstill with harena | ⟨x, hx, hxz, hxm⟩
  · -- it is not the mapping of an arena, old or new
    obtain ⟨z, hzo, hzr⟩ := World.mem_arenas.mp harena
    rcases hp.arena_new hzo with ⟨hold, hbz⟩ | hap
    · have harena : w.heap.region pl (.arena z) = some (w.mapping b.ptr) := by
        rw [hzr, hbz]
        exact if_pos hold
      exact absurd (hw.region_inj harena hreg) (by simp)
    · rw [← hzr] at hap
      exact absurd (hap _ ((hw.heap.mem_mapped _).mpr ⟨_, hreg⟩))
        (Region.not_apart_self (Nat.zero_lt_of_lt (hw.mapping_len hb hz)))
  · obtain ⟨-, -, hxp⟩ := hp.after.mapping_region hx hxz
    rw [hxm, ← hbase] at hxp
    rw [← hxp]
    exact hxm.trans (by rw [hxp])

/-- What was mapped was mapped for an arena that was not there, or for a LARGE block that is new. -/
theorem mmap_made {len q : Nat} (hx : w.heap.Fetched pl n r h₁ (.mmap len (some q))) :
    (∃ z, w.heap.poolFlag z = false ∧ w'.heap.poolFlag z = true ∧ w'.heap.base z = q ∧
        len = pl.arenaLen z) ∨
      (∃ b ∈ w'.live, b.zone = .large ∧ b.ptr = r ∧ w'.mapping r = ⟨q, len⟩) ∧
        ∀ b ∈ w.live, b.ptr ≠ r := by
  have hw := hp.before
  have harenas := hp.finishes.sameArenas
  cases hx with
  | @arena z _ hr hclosed hop hq =>
    exact .inl ⟨z, hclosed, by rw [harenas.poolFlag, hop], by rw [harenas.base, hq], rfl⟩
  | block hr hz hsame hap hin =>
    have hlen : METASIZE < pl.largeLen n := by
      have h1 := pl.largeLen_ge n
      have h2 := lt_of_zoneOf_large hz
      omega
    have hfresh : ⟨q, pl.largeLen n⟩ ∉ w.heap.mapped := fun hold ↦
      Region.not_apart_self (Nat.zero_lt_of_lt hlen) (hap _ hold)
    have hin' : ⟨q, pl.largeLen n⟩ ∈ w'.heap.mapped := by
      rcases hp.finishes.mem_or_freed hin with hin' | ⟨i, c, hc, -, he, -⟩
      · exact hin'
      · refine absurd ((hw.heap.mem_mapped _).mpr ⟨.large i, ?_⟩) hfresh
        rw [he]
        exact if_pos (Heap.taken_of_cell hc)
    subst hr
    refine .inr ⟨?_, hw.not_live_of_new hlen hap⟩
    rcases hp.after.mem_mapped_iff.mp hin' with harena | ⟨x, hx, hxz, hxm⟩
    · obtain ⟨z, hzo, hzr⟩ := World.mem_arenas.mp harena
      rw [harenas.poolFlag, hsame.poolFlag] at hzo
      rw [harenas.base, hsame.base] at hzr
      exact absurd (hw.mem_mapped_iff.mpr (.inl (World.mem_arenas.mpr ⟨z, hzo, hzr⟩))) hfresh
    · obtain ⟨-, -, hxp⟩ := hp.after.mapping_region hx hxz
      rw [hxm] at hxp
      exact ⟨x, hx, hxz, hxp, hxp ▸ hxm⟩

/-- A LARGE block that was unmapped was freed by the call, and is live no more. -/
theorem block_unmapped {i : Nat} {c : Cell} (hc : w.heap.cell (.large i) = some c)
    (hfrees : call.Frees r c.ptr) (hout : w.heap.extent (.large i) ∉ w'.heap.mapped) :
    ∃ b ∈ w.live, b.zone = .large ∧ call.Frees r b.ptr ∧
      w.mapping b.ptr = w.heap.extent (.large i) ∧ ∀ b' ∈ w'.live, b'.ptr ≠ b.ptr := by
  obtain ⟨b, hb, hz, hbp, hmap⟩ := hp.before.block_of_entry hc
  exact ⟨b, hb, hz, hbp ▸ hfrees, hmap, hp.not_live hb hz (hmap ▸ hout)⟩

/-- A call that fails to get a block leaves the mappings as they were. -/
theorem mapped_of_null (hr : r = 0) (hno : ∀ p, ¬ call.Frees 0 p) :
    w'.heap.mapped = w.heap.mapped := by
  subst hr
  have hend : w'.heap.mapped = h₁.mapped := by
    cases hp.finishes with
    | quiet _ hmapped => exact hmapped
    | unmaps _ hfrees => exact absurd hfrees (hno _)
  rw [hend]
  cases hp.fetches with
  | quiet _ hmapped => exact hmapped
  | refused _ _ _ _ hmapped => exact hmapped
  | arena hr => exact absurd rfl hr
  | block hr =>
    rw [METASIZE] at hr
    omega

/-- **The system calls of one call**, in terms of the blocks of the clients. -/
theorem traffic (hreq : (∃ k, call.Requests w.heap k ∧ n = reqSize k) ∨ h₁.calls = w.heap.calls) :
    ∃ D, Traffic pl w call r w' D := by
  have hw := hp.before
  obtain ⟨D₁, hlog₁, hmem₁, hpool⟩ := hp.fetches.log
  obtain ⟨D₂, hlog₂, hmem₂⟩ := hp.finishes.log
  have hnone₁ : (∀ k, call.Requests w.heap k → ∃ z, zoneOf (reqSize k) = .pool z ∧
      w.heap.poolFlag z = true) → D₁ = [] := by
    intro hslot
    rcases hreq with ⟨k, hk, rfl⟩ | hsame
    · exact hpool (hslot k hk)
    · rw [hsame] at hlog₁
      exact List.self_eq_append_left.mp hlog₁
  have hnone₂ : (∀ b ∈ w.live, call.Frees r b.ptr → b.zone ≠ .large) → D₂ = [] := by
    refine fun hfree ↦ List.eq_nil_iff_forall_not_mem.mpr fun x hx ↦ ?_
    obtain ⟨i, c, hc, hfrees, -⟩ := hmem₂ x hx
    obtain ⟨b, hb, hz, hbp, -⟩ := hw.block_of_entry hc
    exact hfree b hb (hbp ▸ hfrees) hz
  have hnone : ∀ {D D' : List Syscall}, D' = [] → D = [] → D ++ D' = [] := by
    rintro _ _ rfl rfl
    rfl
  refine ⟨D₂ ++ D₁, {
    log := by rw [hlog₂, hlog₁, List.append_assoc]
    arenas := fun z hz ↦ hp.arena_kept hz
    blocks := fun b hb hz hlive ↦ hp.mapping_kept hb hz hlive
    mmap := fun len q hx ↦ ?_
    munmap := fun q len ok hx ↦ ?_
    pool := fun hslot hfree ↦ hnone (hnone₁ hslot) (hnone₂ hfree)
    stray := fun p hp0 hname hstray ↦ hnone (hnone₁ fun k hk ↦ ?_) (hnone₂ fun b hb hfrees ↦ ?_)
    failed := fun hr hno ↦ ⟨hp.mapped_of_null hr hno, fun x hx ↦ ?_⟩ }⟩
  · rcases List.mem_append.mp hx with hx | hx
    · obtain ⟨_, _, -, -, he, -⟩ := hmem₂ _ hx
      cases he
    · exact hp.mmap_made (hmem₁ _ hx)
  · rcases List.mem_append.mp hx with hx | hx
    · obtain ⟨i, c, hc, hfrees, he, hout⟩ := hmem₂ _ hx
      cases he
      exact ⟨rfl, hp.block_unmapped hc hfrees hout⟩
    · cases hmem₁ _ hx
  · -- a request of a call that names a stray address
    cases hk with
    | malloc | calloc => cases hname
    | reallocNull h0 =>
      cases hname
      exact absurd h0 hp0
    | reallocMove hc hcp _ =>
      cases hname
      obtain ⟨b, hb, hat⟩ := hw.tracks.complete _ _ hc
      exact absurd (hat.ptr.symm.trans hcp) (hstray b hb)
  · have hbp : b.ptr = p := by
      cases hfrees <;> cases hname <;> rfl
    exact absurd hbp (hstray b hb)
  · subst hr
    rcases List.mem_append.mp hx with hx | hx
    · obtain ⟨_, _, _, hfrees, -⟩ := hmem₂ x hx
      exact absurd hfrees (hno _)
    · cases hmem₁ x hx with
      | refused len => exact ⟨len, rfl⟩
      | arena hr => exact absurd rfl hr
      | block hr =>
        rw [METASIZE] at hr
        omega

end Passage

/-- No step takes an arena away. -/
theorem Step.arenas_kept (hw : w.WF pl) (hstep : Step pl w a w') {z : Pool}
    (hz : w.heap.poolFlag z = true) :
    w'.heap.poolFlag z = true ∧ w'.heap.base z = w.heap.base z := by
  cases hstep with
  | call hrun =>
    obtain ⟨n, h₁, -, hfetch, hfin⟩ := hw.run_traffic hrun
    have hsame := hfin.sameArenas
    rw [hsame.poolFlag, hsame.base]
    exact hfetch.arena_kept hz
  | write => exact ⟨hz, rfl⟩
  | host => exact ⟨hz, rfl⟩

/-- An arena that was set up is there for good. -/
theorem arenas_kept {bs : List Action} (hrun : Run (Step pl) w bs w') (hw : w.WF pl) {z : Pool}
    (hz : w.heap.poolFlag z = true) :
    w'.heap.poolFlag z = true ∧ w'.heap.base z = w.heap.base z := by
  have hinv : w'.WF pl ∧ w'.heap.poolFlag z = true ∧ w'.heap.base z = w.heap.base z := by
    refine hrun.invariant (p := fun u ↦ u.WF pl ∧ u.heap.poolFlag z = true ∧
      u.heap.base z = w.heap.base z) ?_ ⟨hw, hz, rfl⟩
    rintro u b v ⟨hu, huz, hub⟩ hstep
    obtain ⟨hvz, hvb⟩ := hstep.arenas_kept hu huz
    exact ⟨hstep.wf hu, hvz, hvb.trans hub⟩
  exact hinv.2

/-- **What is mapped is accounted for**, after every run.

* What was mapped and not given back is the arenas that were set up and one mapping for each live
  LARGE block.
* An arena that was set up stays where it is.
* A call adds to the log what `Traffic` says; nothing else adds to it. -/
theorem mappings_accounted {m : Memory} {as : List Action}
    (hrun : Run (Step pl) (World.initial m) as w) :
    w.Accounted pl ∧
      (∀ bs w', Run (Step pl) w bs w' → ∀ z, w.heap.poolFlag z = true →
        w'.heap.poolFlag z = true ∧ w'.heap.base z = w.heap.base z) ∧
      (∀ t call mmap munmap r h', call.run (pl.os mmap munmap) t w.heap = .ok r h' →
        ∃ D, Traffic pl w call r ⟨h', liveAfter w.heap.mem w.live t call r⟩ D) ∧
      ∀ a w', Step pl w a w' → (∀ t call mmap munmap, a ≠ .call t call mmap munmap) →
        w'.heap.calls = w.heap.calls ∧ w'.heap.mapped = w.heap.mapped := by
  have hinv : w.WF pl ∧ Outstanding w.heap.calls w.heap.mapped := by
    refine hrun.invariant (p := fun u ↦ u.WF pl ∧ Outstanding u.heap.calls u.heap.mapped)
      (fun u b v hu hstep ↦ ⟨hstep.wf hu.1, hstep.outstanding hu.1 hu.2⟩) ?_
    exact ⟨.initial pl m, .nil⟩
  obtain ⟨hw, ho⟩ := hinv
  refine ⟨⟨ho, hw.mapped_perm, hw.heap.mapped_nodup⟩,
    fun bs w' hrest z hz ↦ arenas_kept hrest hw hz,
    fun t call mmap munmap r h' hcall ↦ ?_, fun a w' hstep hno ↦ ?_⟩
  · obtain ⟨n, h₁, hreq, hfetch, hfin⟩ := hw.run_traffic hcall
    exact Passage.traffic ⟨hw, Step.wf hw (.call hcall), hfetch, hfin⟩ hreq
  · cases hstep with
    | call => exact absurd rfl (hno _ _ _ _)
    | write => exact ⟨rfl, rfl⟩
    | host => exact ⟨rfl, rfl⟩

/-- The TINY arena and the mapping of the LARGE block. -/
theorem mappings_accounted_twoBlocks :
    World.twoBlocks.heap.mapped = [⟨0x4000, 0x1000⟩, ⟨0x1000, 0x3000⟩] ∧
      World.twoBlocks.Accounted .pages4k ∧
      ∃ D, Traffic .pages4k World.twoBlocks (.free 0x4010) 0
        (World.twoBlocks.after .pages4k 1 (.free 0x4010) none true) D := by
  obtain ⟨hacc, -, hcalls, -⟩ := mappings_accounted World.run_twoBlocks
  refine ⟨by decide +kernel, hacc, ?_⟩
  have hstep : World.twoBlocks.answer .pages4k 1 (.free 0x4010) none true = some 0 := by
    decide +kernel
  rw [World.answer] at hstep
  rw [World.after]
  cases hrun : (Call.free 0x4010).run (Platform.pages4k.os none true) 1 World.twoBlocks.heap with
  | ok r h' =>
    rw [hrun] at hstep
    obtain rfl := Option.some_inj.mp hstep
    exact hcalls _ _ _ _ _ _ hrun
  | error e h' =>
    rw [hrun] at hstep
    exact absurd hstep (by simp)

end FtMalloc
