import FtMalloc.Alike
import FtMalloc.Views

/-!
# The allocator as a machine

`Machine` is the allocator without memory, headers, bitmaps, `errno`, mutex and log: for each size
class, what its slots offer and its arena.  `Machine.exec` says what a public call does to that and
what it answers; it is computed from the three classes alone, the mappings included, and from what
the kernel offers.

* `Call.impl_machine` — every public call of the program does to the classes what the machine does,
  answers what the machine answers, and fails to come back when the machine has no answer.
* `machine_exact` — so the sequences of calls and answers the program can show, in any run with any
  writes of its clients in between, are those of the machine, and no others.
* `World.traces_eq` — two worlds whose classes look the same cannot be told apart by any further
  calls.
-/

set_option autoImplicit false

namespace FtMalloc

open ByteMemory CharMap FirstFree

/-! ## The machine -/

/-- The cell of the class with its payload at `p`. -/
def ClassView.find (v : ClassView) (p : Nat) : Option Cell :=
  (List.range 100).findSome? fun k ↦ (v.cells k).filter fun c ↦ c.ptr = p

/-- What the three size classes see. -/
abbrev Machine := Zone → ClassView

namespace Machine

/-- Nothing has been served yet. -/
def fresh : Machine := fun _ ↦ .fresh

variable (V : Machine)

/-- The mapping made for an owner. -/
def region (pl : Platform) : Owner → Option Region
  | .arena z => if (V (.pool z)).opened then some ⟨(V (.pool z)).base, pl.arenaLen z⟩ else none
  | .large i => ((V .large).cells i).map fun c ↦ ⟨c.ptr - METASIZE, c.room + METASIZE⟩

/-- Everything that is mapped. -/
def mapped (pl : Platform) : List Region :=
  (.arena .tiny :: .arena .small :: (List.range 100).map Owner.large).filterMap (V.region pl)

/-- The live block at `p`, with its class. -/
def find (p : Nat) : Option (Zone × Cell) :=
  [.pool .tiny, .pool .small, .large].findSome? fun Z ↦ ((V Z).find p).map (Z, ·)

/-- A request for `n` bytes is served by its class. -/
def request (pl : Platform) (os : OS) (n : Nat) : Nat × Machine :=
  let served := (V (zoneOf n)).serve pl n (os.answer (V.mapped pl) (pl.reqLen n))
  (served.1, Function.update V (zoneOf n) served.2)

/-- The block at `p` is given back.  For a LARGE one the kernel has to unmap it. -/
def release (os : OS) (p : Nat) : Option Machine :=
  if os.munmap = false ∧ ((V .large).find p).isSome then none else some fun Z ↦ (V Z).release p

/-- A public call: its answer, and what it leaves.  There is none if it does not come back. -/
def exec (pl : Platform) (os : OS) : Call → Option (Nat × Machine)
  | .malloc n => some (V.request pl os (reqSize n))
  | .free p => (V.release os p).map (0, ·)
  | .realloc p n =>
    if p = 0 then some (V.request pl os (reqSize n))
    else if n = 0 then (V.release os p).map (0, ·)
    else match V.find p with
      | none => some (0, V)
      | some (_, c) =>
        if n ≤ c.room then some (p, fun Z ↦ (V Z).resize p n)
        else
          let served := V.request pl os n
          if served.1 = 0 then some served else (served.2.release os p).map (served.1, ·)
  | .calloc nmemb size =>
    if SIZE_MAX < nmemb * size then some (0, V) else some (V.request pl os (reqSize (nmemb * size)))

/-- The steps of the machine: calls that come back, with their answers. -/
inductive Step (pl : Platform) : Machine → Action × Option Nat → Machine → Prop
  | call {V V' : Machine} {t : Nat} {call : Call} {mmap : Option Nat} {munmap : Bool} {r : Nat}
      (hexec : V.exec pl (pl.os mmap munmap) call = some (r, V')) :
      Step pl V (.call t call mmap munmap, some r) V'

end Machine

/-! ## What a state looks like to the machine -/

variable {pl : Platform} {os : OS} {h h' h₁ : Heap} {n r p k t : Nat} {s : Slot} {c d : Cell}
  {call : Call} {Z : Zone} {V : Machine} {w w' : World}

theorem Zone.mem_all (Z : Zone) : Z ∈ [.pool .tiny, .pool .small, Zone.large] := by
  rcases Z with z | _
  · cases z <;> simp
  · simp

/-- A class finds the cells that have their payload at the address. -/
theorem Heap.find_view (hfind : (h.view Z).find p = some c) :
    ∃ k, h.cell (Z.slot k) = some c ∧ c.ptr = p := by
  obtain ⟨k, -, hk⟩ := List.exists_of_findSome?_eq_some hfind
  obtain ⟨hc, hp⟩ := Option.filter_eq_some_iff.mp hk
  exact ⟨k, (h.cells_view Z k).symm.trans hc, of_decide_eq_true hp⟩

/-- A class finds every cell of its own. -/
theorem Heap.WF.find_view_of_cell (hi : h.WF pl) (hc : h.cell s = some c) :
    (h.view s.zone).find c.ptr = some c := by
  have hk : (h.view s.zone).cells s.index = some c := by rw [Heap.cells_view, Zone.slot_index, hc]
  cases hfind : (h.view s.zone).find c.ptr with
  | none =>
    have hlt := List.mem_range.mpr (hi.index_lt (Heap.taken_of_cell hc))
    have hno := List.findSome?_eq_none_iff.mp hfind s.index hlt
    rw [hk] at hno
    simp at hno
  | some d =>
    obtain ⟨k, hd, hp⟩ := Heap.find_view hfind
    rw [hi.ptr_inj hd hc hp, hc] at hd
    exact hd.symm

/-- The LARGE class finds nothing but its cells. -/
theorem Heap.WF.find_large_iff (hi : h.WF pl) : ((h.view .large).find p).isSome ↔
    ∃ i c, h.cell (.large i) = some c ∧ c.ptr = p := by
  constructor
  · intro hsome
    obtain ⟨c, hfind⟩ := Option.isSome_iff_exists.mp hsome
    obtain ⟨i, hc, hp⟩ := Heap.find_view hfind
    exact ⟨i, c, hc, hp⟩
  · rintro ⟨i, c, hc, rfl⟩
    exact Option.isSome_iff_exists.mpr ⟨c, hi.find_view_of_cell hc⟩

namespace Machine

/-- The machine finds the cells. -/
theorem find_of_cell (hi : h.WF pl) (hc : h.cell s = some c) :
    find h.view c.ptr = some (s.zone, c) := by
  cases hfind : find h.view c.ptr with
  | none =>
    have hno := List.findSome?_eq_none_iff.mp hfind s.zone s.zone.mem_all
    rw [hi.find_view_of_cell hc] at hno
    exact absurd hno (by simp)
  | some found =>
    obtain ⟨Z, -, hZ⟩ := List.exists_of_findSome?_eq_some hfind
    obtain ⟨d, hd, rfl⟩ := Option.map_eq_some_iff.mp hZ
    obtain ⟨k, hd, hp⟩ := Heap.find_view hd
    obtain rfl := hi.ptr_inj hd hc hp
    rw [hc, Option.some_inj] at hd
    rw [hd, Zone.zone_slot]

/-- The machine finds nothing at a stray address. -/
theorem find_of_stray (hstray : h.Stray p) : find h.view p = none := by
  refine List.findSome?_eq_none_iff.mpr fun Z _ ↦ ?_
  cases hfind : (h.view Z).find p with
  | none => rfl
  | some c =>
    obtain ⟨k, hc, hp⟩ := Heap.find_view hfind
    exact absurd hp (hstray _ _ hc)

theorem region_view (hi : h.WF pl) (o : Owner) : region h.view pl o = h.region pl o := by
  cases o with
  | arena z => rfl
  | large i =>
    show (h.cell (.large i)).map _ = _
    cases hc : h.cell (.large i) with
    | none => exact (if_neg (Heap.cell_eq_none.mp hc)).symm
    | some c =>
      obtain ⟨hp, hr⟩ := hi.extent_of_cell hc
      have hlen := (hi.extent_mapped (hi.exists_of_taken (Heap.taken_of_cell hc))).2
      have hbase : c.ptr - METASIZE = (h.extent (.large i)).base := by omega
      have hsize : c.room + METASIZE = (h.extent (.large i)).len := by omega
      rw [Heap.region_large (Heap.taken_of_cell hc), Option.map_some, hbase, hsize]
      rfl

/-- **What the machine takes to be mapped is mapped.** -/
theorem mem_mapped (hi : h.WF pl) (q : Region) : q ∈ mapped h.view pl ↔ q ∈ h.mapped := by
  rw [hi.mem_mapped, mapped, List.mem_filterMap]
  constructor
  · rintro ⟨o, -, ho⟩
    exact ⟨o, (region_view hi o).symm.trans ho⟩
  · rintro ⟨o, ho⟩
    refine ⟨o, ?_, (region_view hi o).trans ho⟩
    cases o with
    | arena z => cases z <;> simp
    | large i =>
      have hl : h.large i ≠ 0 := by
        intro h0
        simp [Heap.region, h0] at ho
      simpa using hi.large_lt i hl

/-! ## One call -/

/-- The end of a piece of the program, as the machine has it. -/
def outcome {α : Type} : EStateM.Result Halt Heap α → Option (α × Machine)
  | .ok a h => some (a, h.view)
  | .error _ _ => none

/-- `malloc_impl` serves a request as the machine does. -/
theorem request_view (hi : h.WF pl) (hn : 0 < n) (hm : MallocStep pl os h n r h') :
    request h.view pl os n = (r, h'.view) := by
  have hserve := hm.view hi
  rw [← OS.answer_congr (mem_mapped hi)] at hserve
  rw [request, ← hserve]
  refine Prod.ext rfl (funext fun D ↦ ?_)
  by_cases hD : D = zoneOf n
  · rw [hD]
    exact Function.update_self _ _ _
  · exact (Function.update_of_ne hD _ _).trans (hm.view_of_ne hi hn (Ne.symm hD)).symm

/-- `free_impl` gives a block back as the machine does. -/
theorem release_view (os : OS) (hi : h.WF pl) (p : Nat) :
    (outcome (freeImpl os p h)).map Prod.snd = release h.view os p := by
  rw [release]
  rcases freeImpl_step os hi p with ⟨h', hrun, hf⟩ | ⟨i, c, hno, hc, hp, hrun⟩
  · have hcan : ¬ (os.munmap = false ∧ ((h.view .large).find p).isSome) := by
      rintro ⟨hno, hsome⟩
      obtain ⟨i, c, hc, rfl⟩ := hi.find_large_iff.mp hsome
      rw [freeImpl_exit hi hno hc] at hrun
      exact nomatch hrun
    rw [hrun, if_neg hcan]
    exact congrArg some (funext fun D ↦ hf.view hi D)
  · rw [hrun, if_pos ⟨hno, hi.find_large_iff.mpr ⟨i, c, hc, hp⟩⟩]
    rfl

/-- `free_impl`, with the answer that is given once it has returned. -/
theorem release_answer (os : OS) (hi : h.WF pl) (p a : Nat) :
    outcome ((do freeImpl os p; return a : M Nat) h) = (release h.view os p).map (a, ·) := by
  rw [← release_view os hi p, bind_apply]
  cases freeImpl os p h <;> rfl

/-- Copying the bytes of a block to its replacement is seen by no class. -/
theorem view_copyTo (hi : h.WF pl) (hc : h.cell s = some c) (hbig : c.room < n) (hr : r ≠ 0)
    (hm : MallocStep pl os h n r h₁) :
    (h₁.copyTo r c.ptr c.size).WF pl ∧ (h₁.copyTo r c.ptr c.size).view = h₁.view := by
  obtain ⟨_, c', -, -, -, rfl, -, hle, hb, hcs, hcs', -⟩ := hm.copy_spec hi hc hbig hr
  have hsize := (hi.cell_size_le hc).2
  obtain ⟨hwf, hcell, -⟩ := hb.wf.copyTo hcs' (by omega : c.size ≤ c'.room) c.ptr
  have hsame : h₁.SameArenas (h₁.copyTo c'.ptr c.ptr c.size) := ⟨rfl, rfl, rfl⟩
  exact ⟨hwf, funext fun D ↦ hsame.view hcell D⟩

/-- `realloc_impl` resizes a block as the machine does. -/
theorem realloc_view (hos : os.On pl) (hi : h.WF pl) (p n : Nat) :
    outcome (reallocImpl os p n h) = exec h.view pl os (.realloc p n) := by
  rw [exec]
  by_cases hp : p = 0
  · obtain ⟨r, h', hrun, hm⟩ := mallocImpl_step hos hi n
    rw [if_pos hp, reallocImpl, if_pos hp, hrun, request_view hi (reqSize_pos n) hm]
    rfl
  rw [if_neg hp]
  by_cases hn : n = 0
  · rw [if_pos hn, reallocImpl, if_neg hp, if_pos hn, release_answer os hi]
  rw [if_neg hn]
  rcases hi.stray_or_cell p with hstray | ⟨s, c, hc, rfl⟩
  · rw [find_of_stray hstray, reallocImpl_none hp (hi.findLiveAllocation_eq_none.mpr hstray)]
    rfl
  rw [find_of_cell hi hc, reallocImpl_of_cell hi hc hn]
  dsimp only
  by_cases hfit : n ≤ c.room
  · rw [if_pos hfit, if_pos hfit]
    exact congrArg (fun V ↦ some (c.ptr, V)) (funext fun D ↦ Heap.view_record hi hc hfit D)
  rw [if_neg hfit, if_neg hfit]
  -- the block has to move
  obtain ⟨r, h₁, hrun, hm⟩ := mallocImpl_step hos hi n
  rw [reqSize_eq hn] at hm
  rw [request_view hi (Nat.pos_of_ne_zero hn) hm]
  dsimp only
  by_cases hr : r = 0
  · rw [if_pos hr, reallocMove, bind_ok hrun, if_pos hr, hr]
    rfl
  · obtain ⟨hrest, -, -⟩ := reallocMove_copied hi hc (by omega) hr hrun hm
    obtain ⟨hwf, hview⟩ := view_copyTo hi hc (by omega) hr hm
    rw [if_neg hr, hrest, release_answer os hwf, hview]

end Machine

/-- **A public call does what the machine does.**  It answers what the machine answers, and leaves
the classes as the machine leaves them; where the machine has no answer, the call does not come
back. -/
theorem Call.impl_machine (hos : os.On pl) (hi : h.WF pl) (call : Call) :
    Machine.outcome (call.impl os h) = Machine.exec h.view pl os call := by
  cases call with
  | malloc n =>
    obtain ⟨r, h', hrun, hm⟩ := mallocImpl_step hos hi n
    rw [Call.impl, hrun, Machine.exec, Machine.request_view hi (reqSize_pos n) hm]
    rfl
  | free p => exact Machine.release_answer os hi p 0
  | realloc p n => exact Machine.realloc_view hos hi p n
  | calloc nmemb size =>
    obtain ⟨r, h', hrun, hstep⟩ := calloImp_step hos hi nmemb size
    rw [Call.impl, hrun, Machine.exec]
    cases hstep with
    | overflow hover =>
      rw [if_pos hover]
      exact congrArg (fun V ↦ some (0, V)) (funext fun D ↦ by cases D <;> rfl)
    | failed hfit hm =>
      rw [if_neg (by omega), Machine.request_view hi (reqSize_pos _) hm]
      rfl
    | zeroed hfit hr hm =>
      rw [if_neg (by omega), Machine.request_view hi (reqSize_pos _) hm]
      exact congrArg (fun V ↦ some (r, V)) (funext fun D ↦ hm.view_zero hi hr D)

/-! ## Runs -/

/-- The step is a public call. -/
def Action.isCall : Action → Bool
  | .call .. => true
  | _ => false

/-- The calls of a run, with their answers. -/
def calls (ls : List (Action × Option Nat)) : List (Action × Option Nat) :=
  ls.filter fun l ↦ l.1.isCall

theorem calls_append (ks ls : List (Action × Option Nat)) :
    calls (ks ++ ls) = calls ks ++ calls ls := List.filter_append ks ls

/-- What can be observed from a world on: the calls that are made and come back, with their answers,
whatever is written to memory in between. -/
def World.traces (pl : Platform) (w : World) : Set (List (Action × Option Nat)) :=
  {ls | ∃ as w', Run (Answered pl) w as w' ∧ calls as = ls}

variable {l : Action × Option Nat} {ls as : List (Action × Option Nat)}

/-- A step of the world is a step of the machine if it is a call, and is none otherwise. -/
theorem Answered.machine (hw : w.WF pl) (hstep : Answered pl w l w') :
    if l.1.isCall then Machine.Step pl w.heap.view l w'.heap.view
    else w'.heap.view = w.heap.view := by
  obtain ⟨a, o⟩ := l
  obtain ⟨hstep, (rfl : o = w.outcome pl a)⟩ := hstep
  cases hstep with
  | @call t call mmap munmap r h' hrun =>
    obtain ⟨h₁, himpl, rfl⟩ : ∃ h₁, call.impl (pl.os mmap munmap) (w.heap.lock t) = .ok r h₁ ∧
        h' = h₁.unlock := by
      rw [call.run_eq t hw.unlocked] at hrun
      cases himpl : call.impl (pl.os mmap munmap) (w.heap.lock t) with
      | ok r' h₁ =>
        rw [himpl] at hrun
        cases hrun
        exact ⟨h₁, rfl, rfl⟩
      | error e h₁ =>
        rw [himpl] at hrun
        exact nomatch hrun
    have hexec := call.impl_machine (pl.os_on mmap munmap) (hw.heap.lock t)
    rw [himpl] at hexec
    have hshown : w.outcome pl (.call t call mmap munmap) = some r := by
      rw [World.outcome, World.answer, hrun]
    show Machine.Step pl _ (_, w.outcome pl _) _
    rw [hshown]
    exact .call hexec.symm
  | @write t p i b x hx hp hi =>
    subst hp
    obtain ⟨s, c, hc, hat⟩ := hw.cell_of_live hx
    have hsame : w.heap.SameArenas (w.write x.ptr i b).heap := ⟨rfl, rfl, rfl⟩
    exact funext fun D ↦ hsame.view (hw.cell_write hc hat hi b).2.1 D
  | @host m errno hm =>
    have hsame : w.heap.SameArenas { w.heap with mem := m, errno := errno } := ⟨rfl, rfl, rfl⟩
    exact funext fun D ↦ hsame.view (hw.cell_host errno hm) D

/-- A step of the machine is a call of the world. -/
theorem Machine.Step.answered (hw : w.WF pl) (hstep : Machine.Step pl w.heap.view l V) :
    ∃ w', Answered pl w l w' ∧ w'.heap.view = V := by
  cases hstep with
  | @call _ t call mmap munmap r hexec =>
    have himpl := call.impl_machine (pl.os_on mmap munmap) (hw.heap.lock t)
    have hlock : (w.heap.lock t).view = w.heap.view := rfl
    rw [hlock, hexec] at himpl
    cases hend : call.impl (pl.os mmap munmap) (w.heap.lock t) with
    | error e h₁ =>
      rw [hend] at himpl
      exact nomatch himpl
    | ok r' h₁ =>
      rw [hend] at himpl
      obtain ⟨rfl, rfl⟩ := Prod.mk.inj (Option.some_inj.mp himpl)
      have hrun : call.run (pl.os mmap munmap) t w.heap = .ok r' h₁.unlock := by
        rw [call.run_eq t hw.unlocked, hend]
      refine ⟨_, ⟨.call hrun, ?_⟩, rfl⟩
      rw [World.outcome, World.answer, hrun]

/-- **What the program can show from a world on is what the machine does** from what the classes
look like in it. -/
theorem World.WF.run_iff (hw : w.WF pl) : (∃ as w', Run (Answered pl) w as w' ∧ calls as = ls ∧
    w'.heap.view = V) ↔ Run (Machine.Step pl) w.heap.view ls V := by
  constructor
  · rintro ⟨as, w', hrun, rfl, rfl⟩
    induction hrun with
    | nil => exact .nil _
    | @snoc w₁ w₂ as l hrun hlast ih =>
      have hw₁ := hrun.invariant (fun _ _ _ hw hstep ↦ hstep.1.wf hw) hw
      have hnext := hlast.machine hw₁
      rw [calls_append]
      cases hcall : l.1.isCall with
      | true =>
        rw [if_pos hcall] at hnext
        have hone : calls [l] = [l] := List.filter_cons_of_pos hcall
        rw [hone]
        exact ih.snoc hnext
      | false =>
        rw [if_neg (by simp [hcall])] at hnext
        have hnone : calls [l] = [] := List.filter_cons_of_neg (by simp [hcall])
        rw [hnone, List.append_nil, hnext]
        exact ih
  · intro hrun
    have hstep : ∀ (V : Machine) l V' w, World.WF pl w ∧ w.heap.view = V →
        Machine.Step pl V l V' → ∃ w', Answered pl w l w' ∧ w'.WF pl ∧ w'.heap.view = V' := by
      rintro _ l V' w ⟨hw, rfl⟩ hstep
      obtain ⟨w', hans, hview⟩ := hstep.answered hw
      exact ⟨w', hans, hans.1.wf hw, hview⟩
    obtain ⟨w', hrun', -, hview⟩ := hrun.simulate hstep ⟨hw, rfl⟩
    refine ⟨ls, w', hrun', List.filter_eq_self.mpr fun l hl ↦ ?_, hview⟩
    -- every label of the machine is a call
    have hlabel : ∀ {V ls V'}, Run (Machine.Step pl) V ls V' → ∀ l ∈ ls, l.1.isCall := by
      intro V ls V' hrun
      induction hrun with
      | nil => simp
      | snoc _ hlast ih =>
        intro l hl
        rcases List.mem_append.mp hl with hl | hl
        · exact ih l hl
        · obtain rfl := List.mem_singleton.mp hl
          cases hlast
          rfl
    exact hlabel hrun l hl

/-- **Worlds whose classes look the same cannot be told apart** by any further calls. -/
theorem World.traces_eq (hw : w.WF pl) (hw' : w'.WF pl) (hview : w'.heap.view = w.heap.view) :
    w'.traces pl = w.traces pl := by
  have hmem : ∀ {u : World}, u.WF pl → ∀ ls, ls ∈ u.traces pl ↔
      ∃ V, Run (Machine.Step pl) u.heap.view ls V := by
    intro u hu ls
    simp only [← hu.run_iff]
    constructor
    · rintro ⟨as, u', hrun, hls⟩
      exact ⟨_, as, u', hrun, hls, rfl⟩
    · rintro ⟨_, as, u', hrun, hls, -⟩
      exact ⟨as, u', hrun, hls⟩
  ext ls
  rw [hmem hw', hmem hw, hview]

/-- **The program is the machine.**  In all runs, with whatever its clients write and the host
program does in between, the calls that come back and their answers are a run of the machine, which
ends in what the classes look like then; and every run of the machine is shown by some run of the
program. -/
theorem machine_exact {m : Memory} :
    (∃ as w, Run (Answered pl) (World.initial m) as w ∧ calls as = ls ∧ w.heap.view = V) ↔
      Run (Machine.Step pl) Machine.fresh ls V := by
  have hfresh : (World.initial m).heap.view = Machine.fresh := funext (Heap.view_initial m)
  rw [← hfresh]
  exact (World.WF.initial pl m).run_iff

end FtMalloc
