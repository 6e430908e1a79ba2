import FtMalloc.Views

/-!
# The three size classes do not interfere

Take a run, pick a class, and delete from the run every operation of the other two classes.
`classes_apart` says that what is left is a run of the program, that every operation in it has the
result it had, and that the bitmap or the table of the class is the same in the end.

* A `realloc` that moves a block is taken apart first (`Call.parts`): it is the request for the new
  block, and the release of the old one if the request is met.
* Each part that is kept is told what `mmap` answered in the full run (`Call.seen`); an address that
  was refused there because another class had it is refused here too.
* The result of a call is the slot or the table index of its answer, as `find_live_allocation` names
  it (`World.result`).

The proof runs both worlds against the machine of one class, `ClassView.exec`: in the full run the
class sees its own operations and nothing else (`CallStep.view`, `CallStep.view_of_ne`), and so it
does in the run that is left.
-/

set_option autoImplicit false

namespace FtMalloc

open CharMap

variable {pl : Platform} {os : OS} {h h' h₁ : Heap} {u v v' w w' : World} {n r p t i : Nat}
  {C D : Zone} {s : Slot} {c : Cell} {call part : Call} {a : Action} {m : ByteMemory.Memory}
  {as : List Action} {o : Option AllocationOwner}

/-! ## The run of one class -/

/-- The owner that `find_live_allocation` names for an address. -/
def Heap.owner (h : Heap) (p : Nat) : Option AllocationOwner :=
  (findLiveAllocation h p).map Prod.snd

/-- The result of a step: the slot or the table index of what a call answers, `none` for `NULL`. -/
def World.result (pl : Platform) (w : World) : Action → Option AllocationOwner
  | .call t call mmap munmap => (w.answer pl t call mmap munmap).bind fun r ↦
    (w.after pl t call mmap munmap).heap.owner r
  | .write .. => none
  | .host .. => none

/-- The world after a step. -/
def World.next (pl : Platform) (w : World) : Action → World
  | .call t call mmap munmap => w.after pl t call mmap munmap
  | .write _ p i b => w.write p i b
  | .host m errno => { w with heap := { w.heap with mem := m, errno := errno } }

/-- A step, with its result. -/
abbrev Op := Action × Option AllocationOwner

/-- The parts of a call that was answered by `r`.  A `realloc` that moves a block is the request for
another one and, if that is met, the release of the old one. -/
def Call.parts (h : Heap) (r : Nat) (call : Call) : List Call :=
  match call with
  | .realloc p n =>
    if call.moves h then if r = 0 then [.malloc n] else [.malloc n, .free p]
    else [call]
  | _ => [call]

/-- What is left of a part in the run of the class `C`: the part itself, unless it is of another
class. `o` is the result of the call. -/
def Call.ops (pl : Platform) (C : Zone) (os : OS) (h : Heap) (t : Nat) (o : Option AllocationOwner)
    (part : Call) : List Op :=
  if part.zone h = none ∨ part.zone h = some C then
    [(.call t part (part.seen pl os h) true, if part.asks = none then none else o)]
  else []

/-- What is left of a step in the run of the class `C`.  What the host does to its own memory is no
operation of any class. -/
def World.ops (pl : Platform) (C : Zone) (w : World) : Action → List Op
  | .call t call mmap munmap =>
    (call.parts w.heap ((w.answer pl t call mmap munmap).getD 0)).flatMap fun part ↦
      part.ops pl C (pl.os mmap munmap) w.heap t (w.result pl (.call t call mmap munmap))
  | .write t p i b => if w.heap.zoneAt p = some C then [(.write t p i b, none)] else []
  | .host .. => []

/-- What is left of a run in the run of the class `C`. -/
def World.trace (pl : Platform) (C : Zone) : World → List Action → List Op :=
  traceFrom (World.next pl) (World.ops pl C)

/-- A step that has this result. -/
def Served (pl : Platform) (w : World) (l : Op) (w' : World) : Prop :=
  Step pl w l.1 w' ∧ l.2 = w.result pl l.1

/-! ## Results -/

theorem Heap.WF.owner_of_cell (hi : h.WF pl) (hc : h.cell s = some c) :
    h.owner c.ptr = some s.allocationOwner := by
  rw [Heap.owner, hi.findLiveAllocation_of_cell hc]
  rfl

theorem Heap.owner_zero (h : Heap) : h.owner 0 = none := by
  rw [Heap.owner, findLiveAllocation, if_pos rfl]
  rfl

/-- The owner of a block of a class is in the view of the class. -/
theorem Heap.WF.owner_eq_of_view (hi : h.WF pl) (hi' : h'.WF pl) (hview : h'.view C = h.view C)
    (hr : r = 0 ∨ ∃ s c, h.cell s = some c ∧ c.ptr = r ∧ s.zone = C) : h'.owner r = h.owner r := by
  rcases hr with rfl | ⟨s, c, hc, rfl, hs⟩
  · rw [Heap.owner_zero, Heap.owner_zero]
  · rw [hi.owner_of_cell hc, hi'.owner_of_cell ((cell_eq_of_view hview hs).trans hc)]

theorem Step.next_eq (hstep : Step pl w a w') : w.next pl a = w' := by
  cases hstep with
  | call hrun => rw [World.next, World.after, hrun]
  | write => rfl
  | host => rfl

/-- The result of a call that comes back. -/
theorem World.result_eq {mmap : Option Nat} {munmap : Bool}
    (hrun : call.run (pl.os mmap munmap) t w.heap = .ok r h') :
    w.result pl (.call t call mmap munmap) = h'.owner r := by
  rw [World.result, World.answer, World.after, hrun]
  rfl

/-! ## What `mmap` says -/

/-- The kernel gives the answer it gave, wherever less is mapped. -/
theorem OS.answer_seen {mapped mapped' : List Region} (hsub : ∀ q ∈ mapped', q ∈ mapped) (len : Nat)
    (munmap : Bool) :
    (pl.os (os.answer mapped len) munmap).answer mapped' len = os.answer mapped len := by
  cases hans : os.answer mapped len with
  | none => rfl
  | some ptr =>
    obtain ⟨hlen, hpos, hdvd, hle, hap⟩ := OS.answer_eq_some hans
    have hg : Grants mapped' len ptr := ⟨hlen, hpos, hdvd, hle, fun q hq ↦ hap q (hsub q hq)⟩
    exact Option.filter_some_pos (decide_eq_true hg)

theorem Call.seen_seen (hsub : ∀ q ∈ h'.mapped, q ∈ h.mapped) (munmap : Bool) :
    call.seen pl (pl.os (call.seen pl os h) munmap) h' = call.seen pl os h := by
  simp only [Call.seen]
  cases call.asks with
  | none => rfl
  | some n => exact OS.answer_seen hsub (pl.reqLen n) munmap

/-! ## The two runs -/

/-- The world `v` is what the class `C` makes of the state `h`: the class sees the same in both, and
the other classes have nothing in `v`. -/
structure Follows (pl : Platform) (C : Zone) (h : Heap) (v : World) : Prop where
  heap : h.WF pl
  world : v.WF pl
  view : v.heap.view C = h.view C
  fresh : ∀ D, D ≠ C → v.heap.view D = .fresh

namespace Follows

/-- What is mapped in `v` is mapped in `h`. -/
theorem mapped (hf : Follows pl C h v) : ∀ q ∈ v.heap.mapped, q ∈ h.mapped := by
  intro q hq
  obtain ⟨o, ho⟩ := (hf.world.heap.mem_mapped q).mp hq
  have hzone : o.zone = C := by
    by_contra hne
    rw [region_eq_none_of_fresh (hf.fresh _ hne)] at ho
    exact absurd ho (by simp)
  subst hzone
  rw [hf.heap.region_eq_of_view hf.world.heap hf.view] at ho
  exact (hf.heap.mem_mapped q).mpr ⟨o, ho⟩

/-- The cells of `v` are those of the class. -/
theorem cell_iff (hf : Follows pl C h v) :
    v.heap.cell s = some c ↔ h.cell s = some c ∧ s.zone = C := by
  by_cases hs : s.zone = C
  · rw [cell_eq_of_view hf.view hs]
    exact ⟨fun hc ↦ ⟨hc, hs⟩, And.left⟩
  · have hnone := congrArg (fun x ↦ x.cells s.index) (hf.fresh _ hs)
    simp only [Heap.cells_view, Zone.slot_index] at hnone
    rw [hnone]
    exact ⟨fun hc ↦ absurd hc (by simp [ClassView.fresh]), fun hc ↦ absurd hc.2 hs⟩

/-- The class of a live block of `v`. -/
theorem zoneAt_eq (hf : Follows pl C h v) (p : Nat) :
    v.heap.zoneAt p = (h.zoneAt p).filter (· = C) := by
  refine Option.ext fun D ↦ ?_
  rw [Option.filter_eq_some_iff, hf.world.heap.zoneAt_eq_some, hf.heap.zoneAt_eq_some,
    decide_eq_true_eq]
  constructor
  · rintro ⟨s, c, hc, hp, rfl⟩
    obtain ⟨hc, hs⟩ := hf.cell_iff.mp hc
    exact ⟨⟨s, c, hc, hp, rfl⟩, hs⟩
  · rintro ⟨⟨s, c, hc, hp, rfl⟩, hs⟩
    exact ⟨s, c, hf.cell_iff.mpr ⟨hc, hs⟩, hp, rfl⟩

/-- A call of the class, or of none, is the same to `v`. -/
theorem zone_eq (hf : Follows pl C h v) (hC : call.zone h = none ∨ call.zone h = some C) :
    call.zone v.heap = call.zone h := by
  have hat : ∀ p, h.zoneAt p = none ∨ h.zoneAt p = some C → v.heap.zoneAt p = h.zoneAt p := by
    rintro p (h0 | h1)
    · rw [hf.zoneAt_eq, h0]
      rfl
    · rw [hf.zoneAt_eq, h1, Option.filter_some_pos (by simp)]
  cases call with
  | malloc n => rfl
  | calloc nmemb size => rfl
  | free p => exact hat p hC
  | realloc p n =>
    rw [Call.zone] at hC
    rw [Call.zone, Call.zone]
    split
    · rfl
    · rename_i hp
      rw [if_neg hp] at hC
      exact hat p hC

/-- A call that moves a block of `v` moves a block. -/
theorem moves (hf : Follows pl C h v) (hstay : call.moves h = false) :
    call.moves v.heap = false := by
  cases call with
  | realloc p n =>
    rw [← Bool.not_eq_true, hf.world.heap.moves_iff]
    rintro ⟨s, c, hc, hp, hbig⟩
    have hmove := hf.heap.moves_iff.mpr ⟨s, c, (hf.cell_iff.mp hc).1, hp, hbig⟩
    exact absurd (hmove.symm.trans hstay) (by decide)
  | malloc n => rfl
  | calloc nmemb size => rfl
  | free p => rfl

/-- What the class does not see makes no difference. -/
theorem skip (hf : Follows pl C h v) (hi' : h'.WF pl) (hview : h'.view C = h.view C) :
    Follows pl C h' v where
  heap := hi'
  world := hf.world
  view := hf.view.trans hview.symm
  fresh := hf.fresh

/-- **A call of the class, or of none, does the same in `v`** and has the same result. -/
theorem run_call (hf : Follows pl C h v) (hi' : h'.WF pl) (hstep : CallStep pl os h part r h')
    (hstay : part.moves h = false) (hC : part.zone h = none ∨ part.zone h = some C) (t : Nat) :
    ∃ v', Served pl v (.call t part (part.seen pl os h) true, h'.owner r) v' ∧
      Follows pl C h' v' := by
  have hi := hf.heap
  have hg := hf.world.heap.lock t
  have hstay' : part.moves (v.heap.lock t) = false := hf.moves hstay
  have hzone : part.zone (v.heap.lock t) = part.zone h := hf.zone_eq hC
  have hseen : part.seen pl (pl.os (part.seen pl os h) true) (v.heap.lock t) = part.seen pl os h :=
    Call.seen_seen hf.mapped true
  -- the call comes back, since `munmap` succeeds
  obtain ⟨r', g', himpl, hstep'⟩ : ∃ r' g',
      part.impl (pl.os (part.seen pl os h) true) (v.heap.lock t) = .ok r' g' ∧
        CallStep pl (pl.os (part.seen pl os h) true) (v.heap.lock t) part r' g' := by
    rcases part.impl_step (pl.os_on _ _) hg with hok | ⟨_, _, _, hno, -⟩
    · exact hok
    · exact absurd hno (by simp [Platform.os])
  -- both runs of the call are runs of the machine of the class
  have hsame : (r', g'.view C) = (r, h'.view C) := by
    have hexec := hstep'.view hg hstay' (by rw [hzone]; exact hC)
    have hview : (v.heap.lock t).view C = h.view C := hf.view
    rw [hexec, hseen, hview]
    exact (hstep.view hi hstay hC).symm
  obtain ⟨rfl, hview⟩ := Prod.mk.inj hsame
  have hrun : part.run (pl.os (part.seen pl os h) true) t v.heap = .ok r' g'.unlock := by
    rw [part.run_eq t hf.world.unlocked, himpl]
  have hnext : Step pl v (.call t part (part.seen pl os h) true) ⟨g'.unlock, _⟩ := .call hrun
  have hwf := hnext.wf hf.world
  have hview' : g'.unlock.view C = h'.view C := hview
  refine ⟨_, ⟨hnext, ?_⟩, hi', hwf, hview', fun D hD ↦ ?_⟩
  · rw [World.result_eq hrun]
    refine (hi'.owner_eq_of_view hwf.heap hview' ?_).symm
    rcases hstep.answered hi hstay with h0 | ⟨s, c, hc, hp, hs⟩
    · exact .inl h0
    · refine .inr ⟨s, c, hc, hp, ?_⟩
      rw [hs] at hC
      simpa using hC
  · have hne : part.zone (v.heap.lock t) ≠ some D := by
      rw [hzone]
      rcases hC with h0 | h1
      · rw [h0]
        simp
      · rw [h1]
        simpa using hD.symm
    exact (hstep'.view_of_ne hg hstay' hne).trans (hf.fresh D hD)

/-- A part of a call, whatever its class. -/
theorem run_part (hf : Follows pl C h v) (hi' : h'.WF pl) (hstep : CallStep pl os h part r h')
    (hstay : part.moves h = false) (t : Nat) (ho : part.asks ≠ none → o = h'.owner r) :
    ∃ v', Run (Served pl) v (part.ops pl C os h t o) v' ∧ Follows pl C h' v' := by
  by_cases hC : part.zone h = none ∨ part.zone h = some C
  · obtain ⟨v', hserved, hf'⟩ := hf.run_call hi' hstep hstay hC t
    refine ⟨v', ?_, hf'⟩
    have hres : (if part.asks = none then none else o) = h'.owner r := by
      split
      · rename_i hask
        cases hstep with
        | free => exact (Heap.owner_zero h').symm
        | malloc => simp [Call.asks] at hask
        | realloc => simp [Call.asks] at hask
        | calloc => simp [Call.asks] at hask
      · rename_i hask
        exact ho hask
    rw [Call.ops, if_pos hC, hres]
    exact .single hserved
  · rw [Call.ops, if_neg hC]
    exact ⟨v, .nil v, hf.skip hi' (hstep.view_of_ne hf.heap hstay fun h1 ↦ hC (.inr h1))⟩

/-- **A block that is moved**: the request for the new one, then the release of the old one. -/
theorem run_move (hf : Follows pl C h v) (hc : h.cell s = some c) (hbig : c.room < n) (hr : r ≠ 0)
    (hm : MallocStep pl os h n r h₁) (hfree : FreeStep (h₁.copyTo r c.ptr c.size) c.ptr h')
    (t : Nat) :
    ∃ v', Run (Served pl) v ((Call.malloc n).ops pl C os h t (h'.owner r)
      ++ (Call.free c.ptr).ops pl C os h t (h'.owner r)) v' ∧ Follows pl C h' v' := by
  have hi := hf.heap
  obtain ⟨s', c', hne, -, -, rfl, -, hle, hb, hcs, hcs', -⟩ := hm.copy_spec hi hc hbig hr
  have hsize := (hi.cell_size_le hc).2
  obtain ⟨hwf, hcell, -⟩ := hb.wf.copyTo hcs' (by omega : c.size ≤ c'.room) c.ptr
  have hwf' : h'.WF pl := by
    rcases hfree.effect hwf with ⟨-, rfl⟩ | ⟨_, _, _, _, hb'⟩
    · exact hwf
    · exact hb'.wf
  -- the new block is still there when the old one is gone
  have hkept : h'.cell s' = some c' := by
    have hptr : c'.ptr ≠ c.ptr := fun e ↦ hne (hb.wf.ptr_inj hcs' hcs e)
    rw [hfree.cell hwf, hcell, hcs', Option.filter_some_pos (by simpa using hptr)]
  have howner : h'.owner c'.ptr = h₁.owner c'.ptr := by
    rw [hwf'.owner_of_cell hkept, hb.wf.owner_of_cell hcs']
  have hreq : MallocStep pl os h (reqSize n) c'.ptr h₁ := by
    rwa [reqSize_eq (by omega)]
  obtain ⟨v₁, hrun₁, hf₁⟩ := hf.run_part hb.wf (.malloc hreq) rfl t fun _ ↦ howner
  have hsame : h₁.SameArenas (h₁.copyTo c'.ptr c.ptr c.size) := ⟨rfl, rfl, rfl⟩
  have hf₂ := hf₁.skip hwf (hsame.view hcell C)
  have hstep : CallStep pl os _ (.free c.ptr) 0 h' := .free hfree
  obtain ⟨v₂, hrun₂, hf₃⟩ := hf₂.run_part hwf' hstep rfl t (o := h'.owner c'.ptr)
    fun hask ↦ absurd rfl hask
  have hzone : (h₁.copyTo c'.ptr c.ptr c.size).zoneAt c.ptr = h.zoneAt c.ptr := by
    rw [hi.zoneAt_of_cell hc, hwf.zoneAt_of_cell (by rw [hcell, hcs])]
  have hops : (Call.free c.ptr).ops pl C os (h₁.copyTo c'.ptr c.ptr c.size) t (h'.owner c'.ptr)
      = (Call.free c.ptr).ops pl C os h t (h'.owner c'.ptr) := by
    simp only [Call.ops, Call.zone, hzone]
    rfl
  exact ⟨v₂, hrun₁.append (hops ▸ hrun₂), hf₃⟩

end Follows

/-! ## Steps -/

/-- Who holds the mutex makes no difference to the parts of a call. -/
theorem Call.ops_lock (h : Heap) (self : Nat) :
    part.ops pl C os (h.lock self) t o = part.ops pl C os h t o := by
  cases part <;> rfl

/-- A change that no class sees. -/
theorem Follows.quiet (hf : Follows pl C h v) (hi' : h'.WF pl) (ha : h.SameArenas h')
    (hcell : h'.cell = h.cell) : Follows pl C h' v := hf.skip hi' (ha.view hcell C)

/-- **What is left of a call** does in `v` what the call does, as far as the class sees. -/
theorem Follows.step_call (hf : Follows pl C w.heap v) (hw : w.WF pl) {mmap : Option Nat}
    {munmap : Bool}
    (hrun : call.run (pl.os mmap munmap) t w.heap = .ok r h') :
    ∃ v', Run (Served pl) v (w.ops pl C (.call t call mmap munmap)) v' ∧ Follows pl C h' v' := by
  obtain ⟨h₁, hcall, rfl⟩ := hw.call_step hrun
  have hi := hw.heap.lock t
  have hi₁ := (hcall.tracks (t := t) hi hw.tracks).1
  have hlocked : Follows pl C (w.heap.lock t) v := hf.quiet hi ⟨rfl, rfl, rfl⟩ rfl
  have hanswer : (w.answer pl t call mmap munmap).getD 0 = r := by
    rw [World.answer, hrun]
    rfl
  -- it is enough to follow the parts from the locked heap to the heap before the unlock
  suffices hparts : ∃ v', Run (Served pl) v ((call.parts w.heap r).flatMap fun part ↦
      part.ops pl C (pl.os mmap munmap) (w.heap.lock t) t (h₁.owner r)) v' ∧ Follows pl C h₁ v' by
    obtain ⟨v', hrun', hf'⟩ := hparts
    refine ⟨v', ?_, hf'.quiet hi₁.unlock ⟨rfl, rfl, rfl⟩ rfl⟩
    rw [World.ops, hanswer, World.result_eq hrun]
    simp only [Call.ops_lock] at hrun'
    exact hrun'
  have hone : call.moves w.heap = false → call.parts w.heap r = [call] := by
    intro hstay
    cases call with
    | realloc p n => simp only [Call.parts, hstay, Bool.false_eq_true, if_false]
    | malloc n => rfl
    | calloc nmemb size => rfl
    | free p => rfl
  cases hmove : call.moves w.heap with
  | false =>
    rw [hone hmove, List.flatMap_singleton]
    exact hlocked.run_part hi₁ hcall hmove t fun _ ↦ rfl
  | true =>
    cases hcall with
    | malloc => simp [Call.moves] at hmove
    | free => simp [Call.moves] at hmove
    | calloc => simp [Call.moves] at hmove
    | @realloc p n _ _ hr =>
      obtain ⟨s, c, hc, rfl, hbig⟩ := hi.moves_iff.mp hmove
      rw [Call.parts, if_pos hmove]
      rcases hr.of_cell hi hc with ⟨hn, -⟩ | ⟨-, hfit, -⟩ | ⟨-, rfl, hm⟩ | ⟨-, hr0, h₂, hm, hfree⟩
      · omega
      · omega
      · rw [if_pos rfl, List.flatMap_singleton]
        have hreq : MallocStep pl (pl.os mmap munmap) (w.heap.lock t) (reqSize n) 0 h₁ := by
          rwa [reqSize_eq (by omega)]
        exact hlocked.run_part hi₁ (.malloc hreq) rfl t fun _ ↦ rfl
      · rw [if_neg hr0, List.flatMap_cons, List.flatMap_singleton]
        exact hlocked.run_move hc hbig hr0 hm hfree t

/-- **What is left of a step** does in `v` what the step does, as far as the class sees. -/
theorem Follows.step (hf : Follows pl C w.heap v) (hw : w.WF pl) (hstep : Step pl w a w') :
    ∃ v', Run (Served pl) v (w.ops pl C a) v' ∧ Follows pl C w'.heap v' := by
  have hw' := hstep.wf hw
  cases hstep with
  | call hrun => exact hf.step_call hw hrun
  | @host m errno hm =>
    exact ⟨v, .nil v, hf.quiet hw'.heap ⟨rfl, rfl, rfl⟩ (hw.cell_host errno hm)⟩
  | @write t p i b x hx hp hi =>
    subst hp
    obtain ⟨s, c, hc, hat⟩ := hw.cell_of_live hx
    have hquiet : Follows pl C (w.write x.ptr i b).heap v :=
      hf.quiet hw'.heap ⟨rfl, rfl, rfl⟩ (hw.cell_write hc hat hi b).2.1
    have hzone : w.heap.zoneAt x.ptr = some s.zone := hat.ptr ▸ hw.heap.zoneAt_of_cell hc
    rw [World.ops, hzone]
    split
    · rename_i hC
      -- the block is there in `v`, with the same size
      have hcv : v.heap.cell s = some c := hf.cell_iff.mpr ⟨hc, Option.some_inj.mp hC⟩
      obtain ⟨y, hy, haty⟩ := hf.world.tracks.complete s c hcv
      have hptr : y.ptr = x.ptr := haty.ptr.symm.trans hat.ptr
      have hlt : i < y.size := by
        have h1 := haty.size
        have h2 := hat.size
        omega
      have hstep : Step pl v (.write t x.ptr i b) (v.write x.ptr i b) := .write hy hptr hlt
      have hcell := (hf.world.cell_write hcv haty hlt b).2.1
      rw [hptr] at hcell
      have hsame : v.heap.SameArenas (v.write x.ptr i b).heap := ⟨rfl, rfl, rfl⟩
      refine ⟨_, .single ⟨hstep, rfl⟩, hquiet.heap, hstep.wf hf.world, ?_, fun D hD ↦ ?_⟩
      · exact (hsame.view hcell C).trans hquiet.view
      · exact (hsame.view hcell D).trans (hf.fresh D hD)
    · exact ⟨v, .nil v, hquiet⟩

/-! ## The theorem -/

theorem Follows.initial (pl : Platform) (C : Zone) (m : ByteMemory.Memory) :
    Follows pl C (World.initial m).heap (World.initial m) where
  heap := .initial pl m
  world := .initial pl m
  view := rfl
  fresh := fun D _ ↦ Heap.view_initial m D

/-- **The three size classes do not interfere.**  Delete from a run every operation of the other two
classes, and tell each operation of the class `C` that is left what `mmap` told it: what is left is
a run, every operation in it has the result it had, and the bitmap or the table of `C` ends as it
did. -/
theorem classes_apart (C : Zone) (hrun : Run (Step pl) (World.initial m) as w) :
    ∃ v, Run (Served pl) (World.initial m) ((World.initial m).trace pl C as) v ∧
      (∀ z, C = .pool z → v.heap.bitmap z = w.heap.bitmap z) ∧
      (C = .large → v.heap.large = w.heap.large) := by
  have hstep : ∀ (u : World) (a : Action) (u' v : World), u.WF pl ∧ Follows pl C u.heap v →
      Step pl u a u' →
        ∃ v', Run (Served pl) v (u.ops pl C a) v' ∧ u'.WF pl ∧ Follows pl C u'.heap v' := by
    rintro u a u' v ⟨hu, hf⟩ hstep
    obtain ⟨v', hrun', hf'⟩ := hf.step hu hstep
    exact ⟨v', hrun', hstep.wf hu, hf'⟩
  have hinit : (World.initial m).WF pl ∧ Follows pl C (World.initial m).heap (World.initial m) :=
    ⟨.initial pl m, .initial pl C m⟩
  obtain ⟨v, hrun', -, hf⟩ := hrun.simulate_trace (fun _ _ _ h ↦ h.next_eq) hstep hinit
  refine ⟨v, hrun', ?_, ?_⟩
  · rintro z rfl
    exact bitmap_eq_of_view hf.view
  · rintro rfl
    exact hf.heap.large_eq_of_view hf.world.heap hf.view

/-- Two blocks, of two classes. -/
theorem classes_apart_twoBlocks : ∃ v, Run (Served .pages4k) (World.initial fun _ ↦ 0#8)
      ((World.initial fun _ ↦ 0#8).trace .pages4k .large
        [.call 1 (.malloc 1) (some 0x1000) true, .call 2 (.malloc 600) (some 0x4000) true]) v ∧
      (∀ z, Zone.large = .pool z → v.heap.bitmap z = World.twoBlocks.heap.bitmap z) ∧
      (Zone.large = .large → v.heap.large = World.twoBlocks.heap.large) :=
  classes_apart .large World.run_twoBlocks

-- The TINY arena has the address that the LARGE block was offered.
example : (World.initial fun _ ↦ 0#8).trace .pages4k .large
    [.call 1 (.malloc 1) (some 0x1000) true, .call 2 (.malloc 600) (some 0x1000) true]
    = [(.call 2 (.malloc 600) none true, none)] := rfl

end FtMalloc
