import FtMalloc.Alike
import FtMalloc.Local
import FtMalloc.Resize

/-!
# Whatever is written where

A program that writes outside its blocks can overwrite the headers.  Which slots are in use is not
told by them: it stands in the bitmaps and in the LARGE table, outside the mappings.  So the calls
that do not rely on a header go on as if nothing had been overwritten.

* `Wild` — the calls, and writes of anything to anywhere.
* `Call.Unharmed` — a call that relies on no header, but for the length of a LARGE mapping it gives
  back, which is still as it was.
* `overruns_contained` — in every run of such calls, with anything overwritten in between, the
  answers are those of a run without a single write.
-/

set_option autoImplicit false

namespace FtMalloc

open ByteMemory

variable {pl : Platform} {h g g' : Heap} {w w' : World} {call : Call} {t r : Nat} {n : Memory}
variable {mmap : Option Nat} {munmap : Bool}

/-! ## Runs with overruns -/

/-- What happens: a call is made and comes back, or memory is overwritten. -/
inductive Wild
  | call (t : Nat) (call : Call) (mmap : Option Nat) (munmap : Bool) (r : Nat)
  | overwrite (m : Memory)

/-- The call and its answer, if it was one. -/
def Wild.answered : Wild → Option (Action × Option Nat)
  | .call t call mmap munmap r => some (.call t call mmap munmap, some r)
  | .overwrite _ => none

/-- The call relies on no header, but for the length of a LARGE mapping, and that is told truly. -/
def Call.Unharmed (h : Heap) : Call → Prop
  | .malloc _ => True
  | .calloc _ _ => True
  | .free p => ∀ hdr i, findLiveAllocation h p = some (hdr, ⟨none, i⟩) →
      ⟨hdr, metaSize h.mem hdr⟩ ∈ h.mapped
  | .realloc p _ => findLiveAllocation h p = none

/-- One step, with whatever memory holds. -/
inductive WildStep (pl : Platform) : Heap → Wild → Heap → Prop
  | call {h h' : Heap} {t : Nat} {call : Call} {mmap : Option Nat} {munmap : Bool} {r : Nat}
      (hcall : call.Unharmed h) (hrun : call.run (pl.os mmap munmap) t h = .ok r h') :
      WildStep pl h (.call t call mmap munmap r) h'
  | overwrite {h : Heap} (m : Memory) : WildStep pl h (.overwrite m) { h with mem := m }

/-! ## Calls that go on -/

/-- What an unharmed call reads is as it was. -/
theorem Call.Unharmed.reads (hi : h.WF pl) (hcall : call.Unharmed { h with mem := n }) {os : OS} :
    ∀ a, h.Reads pl os a call → n a = h.mem a := by
  intro a ha
  obtain ⟨s, c, hc, hname, -⟩ := ha.within
  cases call with
  | malloc size => exact absurd hname (by simp [Call.names])
  | calloc nmemb size => exact absurd hname (by simp [Call.names])
  | realloc p k =>
    -- a `realloc` that is unharmed is given no block
    obtain rfl : p = c.ptr := Option.some_inj.mp hname
    exact absurd (hcall.symm.trans (hi.findLiveAllocation_of_cell hc)) (by simp)
  | free p =>
    cases ha with
    | @free _ i c hc hp hle hlt =>
      subst hp
      have hptr : c.ptr = h.large i + METASIZE := (hi.extent_of_cell hc).1
      have htold : ⟨h.large i, metaSize n (h.large i)⟩ ∈ h.mapped :=
        hcall _ _ (hi.findLiveAllocation_of_cell hc)
      have hmapped : ⟨h.large i, metaSize h.mem (h.large i)⟩ ∈ h.mapped :=
        (hi.mem_mapped _).mpr ⟨.large i, if_pos (Heap.taken_of_cell hc)⟩
      have hsize : metaSize n (h.large i) = metaSize h.mem (h.large i) :=
        hi.mapped_unique htold hmapped
      rw [hptr, METASIZE] at hle hlt
      exact agree_of_load hsize a (by omega) (by omega)

/-- An unharmed call ends as it does when nothing was overwritten. -/
theorem Call.Unharmed.run (hw : w.WF pl) (hcall : call.Unharmed { w.heap with mem := n }) (t : Nat)
    (mmap : Option Nat) (munmap : Bool) :
    EndsTogether (Heap.Beside w.heap.mem n) (call.run (pl.os mmap munmap) t w.heap)
      (call.run (pl.os mmap munmap) t { w.heap with mem := n }) :=
  Call.run_beside (pl.os_on mmap munmap) hw.heap hw.unlocked (hcall.reads hw.heap)

/-- The heap is that of the world, with something else in memory. -/
def World.OverwrittenTo (w : World) (g : Heap) : Prop := ∃ n, g = { w.heap with mem := n }

theorem World.OverwrittenTo.step {e : Wild} (hover : w.OverwrittenTo g) (hw : w.Reachable pl)
    (hstep : WildStep pl g e g') :
    ∃ w', Run (Answered pl) w e.answered.toList w' ∧ w'.Reachable pl ∧ w'.OverwrittenTo g' := by
  obtain ⟨n, rfl⟩ := hover
  cases hstep with
  | overwrite m => exact ⟨w, .nil w, hw, m, rfl⟩
  | @call _ t call mmap munmap r hcall hrun =>
    have hboth := hcall.run hw.wf t mmap munmap
    rw [hrun] at hboth
    obtain ⟨h', hrun', n', hn', -⟩ := hboth.of_ok
    have hans : Answered pl w (.call t call mmap munmap, some r)
        ⟨h', liveAfter w.heap.mem w.live t call r⟩ :=
      ⟨.call hrun', by rw [World.outcome, World.answer, hrun']⟩
    exact ⟨_, .single hans, hw.next hans.1, n', hn'⟩

/-- **Overruns are contained.**  Start in a world the library can get into, and let calls come that
rely on no header, or on one that is still true, while anyone may overwrite anything in memory, the
headers included.  Then the answers are those of a run of the same calls without a single write, the
state is the same but for memory, and so is the answer to the next such call, if there is one. -/
theorem overruns_contained {es : List Wild} (hw : w.Reachable pl)
    (hrun : Run (WildStep pl) w.heap es g) :
    ∃ w', Run (Answered pl) w (es.filterMap Wild.answered) w' ∧ g = { w'.heap with mem := g.mem } ∧
      ∀ t call mmap munmap r, call.Unharmed g →
        ((∃ g', call.run (pl.os mmap munmap) t g = .ok r g') ↔
          w'.answer pl t call mmap munmap = some r) := by
  have hall : ∃ w', Run (Answered pl) w (es.filterMap Wild.answered) w' ∧ w'.Reachable pl ∧
      w'.OverwrittenTo g := by
    induction hrun with
    | nil => exact ⟨w, .nil w, hw, w.heap.mem, rfl⟩
    | @snoc u v es e _ hstep ih =>
      obtain ⟨w₁, hrun₁, hw₁, hover⟩ := ih
      obtain ⟨w₂, hrun₂, hw₂, hover'⟩ := hover.step hw₁ hstep
      refine ⟨w₂, ?_, hw₂, hover'⟩
      have hlast : [e].filterMap Wild.answered = e.answered.toList := by cases e <;> rfl
      rw [List.filterMap_append, hlast]
      exact hrun₁.append hrun₂
  obtain ⟨w', hrun', hw', n, rfl⟩ := hall
  refine ⟨w', hrun', rfl, fun t call mmap munmap r hcall ↦ ?_⟩
  rw [← (hcall.run hw'.wf t mmap munmap).ok_iff, World.answer]
  cases call.run (pl.os mmap munmap) t w'.heap <;> simp

/-- All of memory is overwritten, and a second TINY block is asked for. -/
theorem overruns_contained_twoBlocks : ∃ g,
    Call.run (Platform.pages4k.os none true) 1 (.malloc 1)
      { World.twoBlocks.heap with mem := fun _ ↦ 0xFF#8 } = .ok 0x1070 g := by
  obtain ⟨w, hrun, -, hnext⟩ := overruns_contained World.reachable_twoBlocks
    (.single (.overwrite fun _ ↦ 0xFF#8))
  obtain rfl : World.twoBlocks = w := Run.nil_iff.mp hrun
  exact (hnext 1 (.malloc 1) none true 0x1070 trivial).mpr (by decide +kernel)

end FtMalloc
