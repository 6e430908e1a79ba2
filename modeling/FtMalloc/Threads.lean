import FtMalloc.Safety

/-!
# Threads do not disturb each other

The threads of a program share the allocator; each public call is one step, and so is each byte a
thread writes.  A thread *keeps to its own* when it writes only to blocks it holds and passes to
`free` and `realloc` only blocks it holds or addresses where nothing is live (`World.Owns`).

`holders_undisturbed` is what the threads get for it, however their steps are interleaved: every
byte of a live block is what its holder last stored there, blocks of different holders share no
byte, and no step of another thread, and no call on another block, changes a byte of a block or
takes it away.
-/

set_option autoImplicit false

namespace FtMalloc

open ByteMemory CharMap

variable {pl : Platform} {w w' : World} {a : Action} {b : Block}

/-! ## Who does what to which block -/

/-- The address a call is about. -/
def Call.names : Call → Option Nat
  | .free p => some p
  | .realloc p _ => some p
  | _ => none

/-- The thread that makes a step. -/
def Action.thread : Action → Option Nat
  | .call t _ _ _ => some t
  | .write t _ _ _ => some t
  | .host _ _ => none

/-- The block a step is about. -/
def Action.names : Action → Option Nat
  | .call _ c _ _ => c.names
  | .write _ p _ _ => some p
  | .host _ _ => none

/-- The thread that makes the step keeps to its own: a live block it names is one it holds. -/
def World.Owns (w : World) (a : Action) : Prop :=
  ∀ b ∈ w.live, a.names = some b.ptr → a.thread = some b.holder

/-- A step of a thread that keeps to its own. -/
def OwnedStep (pl : Platform) (w : World) (a : Action) (w' : World) : Prop :=
  Step pl w a w' ∧ w.Owns a

/-! ## One step -/

theorem mem_handOut {live : List Block} {t r n : Nat} {bytes : Nat → Option Byte} (hb : b ∈ live) :
    b ∈ handOut live t r n bytes := by
  rw [handOut]
  split
  · exact hb
  · exact List.mem_cons_of_mem _ hb

theorem mem_giveBack {live : List Block} {p : Nat} (hb : b ∈ live) (hp : b.ptr ≠ p) :
    b ∈ giveBack live p :=
  List.mem_filter.mpr ⟨hb, by simpa using hp⟩

theorem mem_alter {live : List Block} {p : Nat} {f : Block → Block} (hb : b ∈ live)
    (hp : b.ptr ≠ p) : b ∈ alter live p f :=
  List.mem_map.mpr ⟨b, hb, if_neg hp⟩

/-- A call takes away, or changes, no block but the one it names. -/
theorem mem_liveAfter {m : Memory} {live : List Block} {t r : Nat} {call : Call} (hb : b ∈ live)
    (hname : call.names ≠ some b.ptr) : b ∈ liveAfter m live t call r := by
  have hne : ∀ {p}, call.names = some p → b.ptr ≠ p := fun h e ↦ hname (e ▸ h)
  cases call with
  | malloc n => exact mem_handOut hb
  | free p => exact mem_giveBack hb (hne rfl)
  | realloc p n =>
    rw [liveAfter]
    split_ifs
    · exact mem_handOut hb
    · exact mem_giveBack hb (hne rfl)
    · exact hb
    · exact mem_alter hb (hne rfl)
  | calloc nmemb size => exact mem_handOut hb

/-- **A step leaves every block alone that it does not name.** -/
theorem Step.undisturbed (hw : w.WF pl) (hstep : Step pl w a w') (hb : b ∈ w.live)
    (hname : a.names ≠ some b.ptr) :
    b ∈ w'.live ∧ Agree w.heap.mem w'.heap.mem b.ptr b.size := by
  obtain ⟨s, c, hc, hat⟩ := hw.cell_of_live hb
  have hpw := hw.payload_within hc hat
  cases hstep with
  | @call t call mmap munmap r h' hrun =>
    obtain ⟨h₁, hcall, rfl⟩ := hw.call_step hrun
    have hkeep := hcall.keepsPayloads (hw.heap.lock t)
    exact ⟨mem_liveAfter hb hname, (hkeep s c hc).mono hpw.1 hpw.2⟩
  | @write t p i v x hx hxp hi =>
    subst hxp
    have hne : x.ptr ≠ b.ptr := fun e ↦ hname (congrArg some e)
    have hap := hw.payloads_apart hx hb hne
    refine ⟨mem_alter hb hne.symm, agree_poke v ?_⟩
    simp only [Region.Apart, Block.payload] at hap
    omega
  | host hm =>
    have hs := hw.heap.exists_of_taken (Heap.taken_of_cell hc)
    have hin := hpw.trans (hw.heap.payload_within hc)
    exact ⟨hb, (hw.agree_host hm hs).mono hin.1 hin.2⟩

/-- The bytes of a live block are what its holder has reason to expect. -/
theorem World.WF.bytes_eq (hw : w.WF pl) (hb : b ∈ w.live) {i : Nat} (hi : i < b.size) {v : Byte}
    (hv : b.bytes i = some v) : w.heap.mem (b.ptr + i) = v := by
  obtain ⟨s, c, hc, hat⟩ := hw.cell_of_live hb
  have hle := (hw.heap.cell_size_le hc).2
  have hsz := hat.size
  rw [← hat.ptr]
  exact hat.bytes i (by omega) v hv

/-! ## Every interleaving -/

/-- **Holders are not disturbed.**  In every world that the threads reach by keeping to their own,

* a byte of a live block is the last one stored there for its holder;
* no two live blocks, whoever holds them, are the same or share a byte;
* a step of a thread that does not hold a block, and any step that is not about that block, leaves
  the block live and every byte of it as it was. -/
theorem holders_undisturbed {m : Memory} {as : List Action}
    (hrun : Run (OwnedStep pl) (World.initial m) as w) :
    (∀ b ∈ w.live, ∀ i < b.size, ∀ v, b.bytes i = some v → w.heap.mem (b.ptr + i) = v) ∧
      w.live.Pairwise (fun b b' ↦ b.ptr ≠ b'.ptr ∧ b.payload.Apart b'.payload) ∧
      ∀ a w', OwnedStep pl w a w' → ∀ b ∈ w.live,
        a.thread ≠ some b.holder ∨ a.names ≠ some b.ptr →
          b ∈ w'.live ∧ ∀ i < b.size, w'.heap.mem (b.ptr + i) = w.heap.mem (b.ptr + i) := by
  have hw : w.WF pl :=
    World.Reachable.wf ⟨_, as, ⟨m, rfl⟩, hrun.mono fun _ _ _ h ↦ h.1⟩
  refine ⟨fun b hb i hi v hv ↦ hw.bytes_eq hb hi hv, ?_, ?_⟩
  · refine (List.pairwise_map.mp hw.tracks.nodup).imp_of_mem fun hb hb' hne ↦ ?_
    exact ⟨hne, hw.payloads_apart hb hb' hne⟩
  · rintro a w' ⟨hstep, howns⟩ b hb hother
    have hname : a.names ≠ some b.ptr := by
      rcases hother with ht | hn
      · exact fun hn ↦ ht (howns b hb hn)
      · exact hn
    obtain ⟨hlive, hag⟩ := hstep.undisturbed hw hb hname
    exact ⟨hlive, fun i hi ↦ hag _ (by omega) (by omega)⟩

/-- Thread 1 writes to its TINY block while thread 2 holds a LARGE one. -/
theorem holders_undisturbed_twoBlocks :
    let w := World.twoBlocks.write 0x1010 0 7#8
    w.live.map Block.holder = [2, 1] ∧ w.heap.mem 0x1010 = 7#8 ∧
      (∀ b ∈ w.live, ∀ i < b.size, ∀ v, b.bytes i = some v → w.heap.mem (b.ptr + i) = v) ∧
      w.live.Pairwise (fun b b' ↦ b.ptr ≠ b'.ptr ∧ b.payload.Apart b'.payload) ∧
      ∀ a w', OwnedStep .pages4k w a w' → ∀ b ∈ w.live,
        a.thread ≠ some b.holder ∨ a.names ≠ some b.ptr →
          b ∈ w'.live ∧ ∀ i < b.size, w'.heap.mem (b.ptr + i) = w.heap.mem (b.ptr + i) := by
  have hmalloc :
      ∀ {w : World} {t n : Nat} {mmap : Option Nat}, w.Owns (.call t (.malloc n) mmap true) :=
    fun _ _ h ↦ absurd h (by simp [Action.names, Call.names])
  have h1 : OwnedStep .pages4k (World.initial fun _ ↦ 0#8)
      (.call 1 (.malloc 1) (some 0x1000) true) _ :=
    ⟨Step.of_answer (r := 0x1010) (by decide +kernel), hmalloc⟩
  have h2 : OwnedStep .pages4k _ (.call 2 (.malloc 600) (some 0x4000) true) World.twoBlocks :=
    ⟨Step.of_answer (r := 0x4010) (by decide +kernel), hmalloc⟩
  have h3 : OwnedStep .pages4k World.twoBlocks (.write 1 0x1010 0 7#8)
      (World.twoBlocks.write 0x1010 0 7#8) := by
    obtain ⟨b, hb, hp, hi⟩ : ∃ b ∈ World.twoBlocks.live, b.ptr = 0x1010 ∧ 0 < b.size := by
      decide +kernel
    refine ⟨.write hb hp hi, ?_⟩
    show ∀ b ∈ World.twoBlocks.live, some 0x1010 = some b.ptr → some 1 = some b.holder
    decide +kernel
  have hrun := ((Run.single h1).snoc h2).snoc h3
  exact ⟨by decide +kernel, by decide +kernel, holders_undisturbed hrun⟩

end FtMalloc
