import FtMalloc.Accounts
import FtMalloc.Resize
import FtMalloc.Slots

/-!
# The allocator is a first-free allocator

The abstract allocator of `FirstFree` over the three sets of slots that the clients hold.

* `World.Commands` reads a public call as a command of the abstract allocator.
* `World.WF.performs` is the step lemma: a call does to the sets what its command does, and is
  answered by the slot its command is answered by.

`refines_first_free` is the same for whole runs: labelled by commands and answers, the runs of the
program are runs of the abstract allocator.
-/

set_option autoImplicit false

namespace FtMalloc

open ByteMemory FirstFree

variable {pl : Platform} {os : OS} {h h' : Heap} {w w' : World} {a : Action} {n r k : Nat}
  {s : Slot}
  {c : Cell} {call : Call} {b : Block}

/-! ## The commands -/

/-- The public calls as commands to a first-free allocator.  A request asks for a slot of its class;
an address stands for the slot that holds the live block there. -/
inductive World.Commands (pl : Platform) (os : OS) (w : World) : Call → Cmd Zone → Prop
  | malloc (n : Nat) : World.Commands pl os w (.malloc n)
      (.alloc (zoneOf (reqSize n)) (w.heap.grants pl os (reqSize n)))
  | calloc {nmemb size : Nat} (hfit : nmemb * size ≤ SIZE_MAX) :
      World.Commands pl os w (.calloc nmemb size) (.alloc (zoneOf (reqSize (nmemb * size)))
        (w.heap.grants pl os (reqSize (nmemb * size))))
  | callocOverflow {nmemb size : Nat} (hover : SIZE_MAX < nmemb * size) :
      World.Commands pl os w (.calloc nmemb size) .idle
  | free {b : Block} {k : Nat} (hb : b ∈ w.live) (hk : k < 100)
      (hp : b.ptr = w.heap.payloadAddr (b.zone.slot k)) :
      World.Commands pl os w (.free b.ptr) (.free b.zone k)
  | freeStray {p : Nat} (hstray : ∀ b ∈ w.live, b.ptr ≠ p) : World.Commands pl os w (.free p) .idle
  | reallocNull (n : Nat) : World.Commands pl os w (.realloc 0 n)
      (.alloc (zoneOf (reqSize n)) (w.heap.grants pl os (reqSize n)))
  | reallocZero {b : Block} {k : Nat} (hb : b ∈ w.live) (hk : k < 100)
      (hp : b.ptr = w.heap.payloadAddr (b.zone.slot k)) :
      World.Commands pl os w (.realloc b.ptr 0) (.free b.zone k)
  | reallocStray {p n : Nat} (hp : p ≠ 0) (hstray : ∀ b ∈ w.live, b.ptr ≠ p) :
      World.Commands pl os w (.realloc p n) .idle
  | reallocInPlace {b : Block} {n k room : Nat} (hb : b ∈ w.live) (hk : k < 100)
      (hp : b.ptr = w.heap.payloadAddr (b.zone.slot k)) (hn : n ≠ 0) (hroom : w.Room b room)
      (hfit : n ≤ room) : World.Commands pl os w (.realloc b.ptr n) (.keep b.zone k)
  | reallocMove {b : Block} {n k room : Nat} (hb : b ∈ w.live) (hk : k < 100)
      (hp : b.ptr = w.heap.payloadAddr (b.zone.slot k)) (hroom : w.Room b room)
      (hbig : room < n) : World.Commands pl os w (.realloc b.ptr n)
        (.move b.zone k (zoneOf n) (w.heap.grants pl os n))

/-- The address a command is answered by. -/
def Heap.answerAddr (h : Heap) : Option (Zone × Nat) → Nat
  | some (Z, k) => h.payloadAddr (Z.slot k)
  | none => 0

/-- The call answers `r` and leaves `h'`, and this is what the command does to the sets `T`. -/
def Performs (T : State Zone) (cmd : Cmd Zone) (r : Nat) (h' : Heap) : Prop :=
  ∃ o, exec 100 T cmd = (o, h'.takenSet) ∧ r = h'.answerAddr o

theorem MallocStep.performs (hi : h.WF pl) (hn : 0 < n)
    (hstuck : ∀ z, ¬ h.Stuck z) (hsound : ∀ z, ¬ FailsArena pl os h n z)
    (hm : MallocStep pl os h n r h') :
    Performs h.takenSet (.alloc (zoneOf n) (h.grants pl os n)) r h' := by
  rcases hm.first_free hi hn hstuck hsound with ⟨hplace, rfl, hset⟩ | ⟨k, hplace, rfl, hset⟩
  · exact ⟨none, by rw [exec, hplace, hset], rfl⟩
  · exact ⟨some (zoneOf n, k), by rw [exec, hplace, hset], rfl⟩

/-- Neither memory nor the mutex has a say in where the slots are. -/
theorem payloadAddr_congr (h h' : Heap) (hbase : h'.base = h.base) (hlarge : h'.large = h.large)
    (s : Slot) : h'.payloadAddr s = h.payloadAddr s := by
  cases s with
  | pool z k =>
    show h'.base z + z.stride * k + METASIZE = h.base z + z.stride * k + METASIZE
    rw [hbase]
  | large i =>
    show h'.large i + METASIZE = h.large i + METASIZE
    rw [hlarge]

theorem Performs.congr {T : State Zone} {cmd : Cmd Zone} (hp : Performs T cmd r h)
    (hbase : h'.base = h.base) (hlarge : h'.large = h.large) (hset : h'.takenSet = h.takenSet) :
    Performs T cmd r h' := by
  obtain ⟨o, hexec, hans⟩ := hp
  refine ⟨o, by rw [hexec, hset], hans.trans ?_⟩
  cases o with
  | none => rfl
  | some x => exact (payloadAddr_congr h h' hbase hlarge _).symm

theorem CallocStep.performs {nmemb size : Nat} (hi : h.WF pl)
    (hfit : nmemb * size ≤ SIZE_MAX) (hstuck : ∀ z, ¬ h.Stuck z)
    (hsound : ∀ z, ¬ FailsArena pl os h (reqSize (nmemb * size)) z)
    (hc : CallocStep pl os h nmemb size r h') :
    Performs h.takenSet (.alloc (zoneOf (reqSize (nmemb * size)))
      (h.grants pl os (reqSize (nmemb * size)))) r h' := by
  cases hc with
  | overflow hover => omega
  | failed _ hm => exact hm.performs hi (reqSize_pos _) hstuck hsound
  | zeroed _ _ hm => exact (hm.performs hi (reqSize_pos _) hstuck hsound).congr rfl rfl rfl

/-- What `realloc_impl` does for a live block in slot `s`, in place or not. -/
theorem ReallocStep.performs (hi : h.WF pl) (hc : h.cell s = some c)
    (hstuck : ∀ z, ¬ h.Stuck z) (hsound : c.room < n → ∀ z, ¬ FailsArena pl os h n z)
    (hstep : ReallocStep pl os h c.ptr n r h') :
    Performs h.takenSet (if n = 0 then .free s.zone s.index
      else if n ≤ c.room then .keep s.zone s.index
      else .move s.zone s.index (zoneOf n) (h.grants pl os n)) r h' := by
  rcases hstep.of_cell hi hc with ⟨h0, rfl, hf⟩ | ⟨hn, hfit, rfl, rfl⟩ | ⟨hbig, rfl, hm⟩ |
    ⟨hbig, hr, h₁, hm, hf⟩
  · rw [if_pos h0]
    exact ⟨none, by rw [exec, (hf.first_free hi hc rfl).1], rfl⟩
  · rw [if_neg hn, if_pos hfit]
    have hset : (h.record n s).takenSet = h.takenSet := takenSet_congr_taken fun t ↦ by
      cases s <;> cases t <;> exact Iff.rfl
    refine ⟨some (s.zone, s.index), by rw [exec, hset], ?_⟩
    · rw [Heap.answerAddr, Zone.slot_index, (hi.extent_of_cell hc).1]
      cases s <;> rfl
  · rw [if_neg (by omega), if_neg (by omega)]
    rcases hm.first_free hi (by omega) hstuck (hsound hbig) with ⟨hplace, -, hset⟩ |
      ⟨k, -, hr, -⟩
    · exact ⟨none, by rw [exec, hplace, hset], rfl⟩
    · rw [Heap.payloadAddr, METASIZE] at hr
      omega
  · rw [if_neg (by omega), if_neg (by omega)]
    rcases hm.first_free hi (by omega) hstuck (hsound hbig) with ⟨-, h0, -⟩ |
      ⟨k, hplace, rfl, hset⟩
    · exact absurd h0 hr
    · obtain ⟨s', c', hne, hfree, hz, hptr, -, hle, hb, hcs, hcs', -⟩ :=
        hm.copy_spec hi hc hbig hr
      have hcr := (hi.cell_size_le hc).2
      obtain ⟨hwf, hcell, -⟩ := hb.wf.copyTo hcs' (by omega : c.size ≤ c'.room) c.ptr
      rw [hptr] at hwf hcell
      obtain ⟨hdrop, hkeep⟩ := hf.first_free hwf (by rw [hcell, hcs]) rfl
      -- the new slot is not the old one
      have hks : (zoneOf n).slot k ≠ s := by
        rintro rfl
        have hp := (hb.wf.extent_of_cell hcs).1
        exact hne (hb.wf.ptr_inj hcs' hcs (hptr.trans hp.symm))
      have hmove : (h₁.copyTo (h₁.payloadAddr ((zoneOf n).slot k)) c.ptr c.size).payloadAddr
          ((zoneOf n).slot k) = h₁.payloadAddr ((zoneOf n).slot k) :=
        payloadAddr_congr h₁ (h₁.copyTo _ c.ptr c.size) rfl rfl _
      have haddr := (hkeep _ hks).trans hmove
      have hsame : (h₁.copyTo (h₁.payloadAddr ((zoneOf n).slot k)) c.ptr c.size).takenSet
          = h₁.takenSet := takenSet_congr hcell
      exact ⟨some (zoneOf n, k), by rw [exec, hplace, hdrop, hsame, hset], haddr.symm⟩

/-- **A public call does to the sets what its command does**, and is answered by the slot its
command is answered by. -/
theorem World.WF.performs (hw : w.WF pl) (hstuck : ∀ z, ¬ w.heap.Stuck z) {t : Nat}
    {mmap : Option Nat} {munmap : Bool} {cmd : Cmd Zone}
    (hsound : ∀ z, ¬ w.FailsArena pl z (.call t call mmap munmap))
    (hcmd : w.Commands pl (pl.os mmap munmap) call cmd)
    (hrun : call.run (pl.os mmap munmap) t w.heap = .ok r h') : Performs w.held cmd r h' := by
  obtain ⟨h₁, hcall, rfl⟩ := hw.call_step hrun
  have hi := hw.heap.lock t
  have hreq : ∀ n, call.Requests w.heap n → ∀ z,
      ¬ FtMalloc.FailsArena pl (pl.os mmap munmap) (w.heap.lock t) (reqSize n) z :=
    fun n hn z hf ↦ hsound z (.call hn hf)
  have hstray : ∀ {p}, (∀ b ∈ w.live, b.ptr ≠ p) → (w.heap.lock t).Stray p :=
    fun hno ↦ hw.stray_iff.mpr hno
  rw [hw.held_eq]
  suffices h : Performs (w.heap.lock t).takenSet cmd r h₁ from h.congr rfl rfl rfl
  -- a live block that is resized or freed is the cell in its slot
  have hcell : ∀ {b k}, b ∈ w.live → k < 100 → b.ptr = w.heap.payloadAddr (b.zone.slot k) →
      ∃ c, (w.heap.lock t).cell (b.zone.slot k) = some c ∧ c.ptr = b.ptr ∧
        ∀ room, w.Room b room → c.room = room := by
    intro b k hb hk hp
    obtain ⟨c, hc, hat⟩ := hw.slot_at hb hk hp
    exact ⟨c, hc, hat.ptr, fun room hroom ↦ hw.room_eq hc hat hroom⟩
  have hresize : ∀ {b : Block} {k n : Nat} {c : Cell},
      (w.heap.lock t).cell (b.zone.slot k) = some c → c.ptr = b.ptr → call = .realloc b.ptr n →
      ReallocStep pl (pl.os mmap munmap) (w.heap.lock t) b.ptr n r h₁ →
      Performs (w.heap.lock t).takenSet (if n = 0 then .free b.zone k
        else if n ≤ c.room then .keep b.zone k
        else .move b.zone k (zoneOf n) (w.heap.grants pl (pl.os mmap munmap) n)) r h₁ := by
    intro b k n c hc hp hname hr
    rw [← hp] at hr
    have h := hr.performs hi hc hstuck fun hbig ↦ by
      have h := hreq n (hname ▸ .reallocMove (h := w.heap) hc hp hbig)
      rwa [reqSize_eq (by omega)] at h
    rwa [Zone.zone_slot, Zone.index_slot] at h
  cases hcmd with
  | malloc n =>
    cases hcall with
    | malloc hm => exact hm.performs hi (reqSize_pos n) hstuck (hreq n (.malloc n))
  | calloc hfit =>
    cases hcall with
    | calloc hc => exact hc.performs hi hfit hstuck (hreq _ (.calloc hfit))
  | callocOverflow hover =>
    cases hcall with
    | calloc hc =>
      cases hc with
      | overflow => exact ⟨none, rfl, rfl⟩
      | failed hfit => omega
      | zeroed hfit => omega
  | free hb hk hp =>
    obtain ⟨c, hc, hcp, -⟩ := hcell hb hk hp
    cases hcall with
    | free hf =>
      have hset := (hf.first_free hi hc hcp).1
      rw [Zone.zone_slot, Zone.index_slot] at hset
      exact ⟨none, by rw [exec, hset], rfl⟩
  | freeStray hno =>
    cases hcall with
    | free hf =>
      rw [hf.eq_of_stray (hstray hno)]
      exact ⟨none, rfl, rfl⟩
  | reallocNull n =>
    cases hcall with
    | realloc hr =>
      exact (hr.of_null hi).performs hi (reqSize_pos n) hstuck (hreq n (.reallocNull rfl))
  | reallocZero hb hk hp =>
    obtain ⟨c, hc, hcp, -⟩ := hcell hb hk hp
    cases hcall with
    | realloc hr => simpa using hresize hc hcp rfl hr
  | reallocStray hp hno =>
    cases hcall with
    | realloc hr =>
      obtain ⟨rfl, rfl⟩ := hr.of_stray hp (hstray hno)
      exact ⟨none, rfl, rfl⟩
  | reallocInPlace hb hk hp hn hroom hfit =>
    obtain ⟨c, hc, hcp, hcr⟩ := hcell hb hk hp
    cases hcall with
    | realloc hr =>
      have h := hresize hc hcp rfl hr
      rwa [if_neg hn, if_pos (by rwa [hcr _ hroom])] at h
  | reallocMove hb hk hp hroom hbig =>
    obtain ⟨c, hc, hcp, hcr⟩ := hcell hb hk hp
    cases hcall with
    | realloc hr =>
      have h := hresize hc hcp rfl hr
      rwa [if_neg (by omega), if_neg (by rw [hcr _ hroom]; omega)] at h

/-! ## Commands of calls -/

/-- A live block is in a slot. -/
theorem World.WF.exists_slot (hw : w.WF pl) (hb : b ∈ w.live) :
    ∃ k < 100, b.ptr = w.heap.payloadAddr (b.zone.slot k) := by
  obtain ⟨s, c, hc, hat⟩ := hw.cell_of_live hb
  refine ⟨s.index, hw.heap.index_lt (Heap.taken_of_cell hc), ?_⟩
  rw [← hat.zone, Zone.slot_index, ← hat.ptr, (hw.heap.extent_of_cell hc).1]
  rfl

/-- Every call is a command. -/
theorem World.WF.exists_command (hw : w.WF pl) (os : OS) (call : Call) :
    ∃ cmd, w.Commands pl os call cmd := by
  have hlive : ∀ p, (∀ b ∈ w.live, b.ptr ≠ p) ∨ ∃ b ∈ w.live, b.ptr = p := fun p ↦ by
    by_cases h : ∃ b ∈ w.live, b.ptr = p
    · exact .inr h
    · exact .inl fun b hb hp ↦ h ⟨b, hb, hp⟩
  cases call with
  | malloc n => exact ⟨_, .malloc n⟩
  | free p =>
    rcases hlive p with hstray | ⟨b, hb, rfl⟩
    · exact ⟨_, .freeStray hstray⟩
    · obtain ⟨k, hk, hp⟩ := hw.exists_slot hb
      exact ⟨_, .free hb hk hp⟩
  | realloc p n =>
    by_cases hp0 : p = 0
    · subst hp0
      exact ⟨_, .reallocNull n⟩
    rcases hlive p with hstray | ⟨b, hb, rfl⟩
    · exact ⟨_, .reallocStray hp0 hstray⟩
    obtain ⟨k, hk, hp⟩ := hw.exists_slot hb
    obtain ⟨room, hroom⟩ := hw.exists_room hb
    by_cases hn : n = 0
    · subst hn
      exact ⟨_, .reallocZero hb hk hp⟩
    by_cases hfit : n ≤ room
    · exact ⟨_, .reallocInPlace hb hk hp hn hroom hfit⟩
    · exact ⟨_, .reallocMove hb hk hp hroom (by omega)⟩
  | calloc nmemb size =>
    by_cases hfit : nmemb * size ≤ SIZE_MAX
    · exact ⟨_, .calloc hfit⟩
    · exact ⟨_, .callocOverflow (by omega)⟩

/-- A request is answered by the place its class has for it. -/
theorem World.WF.request_command (hw : w.WF pl) (os : OS) (hreq : call.Requests w.heap n) :
    ∃ cmd, w.Commands pl os call cmd ∧ ∀ T, (exec 100 T cmd).1
      = (place 100 T (zoneOf (reqSize n)) (w.heap.grants pl os (reqSize n))).map
        fun k ↦ (zoneOf (reqSize n), k) := by
  cases hreq with
  | malloc n => exact ⟨_, .malloc n, fun _ ↦ exec_alloc_fst⟩
  | calloc hfit => exact ⟨_, .calloc hfit, fun _ ↦ exec_alloc_fst⟩
  | reallocNull hp =>
    subst hp
    exact ⟨_, .reallocNull n, fun _ ↦ exec_alloc_fst⟩
  | @reallocMove s c p n hc hp hbig =>
    obtain ⟨b, hb, hat⟩ := hw.tracks.complete _ _ hc
    obtain rfl : b.ptr = p := hat.ptr.symm.trans hp
    obtain ⟨k, hk, hkp⟩ := hw.exists_slot hb
    obtain ⟨room, hroom⟩ := hw.exists_room hb
    have hcr := hw.room_eq hc hat hroom
    rw [reqSize_eq (Nat.ne_of_gt (Nat.zero_lt_of_lt hbig))]
    exact ⟨_, .reallocMove hb hk hkp hroom (by omega), fun _ ↦ exec_move_fst⟩

/-- A command is about a slot that is held. -/
theorem World.Commands.valid {cmd : Cmd Zone} (hcmd : w.Commands pl os call cmd) :
    cmd.Valid w.held := by
  have hheld : ∀ {b : Block} {k}, b ∈ w.live → k < 100 →
      b.ptr = w.heap.payloadAddr (b.zone.slot k) → k ∈ w.held b.zone := fun hb hk hp ↦
    Finset.mem_filter.mpr ⟨Finset.mem_range.mpr hk, _, hb, rfl, hp⟩
  cases hcmd with
  | free hb hk hp => exact hheld hb hk hp
  | reallocZero hb hk hp => exact hheld hb hk hp
  | reallocInPlace hb hk hp => exact hheld hb hk hp
  | reallocMove hb hk hp => exact hheld hb hk hp
  | _ => trivial

/-! ## Runs -/

/-- A step that does not fail the `mmap` of an arena. -/
def SoundStep (pl : Platform) (w : World) (a : Action) (w' : World) : Prop :=
  Step pl w a w' ∧ ∀ z, ¬ w.FailsArena pl z a

/-- The answer `r` is the payload of a slot that is held, or `NULL`. -/
def World.AnsweredBy (w : World) (r : Nat) : Option (Zone × Nat) → Prop
  | some (Z, k) => k ∈ w.held Z ∧ r = w.heap.payloadAddr (Z.slot k)
  | none => r = 0

/-- The sound steps, labelled by the command they are and the slot that answers it. -/
inductive World.Labelled (pl : Platform) : World → Cmd Zone × Option (Zone × Nat) → World → Prop
  | call {w : World} {t : Nat} {call : Call} {mmap : Option Nat} {munmap : Bool} {r : Nat}
      {h' : Heap} {cmd : Cmd Zone} {o : Option (Zone × Nat)}
      (hrun : call.run (pl.os mmap munmap) t w.heap = .ok r h')
      (hsound : ∀ z, ¬ w.FailsArena pl z (.call t call mmap munmap))
      (hcmd : w.Commands pl (pl.os mmap munmap) call cmd)
      (hans : World.AnsweredBy ⟨h', liveAfter w.heap.mem w.live t call r⟩ r o) :
      World.Labelled pl w (cmd, o) ⟨h', liveAfter w.heap.mem w.live t call r⟩
  | write {w w' : World} {t p i : Nat} {v : Byte} (hstep : Step pl w (.write t p i v) w') :
      World.Labelled pl w (.idle, none) w'
  | host {w w' : World} {m : Memory} {errno : Nat} (hstep : Step pl w (.host m errno) w') :
      World.Labelled pl w (.idle, none) w'

/-- Well formed, and no arena is stuck. -/
def World.Sound (pl : Platform) (w : World) : Prop := w.WF pl ∧ ∀ z, ¬ w.heap.Stuck z

theorem World.Sound.initial (pl : Platform) (m : Memory) : (World.initial m).Sound pl :=
  ⟨.initial pl m, fun _ hs ↦ hs.1 rfl⟩

theorem SoundStep.sound (hw : w.Sound pl) (hstep : SoundStep pl w a w') : w'.Sound pl :=
  ⟨hstep.1.wf hw.1, fun z hz ↦ ((hstep.1.stuck_iff hw.1 z).mp hz).elim (hw.2 z) (hstep.2 z)⟩

theorem World.Labelled.soundStep {l : Cmd Zone × Option (Zone × Nat)}
    (hl : World.Labelled pl w l w') : ∃ a, SoundStep pl w a w' := by
  cases hl with
  | call hrun hsound => exact ⟨_, .call hrun, hsound⟩
  | write hstep => exact ⟨_, hstep, fun z hf ↦ (nomatch hf)⟩
  | host hstep => exact ⟨_, hstep, fun z hf ↦ (nomatch hf)⟩

/-- One slot at most is the answer. -/
theorem World.WF.answer_unique (hw : w.WF pl) {o o' : Option (Zone × Nat)}
    (h : w.AnsweredBy r o) (h' : w.AnsweredBy r o') : o = o' := by
  have hpos : ∀ {s}, w.heap.payloadAddr s ≠ 0 := by
    intro s
    rw [Heap.payloadAddr, METASIZE]
    omega
  cases o with
  | none =>
    cases o' with
    | none => rfl
    | some x => exact absurd (h'.2.symm.trans h) hpos
  | some x =>
    cases o' with
    | none => exact absurd (h.2.symm.trans h') hpos
    | some y =>
      obtain ⟨hx, hrx⟩ := h
      obtain ⟨hy, hry⟩ := h'
      rw [hw.held_eq, hw.heap.mem_takenSet] at hx hy
      have hslot := hw.heap.ptr_inj (Heap.cell_of_taken hx) (Heap.cell_of_taken hy)
        (hrx.symm.trans hry)
      have hZ := congrArg Slot.zone hslot
      have hk := congrArg Slot.index hslot
      simp only [Zone.zone_slot, Zone.index_slot] at hZ hk
      rw [Option.some_inj]
      exact Prod.ext hZ hk

/-- A command that a call performs, as a step of the abstract allocator. -/
theorem Performs.step {cmd : Cmd Zone} (hw' : w'.WF pl) (hv : cmd.Valid w.held)
    (hp : Performs w.held cmd r w'.heap) :
    ∃ o, w'.AnsweredBy r o ∧ FirstFree.Step 100 w.held (cmd, o) w'.held := by
  obtain ⟨o, hexec, hans⟩ := hp
  have hstep : FirstFree.Step 100 w.held (cmd, o) w'.held := ⟨hv, by rw [hexec, hw'.held_eq]⟩
  refine ⟨o, ?_, hstep⟩
  cases o with
  | none => exact hans
  | some x => exact ⟨hstep.answer_mem, hans⟩

/-- A step that is not a call leaves the sets as they are. -/
theorem Step.held_eq (hw : w.WF pl) (hstep : Step pl w a w')
    (hno : ∀ t call mmap munmap, a ≠ .call t call mmap munmap) : w'.held = w.held := by
  rw [(hstep.wf hw).held_eq, hw.held_eq]
  refine takenSet_congr_taken fun s ↦ ?_
  cases hstep with
  | call => exact absurd rfl (hno _ _ _ _)
  | write => cases s <;> exact Iff.rfl
  | host => cases s <;> exact Iff.rfl

/-- **Every labelled step is a step of the abstract allocator**, with the same label. -/
theorem World.Labelled.step {l : Cmd Zone × Option (Zone × Nat)} (hw : w.Sound pl)
    (hl : World.Labelled pl w l w') : FirstFree.Step 100 w.held l w'.held := by
  cases hl with
  | call hrun hsound hcmd hans =>
    have hw' := Step.wf hw.1 (.call hrun)
    obtain ⟨o, hans', hstep⟩ :=
      (hw.1.performs hw.2 hsound hcmd hrun).step hw' hcmd.valid
    rw [hw'.answer_unique hans hans']
    exact hstep
  | write hstep => exact ⟨trivial, by rw [hstep.held_eq hw.1 (by simp)]; rfl⟩
  | host hstep => exact ⟨trivial, by rw [hstep.held_eq hw.1 (by simp)]; rfl⟩

/-- Every sound step has a label. -/
theorem SoundStep.labelled (hw : w.Sound pl) (hstep : SoundStep pl w a w') :
    ∃ l, World.Labelled pl w l w' := by
  obtain ⟨hstep, hsound⟩ := hstep
  have hwf' := hstep.wf hw.1
  cases hstep with
  | @call t call mmap munmap r h' hrun =>
    obtain ⟨cmd, hcmd⟩ := hw.1.exists_command (pl.os mmap munmap) call
    obtain ⟨o, hans, -⟩ := (hw.1.performs hw.2 hsound hcmd hrun).step hwf' hcmd.valid
    exact ⟨(cmd, o), .call hrun hsound hcmd hans⟩
  | @write t p i v b hb hp hi => exact ⟨_, .write (Step.write (t := t) hb hp hi)⟩
  | host hm => exact ⟨_, .host (.host hm)⟩

/-- Where the block for a request of `n` bytes is. -/
structure Placed (pl : Platform) (os : OS) (w : World) (n r : Nat) (h' : Heap) : Prop where
  /-- Up to 80 bytes: the least free slot of the TINY arena, or `NULL` when all 100 are held. -/
  tiny : n ≤ 80 →
    (∀ k, least 100 (w.held (.pool .tiny)) = some k → r = h'.base .tiny + 16 + 96 * k) ∧
      (r = 0 ↔ ∀ k < 100, k ∈ w.held (.pool .tiny))
  /-- Up to 496 bytes: the same of the SMALL arena. -/
  small : 81 ≤ n → n ≤ 496 →
    (∀ k, least 100 (w.held (.pool .small)) = some k → r = h'.base .small + 16 + 512 * k) ∧
      (r = 0 ↔ ∀ k < 100, k ∈ w.held (.pool .small))
  /-- Above: a block exactly when fewer than 100 LARGE ones are live, the size checks pass and
  `mmap` succeeds.  It is entered in the table at the least free index. -/
  large : 496 < n →
    (r ≠ 0 ↔ w.count .large < 100 ∧ pl.Fits n ∧
        (os.answer w.heap.mapped (pl.largeLen n)).isSome) ∧
      (r ≠ 0 → ∃ k, least 100 (w.held .large) = some k ∧ r = h'.large k + 16)

/-- A pool's request, in terms of the place its class has for it. -/
theorem placed_pool {z : Pool} {o : Option (Zone × Nat)} (hz : zoneOf n = .pool z)
    (ho : o = (place 100 w.held (zoneOf n) (w.heap.grants pl os n)).map fun k ↦ (zoneOf n, k))
    (hr : r = h'.answerAddr o) :
    (∀ k, least 100 (w.held (.pool z)) = some k → r = h'.base z + 16 + z.stride * k) ∧
      (r = 0 ↔ ∀ k < 100, k ∈ w.held (.pool z)) := by
  rw [grants_of_pool hz, hz, place, if_pos rfl] at ho
  rw [← least_eq_none]
  subst hr ho
  cases least 100 (w.held (.pool z)) with
  | none => simp [Heap.answerAddr]
  | some j =>
    have hj : h'.payloadAddr (.pool z j) = h'.base z + 16 + z.stride * j := by
      simp only [Heap.payloadAddr, Heap.extent, Heap.slotAddr, METASIZE]
      omega
    refine ⟨fun k hk ↦ ?_, iff_of_false ?_ (by simp)⟩
    · rw [← Option.some_inj.mp hk]
      exact hj
    · show h'.payloadAddr (.pool z j) ≠ 0
      omega

/-- **Where a request is served**, in a world without stuck arenas. -/
theorem World.Sound.placed (hw : w.Sound pl) {t : Nat} {mmap : Option Nat} {munmap : Bool}
    (hreq : call.Requests w.heap n)
    (hsound : ∀ z, ¬ w.FailsArena pl z (.call t call mmap munmap))
    (hrun : call.run (pl.os mmap munmap) t w.heap = .ok r h') :
    Placed pl (pl.os mmap munmap) w (reqSize n) r h' := by
  obtain ⟨cmd, hcmd, hfst⟩ := hw.1.request_command (pl.os mmap munmap) hreq
  obtain ⟨o, hexec, hr⟩ := hw.1.performs hw.2 hsound hcmd hrun
  have ho := hfst w.held
  rw [hexec] at ho
  have hpos := reqSize_pos n
  refine ⟨fun hle ↦ ?_, fun hlow hle ↦ ?_, fun hgt ↦ ?_⟩
  · exact placed_pool (z := .tiny) (if_pos hle) ho hr
  · refine placed_pool (z := .small) ?_ ho hr
    rw [zoneOf, if_neg (by rw [TINY, METASIZE]; omega), if_pos (by rw [SMALL, METASIZE]; omega)]
  · have hz : zoneOf (reqSize n) = .large := by
      rw [zoneOf, if_neg (by rw [TINY, METASIZE]; omega), if_neg (by rw [SMALL, METASIZE]; omega)]
    have hcount : w.count .large < 100 ↔ least 100 (w.held .large) ≠ none := by
      rw [hw.1.count_lt_iff, Ne, least_eq_none, hw.1.held_eq]
      push Not
      simp only [hw.1.heap.mem_takenSet]
    rw [hz] at ho
    rw [hcount, ← grants_of_large (h := w.heap) hz]
    subst hr ho
    cases hplace : place 100 w.held .large (w.heap.grants pl (pl.os mmap munmap) (reqSize n)) with
    | none =>
      have hno := place_eq_none.mp hplace
      simp only [Option.map_none, Heap.answerAddr, ne_eq, not_true_eq_false, false_iff,
        IsEmpty.forall_iff, and_true]
      tauto
    | some k =>
      obtain ⟨hg, hk⟩ := place_eq_some.mp hplace
      have hne : h'.payloadAddr (.large k) ≠ 0 := by
        rw [Heap.payloadAddr, METASIZE]
        omega
      exact ⟨iff_of_true hne ⟨by rw [hk]; simp, hg⟩, fun _ ↦ ⟨k, hk, rfl⟩⟩

/-- Every sound run can be labelled, step by step. -/
theorem exists_labels {w₀ : World} {as : List Action} (hw : w₀.Sound pl)
    (hrun : Run (SoundStep pl) w₀ as w) :
    w.Sound pl ∧ ∃ ls, ls.length = as.length ∧ Run (World.Labelled pl) w₀ ls w := by
  induction hrun with
  | nil => exact ⟨hw, [], rfl, .nil _⟩
  | snoc _ hlast ih =>
    obtain ⟨hu, ls, hlen, hls⟩ := ih
    obtain ⟨l, hl⟩ := hlast.labelled hu
    exact ⟨hlast.sound hu, ls ++ [l], by simp [hlen], hls.snoc hl⟩

/-- Labelled runs are runs of the abstract allocator. -/
theorem labelled_runs {m : Memory} {ls : List (Cmd Zone × Option (Zone × Nat))}
    (hrun : Run (World.Labelled pl) (World.initial m) ls w) :
    Run (FirstFree.Step 100) (fun _ ↦ ∅) ls w.held := by
  have hinit : (World.initial m).held = fun _ ↦ ∅ := by
    funext Z
    exact Finset.filter_false_of_mem fun k _ ⟨b, hb, _⟩ ↦ absurd hb (by simp [World.initial])
  have hsim : ∀ (u : World) l v (T : State Zone), u.Sound pl ∧ T = u.held →
      World.Labelled pl u l v → ∃ T', FirstFree.Step 100 T l T' ∧ v.Sound pl ∧ T' = v.held := by
    rintro u l v T ⟨hu, rfl⟩ hl
    obtain ⟨a, hstep⟩ := hl.soundStep
    exact ⟨v.held, hl.step hu, hstep.sound hu, rfl⟩
  obtain ⟨T, hT, -, rfl⟩ := hrun.simulate hsim ⟨.initial pl m, rfl⟩
  rwa [hinit] at hT

/-- **The allocator is a first-free allocator** in every run that does not fail the `mmap` of an
arena.

* The steps of the run can be labelled, each public call by the command it is and by the slot it is
  answered by.
* However they are labelled, the run is a run of the abstract allocator, on the slots that the
  clients hold; these are at most a hundred of each class.
* Each request is served where `Placed` says. -/
theorem refines_first_free {m : Memory} {as : List Action}
    (hrun : Run (SoundStep pl) (World.initial m) as w) :
    (∃ ls, ls.length = as.length ∧ Run (World.Labelled pl) (World.initial m) ls w) ∧
      (∀ ls, Run (World.Labelled pl) (World.initial m) ls w →
        Run (FirstFree.Step 100) (fun _ ↦ ∅) ls w.held) ∧
      (∀ Z, (w.held Z).card ≤ 100) ∧
      ∀ t call mmap munmap n r h', call.Requests w.heap n →
        (∀ z, ¬ w.FailsArena pl z (.call t call mmap munmap)) →
        call.run (pl.os mmap munmap) t w.heap = .ok r h' →
          Placed pl (pl.os mmap munmap) w (reqSize n) r h' := by
  obtain ⟨hw, ls, hlen, hls⟩ := exists_labels (.initial pl m) hrun
  refine ⟨⟨ls, hlen, hls⟩, fun ls hls ↦ labelled_runs hls, card_le (labelled_runs hls), ?_⟩
  exact fun t call mmap munmap n r h' hreq hsound hcall ↦ hw.placed hreq hsound hcall

/-- Two blocks are first in their classes, and `malloc(80)` gets the second TINY slot. -/
theorem refines_first_free_twoBlocks :
    World.twoBlocks.held (.pool .tiny) = {0} ∧ World.twoBlocks.held .large = {0} ∧
      (∃ ls, ls.length = 2 ∧
        Run (World.Labelled .pages4k) (World.initial fun _ ↦ 0#8) ls World.twoBlocks) ∧
      World.twoBlocks.answer .pages4k 1 (.malloc 80) none true = some (0x1000 + 16 + 96 * 1) := by
  have hsound : ∀ {w : World} {t n : Nat} {mmap : Option Nat},
      (∀ z, ¬ FtMalloc.FailsArena .pages4k (Platform.pages4k.os mmap true) w.heap (reqSize n) z) →
        ∀ z, ¬ w.FailsArena .pages4k z (.call t (.malloc n) mmap true) := by
    rintro w t n mmap hno z ⟨hreq, hf⟩
    cases hreq
    exact hno z hf
  have h1 : SoundStep .pages4k (World.initial fun _ ↦ 0#8)
      (.call 1 (.malloc 1) (some 0x1000) true) _ :=
    ⟨Step.of_answer (r := 0x1010) (by decide +kernel), hsound fun z ⟨hz, _, _, hno⟩ ↦ by
      cases z
      · exact absurd hno (by decide +kernel)
      · exact absurd hz (by decide)⟩
  have h2 : SoundStep .pages4k _ (.call 2 (.malloc 600) (some 0x4000) true) World.twoBlocks :=
    ⟨Step.of_answer (r := 0x4010) (by decide +kernel), hsound fun z ⟨hz, _⟩ ↦
      absurd hz (by cases z <;> decide)⟩
  obtain ⟨hls, -, -, hplaced⟩ := refines_first_free ((Run.single h1).snoc h2)
  have htiny : World.twoBlocks.held (.pool .tiny) = {0} := by decide +kernel
  have hthird : ∀ z, ¬ World.twoBlocks.FailsArena .pages4k z (.call 1 (.malloc 80) none true) :=
    hsound fun z ⟨hz, hclosed, _⟩ ↦ by
      cases z
      · exact absurd hclosed (by decide +kernel)
      · exact absurd hz (by decide)
  refine ⟨htiny, by decide +kernel, hls, ?_⟩
  have hok : (World.twoBlocks.answer .pages4k 1 (.malloc 80) none true).isSome := by decide +kernel
  rw [World.answer] at hok ⊢
  cases hrun : (Call.malloc 80).run (Platform.pages4k.os none true) 1 World.twoBlocks.heap with
  | ok r h' =>
    have hp := (hplaced 1 _ none true 80 r h' (.malloc 80) hthird hrun).tiny (by decide)
    have hbase : h'.base .tiny = 0x1000 :=
      (Step.arenas_kept World.reachable_twoBlocks.wf (.call hrun) (z := .tiny)
        (by decide +kernel)).2
    rw [htiny, hbase] at hp
    exact congrArg some (hp.1 1 (by decide))
  | error e h' =>
    rw [hrun] at hok
    exact absurd hok (by simp)

end FtMalloc
