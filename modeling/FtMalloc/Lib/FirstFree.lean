import Mathlib.Data.Finset.Card
import Mathlib.Data.Finset.Range
import FtMalloc.Lib.Run

/-!
# First-free allocation

An allocator of places.  There are several classes, each with the places `0, …, N - 1`, and the
state is the set of places of each class that are in use.  A request takes the least free place of
its class; it may also be turned down for a reason of its own (`granted`).

`exec` is what a command does, and `Step` makes a transition system of it whose labels are commands
with their answers.  The sets stay below `N` in every run (`card_le`).
-/

set_option autoImplicit false

namespace FirstFree

universe u

/-- The least number below `N` that is not in the set. -/
def least (N : Nat) (s : Finset Nat) : Option Nat := (List.range N).find? fun k ↦ k ∉ s

theorem least_eq_some {N k : Nat} {s : Finset Nat} :
    least N s = some k ↔ k < N ∧ k ∉ s ∧ ∀ j < k, j ∈ s := by
  rw [least, List.find?_range_eq_some]
  simp only [decide_eq_true_eq, List.mem_range, Bool.not_eq_eq_eq_not, Bool.not_true,
    decide_eq_false_iff_not, not_not]
  tauto

theorem least_eq_none {N : Nat} {s : Finset Nat} : least N s = none ↔ ∀ k < N, k ∈ s := by
  rw [least, List.find?_range_eq_none]
  simp

/-- The places in use, by class. -/
abbrev State (ζ : Type u) := ζ → Finset Nat

/-- What is asked of the allocator. -/
inductive Cmd (ζ : Type u)
  /-- Take a place of a class, unless that is not granted. -/
  | alloc (Z : ζ) (granted : Bool)
  /-- Give a place back. -/
  | free (Z : ζ) (k : Nat)
  /-- Keep a place. -/
  | keep (Z : ζ) (k : Nat)
  /-- Take a place of the class `Z'`, unless that is not granted; then give back place `k` of
  `Z`. -/
  | move (Z : ζ) (k : Nat) (Z' : ζ) (granted : Bool)
  | idle
  deriving DecidableEq, Repr

section Commands

variable {ζ : Type u} {N k : Nat} {s t : State ζ} {Z : ζ} {g : Bool}

/-- The place a request gets. -/
def place (N : Nat) (s : State ζ) (Z : ζ) (granted : Bool) : Option Nat :=
  if granted then least N (s Z) else none

theorem place_eq_some : place N s Z g = some k ↔ g = true ∧ least N (s Z) = some k := by
  rw [place]
  split <;> simp_all

theorem place_eq_none : place N s Z g = none ↔ (g = true → least N (s Z) = none) := by
  rw [place]
  split <;> simp_all

variable [DecidableEq ζ]

/-- The state with place `k` in use. -/
def State.insert (s : State ζ) (Z : ζ) (k : Nat) : State ζ :=
  Function.update s Z (Insert.insert k (s Z))

/-- The state with place `k` free. -/
def State.erase (s : State ζ) (Z : ζ) (k : Nat) : State ζ := Function.update s Z ((s Z).erase k)

/-- The answer to a command, and the state it leaves. -/
def exec (N : Nat) (s : State ζ) : Cmd ζ → Option (ζ × Nat) × State ζ
  | .alloc Z granted =>
    match place N s Z granted with
    | some k => (some (Z, k), s.insert Z k)
    | none => (none, s)
  | .free Z k => (none, s.erase Z k)
  | .keep Z k => (some (Z, k), s)
  | .move Z k Z' granted =>
    match place N s Z' granted with
    | some k' => (some (Z', k'), (s.insert Z' k').erase Z k)
    | none => (none, s)
  | .idle => (none, s)

/-- The command is about a place that is in use. -/
def Cmd.Valid (s : State ζ) : Cmd ζ → Prop
  | .free Z k | .keep Z k | .move Z k _ _ => k ∈ s Z
  | .alloc _ _ | .idle => True

/-- The allocator as a transition system. -/
def Step (N : Nat) (s : State ζ) (l : Cmd ζ × Option (ζ × Nat)) (t : State ζ) : Prop :=
  l.1.Valid s ∧ exec N s l.1 = (l.2, t)

/-- A request is answered by the place it gets. -/
theorem exec_alloc_fst : (exec N s (.alloc Z g)).1 = (place N s Z g).map fun k ↦ (Z, k) := by
  rw [exec]
  cases place N s Z g <;> rfl

theorem exec_move_fst {Y : ζ} :
    (exec N s (.move Y k Z g)).1 = (place N s Z g).map fun k ↦ (Z, k) := by
  rw [exec]
  cases place N s Z g <;> rfl

theorem mem_insert_self : k ∈ s.insert Z k Z := by
  rw [State.insert, Function.update_self]
  exact Finset.mem_insert_self k (s Z)

/-- The place that a command is answered by is in use after it. -/
theorem Step.answer_mem {cmd : Cmd ζ} (h : Step N s (cmd, some (Z, k)) t) : k ∈ t Z := by
  obtain ⟨hv, h⟩ := h
  cases cmd with
  | alloc Y g =>
    simp only [exec] at h
    split at h
    · simp only [Prod.mk.injEq, Option.some.injEq] at h
      obtain ⟨⟨rfl, rfl⟩, rfl⟩ := h
      exact mem_insert_self
    · simp at h
  | free Y j => simp [exec] at h
  | keep Y j =>
    simp only [exec, Prod.mk.injEq, Option.some.injEq] at h
    obtain ⟨⟨rfl, rfl⟩, rfl⟩ := h
    exact hv
  | move Y j Y' g =>
    simp only [exec] at h
    split at h
    · rename_i k' hp
      simp only [Prod.mk.injEq, Option.some.injEq] at h
      obtain ⟨⟨rfl, rfl⟩, rfl⟩ := h
      by_cases hY : Y' = Y
      · subst hY
        -- the old place is in use, the new one was not
        have hne : k' ≠ j := by
          rintro rfl
          exact (least_eq_some.mp (place_eq_some.mp hp).2).2.1 hv
        rw [State.erase, Function.update_self]
        exact Finset.mem_erase.mpr ⟨hne, mem_insert_self⟩
      · rw [State.erase, Function.update_of_ne hY]
        exact mem_insert_self
    · simp at h
  | idle => simp [exec] at h

theorem subset_insert (hs : ∀ Z, s Z ⊆ Finset.range N) (hk : k < N) (Y : ζ) :
    s.insert Z k Y ⊆ Finset.range N := by
  by_cases hY : Y = Z
  · subst hY
    rw [State.insert, Function.update_self]
    exact Finset.insert_subset (Finset.mem_range.mpr hk) (hs Y)
  · rw [State.insert, Function.update_of_ne hY]
    exact hs Y

theorem subset_erase (hs : ∀ Z, s Z ⊆ Finset.range N) (Y : ζ) :
    s.erase Z k Y ⊆ Finset.range N := by
  by_cases hY : Y = Z
  · subst hY
    rw [State.erase, Function.update_self]
    exact (Finset.erase_subset k (s Y)).trans (hs Y)
  · rw [State.erase, Function.update_of_ne hY]
    exact hs Y

/-- **No command takes a place that is not there.** -/
theorem Step.subset {l : Cmd ζ × Option (ζ × Nat)} (hs : ∀ Z, s Z ⊆ Finset.range N)
    (h : Step N s l t) : ∀ Z, t Z ⊆ Finset.range N := by
  have hlt : ∀ {Z g k}, place N s Z g = some k → k < N := fun hp ↦
    (least_eq_some.mp (place_eq_some.mp hp).2).1
  obtain ⟨c, o⟩ := l
  obtain ⟨-, h⟩ := h
  cases c with
  | alloc Z g =>
    simp only [exec] at h
    split at h
    · rename_i k hp
      obtain ⟨-, rfl⟩ := Prod.mk.inj h
      exact subset_insert hs (hlt hp)
    · obtain ⟨-, rfl⟩ := Prod.mk.inj h
      exact hs
  | free Z k =>
    obtain ⟨-, rfl⟩ := Prod.mk.inj h
    exact subset_erase hs
  | keep Z k =>
    obtain ⟨-, rfl⟩ := Prod.mk.inj h
    exact hs
  | move Z k Z' g =>
    simp only [exec] at h
    split at h
    · rename_i k' hp
      obtain ⟨-, rfl⟩ := Prod.mk.inj h
      exact subset_erase (subset_insert hs (hlt hp))
    · obtain ⟨-, rfl⟩ := Prod.mk.inj h
      exact hs
  | idle =>
    obtain ⟨-, rfl⟩ := Prod.mk.inj h
    exact hs

/-- **At most `N` places of a class are in use**, at the end of every run. -/
theorem card_le {ls : List (Cmd ζ × Option (ζ × Nat))} (hrun : Run (Step N) (fun _ ↦ ∅) ls t)
    (Z : ζ) : (t Z).card ≤ N := by
  have hsub := hrun.invariant (p := fun s ↦ ∀ Z, s Z ⊆ Finset.range N)
    (fun _ _ _ hs h ↦ h.subset hs) fun _ ↦ Finset.empty_subset _
  simpa using Finset.card_le_card (hsub Z)

end Commands

end FirstFree
