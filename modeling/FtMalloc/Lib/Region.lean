import Mathlib.Data.List.Basic
import Mathlib.Data.List.Nodup

/-!
# Address regions

A region is an interval of addresses.  `Region.Apart` is disjointness of two of them, and `punch`
is what unmapping an interval does to a list of regions: each region keeps the part in front of
the hole and the part behind it.  When the hole is exactly one of the regions and the others are
apart from it, punching is removing that one region (`punch_eq_filter`).

`Owned` says that the regions of a list are those of their owners.  It is kept when a region is
mapped for a new owner (`Owned.add`) and when the region of an owner is unmapped (`Owned.drop`).
-/

set_option autoImplicit false

/-- The addresses `base, …, base + len - 1`. -/
structure Region where
  /-- The first address. -/
  base : Nat
  /-- The number of addresses. -/
  len : Nat
  deriving DecidableEq, Repr

namespace Region

/-- The first address behind the region. -/
def stop (r : Region) : Nat := r.base + r.len

/-- The two regions share no address. -/
def Apart (r s : Region) : Prop := r.base + r.len ≤ s.base ∨ s.base + s.len ≤ r.base

instance (r s : Region) : Decidable (r.Apart s) := inferInstanceAs (Decidable (_ ∨ _))

/-- Every address of `r` is one of `s`. -/
def Within (r s : Region) : Prop := s.base ≤ r.base ∧ r.base + r.len ≤ s.base + s.len

variable {r s t u : Region}

theorem Apart.symm (h : r.Apart s) : s.Apart r := Or.symm h

theorem Apart.mono (h : r.Apart s) (ht : t.Within r) (hu : u.Within s) : t.Apart u := by
  simp only [Apart, Within] at *
  omega

theorem Within.refl (r : Region) : r.Within r := ⟨Nat.le_refl _, Nat.le_refl _⟩

theorem Within.trans (h : r.Within s) (h' : s.Within t) : r.Within t :=
  ⟨Nat.le_trans h'.1 h.1, Nat.le_trans h.2 h'.2⟩

/-- A region with an address in it is not apart from itself. -/
theorem not_apart_self (h : 0 < r.len) : ¬ r.Apart r := by
  simp only [Apart]
  omega

theorem Apart.ne (h : r.Apart s) (hr : 0 < r.len) : r ≠ s := by
  rintro rfl
  exact not_apart_self hr h

/-! ## Unmapping -/

/-- What is left of `r` when the interval `hole` is taken out of it. -/
def cut (hole r : Region) : List Region :=
  [⟨r.base, min r.stop hole.base - r.base⟩,
    ⟨max r.base hole.stop, r.stop - max r.base hole.stop⟩].filter fun p ↦ 0 < p.len

/-- What is left of a list of regions when `hole` is unmapped. -/
def punch (hole : Region) (l : List Region) : List Region := l.flatMap (cut hole)

theorem cut_self (r : Region) : cut r r = [] := by
  simp [cut, stop]

/-- Nothing is taken out of a region that the hole does not meet. -/
theorem cut_of_apart (h : r.Apart s) (hr : 0 < r.len) : cut s r = [r] := by
  obtain ⟨b, n⟩ := r
  simp only [Apart] at h
  rcases h with h | h
  · have h1 : min (b + n) s.base - b = n := by omega
    have h2 : b + n - max b (s.base + s.len) = 0 := by omega
    simp_all [cut, stop]
  · have h1 : min (b + n) s.base - b = 0 := by omega
    have h2 : max b (s.base + s.len) = b := by omega
    simp_all [cut, stop]

/-- **Unmapping one region of a list of regions that are apart from it removes that region.** -/
theorem punch_eq_filter {l : List Region} (hpos : ∀ r ∈ l, 0 < r.len)
    (h : ∀ r ∈ l, r = s ∨ r.Apart s) : punch s l = l.filter (· ≠ s) := by
  induction l with
  | nil => rfl
  | cons r l ih =>
    have ih' := ih (fun r hr ↦ hpos r (List.mem_cons_of_mem _ hr))
      (fun r hr ↦ h r (List.mem_cons_of_mem _ hr))
    have hr := hpos r List.mem_cons_self
    simp only [punch, List.flatMap_cons] at ih' ⊢
    rcases h r List.mem_cons_self with rfl | hap
    · simp [cut_self, ih']
    · have hne : r ≠ s := hap.ne hr
      rw [cut_of_apart hap hr, ih']
      simp [hne]

/-! ## Owners -/

/-- The regions of `l` are those that `own` gives to owners, and all of them meet `P`. -/
structure Owned {ι : Type} (P : Region → Prop) (own : ι → Option Region) (l : List Region) :
    Prop where
  /-- A region that has an owner meets `P`. -/
  kind : ∀ o r, own o = some r → P r
  /-- The regions of different owners share no address. -/
  apart : ∀ o o' r r', o ≠ o' → own o = some r → own o' = some r' → r.Apart r'
  /-- The list has the regions that have an owner. -/
  mem : ∀ r, r ∈ l ↔ ∃ o, own o = some r
  /-- No region is on the list twice. -/
  nodup : l.Nodup

namespace Owned

variable {ι : Type} {P : Region → Prop} {own : ι → Option Region} {l : List Region} {o : ι}

theorem kind_of_mem (h : Owned P own l) (hr : r ∈ l) : P r := by
  obtain ⟨o, ho⟩ := (h.mem r).mp hr
  exact h.kind o r ho

/-- Different regions of the list share no address. -/
theorem apart_of_mem (h : Owned P own l) (hr : r ∈ l) (hs : s ∈ l) (hne : r ≠ s) : r.Apart s := by
  obtain ⟨o, ho⟩ := (h.mem r).mp hr
  obtain ⟨o', ho'⟩ := (h.mem s).mp hs
  refine h.apart o o' r s (fun e ↦ hne ?_) ho ho'
  rw [e, ho'] at ho
  exact (Option.some_inj.mp ho).symm

/-- Unmapping a region that has an owner takes that region off the list. -/
theorem punch_eq_filter (h : Owned P own l) (hpos : ∀ q, P q → 0 < q.len) (ho : own o = some r) :
    punch r l = l.filter (· ≠ r) := by
  refine Region.punch_eq_filter (fun q hq ↦ hpos q (h.kind_of_mem hq)) fun q hq ↦ ?_
  by_cases hqr : q = r
  · exact .inl hqr
  · exact .inr (h.apart_of_mem hq ((h.mem r).mpr ⟨o, ho⟩) hqr)

variable [DecidableEq ι]

/-- **A region for a new owner**, apart from all the others. -/
theorem add (h : Owned P own l) (ho : own o = none) (hr : P r) (hpos : 0 < r.len)
    (hap : ∀ q ∈ l, q.Apart r) : Owned P (Function.update own o (some r)) (r :: l) := by
  have hown : ∀ o' q, Function.update own o (some r) o' = some q ↔
      (o' = o ∧ q = r) ∨ own o' = some q := by
    intro o' q
    by_cases hoo : o' = o
    · subst hoo
      rw [Function.update_self, ho]
      simp [eq_comm]
    · rw [Function.update_of_ne hoo]
      simp [hoo]
  have hnew : ∀ o' q, own o' = some q → q.Apart r := fun o' q hq ↦ hap q ((h.mem q).mpr ⟨o', hq⟩)
  refine ⟨fun o' q hq ↦ ?_, fun o₁ o₂ q₁ q₂ hne h₁ h₂ ↦ ?_, fun q ↦ ?_, ?_⟩
  · rcases (hown o' q).mp hq with ⟨-, rfl⟩ | hq
    · exact hr
    · exact h.kind o' q hq
  · rcases (hown o₁ q₁).mp h₁ with ⟨rfl, rfl⟩ | hold₁ <;>
      rcases (hown o₂ q₂).mp h₂ with ⟨rfl, rfl⟩ | hold₂
    · exact absurd rfl hne
    · exact (hnew o₂ q₂ hold₂).symm
    · exact hnew o₁ q₁ hold₁
    · exact h.apart o₁ o₂ q₁ q₂ hne hold₁ hold₂
  · simp only [hown, List.mem_cons, h.mem]
    constructor
    · rintro (rfl | ⟨o', hq⟩)
      · exact ⟨o, .inl ⟨rfl, rfl⟩⟩
      · exact ⟨o', .inr hq⟩
    · rintro ⟨o', ⟨-, rfl⟩ | hq⟩
      · exact .inl rfl
      · exact .inr ⟨o', hq⟩
  · exact List.nodup_cons.mpr ⟨fun hmem ↦ not_apart_self hpos (hap r hmem), h.nodup⟩

/-- **The region of an owner is unmapped.** -/
theorem drop (h : Owned P own l) (hpos : ∀ q, P q → 0 < q.len) (ho : own o = some r) :
    Owned P (Function.update own o none) (punch r l) := by
  have hown : ∀ o' q, Function.update own o none o' = some q ↔ o' ≠ o ∧ own o' = some q := by
    intro o' q
    by_cases hoo : o' = o
    · subst hoo
      simp
    · simp [hoo]
  rw [h.punch_eq_filter hpos ho]
  refine ⟨fun o' q hq ↦ h.kind o' q ((hown o' q).mp hq).2, fun o₁ o₂ q₁ q₂ hne h₁ h₂ ↦ ?_,
    fun q ↦ ?_, h.nodup.filter _⟩
  · exact h.apart o₁ o₂ q₁ q₂ hne ((hown o₁ q₁).mp h₁).2 ((hown o₂ q₂).mp h₂).2
  · simp only [hown, List.mem_filter, h.mem, decide_eq_true_eq]
    constructor
    · rintro ⟨⟨o', hq⟩, hne⟩
      refine ⟨o', ?_, hq⟩
      rintro rfl
      exact hne (Option.some_inj.mp (hq.symm.trans ho))
    · rintro ⟨o', hoo, hq⟩
      exact ⟨⟨o', hq⟩, (h.apart o' o q r hoo hq ho).ne (hpos q (h.kind o' q hq))⟩

end Owned

end Region
