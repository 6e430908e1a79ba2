import Mathlib.Data.List.Basic

/-!
# Texts that say where they end

A text `f a` *delimits* `k a` if both `k a` and whatever is written behind the text can be told from
the two together (`Delimits`).  Such texts can be written one behind the other without a loss: this
file has one rule for each way to do so.

* `Delimits.word` — a word that is closed by a character it does not contain.
* `Delimits.lit`, `Delimits.append` — fixed characters, and two texts in a row.
* `Delimits.lines` — any number of lines, when what comes behind cannot be taken for a line.
-/

set_option autoImplicit false

universe u v w x

variable {α : Type u} {β : Type v} {κ : Type w} {μ : Type x} {f g : α → List β} {k : α → κ}
  {l : α → μ}

/-- From `f a` and what stands behind it, `k a` can be told and what stands behind it. -/
def Delimits (f : α → List β) (k : α → κ) : Prop :=
  ∀ a b x y, f a ++ x = f b ++ y → k a = k b ∧ x = y

/-- A word is known by the character that closes it. -/
theorem word_inj {c : β} {s t x y : List β} (hs : c ∉ s) (ht : c ∉ t)
    (h : s ++ c :: x = t ++ c :: y) : s = t ∧ x = y := by
  rcases List.append_eq_append_iff.mp h with ⟨as, hcut, he⟩ | ⟨as, hcut, he⟩ <;> cases as with
  | nil => simp_all
  | cons d as =>
    obtain ⟨rfl, -⟩ := List.cons.inj he
    simp_all

namespace Delimits

/-- Fixed characters in front. -/
theorem lit (s : List β) (hf : Delimits f k) : Delimits (fun a ↦ s ++ f a) k := by
  intro a b x y h
  rw [List.append_assoc, List.append_assoc] at h
  exact hf a b x y (List.append_cancel_left h)

/-- Two texts in a row. -/
theorem append (hf : Delimits f k) (hg : Delimits g l) :
    Delimits (fun a ↦ f a ++ g a) fun a ↦ (k a, l a) := by
  intro a b x y h
  rw [List.append_assoc, List.append_assoc] at h
  obtain ⟨hk, h⟩ := hf a b _ _ h
  obtain ⟨hl, hxy⟩ := hg a b x y h
  exact ⟨Prod.ext hk hl, hxy⟩

/-- A word that is closed by a character it does not contain, and fixed characters behind. -/
theorem word {c : β} (s : List β) (hinj : ∀ a b, f a = f b → k a = k b) (hc : ∀ a, c ∉ f a) :
    Delimits (fun a ↦ f a ++ c :: s) k := by
  intro a b x y h
  rw [List.append_assoc, List.append_assoc, List.cons_append, List.cons_append] at h
  obtain ⟨hab, hrest⟩ := word_inj (hc a) (hc b) h
  exact ⟨hinj a b hab, List.append_cancel_left hrest⟩

/-- What can be told from the text can be told of anything it determines. -/
theorem map (hf : Delimits f k) {m : κ → μ} : Delimits f fun a ↦ m (k a) := fun a b x y h ↦
  ⟨congrArg m (hf a b x y h).1, (hf a b x y h).2⟩

/-- **Any number of lines.**  Each begins with a character that is in `first`, and what comes behind
the last one does not. -/
theorem lines {first : β → Prop} (hf : Delimits f k) (hfirst : ∀ a, ∃ c s, f a = c :: s ∧ first c) :
    ∀ (as bs : List α) (c d : β) (x y : List β), ¬ first c → ¬ first d →
      as.flatMap f ++ c :: x = bs.flatMap f ++ d :: y →
      as.map k = bs.map k ∧ c :: x = d :: y := by
  intro as
  induction as with
  | nil =>
    intro bs c d x y hc _ h
    cases bs with
    | nil => exact ⟨rfl, h⟩
    | cons b bs =>
      obtain ⟨e, s, he, hfe⟩ := hfirst b
      simp only [List.flatMap_nil, List.nil_append, List.flatMap_cons, he, List.cons_append,
        List.cons.injEq] at h
      exact absurd (h.1 ▸ hfe) hc
  | cons a as ih =>
    intro bs c d x y hc hd h
    cases bs with
    | nil =>
      obtain ⟨e, s, he, hfe⟩ := hfirst a
      simp only [List.flatMap_nil, List.nil_append, List.flatMap_cons, he, List.cons_append,
        List.cons.injEq] at h
      exact absurd (h.1 ▸ hfe) hd
    | cons b bs =>
      rw [List.flatMap_cons, List.flatMap_cons, List.append_assoc, List.append_assoc] at h
      obtain ⟨hk, h⟩ := hf a b _ _ h
      obtain ⟨hks, hxy⟩ := ih bs c d x y hc hd h
      exact ⟨by rw [List.map_cons, List.map_cons, hk, hks], hxy⟩

end Delimits
