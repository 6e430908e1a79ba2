import Mathlib.Logic.Basic

/-!
# The same unless a mark is left

Two programs over a state that may fail, and a mark `p` on the state that is never taken off.
`Unless p x y` says that `x` and `y` do the same unless `x` leaves the mark: whenever `x` comes back
in a state without it, `y` comes back from the same state with the same value in the same state.

What `x` and `y` differ in is then something the program only gets to see when it leaves the mark.
There is one rule for each way a program is put together.
-/

set_option autoImplicit false

universe u

variable {ε σ α β : Type u}

/-- The mark stays where it is, and without it `y` does what `x` does. -/
def Unless (p : σ → Prop) (x y : EStateM ε σ α) : Prop :=
  ∀ s a t, x s = .ok a t → (p s → p t) ∧ (¬ p t → y s = .ok a t)

namespace Unless

variable {p : σ → Prop} {x y : EStateM ε σ α} {f g : α → EStateM ε σ β}

theorem pure (a : α) : Unless p (pure a : EStateM ε σ α) (pure a) := by
  rintro s _ _ ⟨⟩
  exact ⟨id, fun _ ↦ rfl⟩

theorem throw (e : ε) : Unless p (throw e : EStateM ε σ α) (throw e) := by
  rintro s _ _ ⟨⟩

theorem modify {φ : σ → σ} (h : ∀ s, p s → p (φ s)) :
    Unless p (modify φ : EStateM ε σ PUnit) (modify φ) := by
  intro s a t hrun
  have hmodify : (EStateM.Result.ok PUnit.unit (φ s) : EStateM.Result ε σ PUnit) = .ok a t := hrun
  cases hmodify
  exact ⟨h s, fun _ ↦ rfl⟩

theorem bind (hx : Unless p x y) (hf : ∀ a, Unless p (f a) (g a)) :
    Unless p (x >>= f) (y >>= g) := by
  intro s b u hrun
  have hbind : EStateM.bind x f s = .ok b u := hrun
  show _ ∧ (_ → EStateM.bind y g s = _)
  rw [EStateM.bind] at hbind ⊢
  cases hxs : x s with
  | error e t => rw [hxs] at hbind; exact absurd hbind (by simp)
  | ok a t =>
    rw [hxs] at hbind
    obtain ⟨hkeep, hsame⟩ := hx s a t hxs
    obtain ⟨hkeep', hsame'⟩ := hf a t b u hbind
    refine ⟨fun hs ↦ hkeep' (hkeep hs), fun hu ↦ ?_⟩
    rw [hsame fun ht ↦ hu (hkeep' ht)]
    exact hsame' hu

theorem get_bind {f g : σ → EStateM ε σ β} (hf : ∀ s, Unless p (f s) (g s)) :
    Unless p (get >>= f) (get >>= g) := fun s b t hrun ↦ hf s s b t hrun

end Unless
