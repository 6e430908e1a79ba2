import Mathlib.Logic.Basic

/-!
# Two runs side by side

Two programs over a state that may fail, started in two states that a relation `r` holds between.
`Together r x y` says that they end the same way, with the same value or with the same failure, in
two states that `r` holds between again.  There is one rule for each way a program is put together,
so that `Together r x x` — `x` sees nothing of what `r` leaves open — is proved by following the
code of `x`.
-/

set_option autoImplicit false

universe u

variable {ε σ α β : Type u}

/-- Two results with the same value or the same failure, in states that `r` holds between. -/
inductive EndsTogether (r : σ → σ → Prop) : EStateM.Result ε σ α → EStateM.Result ε σ α → Prop
  | ok {s t : σ} (a : α) (h : r s t) : EndsTogether r (.ok a s) (.ok a t)
  | error {s t : σ} (e : ε) (h : r s t) : EndsTogether r (.error e s) (.error e t)

/-- A program that comes back does so beside one that comes back with the same value. -/
theorem EndsTogether.of_ok {r : σ → σ → Prop} {x : EStateM.Result ε σ α} {a : α} {t : σ}
    (h : EndsTogether r x (.ok a t)) : ∃ s, x = .ok a s ∧ r s t := by
  cases h with
  | ok _ hst => exact ⟨_, rfl, hst⟩

theorem EndsTogether.ok_iff {r : σ → σ → Prop} {x y : EStateM.Result ε σ α} {a : α}
    (h : EndsTogether r x y) : (∃ s, x = .ok a s) ↔ ∃ t, y = .ok a t := by
  cases h with
  | ok b hst => simp
  | error e hst => simp

/-- One part after the other: the second part may make use of how the first one ended. -/
theorem EndsTogether.bind {r : σ → σ → Prop} {x y : EStateM ε σ α} {f g : α → EStateM ε σ β}
    {s t : σ} (hxy : EndsTogether r (x s) (y t))
    (hf : ∀ a s' t', x s = .ok a s' → y t = .ok a t' → r s' t' →
      EndsTogether r (f a s') (g a t')) :
    EndsTogether r ((x >>= f) s) ((y >>= g) t) := by
  show EndsTogether r (EStateM.bind x f s) (EStateM.bind y g t)
  rw [EStateM.bind, EStateM.bind]
  revert hxy hf
  generalize x s = p
  generalize y t = q
  rintro (⟨a, h⟩ | ⟨e, h⟩) hf
  · exact hf a _ _ rfl rfl h
  · exact .error e h

/-- From states that `r` holds between, `x` and `y` end the same way. -/
def Together (r : σ → σ → Prop) (x y : EStateM ε σ α) : Prop :=
  ∀ s t, r s t → EndsTogether r (x s) (y t)

namespace Together

variable {r : σ → σ → Prop} {x y : EStateM ε σ α} {f g : α → EStateM ε σ β}

theorem pure (a : α) : Together r (pure a : EStateM ε σ α) (pure a) := fun _ _ h ↦ .ok a h

theorem throw (e : ε) : Together r (throw e : EStateM ε σ α) (throw e) := fun _ _ h ↦ .error e h

theorem modify {φ ψ : σ → σ} (h : ∀ s t, r s t → r (φ s) (ψ t)) :
    Together r (modify φ : EStateM ε σ PUnit) (modify ψ) := by
  intro s t hst
  show EndsTogether r (.ok PUnit.unit (φ s)) (.ok PUnit.unit (ψ t))
  exact .ok _ (h s t hst)

theorem bind (hx : Together r x y) (hf : ∀ a, Together r (f a) (g a)) :
    Together r (x >>= f) (y >>= g) := by
  intro s t hst
  have hxy := hx s t hst
  show EndsTogether r (EStateM.bind x f s) (EStateM.bind y g t)
  rw [EStateM.bind, EStateM.bind]
  revert hxy
  generalize x s = p
  generalize y t = q
  rintro (⟨a, h⟩ | ⟨e, h⟩)
  · exact hf a _ _ h
  · exact .error e h

/-- What is read of the state may differ, as long as what is done with it does not. -/
theorem get_bind {f g : σ → EStateM ε σ β} (hf : ∀ s t, r s t → Together r (f s) (g t)) :
    Together r (get >>= f) (get >>= g) := fun s t hst ↦ hf s t hst s t hst

theorem ite {c : Prop} [Decidable c] {x' y' : EStateM ε σ α} (hx : Together r x y)
    (hx' : Together r x' y') : Together r (if c then x else x') (if c then y else y') := by
  split
  · exact hx
  · exact hx'

end Together
