import Mathlib.Logic.Basic

/-!
# Runs of a labelled transition relation

A step relation `step : σ → α → σ → Prop` takes a state to a state under a label.  `Run step s as t`
is a run from `s` to `t` whose labels are `as`, and `Reach step init` are the states some run leads
to.  Three rules are all the development needs of them:

* `Run.invariant` — what one step preserves, a run preserves;
* `Run.simulate` — if every step of one relation is matched by a step of another with the same
  label, runs are matched by runs with the same labels;
* `Run.simulate_trace` — if every step of one relation is matched by a run of another, and the
  labels of that run depend on the step, runs are matched by runs whose labels are put together from
  them.
-/

set_option autoImplicit false

universe u v u'

variable {σ : Type u} {α : Type v} {τ : Type u'}

/-- A run from one state to another, with the labels of its steps. -/
inductive Run (step : σ → α → σ → Prop) : σ → List α → σ → Prop
  | nil (s : σ) : Run step s [] s
  | snoc {s t u : σ} {as : List α} {a : α} (h : Run step s as t) (h' : step t a u) :
      Run step s (as ++ [a]) u

/-- The states a run from an initial state leads to. -/
def Reach (step : σ → α → σ → Prop) (init : σ → Prop) (t : σ) : Prop :=
  ∃ s as, init s ∧ Run step s as t

variable {step step' : σ → α → σ → Prop} {init : σ → Prop} {s t u : σ} {as bs : List α} {a : α}

theorem Run.single (h : step s a t) : Run step s [a] t := Run.snoc (.nil s) h

theorem Run.append (h : Run step s as t) (h' : Run step t bs u) : Run step s (as ++ bs) u := by
  induction h' with
  | nil => simpa using h
  | snoc _ hstep ih => rw [← List.append_assoc]; exact .snoc ih hstep

theorem Run.cons (h : step s a t) (h' : Run step t bs u) : Run step s (a :: bs) u :=
  (Run.single h).append h'

/-- A run has no steps, or a first one. -/
theorem Run.first (h : Run step s as t) : (as = [] ∧ s = t) ∨
    ∃ a bs u, as = a :: bs ∧ step s a u ∧ Run step u bs t := by
  induction h with
  | nil => exact .inl ⟨rfl, rfl⟩
  | snoc hrun hlast ih =>
    rcases ih with ⟨rfl, rfl⟩ | ⟨a, bs, u, rfl, hfirst, hrest⟩
    · exact .inr ⟨_, [], _, rfl, hlast, .nil _⟩
    · exact .inr ⟨a, bs ++ [_], u, rfl, hfirst, hrest.snoc hlast⟩

theorem Run.nil_iff : Run step s [] t ↔ s = t := by
  constructor
  · intro h
    rcases h.first with ⟨-, heq⟩ | ⟨a, bs, -, hcons, -⟩
    · exact heq
    · exact absurd hcons (by simp)
  · rintro rfl
    exact .nil s

theorem Run.cons_iff : Run step s (a :: as) t ↔ ∃ u, step s a u ∧ Run step u as t := by
  constructor
  · intro h
    rcases h.first with ⟨hnil, -⟩ | ⟨b, bs, u, hcons, hfirst, hrest⟩
    · exact absurd hnil (by simp)
    · obtain ⟨rfl, rfl⟩ := List.cons.inj hcons
      exact ⟨u, hfirst, hrest⟩
  · rintro ⟨u, hfirst, hrest⟩
    exact .cons hfirst hrest

/-- A run of a smaller relation is a run of a larger one. -/
theorem Run.mono (hle : ∀ s a t, step s a t → step' s a t) (h : Run step s as t) :
    Run step' s as t := by
  induction h with
  | nil => exact .nil _
  | snoc _ hstep ih => exact .snoc ih (hle _ _ _ hstep)

/-- **What one step preserves, a run preserves.** -/
theorem Run.invariant {p : σ → Prop} (hstep : ∀ s a t, p s → step s a t → p t)
    (h : Run step s as t) (hs : p s) : p t := by
  induction h with
  | nil => exact hs
  | snoc _ hlast ih => exact hstep _ _ _ ih hlast

/-- Some step of the run, from `u` under the label `a`, meets `q u a`. -/
def Run.Met (step : σ → α → σ → Prop) (q : σ → α → Prop) (s : σ) (as : List α) (t : σ) : Prop :=
  ∃ as₁ a as₂ u v, as = as₁ ++ a :: as₂ ∧ Run step s as₁ u ∧ step u a v ∧ Run step v as₂ t ∧ q u a

/-- **A flag that no step takes down** is up at the end of a run exactly if some step of the run put
it up.  The steps may rely on an invariant. -/
theorem Run.flag_iff {inv p : σ → Prop} {q : σ → α → Prop}
    (hinv : ∀ s a t, inv s → step s a t → inv t)
    (hstep : ∀ s a t, inv s → step s a t → (p t ↔ p s ∨ q s a))
    (h : Run step s as t) (hs : inv s) (h0 : ¬ p s) : p t ↔ Run.Met step q s as t := by
  constructor
  · intro ht
    induction h with
    | nil => exact absurd ht h0
    | snoc hrun hlast ih =>
      rcases (hstep _ _ _ (hrun.invariant hinv hs) hlast).mp ht with hp | hq
      · obtain ⟨as₁, a, as₂, u, v, rfl, h₁, h', h₂, hq⟩ := ih hp
        exact ⟨as₁, a, as₂ ++ [_], u, v, by simp, h₁, h', h₂.snoc hlast, hq⟩
      · exact ⟨_, _, [], _, _, rfl, hrun, hlast, .nil _, hq⟩
  · rintro ⟨as₁, a, as₂, u, v, rfl, h₁, h', h₂, hq⟩
    have hu := h₁.invariant hinv hs
    have hv : inv v ∧ p v := ⟨hinv _ _ _ hu h', (hstep _ _ _ hu h').mpr (.inr hq)⟩
    have hkeep : ∀ s a t, inv s ∧ p s → step s a t → inv t ∧ p t :=
      fun s a t hs h ↦ ⟨hinv s a t hs.1 h, (hstep s a t hs.1 h).mpr (.inl hs.2)⟩
    exact (h₂.invariant hkeep hv).2

/-- **A simulation carries runs to runs** with the same labels.  `r` relates states. -/
theorem Run.simulate {stepT : τ → α → τ → Prop} {r : σ → τ → Prop}
    (hstep : ∀ s a s' t, r s t → step s a s' → ∃ t', stepT t a t' ∧ r s' t')
    {s' : σ} {t : τ} (h : Run step s as s') (hr : r s t) : ∃ t', Run stepT t as t' ∧ r s' t' := by
  induction h with
  | nil => exact ⟨t, .nil t, hr⟩
  | snoc _ hlast ih =>
    obtain ⟨t', hrun, hr'⟩ := ih
    obtain ⟨t'', hlast', hr''⟩ := hstep _ _ _ _ hr' hlast
    exact ⟨t'', hrun.snoc hlast', hr''⟩

/-- **A move that can be exchanged with each step of a run can be exchanged with the run.**  Steps
under labels in `ok` keep `inv`, and the move may be exchanged with them where `inv` holds. -/
theorem Run.exchange_iff {move : σ → σ → Prop} {ok : α → Prop} {inv : σ → Prop}
    (hinv : ∀ s a t, ok a → inv s → step s a t → inv t)
    (hswap : ∀ s a u, ok a → inv s →
      ((∃ t, step s a t ∧ move t u) ↔ ∃ t, move s t ∧ step t a u)) :
    ∀ as, (∀ a ∈ as, ok a) → ∀ s u, inv s →
      ((∃ t, Run step s as t ∧ move t u) ↔ ∃ t, move s t ∧ Run step t as u)
  | [], _, s, u, _ => by simp [Run.nil_iff]
  | a :: as, hok, s, u, hs => by
    have ih := Run.exchange_iff hinv hswap as fun b hb ↦ hok b (List.mem_cons_of_mem a hb)
    have ha := hok a List.mem_cons_self
    simp only [Run.cons_iff]
    constructor
    · rintro ⟨t, ⟨s₁, hstep, hrun⟩, hmove⟩
      obtain ⟨t₁, hmove₁, hrun₁⟩ := (ih s₁ u (hinv s a s₁ ha hs hstep)).mp ⟨t, hrun, hmove⟩
      obtain ⟨s₂, hmove₂, hstep₂⟩ := (hswap s a t₁ ha hs).mp ⟨s₁, hstep, hmove₁⟩
      exact ⟨s₂, hmove₂, t₁, hstep₂, hrun₁⟩
    · rintro ⟨t, hmove, t₁, hstep, hrun⟩
      obtain ⟨s₁, hstep₁, hmove₁⟩ := (hswap s a t₁ ha hs).mpr ⟨t, hmove, hstep⟩
      obtain ⟨t₂, hrun₂, hmove₂⟩ := (ih s₁ u (hinv s a s₁ ha hs hstep₁)).mpr ⟨t₁, hmove₁, hrun⟩
      exact ⟨t₂, ⟨s₁, hstep₁, hrun₂⟩, hmove₂⟩

/-- The labels that the labels `as` stand for, from the state `s` on: `next` is the state after a
step, and `labels` are those a step stands for. -/
def traceFrom {β : Type v} (next : σ → α → σ) (labels : σ → α → List β) : σ → List α → List β
  | _, [] => []
  | s, a :: as => labels s a ++ traceFrom next labels (next s a) as

theorem traceFrom_append {β : Type v} (next : σ → α → σ) (labels : σ → α → List β) (as bs : List α)
    (s : σ) : traceFrom next labels s (as ++ bs)
      = traceFrom next labels s as ++ traceFrom next labels (as.foldl next s) bs := by
  induction as generalizing s with
  | nil => rfl
  | cons a as ih => simp only [List.cons_append, traceFrom, List.foldl_cons, ih, List.append_assoc]

/-- A run of a relation whose steps are told by `next` ends where `next` says. -/
theorem Run.foldl_next {next : σ → α → σ} (hnext : ∀ s a t, step s a t → next s a = t)
    (h : Run step s as t) : as.foldl next s = t := by
  induction h with
  | nil => rfl
  | snoc _ hlast ih =>
    rw [List.foldl_append, ih, List.foldl_cons, List.foldl_nil, hnext _ _ _ hlast]

/-- **A simulation of steps by runs carries runs to runs.**  `r` relates states. -/
theorem Run.simulate_trace {β : Type v} {stepT : τ → β → τ → Prop} {r : σ → τ → Prop}
    {next : σ → α → σ} {labels : σ → α → List β} (hnext : ∀ s a t, step s a t → next s a = t)
    (hstep : ∀ s a s' t, r s t → step s a s' → ∃ t', Run stepT t (labels s a) t' ∧ r s' t')
    {s' : σ} {t : τ} (h : Run step s as s') (hr : r s t) :
    ∃ t', Run stepT t (traceFrom next labels s as) t' ∧ r s' t' := by
  induction h with
  | nil => exact ⟨t, .nil t, hr⟩
  | snoc hrun hlast ih =>
    obtain ⟨t₁, hrun₁, hr₁⟩ := ih
    obtain ⟨t₂, hrun₂, hr₂⟩ := hstep _ _ _ _ hr₁ hlast
    refine ⟨t₂, ?_, hr₂⟩
    rw [traceFrom_append, hrun.foldl_next hnext, traceFrom, traceFrom, List.append_nil]
    exact hrun₁.append hrun₂

namespace Reach

theorem start (h : init s) : Reach step init s := ⟨s, [], h, .nil s⟩

theorem next (h : Reach step init s) (h' : step s a t) : Reach step init t := by
  obtain ⟨s₀, as, hinit, hrun⟩ := h
  exact ⟨s₀, as ++ [a], hinit, .snoc hrun h'⟩

/-- **The invariant rule**: what holds initially and is preserved by a step holds of every
reachable state. -/
theorem invariant {p : σ → Prop} (hinit : ∀ s, init s → p s)
    (hstep : ∀ s a t, p s → step s a t → p t) (h : Reach step init t) : p t := by
  obtain ⟨s₀, as, hs, hrun⟩ := h
  exact hrun.invariant hstep (hinit s₀ hs)

end Reach
