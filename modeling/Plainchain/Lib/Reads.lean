import Mathlib

/-!
# Reads of a shared state

A program that reads a state which others write: one read after the other, and
what is read next may depend on what was read before. Before each of its reads
the others may take any number of steps (`Reads.Runs`).

* `Reads.runs_bind`: a program and what follows it run one after the other;
* `Reads.Runs.steps`: the state is left where the others have brought it;
* `Reads.runs_eval`: when they do nothing, all is read from one state.
-/

namespace Shared

/-- A program that reads a state, and writes nothing. -/
inductive Reads (σ α : Type) : Type 1
  | done (a : α)
  | read {β : Type} (f : σ → β) (next : β → Reads σ α)

namespace Reads

variable {σ α β : Type}

/-- One read. -/
def of (f : σ → α) : Reads σ α := .read f .done

def bind : Reads σ α → (α → Reads σ β) → Reads σ β
  | .done a, k => k a
  | .read f next, k => .read f fun b => (next b).bind k

instance : Monad (Reads σ) where
  pure := .done
  bind := .bind

/-- The result when all is read from one state. -/
def eval (s : σ) : Reads σ α → α
  | .done a => a
  | .read f next => (next (f s)).eval s

/-- A run from `s` with a result, which leaves the state at `s'`: before each read
    it has gone on by `step`. -/
def Runs (step : σ → σ → Prop) : Reads σ α → σ → α → σ → Prop
  | .done a, s, result, s' => result = a ∧ s' = s
  | .read f next, s, result, s' => ∃ t, step s t ∧ (next (f t)).Runs step t result s'

variable {step : σ → σ → Prop} {s s' : σ}

@[simp] theorem runs_pure {a result : α} :
    (pure a : Reads σ α).Runs step s result s' ↔ result = a ∧ s' = s := Iff.rfl

theorem runs_of {f : σ → α} {result : α} :
    (of f).Runs step s result s' ↔ step s s' ∧ result = f s' := by
  constructor
  · rintro ⟨t, hstep, rfl, rfl⟩
    exact ⟨hstep, rfl⟩
  · rintro ⟨hstep, rfl⟩
    exact ⟨s', hstep, rfl, rfl⟩

theorem runs_bind {p : Reads σ α} {k : α → Reads σ β} {result : β} :
    (p >>= k).Runs step s result s' ↔
      ∃ a t, p.Runs step s a t ∧ (k a).Runs step t result s' := by
  change (p.bind k).Runs step s result s' ↔ _
  induction p generalizing s with
  | done a =>
    constructor
    · exact fun h => ⟨a, s, ⟨rfl, rfl⟩, h⟩
    · rintro ⟨_, _, ⟨rfl, rfl⟩, h⟩
      exact h
  | read f next ih =>
    simp only [bind, Runs, ih]
    constructor
    · rintro ⟨t, hstep, a, u, hrun, hk⟩
      exact ⟨a, u, ⟨t, hstep, hrun⟩, hk⟩
    · rintro ⟨a, u, ⟨t, hstep, hrun⟩, hk⟩
      exact ⟨t, hstep, a, u, hrun, hk⟩

/-- The others bring the state from where a run begins to where it ends. -/
theorem Runs.steps (hrefl : ∀ s, step s s) (htrans : ∀ s t u, step s t → step t u → step s u)
    {p : Reads σ α} {result : α} (h : p.Runs step s result s') : step s s' := by
  induction p generalizing s with
  | done a =>
    rw [h.2]
    exact hrefl s
  | read f next ih =>
    obtain ⟨t, hstep, h⟩ := h
    exact htrans _ _ _ hstep (ih _ h)

/-- A run in which the others do nothing. -/
theorem runs_eval (hrefl : ∀ s, step s s) (p : Reads σ α) : p.Runs step s (p.eval s) s := by
  induction p with
  | done a => exact ⟨rfl, rfl⟩
  | read f next ih => exact ⟨s, hrefl s, ih _⟩

@[simp] theorem eval_pure (s : σ) (a : α) : (pure a : Reads σ α).eval s = a := rfl

@[simp] theorem eval_of (s : σ) (f : σ → α) : (of f).eval s = f s := rfl

@[simp] theorem eval_bind (s : σ) (p : Reads σ α) (k : α → Reads σ β) :
    (p >>= k).eval s = (k (p.eval s)).eval s := by
  change (p.bind k).eval s = _
  induction p with
  | done a => rfl
  | read f next ih => exact ih _

end Reads

end Shared
