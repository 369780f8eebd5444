import Mathlib.Data.List.Basic
import Mathlib.Tactic.Common

/-!
# Taking turns

Asynchronous code over a shared state runs without interruption up to its next `await`, and
goes on some time later from the state that it finds then (`Task`). Tasks that are called
one after the other wait for each other in a chain of promises: a task begins when the
promise of the one before it is released, which happens after that one has settled, well or
badly (`Step`). Between any two steps of a task everything else may take steps.

* `Steps.agrees`: calls and steps agree with a serial run, in the order of the calls;
* `Agrees.split`: what that says about the shared state and about the results;
* `exists_step_or_released`: nothing blocks, whatever a task before threw.
-/

namespace Turns

open List

variable {σ ρ : Type}

/-- A piece of asynchronous code. -/
inductive Task (σ ρ : Type)
  /-- It returns or throws. -/
  | settle (result : ρ)
  /-- It does something to the state, and then awaits. -/
  | await (next : σ → σ) (rest : σ → Task σ ρ)

/-- A task that nothing interrupts. -/
def Task.run : Task σ ρ → σ → ρ × σ
  | .settle result, s => (result, s)
  | .await next rest, s => (rest s).run (next s)

/-- How far a call has come. -/
inductive Progress (σ ρ : Type)
  | waiting
  | running (rest : Task σ ρ)
  /-- It has settled. The next one is released a little later. -/
  | settled (result : ρ) (released : Bool)

/-- A call of a task. -/
structure Call (σ ρ : Type) where
  task : Task σ ρ
  progress : Progress σ ρ

/-- The shared state, and the calls in their order. -/
structure Queue (σ ρ : Type) where
  shared : σ
  calls : List (Call σ ρ)

/-- The task after these calls may begin: there are none, or the last one is released. -/
def Released (calls : List (Call σ ρ)) : Prop :=
  ∀ c ∈ calls.getLast?, ∃ result, c.progress = .settled result true

/-- What can happen next, a new call apart. -/
inductive Step : Queue σ ρ → Queue σ ρ → Prop
  | start {s : σ} {before after : List (Call σ ρ)} {task : Task σ ρ} : Released before →
      Step ⟨s, before ++ ⟨task, .waiting⟩ :: after⟩ ⟨s, before ++ ⟨task, .running task⟩ :: after⟩
  | advance {s : σ} {before after : List (Call σ ρ)} {task : Task σ ρ} {next : σ → σ}
      {rest : σ → Task σ ρ} :
      Step ⟨s, before ++ ⟨task, .running (.await next rest)⟩ :: after⟩
        ⟨next s, before ++ ⟨task, .running (rest s)⟩ :: after⟩
  | settle {s : σ} {before after : List (Call σ ρ)} {task : Task σ ρ} {result : ρ} :
      Step ⟨s, before ++ ⟨task, .running (.settle result)⟩ :: after⟩
        ⟨s, before ++ ⟨task, .settled result false⟩ :: after⟩
  | release {s : σ} {before after : List (Call σ ρ)} {task : Task σ ρ} {result : ρ} :
      Step ⟨s, before ++ ⟨task, .settled result false⟩ :: after⟩
        ⟨s, before ++ ⟨task, .settled result true⟩ :: after⟩

/-- The queue with one more call. -/
def Queue.call (q : Queue σ ρ) (task : Task σ ρ) : Queue σ ρ :=
  { q with calls := q.calls ++ [⟨task, .waiting⟩] }

/-- Steps and calls, in any order. -/
inductive Steps (s₀ : σ) : Queue σ ρ → Prop
  | start : Steps s₀ ⟨s₀, []⟩
  | call {q : Queue σ ρ} (task : Task σ ρ) : Steps s₀ q → Steps s₀ (q.call task)
  | step {q q' : Queue σ ρ} : Steps s₀ q → Step q q' → Steps s₀ q'

/-! ## The serial run -/

def Waiting (calls : List (Call σ ρ)) : Prop := ∀ c ∈ calls, c.progress = .waiting

/-- The calls and the shared state are those of a serial run from `s`: tasks that have
    settled, one that may be running, and tasks that wait. -/
def Agrees : σ → List (Call σ ρ) → σ → Prop
  | s, [], shared => shared = s
  | s, c :: calls, shared =>
    match c.progress with
    | .waiting => shared = s ∧ Waiting calls
    | .running rest => rest.run shared = c.task.run s ∧ Waiting calls
    | .settled result released => result = (c.task.run s).1 ∧ (released = false → Waiting calls) ∧
      Agrees (c.task.run s).2 calls shared

section Rules

variable {s shared shared' : σ} {c c' : Call σ ρ} {before calls : List (Call σ ρ)}

/-- Before the first call begins. -/
theorem Agrees.of_waiting (h : Waiting calls) : Agrees s calls s := by
  cases calls with
  | nil => exact rfl
  | cons c calls =>
    obtain ⟨task, progress⟩ := c
    obtain ⟨hc, hcalls⟩ := forall_mem_cons.1 h
    cases hc
    exact ⟨rfl, hcalls⟩

/-- Either the calls behind the first one wait, or that one is released. -/
theorem Agrees.cons_cases (h : Agrees s (c :: calls) shared) :
    Waiting calls ∧ (∀ result, c.progress ≠ .settled result true) ∨
    (∃ result, c.progress = .settled result true ∧ result = (c.task.run s).1) ∧
      Agrees (c.task.run s).2 calls shared := by
  obtain ⟨task, progress⟩ := c
  rcases progress with _ | rest | ⟨result, released⟩
  · exact .inl ⟨h.2, nofun⟩
  · exact .inl ⟨h.2, nofun⟩
  · obtain ⟨hresult, hwaiting, hrest⟩ := h
    cases released
    · exact .inl ⟨hwaiting rfl, nofun⟩
    · exact .inr ⟨⟨result, rfl, hresult⟩, hrest⟩

/-- In front of a call that is on its way, or that may begin, all calls are released. -/
theorem Agrees.front {b : Call σ ρ} (h : Agrees s (b :: before ++ c :: calls) shared)
    (hc : c.progress = .waiting → Released (b :: before)) :
    (∃ result, b.progress = .settled result true ∧ result = (b.task.run s).1) ∧
      Agrees (b.task.run s).2 (before ++ c :: calls) shared := by
  refine h.cons_cases.resolve_left fun ⟨hwaiting, hb⟩ => ?_
  -- The call waits, so that the last one before it is released: but that is the first one,
  -- which is not, or waits itself.
  have hreleased := hc (hwaiting c (by simp))
  rcases before.eq_nil_or_concat with rfl | ⟨front, last, rfl⟩
  · obtain ⟨result, hfirst⟩ := hreleased b rfl
    exact hb result hfirst
  · obtain ⟨result, hlast⟩ := hreleased last (by
      rw [concat_eq_append, ← cons_append, getLast?_concat]
      rfl)
    rw [hwaiting last (by simp)] at hlast
    cases hlast

/-- A change to one call that agrees where it is. -/
theorem Agrees.change (h : Agrees s (before ++ c :: calls) shared)
    (hc : c.progress = .waiting → Released before)
    (hhere : ∀ s, Agrees s (c :: calls) shared → Agrees s (c' :: calls) shared') :
    Agrees s (before ++ c' :: calls) shared' := by
  induction before generalizing s with
  | nil => exact hhere s h
  | cons b before ih =>
    obtain ⟨⟨result, hb, hresult⟩, hrest⟩ := h.front hc
    obtain ⟨task, progress⟩ := b
    cases hb
    refine ⟨hresult, nofun, ih hrest fun hw => ?_⟩
    have hreleased := hc hw
    intro last hlast
    refine hreleased last ?_
    cases before with
    | nil => cases hlast
    | cons a before => rwa [getLast?_cons_cons]

/-- A call at the end waits. -/
theorem Agrees.call (task : Task σ ρ) (h : Agrees s calls shared) :
    Agrees s (calls ++ [⟨task, .waiting⟩]) shared := by
  have hwaiting {calls : List (Call σ ρ)} (h : Waiting calls) :
      Waiting (calls ++ [⟨task, .waiting⟩]) := by
    simpa [Waiting, or_imp, forall_and] using h
  induction calls generalizing s with
  | nil => exact ⟨h, nofun⟩
  | cons c calls ih =>
    obtain ⟨_, _ | rest | ⟨result, released⟩⟩ := c
    · exact ⟨h.1, hwaiting h.2⟩
    · exact ⟨h.1, hwaiting h.2⟩
    · exact ⟨h.1, fun hr => hwaiting (h.2.1 hr), ih h.2.2⟩

/-- A step of any kind agrees with the serial run. -/
theorem Step.agrees {q q' : Queue σ ρ} (hstep : Step q q') (h : Agrees s q.calls q.shared) :
    Agrees s q'.calls q'.shared := by
  cases hstep with dsimp only at h ⊢
  | start hreleased =>
    refine h.change (fun _ => hreleased) fun s ⟨hshared, hwaiting⟩ => ⟨?_, hwaiting⟩
    rw [hshared]
  | advance => exact h.change (fun hw => nomatch hw) fun s h => h
  | settle =>
    refine h.change (fun hw => nomatch hw) fun s ⟨hrun, hwaiting⟩ => ?_
    -- What is left of the task is its end, so that its own run ends here too.
    have hend := Prod.ext_iff.1 hrun
    refine ⟨hend.1, fun _ => hwaiting, ?_⟩
    rw [← hend.2]
    exact .of_waiting hwaiting
  | release =>
    exact h.change (fun hw => nomatch hw) fun s ⟨hresult, _, hrest⟩ =>
      ⟨hresult, nofun, hrest⟩

theorem Steps.agrees {s₀ : σ} {q : Queue σ ρ} (h : Steps s₀ q) : Agrees s₀ q.calls q.shared := by
  induction h with
  | start => exact rfl
  | call task _ ih => exact ih.call task
  | step _ hstep ih => exact hstep.agrees ih

end Rules

/-! ## What a queue has done -/

/-- The state after these calls, each of them run by itself. -/
def serial (s : σ) (calls : List (Call σ ρ)) : σ := calls.foldl (fun s c => (c.task.run s).2) s

@[simp] theorem serial_cons (s : σ) (c : Call σ ρ) (calls : List (Call σ ρ)) :
    serial s (c :: calls) = serial (c.task.run s).2 calls := rfl

/-- All of them have settled, with the results of a serial run. -/
def Settled (s : σ) (calls : List (Call σ ρ)) : Prop :=
  ∀ before c after, calls = before ++ c :: after →
    ∃ released, c.progress = .settled (c.task.run (serial s before)).1 released

theorem Settled.cons {s : σ} {c : Call σ ρ} {calls : List (Call σ ρ)} {released : Bool}
    (hc : c.progress = .settled (c.task.run s).1 released)
    (h : Settled (c.task.run s).2 calls) : Settled s (c :: calls) := by
  intro before d after heq
  cases before with
  | nil =>
    cases heq
    exact ⟨released, hc⟩
  | cons b before =>
    cases heq
    exact h before d after rfl

/-- What has settled is a serial run. If a task is on its way, it began where that run
    ended. -/
theorem Agrees.split {s shared : σ} {calls : List (Call σ ρ)} (h : Agrees s calls shared) :
    ∃ done rest, calls = done ++ rest ∧ Settled s done ∧
      (Waiting rest ∧ shared = serial s done ∨
        ∃ c waiting left, rest = c :: waiting ∧ Waiting waiting ∧ c.progress = .running left ∧
          left.run shared = c.task.run (serial s done)) := by
  induction calls generalizing s with
  | nil => exact ⟨[], [], rfl, fun before _ _ heq => by simp at heq, .inl ⟨nofun, h⟩⟩
  | cons c calls ih =>
    have hnone : Settled s ([] : List (Call σ ρ)) := fun before _ _ heq => by simp at heq
    obtain ⟨task, _ | left | ⟨result, released⟩⟩ := c
    · exact ⟨[], _, rfl, hnone, .inl ⟨forall_mem_cons.2 ⟨rfl, h.2⟩, h.1⟩⟩
    · exact ⟨[], _, rfl, hnone, .inr ⟨_, _, left, rfl, h.2, rfl, h.1⟩⟩
    · obtain ⟨hresult, -, hrest⟩ := h
      obtain ⟨done, rest, rfl, hdone, hend⟩ := ih hrest
      exact ⟨_ :: done, rest, rfl, hdone.cons (congrArg (Progress.settled · released) hresult), hend⟩

/-- Nothing blocks: while a call is not released, there is a next step. -/
theorem exists_step_or_released (shared : σ) (calls before : List (Call σ ρ))
    (hbefore : Released before) :
    (∀ c ∈ calls, ∃ result, c.progress = .settled result true) ∨
      ∃ q', Step ⟨shared, before ++ calls⟩ q' := by
  induction calls generalizing before with
  | nil => exact .inl (by simp)
  | cons c calls ih =>
    obtain ⟨task, _ | (result | ⟨next, rest⟩) | ⟨result, _ | _⟩⟩ := c
    · exact .inr ⟨_, .start hbefore⟩
    · exact .inr ⟨_, .settle⟩
    · exact .inr ⟨_, .advance⟩
    · exact .inr ⟨_, .release⟩
    · have hreleased : Released (before ++ [⟨task, .settled result true⟩]) := by
        intro c hc
        rw [getLast?_concat] at hc
        cases hc
        exact ⟨result, rfl⟩
      rcases ih _ hreleased with hall | hstep
      · exact .inl (forall_mem_cons.2 ⟨⟨result, rfl⟩, hall⟩)
      · rw [append_assoc] at hstep
        exact .inr hstep

end Turns
