import Plainchain.Lib.Check
import Mathlib.Data.List.Range

/-!
# Validators that answer

A validator may pass, object, or throw. It *returns* when it does one of the
first two (`Returns`). A sequence of rules returns when each rule that is come to
does, and a loop when each round does that all rounds before let pass
(`returns_forM_range`).
-/

namespace Js

open List

variable {α β : Type}

/-- Nothing is thrown. -/
def Returns (x : Except Objection α) : Prop := ∀ message, x ≠ .error (.thrown message)

@[simp] theorem returns_ok (a : α) : Returns (.ok a) := fun _ h => by cases h

@[simp] theorem returns_pure (a : α) : Returns (pure a) := returns_ok a

@[simp] theorem returns_invalid (reason : Text) :
    Returns (.error (.invalid reason) : Except Objection α) := fun _ h => by cases h

@[simp] theorem not_returns_thrown (message : Text) :
    ¬Returns (.error (.thrown message) : Except Objection α) := fun h => h message rfl

@[simp] theorem returns_refuse (p : Prop) [Decidable p] (reason : Text) :
    Returns (refuse p reason) := by
  unfold refuse reject
  split <;> simp

/-- A step that may throw returns when it does not. -/
@[simp] theorem returns_attempt {x : Except Text α} : Returns (attempt x) ↔ ∃ a, x = .ok a := by
  cases x with
  | ok a => simp [attempt, Except.mapError]
  | error message => simp [attempt, Except.mapError]

@[simp] theorem returns_map {f : α → β} {x : Except Objection α} :
    Returns (f <$> x) ↔ Returns x := by
  cases x with
  | ok a => exact ⟨fun _ => returns_ok a, fun _ => returns_ok (f a)⟩
  | error e =>
    change Returns (.error e) ↔ _
    cases e <;> simp

/-- A sequence returns when its first part does, and the second where it is come
    to. -/
theorem returns_bind {x : Except Objection α} {f : α → Except Objection β} :
    Returns (x >>= f) ↔ Returns x ∧ ∀ a, x = .ok a → Returns (f a) := by
  cases x with
  | ok a =>
    change Returns (f a) ↔ _
    simp
  | error e =>
    change Returns (.error e) ↔ _
    cases e <;> simp

theorem returns_refuse_bind {p : Prop} [Decidable p] {reason : Text}
    {f : Unit → Except Objection β} :
    Returns (refuse p reason >>= f) ↔ (¬p → Returns (f ())) := by
  rw [returns_bind]
  simp only [returns_refuse, true_and]
  exact ⟨fun h hp => h () (refuse_eq_ok.2 hp), fun h _ hp => h (refuse_eq_ok.1 hp)⟩

/-- Another wording of reasons. -/
theorem returns_mapError {x : Except Objection α} {f : Objection → Objection}
    (hinvalid : ∀ reason, ∃ reason', f (.invalid reason) = .invalid reason')
    (hthrown : ∀ message, f (.thrown message) = .thrown message) :
    Returns (x.mapError f) ↔ Returns x := by
  cases x with
  | ok a => simp [Except.mapError]
  | error e =>
    cases e with
    | invalid reason =>
      obtain ⟨reason', h⟩ := hinvalid reason
      simp [Except.mapError, h]
    | thrown message => simp [Except.mapError, hthrown]

/-- A loop over a range returns when every round does that is come to. -/
theorem returns_forM_range {f : ℕ → Verdict} (start n : ℕ) :
    Returns (forM (List.range' start n) f) ↔
      ∀ i, start ≤ i → i < start + n → (∀ j, start ≤ j → j < i → f j = .ok ()) →
        Returns (f i) := by
  induction n generalizing start with
  | zero =>
    refine ⟨fun _ i hs hi => ?_, fun _ => returns_ok ()⟩
    omega
  | succ n ih =>
    rw [range'_succ, forM_cons, returns_bind]
    constructor
    · rintro ⟨hfirst, hrest⟩ i hs hi hbefore
      rcases Nat.eq_or_lt_of_le hs with rfl | hlt
      · exact hfirst
      · have hpassed := hbefore start le_rfl hlt
        exact (ih (start + 1)).1 (hrest () hpassed) i hlt (by omega)
          fun j hj hji => hbefore j (by omega) hji
    · intro h
      refine ⟨h start le_rfl (by omega) fun j hj hji => by omega, fun _ hpassed => ?_⟩
      refine (ih (start + 1)).2 fun i hs hi hbefore => ?_
      refine h i (by omega) (by omega) fun j hj hji => ?_
      rcases Nat.eq_or_lt_of_le hj with rfl | hlt
      · exact hpassed
      · exact hbefore j hlt hji

/-- A fold has a result when every step has. -/
theorem foldlM_eq_ok {ε γ : Type} {f : α → Except ε β} {g : γ → β → γ} {as : List α} (c : γ) :
    (∃ r, as.foldlM (fun c a => do pure (g c (← f a))) c = .ok r) ↔ ∀ a ∈ as, ∃ b, f a = .ok b := by
  induction as generalizing c with
  | nil => simp [pure, Except.pure]
  | cons a as ih =>
    simp only [foldlM_cons, forall_mem_cons, bind_eq_ok]
    constructor
    · rintro ⟨r, c', ⟨b, hb, -⟩, hr⟩
      exact ⟨⟨b, hb⟩, (ih c').1 ⟨r, hr⟩⟩
    · rintro ⟨⟨b, hb⟩, hrest⟩
      obtain ⟨r, hr⟩ := (ih (g c b)).2 hrest
      exact ⟨r, _, ⟨b, hb, rfl⟩, hr⟩

end Js
