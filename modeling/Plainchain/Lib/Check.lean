import Plainchain.Lib.Text

/-!
# Checks

A validator that reports a reason, `{ valid, reason }`, is a `Verdict`: `ok`
when nothing objects, or the first objection, or what a step threw. Rules are
listed with `refuse`, one after the other, and a validator is characterised by
what its passing means (`refuse_eq_ok`, `seq_eq_ok`, `forM_eq_ok`,
`distinct_eq_ok`). Parsers throw, and use `reject` with the text of the error.
-/

namespace Js

open List

/-- Why a validator does not pass: it has a reason, or it throws. -/
inductive Objection
  | invalid (reason : Text)
  | thrown (message : Text)
  deriving DecidableEq

/-- The result of a validator. -/
abbrev Verdict := Except Objection Unit

/-- The error `e` where `p` holds. -/
def reject {ε : Type} (p : Prop) [Decidable p] (e : ε) : Except ε Unit :=
  if p then .error e else .ok ()

/-- The verdict against what `p` holds of. -/
def refuse (p : Prop) [Decidable p] (reason : Text) : Verdict := reject p (.invalid reason)

@[simp] theorem reject_eq_ok {ε : Type} {p : Prop} [Decidable p] {e : ε} :
    reject p e = .ok () ↔ ¬ p := by
  unfold reject
  split <;> simp_all

@[simp] theorem refuse_eq_ok {p : Prop} [Decidable p] {reason : Text} :
    refuse p reason = .ok () ↔ ¬ p :=
  reject_eq_ok

/-- Another wording of the errors does not change what passes. -/
@[simp] theorem mapError_eq_ok {α ε ε' : Type} {x : Except ε α} {f : ε → ε'} {a : α} :
    x.mapError f = .ok a ↔ x = .ok a := by
  cases x <;> simp [Except.mapError]

/-- A step that throws, within a validator. -/
def attempt {α : Type} (x : Except Text α) : Except Objection α := x.mapError .thrown

@[simp] theorem attempt_eq_ok {α : Type} {x : Except Text α} {a : α} :
    attempt x = .ok a ↔ x = .ok a :=
  mapError_eq_ok

section Except

variable {α β ε : Type}

theorem bind_eq_ok {x : Except ε α} {f : α → Except ε β} {b : β} :
    x >>= f = .ok b ↔ ∃ a, x = .ok a ∧ f a = .ok b := by
  cases x with
  | error e => exact ⟨fun h => (nomatch h), fun ⟨_, h, _⟩ => nomatch h⟩
  | ok a => exact ⟨fun h => ⟨a, rfl, h⟩, fun ⟨_, ha, h⟩ => by cases ha; exact h⟩

/-- Both of two rules pass. -/
@[simp] theorem seq_eq_ok {x : Except ε Unit} {y : Except ε β} {b : β} :
    (x >>= fun _ => y) = .ok b ↔ x = .ok () ∧ y = .ok b := by
  rw [bind_eq_ok]
  exact ⟨fun ⟨_, hx, hy⟩ => ⟨hx, hy⟩, fun ⟨hx, hy⟩ => ⟨(), hx, hy⟩⟩

/-- A rule about each element in turn. -/
theorem forM_eq_ok {f : α → Except ε PUnit} {as : List α} :
    forM as f = .ok () ↔ ∀ a ∈ as, f a = .ok () := by
  induction as with
  | nil => simp [pure, Except.pure]
  | cons a as ih => rw [forM_cons, seq_eq_ok, ih, forall_mem_cons]

/-- A conversion of each element in turn, told its position from `i` on. -/
def mapIdxFrom (f : ℕ → α → Except ε β) : ℕ → List α → Except ε (List β)
  | _, [] => .ok []
  | i, a :: as => do
    let b ← f i a
    let bs ← mapIdxFrom f (i + 1) as
    pure (b :: bs)

/-- What a conversion returns is what it makes of some element. -/
theorem exists_of_mem_mapIdxFrom {f : ℕ → α → Except ε β} {i : ℕ} {as : List α} {bs : List β}
    (h : mapIdxFrom f i as = .ok bs) {b : β} (hb : b ∈ bs) : ∃ j, ∃ a ∈ as, f j a = .ok b := by
  induction as generalizing i bs with
  | nil =>
    cases h
    simp at hb
  | cons a as ih =>
    simp only [mapIdxFrom, bind_eq_ok] at h
    obtain ⟨b', hb', bs', hbs', h⟩ := h
    cases h
    rcases mem_cons.1 hb with rfl | hb
    · exact ⟨i, a, mem_cons_self, hb'⟩
    · obtain ⟨j, a', ha', hf⟩ := ih hbs' hb
      exact ⟨j, a', mem_cons_of_mem _ ha', hf⟩

/-- A conversion reads back what was written element by element. -/
theorem mapIdxFrom_map {f : ℕ → α → Except ε β} {g : β → α} {bs : List β}
    (h : ∀ b ∈ bs, ∀ i, f i (g b) = .ok b) (i : ℕ) : mapIdxFrom f i (bs.map g) = .ok bs := by
  induction bs generalizing i with
  | nil => rfl
  | cons b bs ih =>
    rw [map_cons, mapIdxFrom, h b mem_cons_self]
    rw [show mapIdxFrom f (i + 1) (bs.map g) = .ok bs from
      ih (fun b' hb' => h b' (mem_cons_of_mem _ hb')) _]
    rfl

end Except

section Distinct

variable {α : Type} [DecidableEq α]

/-- The rule that no element is met twice, nor one of `seen`. -/
def distinct (reason : α → Text) : (seen as : List α) → Verdict
  | _, [] => .ok ()
  | seen, a :: as =>
    if a ∈ seen then .error (.invalid (reason a)) else distinct reason (a :: seen) as

theorem distinct_eq_ok {reason : α → Text} {seen as : List α} :
    distinct reason seen as = .ok () ↔ as.Nodup ∧ ∀ a ∈ as, a ∉ seen := by
  induction as generalizing seen with
  | nil => simp [distinct]
  | cons a as ih =>
    rw [distinct]
    split
    · next ha => simpa using fun _ _ h => absurd ha h
    · next ha =>
      rw [ih, nodup_cons, forall_mem_cons]
      constructor
      · rintro ⟨hn, hs⟩
        refine ⟨⟨fun h => hs a h mem_cons_self, hn⟩, ha, fun b hb h => ?_⟩
        exact hs b hb (mem_cons_of_mem _ h)
      · rintro ⟨⟨hna, hn⟩, -, hs⟩
        refine ⟨hn, fun b hb h => ?_⟩
        rcases mem_cons.1 h with rfl | h
        · exact hna hb
        · exact hs b hb h

end Distinct

end Js
