import Mathlib.Data.List.Infix

/-!
# Common prefixes

How far two lists agree (`commonLength`): the first elements that they share, up to
the first difference or the end of one of them.
-/

namespace List

variable {α : Type} [DecidableEq α]

/-- The length of the longest common prefix. -/
def commonLength : List α → List α → ℕ
  | a :: as, b :: bs => if a = b then commonLength as bs + 1 else 0
  | _, _ => 0

@[simp] theorem commonLength_nil (as : List α) : commonLength as [] = 0 := by
  cases as <;> rfl

theorem commonLength_le_right (as bs : List α) : commonLength as bs ≤ bs.length := by
  induction as generalizing bs with
  | nil => exact Nat.zero_le _
  | cons a as ih =>
    cases bs with
    | nil => exact Nat.zero_le _
    | cons b bs =>
      rw [commonLength]
      split_ifs
      · exact Nat.succ_le_succ (ih bs)
      · exact Nat.zero_le _

@[simp] theorem commonLength_append (l as bs : List α) :
    commonLength (l ++ as) (l ++ bs) = l.length + commonLength as bs := by
  induction l with
  | nil => simp
  | cons a l ih =>
    rw [cons_append, cons_append, commonLength, if_pos rfl, ih, length_cons]
    omega

@[simp] theorem commonLength_self (as : List α) : commonLength as as = as.length := by
  simpa using commonLength_append as [] []

/-- Lists with different heads have no common prefix. -/
theorem commonLength_eq_zero {as bs : List α} :
    commonLength as bs = 0 ↔ ∀ b ∈ bs.head?, as.head? ≠ some b := by
  cases as with
  | nil => simp [commonLength]
  | cons a as =>
    cases bs with
    | nil => simp
    | cons b bs =>
      rw [commonLength]
      split_ifs with h <;> simp [h]

/-- The lists agree up to a position. -/
theorem lt_commonLength {as bs : List α} {i : ℕ} :
    i < commonLength as bs ↔ i < bs.length ∧ as.take (i + 1) = bs.take (i + 1) := by
  induction as generalizing bs i with
  | nil => cases bs <;> simp [commonLength]
  | cons a as ih =>
    cases bs with
    | nil => simp
    | cons b bs =>
      rw [commonLength, take_succ_cons, take_succ_cons, cons.injEq, length_cons]
      split_ifs with h
      · cases i with
        | zero => simp [h]
        | succ i => simp [h, ih]
      · simp [h]

theorem take_commonLength (as bs : List α) :
    as.take (commonLength as bs) = bs.take (commonLength as bs) := by
  cases h : commonLength as bs with
  | zero => rfl
  | succ i => exact (lt_commonLength.1 (by omega : i < commonLength as bs)).2

theorem commonLength_eq_length {as bs : List α} : commonLength as bs = bs.length ↔ bs <+: as := by
  constructor
  · intro h
    have htake := take_commonLength as bs
    rw [h, take_length] at htake
    rw [← htake]
    exact take_prefix _ _
  · rintro ⟨cs, rfl⟩
    simpa using commonLength_append bs cs []

end List
