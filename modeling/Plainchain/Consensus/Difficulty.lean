import Plainchain.Lib.Hex
import Plainchain.Consensus.Engine

/-!
# One retarget

How far `retargetDifficulty` moves a target. The times enter through one factor,
in millionths, that is cut to an integer: `retargetDifficulty_eq` gives the target
over the naturals.

* `retargetDifficulty_on_time`: a period that took as long as meant keeps the
  target;
* `retarget_iff`: the bounds of a retarget. Cutting the factor to millionths may
  take a target below its `f`-th part.
-/

namespace Plainchain

open Js

/-! ## The factor in millionths -/

variable {current factor target : ℕ} {text : Text}

/-- A number between two multiples of a divisor, rounded down and divided. -/
theorem tdiv_floor {x : ℚ} {divisor : ℕ} (h : 0 < divisor) (hge : (divisor * factor : ℚ) ≤ x)
    (hlt : x < divisor * (factor + 1)) : x.floor.tdiv divisor = factor := by
  have hfloor : ((divisor * factor : ℕ) : ℤ) ≤ x.floor := by
    rw [Rat.le_floor_iff]
    exact_mod_cast hge
  have hfloor' : x.floor < ((divisor * (factor + 1) : ℕ) : ℤ) := by
    rw [Rat.floor_lt_iff]
    exact_mod_cast hlt
  rw [Int.tdiv_eq_ediv_of_nonneg (le_trans (by positivity) hfloor),
    Int.ediv_eq_iff_of_pos (by exact_mod_cast h)]
  push_cast at hfloor hfloor'
  constructor <;> linarith

/-- The target of a retarget by a factor in millionths. -/
def scaledTarget (current factor : ℕ) : ℕ := max 1 (min (current * factor / 1000000) MAX_TARGET)

theorem one_le_scaledTarget (current factor : ℕ) : 1 ≤ scaledTarget current factor :=
  le_max_left _ _

theorem scaledTarget_le (current factor : ℕ) : scaledTarget current factor ≤ MAX_TARGET :=
  max_le (by norm_num [MAX_TARGET]) (min_le_right _ _)

theorem scaledTarget_mono {factor' : ℕ} (h : factor ≤ factor') :
    scaledTarget current factor ≤ scaledTarget current factor' :=
  max_le_max le_rfl (min_le_min
    (Nat.div_le_div_right (Nat.mul_le_mul_left current h)) le_rfl)

theorem scaledTarget_one (h : 1 ≤ current) (hmax : current ≤ MAX_TARGET) :
    scaledTarget current 1000000 = current := by
  rw [scaledTarget, Nat.mul_div_cancel _ (by norm_num), min_eq_left hmax, max_eq_right h]

/-- What a retarget returns where the factor comes to an integer of millionths. -/
theorem retargetDifficulty_of_factor {actual : ℤ} {f : ℚ}
    (hcurrent : hexBigInt text = .ok current) (htarget : 0 < target)
    (hge : (target * factor : ℚ) ≤
      min (target * f) (max (target / f) actual) * 1000000 + 1 / 2)
    (hlt : min (target * f) (max (target / f) actual) * 1000000 + 1 / 2 <
      (target * (factor + 1) : ℚ)) :
    retargetDifficulty text actual target f = .ok (paddedHex 64 (scaledTarget current factor)) := by
  have hreject : reject (target = 0) (lit "Division by zero") = .ok () :=
    reject_eq_ok.2 htarget.ne'
  rw [retargetDifficulty, hcurrent]
  dsimp only [bind, Except.bind]
  rw [hreject, tdiv_floor htarget hge hlt]
  have hscaled : ((current : ℤ) * factor).tdiv 1000000 = ((current * factor / 1000000 : ℕ) : ℤ) := by
    rw [Int.tdiv_eq_ediv_of_nonneg (by positivity)]
    push_cast
    rfl
  dsimp only [pure, Except.pure]
  rw [hscaled, scaledTarget]
  congr 2
  omega

/-- A period that took as long as meant keeps the target. -/
theorem retargetDifficulty_on_time {f : ℚ} (hcurrent : hexBigInt text = .ok current)
    (htarget : 0 < target) (hf : 1 ≤ f) :
    retargetDifficulty text target target f =
      .ok (paddedHex 64 (scaledTarget current 1000000)) := by
  have hpos : (1 : ℚ) ≤ target := by exact_mod_cast htarget
  have hclamped : min ((target : ℚ) * f) (max (target / f) ((target : ℤ) : ℚ)) = target := by
    rw [Int.cast_natCast, max_eq_right (div_le_self (by linarith) hf),
      min_eq_right (le_mul_of_one_le_right (by linarith) hf)]
  refine retargetDifficulty_of_factor hcurrent htarget ?_ ?_
  all_goals
    rw [hclamped]
    push_cast
    linarith

/-- The factor of a retarget by at most `f`, in millionths: the ratio of the times,
    between `1 / f` and `f`. -/
def millionths (actual target f : ℕ) : ℕ :=
  if actual * f ≤ target then 1000000 / f
  else if target * f ≤ actual then 1000000 * f
  else 1000000 * actual / target

/-- A retarget over the naturals. -/
theorem retargetDifficulty_eq {actual f : ℕ} (hcurrent : hexBigInt text = .ok current)
    (hactual : 0 < actual) (htarget : 0 < target) (hf : 0 < f) :
    retargetDifficulty text actual target f =
      .ok (paddedHex 64 (scaledTarget current (millionths actual target f))) := by
  have hfq : (1 : ℚ) ≤ f := by exact_mod_cast hf
  have htargetq : (1 : ℚ) ≤ target := by exact_mod_cast htarget
  have hle : (target : ℚ) / f ≤ target * f := by
    calc (target : ℚ) / f ≤ target := div_le_self (by linarith) hfq
      _ ≤ target * f := le_mul_of_one_le_right (by linarith) hfq
  have hcast : ((actual : ℤ) : ℚ) = actual := Int.cast_natCast actual
  rw [millionths]
  split
  next hshort =>
    -- The time is that of the shortest period, which is a millisecond at least: the
    -- half that rounding adds does not carry.
    have hshortq : (actual : ℚ) ≤ target / f := by
      rw [le_div_iff₀ (by linarith)]
      exact_mod_cast hshort
    have hclamped : min ((target : ℚ) * f) (max (target / f) ((actual : ℤ) : ℚ)) = target / f := by
      rw [hcast, max_eq_left hshortq, min_eq_right hle]
    have hactualq : (1 : ℚ) ≤ actual := by exact_mod_cast hactual
    have hlow : ((1000000 / f : ℕ) : ℚ) * f ≤ 1000000 := by
      exact_mod_cast Nat.div_mul_le_self 1000000 f
    have hhigh : (1000000 : ℚ) + 1 ≤ ((1000000 / f : ℕ) + 1) * f := by
      have := Nat.lt_mul_of_div_lt (Nat.lt_succ_self (1000000 / f)) hf
      exact_mod_cast this
    have hmul : (target : ℚ) / f * f = target := div_mul_cancel₀ _ (by linarith)
    refine retargetDifficulty_of_factor hcurrent htarget ?_ ?_
    · rw [hclamped]
      nlinarith
    · rw [hclamped]
      nlinarith
  next hlong =>
  have hlongq : (target : ℚ) / f ≤ actual := by
    rw [div_le_iff₀ (by linarith)]
    exact_mod_cast (not_le.1 hlong).le
  split
  next hcap =>
    have hcapq : (target : ℚ) * f ≤ actual := by exact_mod_cast hcap
    have hclamped : min ((target : ℚ) * f) (max (target / f) ((actual : ℤ) : ℚ)) = target * f := by
      rw [hcast, max_eq_right hlongq, min_eq_left hcapq]
    refine retargetDifficulty_of_factor hcurrent htarget ?_ ?_
    all_goals
      rw [hclamped]
      push_cast
      linarith
  next hfree =>
    have hfreeq : (actual : ℚ) ≤ target * f := by exact_mod_cast (not_le.1 hfree).le
    have hclamped : min ((target : ℚ) * f) (max (target / f) ((actual : ℤ) : ℚ)) = actual := by
      rw [hcast, max_eq_right hlongq, min_eq_right hfreeq]
    have hlow : (target : ℚ) * (1000000 * actual / target : ℕ) ≤ 1000000 * actual := by
      exact_mod_cast Nat.mul_div_le (1000000 * actual) target
    have hhigh : (1000000 : ℚ) * actual + 1 ≤ target * ((1000000 * actual / target : ℕ) + 1) := by
      have := Nat.lt_mul_div_succ (1000000 * actual) htarget
      exact_mod_cast this
    refine retargetDifficulty_of_factor hcurrent htarget ?_ ?_
    all_goals
      rw [hclamped]
      linarith

/-! ## Bounds -/

section Bounds

variable {actual actual' target f current : ℕ}

theorem millionths_mono (htarget : 0 < target) (hf : 0 < f) (h : actual ≤ actual') :
    millionths actual target f ≤ millionths actual' target f := by
  have hmul : actual * f ≤ actual' * f := Nat.mul_le_mul_right f h
  -- The ratio is at least `1 / f`, and at most `f`, where it is not clamped.
  have hlow : ∀ {a}, target ≤ a * f → 1000000 / f ≤ 1000000 * a / target := by
    intro a ha
    rw [Nat.le_div_iff_mul_le htarget]
    calc 1000000 / f * target ≤ 1000000 / f * (a * f) := Nat.mul_le_mul_left _ ha
      _ = 1000000 / f * f * a := by ring
      _ ≤ 1000000 * a := Nat.mul_le_mul_right a (Nat.div_mul_le_self _ _)
  have hhigh : ∀ {a}, a ≤ target * f → 1000000 * a / target ≤ 1000000 * f := by
    intro a ha
    refine Nat.div_le_of_le_mul ?_
    calc 1000000 * a ≤ 1000000 * (target * f) := Nat.mul_le_mul_left _ ha
      _ = target * (1000000 * f) := by ring
  have hends : 1000000 / f ≤ 1000000 * f :=
    (Nat.div_le_self _ _).trans (Nat.le_mul_of_pos_right _ hf)
  have hmid : 1000000 * actual / target ≤ 1000000 * actual' / target :=
    Nat.div_le_div_right (Nat.mul_le_mul_left _ h)
  rcases le_or_gt (actual * f) target with hshort | hlong
  · rw [millionths, if_pos hshort, millionths]
    split
    · exact le_rfl
    next hlong' =>
    split
    · exact hends
    · exact hlow (not_le.1 hlong').le
  · rw [millionths, millionths, if_neg hlong.not_ge, if_neg (hlong.trans_le hmul).not_ge]
    rcases le_or_gt (target * f) actual with hcap | hfree
    · rw [if_pos hcap, if_pos (hcap.trans h)]
    · rw [if_neg hfree.not_ge]
      split
      · exact hhigh hfree.le
      · exact hmid

theorem millionths_le (htarget : 0 < target) (hf : 0 < f) :
    millionths actual target f ≤ 1000000 * f := by
  refine (millionths_mono htarget hf (le_max_left actual (target * f + 1))).trans_eq ?_
  rw [millionths, if_neg, if_pos (by omega)]
  have hlt : target < target * f + 1 := Nat.lt_succ_of_le (Nat.le_mul_of_pos_right _ hf)
  have hge : target * f + 1 ≤ max actual (target * f + 1) * f :=
    (le_max_right _ _).trans (Nat.le_mul_of_pos_right _ hf)
  omega

theorem millionths_on_time (htarget : 0 < target) (hf : 0 < f) :
    millionths target target f = 1000000 := by
  have hle : target ≤ target * f := Nat.le_mul_of_pos_right _ hf
  rw [millionths]
  by_cases hone : f = 1
  · simp [hone]
  · have hlt : target < target * f := by
      rw [Nat.lt_mul_iff_one_lt_right htarget]
      omega
    rw [if_neg (by omega), if_neg (by omega), Nat.mul_div_cancel _ htarget]

/-- The shortest period is a millisecond. -/
theorem millionths_shortest (htarget : 0 < target) :
    millionths 1 target f = 1000000 / min target f := by
  rw [millionths, one_mul]
  split
  next hle => rw [min_eq_right hle]
  next hlt =>
    have hcap : ¬ target * f ≤ 1 := by
      have : f ≤ target * f := Nat.le_mul_of_pos_left _ htarget
      omega
    rw [if_neg hcap, mul_one, min_eq_left (by omega)]

theorem scaledTarget_le_mul (htarget : 0 < target) (hf : 0 < f) (h : 1 ≤ current) :
    scaledTarget current (millionths actual target f) ≤ current * f := by
  refine max_le (Nat.mul_pos h hf) ((min_le_left _ _).trans ?_)
  refine Nat.div_le_of_le_mul ?_
  calc current * millionths actual target f ≤ current * (1000000 * f) :=
        Nat.mul_le_mul_left _ (millionths_le htarget hf)
    _ = 1000000 * (current * f) := by ring

theorem le_scaledTarget_iff (hmax : current ≤ MAX_TARGET) :
    max 1 (current / f) ≤ scaledTarget current factor ↔
      current / f ≤ 1 ∨ 1000000 * (current / f) ≤ current * factor := by
  have hle : current / f ≤ MAX_TARGET := (Nat.div_le_self _ _).trans hmax
  rw [scaledTarget, max_le_iff, and_iff_right (le_max_left _ _), le_max_iff, le_min_iff,
    and_iff_left hle, Nat.le_div_iff_mul_le (by norm_num), mul_comm (current / f)]

end Bounds

/-! ## The bounds of a retarget -/

/-- The retarget rule at one target, for all times a period may take: its result
    is of `64` hex digits, does not fall when the period gets longer, is the target
    for a period on time, and is within the factor. -/
def BoundedRetarget (text : Text) (current target f : ℕ) : Prop :=
  ∀ actual : ℕ, 0 < actual → ∃ next value,
    retargetDifficulty text actual target f = .ok next ∧ hexOf 64 next ∧
    hexBigInt next = .ok value ∧
    (∀ (actual' : ℕ) (next' : Text) (value' : ℕ), actual ≤ actual' →
      retargetDifficulty text actual' target f = .ok next' → hexBigInt next' = .ok value' →
        value ≤ value') ∧
    (actual = target → value = current ∧ (hexOf 64 text → next = text)) ∧
    max 1 (current / f) ≤ value ∧ value ≤ min MAX_TARGET (current * f)

/-- A retarget is within its bounds for all times exactly if the shortest period
    is: its factor is the reciprocal of `min target f`, cut to millionths. -/
theorem retarget_iff (text : Text) (current target f : ℕ) (hcurrent : hexBigInt text = .ok current)
    (hpos : 1 ≤ current) (hmax : current ≤ MAX_TARGET) (htarget : 0 < target) (hf : 0 < f) :
    BoundedRetarget text current target f ↔
      current / f ≤ 1 ∨ 1000000 * (current / f) ≤ current * (1000000 / min target f) := by
  have hlt : ∀ factor, scaledTarget current factor < 16 ^ 64 := fun factor =>
    (scaledTarget_le current factor).trans_lt (by norm_num [MAX_TARGET])
  have hvalue : ∀ factor, hexBigInt (paddedHex 64 (scaledTarget current factor)) =
      .ok (scaledTarget current factor) := fun factor =>
    hexBigInt_paddedHex (by norm_num) (hlt factor)
  rw [← millionths_shortest htarget, ← le_scaledTarget_iff hmax]
  constructor
  · intro h
    obtain ⟨next, value, hnext, -, hv, -, -, hlow, -⟩ := h 1 one_pos
    rw [retargetDifficulty_eq hcurrent one_pos htarget hf] at hnext
    cases hnext
    cases (hvalue _).symm.trans hv
    exact hlow
  · intro hlow actual hactual
    refine ⟨_, _, retargetDifficulty_eq hcurrent hactual htarget hf,
      hexOf_paddedHex (by norm_num) (hlt _), hvalue _, ?_, ?_, ?_, ?_⟩
    · intro actual' next' value' hle hnext' hvalue'
      rw [retargetDifficulty_eq hcurrent (by omega) htarget hf] at hnext'
      cases hnext'
      cases (hvalue _).symm.trans hvalue'
      exact scaledTarget_mono (millionths_mono htarget hf hle)
    · rintro rfl
      rw [millionths_on_time hactual hf, scaledTarget_one hpos hmax]
      exact ⟨rfl, fun hhex => paddedHex_of_hexOf (by norm_num) hhex hcurrent⟩
    · exact hlow.trans (scaledTarget_mono (millionths_mono htarget hf hactual))
    · exact le_min (scaledTarget_le _ _) (scaledTarget_le_mul htarget hf hpos)

/-- A target of `2 ^ 240 - 1` and a factor of `3`: a period of one millisecond,
    where thirty seconds are meant, takes `333333` millionths of the target, which
    is less than its third part. -/
theorem retarget_below_third :
    hexBigInt (paddedHex 64 (2 ^ 240 - 1)) = .ok (2 ^ 240 - 1) ∧
      ¬ BoundedRetarget (paddedHex 64 (2 ^ 240 - 1)) (2 ^ 240 - 1) 30000 3 := by
  refine ⟨by decide +kernel, fun h => ?_⟩
  obtain ⟨next, value, hnext, -, hvalue, -, -, hlow, -⟩ := h 1 one_pos
  have hrun : retargetDifficulty (paddedHex 64 (2 ^ 240 - 1)) (1 : ℕ) 30000 (3 : ℕ) =
      .ok (paddedHex 64 ((2 ^ 240 - 1) * 333333 / 1000000)) := by decide +kernel
  have hread : hexBigInt (paddedHex 64 ((2 ^ 240 - 1) * 333333 / 1000000)) =
      .ok ((2 ^ 240 - 1) * 333333 / 1000000) := by decide +kernel
  cases hrun.symm.trans hnext
  cases hread.symm.trans hvalue
  exact absurd hlow (by decide +kernel)

/-- The same target with a factor of `4`, whose reciprocal is `250000` millionths. -/
theorem retarget_by_four : BoundedRetarget (paddedHex 64 (2 ^ 240 - 1)) (2 ^ 240 - 1) 30000 4 :=
  (retarget_iff _ _ _ _ (by decide +kernel) (by decide +kernel) (by decide +kernel) (by decide)
    (by decide)).2 (.inr (by decide +kernel))

end Plainchain
