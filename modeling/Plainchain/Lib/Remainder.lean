import Mathlib.Data.List.Induction
import Plainchain.Lib.Bits

/-!
# Remainders as checksums

A register of `n + w` bits takes in digits of `w` bits, one after the other: its bits move up
by a digit, and the digit that leaves it at the top is fed back, one generator for each of its
bits. This is division of polynomials, and the register holds the remainder.

A step is linear in exclusive or (`step_xor`). So the register after the last digits is the
sum of what was before and of these digits, written as a number (`run_append_eq_iff`): they can
be chosen, in one way only, to leave any given remainder. And if no digit is fed back as
nothing, steps are injective (`run_inj`), so that one wrong digit changes the remainder
(`run_one_error`).
-/

namespace Remainder

open Bits List

section Linear

variable (gs : List ℕ) (w n : ℕ)

/-- A register with the generators of the bits of `top` added to it. -/
def feedback (top chk : ℕ) : ℕ :=
  gs.zipIdx.foldl (fun chk g => if top.testBit g.2 then chk ^^^ g.1 else chk) chk

def step (chk v : ℕ) : ℕ := feedback gs (chk >>> n) (((chk % 2 ^ n) <<< w) ^^^ v)

def run (chk : ℕ) (vs : List ℕ) : ℕ := vs.foldl (step gs w n) chk

variable {gs w n}

theorem xor_xor_xor_comm (a b c d : ℕ) : a ^^^ b ^^^ (c ^^^ d) = a ^^^ c ^^^ (b ^^^ d) := by
  ac_rfl

theorem feedback_xor (s t a b : ℕ) :
    feedback gs (s ^^^ t) (a ^^^ b) = feedback gs s a ^^^ feedback gs t b := by
  unfold feedback
  induction gs.zipIdx generalizing a b with
  | nil => rfl
  | cons g gs ih =>
    have hbit : (if (s ^^^ t).testBit g.2 then a ^^^ b ^^^ g.1 else a ^^^ b) =
        (if s.testBit g.2 then a ^^^ g.1 else a) ^^^ (if t.testBit g.2 then b ^^^ g.1 else b) := by
      rw [Nat.testBit_xor]
      cases s.testBit g.2 <;> cases t.testBit g.2
      · rfl
      · exact Nat.xor_assoc a b g.1
      · exact Nat.xor_right_comm a b g.1
      · rw [if_neg (by decide), if_pos rfl, if_pos rfl, xor_xor_xor_comm, Nat.xor_self,
          Nat.xor_zero]
    rw [foldl_cons, foldl_cons, foldl_cons, hbit, ih]

theorem feedback_zero (chk : ℕ) : feedback gs 0 chk = chk := by
  unfold feedback
  induction gs.zipIdx with
  | nil => rfl
  | cons g gs ih => rw [foldl_cons, Nat.zero_testBit]; exact ih

theorem step_xor (a b v u : ℕ) :
    step gs w n (a ^^^ b) (v ^^^ u) = step gs w n a v ^^^ step gs w n b u := by
  rw [step, step, step, ← feedback_xor, Nat.shiftRight_xor_distrib, Nat.xor_mod_two_pow,
    Nat.shiftLeft_xor_distrib, xor_xor_xor_comm]

/-- What was in the register and what comes in add up. -/
theorem run_xor (a b : ℕ) (vs : List ℕ) :
    run gs w n (a ^^^ b) vs = run gs w n a (List.replicate vs.length 0) ^^^ run gs w n b vs := by
  induction vs generalizing a b with
  | nil => rfl
  | cons v vs ih =>
    have hstep := @step_xor gs w n a b 0 v
    rw [Nat.zero_xor] at hstep
    exact (congrArg (run gs w n · vs) hstep).trans (ih _ _)

/-- A digit is added to the register. -/
theorem step_eq_xor (a v : ℕ) : step gs w n a v = step gs w n a 0 ^^^ v := by
  have hstep := @step_xor gs w n a 0 0 v
  have hzero : step gs w n 0 v = v := by
    rw [step, Nat.zero_shiftRight, Nat.zero_mod, Nat.zero_shiftLeft, Nat.zero_xor, feedback_zero]
  rwa [Nat.xor_zero, Nat.zero_xor, hzero] at hstep

/-- While nothing leaves the register, it is the number its digits write. -/
theorem step_of_lt {a v : ℕ} (ha : a < 2 ^ n) (hv : v < 2 ^ w) :
    step gs w n a v = a * 2 ^ w + v := by
  have htop : a >>> n = 0 := by rw [Nat.shiftRight_eq_div_pow, Nat.div_eq_of_lt ha]
  rw [step, htop, feedback_zero, Nat.mod_eq_of_lt ha, Nat.shiftLeft_eq, Nat.mul_comm]
  refine Nat.eq_of_testBit_eq fun i => ?_
  rw [Nat.testBit_xor, Nat.testBit_two_pow_mul, Nat.testBit_two_pow_mul_add a hv]
  by_cases hi : i < w
  · simp [hi, not_le.2 hi]
  · have hvi : v.testBit i = false :=
      Nat.testBit_lt_two_pow (hv.trans_le (Nat.pow_le_pow_right two_pos (not_lt.1 hi)))
    simp [hi, not_lt.1 hi, hvi]

theorem run_append (a : ℕ) (vs us : List ℕ) :
    run gs w n a (vs ++ us) = run gs w n (run gs w n a vs) us :=
  foldl_append

theorem run_zero {vs : List ℕ} (hvs : ∀ v ∈ vs, v < 2 ^ w) (hlength : w * vs.length ≤ n + w) :
    run gs w n 0 vs = valueOf (groupBits w vs) := by
  induction vs using List.reverseRecOn with
  | nil => rfl
  | append_singleton vs v ih =>
    rw [forall_mem_append] at hvs
    have hv : v < 2 ^ w := hvs.2 v mem_cons_self
    have hle : w * vs.length ≤ n := by
      rw [length_append, length_singleton, Nat.mul_add, Nat.mul_one] at hlength
      omega
    have hlt : valueOf (groupBits w vs) < 2 ^ n := by
      refine (valueOf_lt _).trans_le (Nat.pow_le_pow_right two_pos ?_)
      rwa [length_groupBits]
    have hvalue : valueOf (groupBits w [v]) = v := by
      rw [groupBits_cons, groupBits_nil, append_nil, valueOf_bitsOf_of_lt hv]
    rw [run_append, ih hvs.1 (by omega), groupBits_append, valueOf_append, length_groupBits,
      length_singleton, Nat.mul_one, hvalue]
    exact step_of_lt hlt hv

/-- As many digits as the register holds leave a given remainder just if they write what
    is missing to it. -/
theorem run_append_eq_iff {a k : ℕ} {vs us : List ℕ} (hus : ∀ u ∈ us, u < 2 ^ w)
    (hlength : w * us.length = n + w) :
    run gs w n a (vs ++ us) = k ↔
      valueOf (groupBits w us) = run gs w n a (vs ++ List.replicate us.length 0) ^^^ k := by
  have hsum : run gs w n a (vs ++ us) =
      run gs w n a (vs ++ List.replicate us.length 0) ^^^ valueOf (groupBits w us) := by
    have hxor := @run_xor gs w n (run gs w n a vs) 0 us
    rw [Nat.xor_zero, run_zero hus hlength.le] at hxor
    rw [run_append, run_append, hxor]
  rw [hsum]
  constructor
  · rintro rfl
    rw [Nat.xor_xor_cancel_left]
  · intro h
    rw [h, Nat.xor_xor_cancel_left]

/-! ## One wrong digit -/

theorem feedback_lt {top chk m : ℕ} (hgs : ∀ g ∈ gs, g < 2 ^ m) (hchk : chk < 2 ^ m) :
    feedback gs top chk < 2 ^ m := by
  have hzip : ∀ g ∈ gs.zipIdx, g.1 < 2 ^ m := fun g hg => hgs g.1 (fst_mem_of_mem_zipIdx hg)
  unfold feedback
  generalize gs.zipIdx = zs at hzip ⊢
  induction zs generalizing chk with
  | nil => exact hchk
  | cons g zs ih =>
    rw [forall_mem_cons] at hzip
    rw [foldl_cons]
    refine ih ?_ hzip.2
    split
    · exact Nat.xor_lt_two_pow hchk hzip.1
    · exact hchk

end Linear

/-- Generators for a register of `n + w` bits: nothing that leaves it is fed back as nothing
    in the place of the next digit. -/
structure Generators (w n : ℕ) where
  list : List ℕ
  lt : ∀ g ∈ list, g < 2 ^ (n + w)
  kernel : ∀ top < 2 ^ w, feedback list top 0 % 2 ^ w = 0 → top = 0

section Errors

variable {w n : ℕ} (G : Generators w n)

theorem step_lt {a v : ℕ} (hv : v < 2 ^ (n + w)) : step G.list w n a v < 2 ^ (n + w) := by
  refine feedback_lt G.lt (Nat.xor_lt_two_pow ?_ hv)
  rw [Nat.shiftLeft_eq, pow_add]
  exact Nat.mul_lt_mul_of_pos_right (Nat.mod_lt a (Nat.two_pow_pos n)) (Nat.two_pow_pos w)

theorem run_lt {a : ℕ} {vs : List ℕ} (ha : a < 2 ^ (n + w)) (hvs : ∀ v ∈ vs, v < 2 ^ (n + w)) :
    run G.list w n a vs < 2 ^ (n + w) := by
  induction vs generalizing a with
  | nil => exact ha
  | cons v vs ih =>
    rw [forall_mem_cons] at hvs
    exact ih (step_lt G hvs.1) hvs.2

/-- Only the empty register is left empty by a step. -/
theorem eq_zero_of_step {d : ℕ} (hd : d < 2 ^ (n + w)) (h : step G.list w n d 0 = 0) : d = 0 := by
  have hlow : feedback G.list (d >>> n) 0 = (d % 2 ^ n) <<< w := by
    have hxor := @feedback_xor G.list 0 (d >>> n) ((d % 2 ^ n) <<< w) 0
    rw [Nat.zero_xor, Nat.xor_zero, feedback_zero] at hxor
    rw [step, Nat.xor_zero, hxor] at h
    exact (Nat.xor_eq_zero_iff.1 h).symm
  have htop : d >>> n = 0 := by
    refine G.kernel _ ?_ ?_
    · rw [Nat.shiftRight_eq_div_pow]
      exact Nat.div_lt_of_lt_mul (by rwa [← pow_add])
    · rw [hlow, Nat.shiftLeft_eq, Nat.mul_mod_left]
  have hsmall : d < 2 ^ n := by
    rw [Nat.shiftRight_eq_div_pow] at htop
    exact (Nat.div_eq_zero_iff_lt (Nat.two_pow_pos n)).1 htop
  rw [htop, feedback_zero, Nat.mod_eq_of_lt hsmall, Nat.shiftLeft_eq] at hlow
  exact (Nat.mul_eq_zero.1 hlow.symm).resolve_right (Nat.two_pow_pos w).ne'

theorem step_inj {a b v : ℕ} (ha : a < 2 ^ (n + w)) (hb : b < 2 ^ (n + w))
    (h : step G.list w n a v = step G.list w n b v) : a = b := by
  have hxor := @step_xor G.list w n a b v v
  rw [Nat.xor_self, h, Nat.xor_self] at hxor
  exact Nat.xor_eq_zero_iff.1 (eq_zero_of_step G (Nat.xor_lt_two_pow ha hb) hxor)

theorem run_inj {a b : ℕ} {vs : List ℕ} (ha : a < 2 ^ (n + w)) (hb : b < 2 ^ (n + w))
    (hvs : ∀ v ∈ vs, v < 2 ^ (n + w)) (h : run G.list w n a vs = run G.list w n b vs) : a = b := by
  induction vs generalizing a b with
  | nil => exact h
  | cons v vs ih =>
    rw [forall_mem_cons] at hvs
    exact step_inj G ha hb (ih (step_lt G hvs.1) (step_lt G hvs.1) hvs.2 h)

/-- Digits with one remainder do not differ in one place. -/
theorem run_one_error {a x y : ℕ} {vs us : List ℕ} (hx : x < 2 ^ (n + w)) (hy : y < 2 ^ (n + w))
    (hus : ∀ u ∈ us, u < 2 ^ (n + w))
    (h : run G.list w n a (vs ++ x :: us) = run G.list w n a (vs ++ y :: us)) : x = y := by
  rw [run_append, run_append] at h
  have hstep := run_inj G (step_lt G hx) (step_lt G hy) hus h
  rw [step_eq_xor, step_eq_xor _ y] at hstep
  exact Nat.xor_right_injective hstep

end Errors

end Remainder
