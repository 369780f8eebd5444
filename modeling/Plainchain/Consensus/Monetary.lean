import Plainchain.Lib.Check

/-!
# Emission

`src/consensus/monetary.ts`: how many new coins a block at a height may create
(`blockRewardAt`), and the sums over this schedule: what has been minted up to a
height (`cumulativeEmission`), what can ever exist (`maxSupply`), and where the
reward changes next (`nextHalvingHeight`).

The reward of an era is half the one before, but not below the tail. So once it
does not fall from an era to the next it never falls again
(`rewardInEra_succ_lt`, `rewardInEra_of_le`), and it is enough to look at the
start of the next era.

* `cumulativeEmission_iff`: the closed form is the sum of the rewards, unless a
  constant reward lies below the tail;
* `supply_iff`: the limit of the supply and the next change of the reward. The
  change is missed at height `0` where every era is one block.
-/

namespace Plainchain

open Js List

/-! ## The schedule -/

structure MonetaryPolicy where
  initialReward : ℤ
  /-- Blocks per era; `0` means that the reward never halves. -/
  halvingInterval : ℕ
  /-- The floor of the reward. -/
  tailEmission : ℤ

def eraOf (height : ℕ) (policy : MonetaryPolicy) : ℕ :=
  if 0 < policy.halvingInterval then height / policy.halvingInterval else 0

/-- The arithmetic shift of a big integer rounds down. -/
def rewardInEra (era : ℕ) (policy : MonetaryPolicy) : ℤ :=
  let halved := policy.initialReward / 2 ^ era
  if policy.tailEmission < halved then halved else policy.tailEmission

/-- New coins a block at `height` may pay its miner, before fees. -/
def blockRewardAt (height : ℕ) (policy : MonetaryPolicy) : Except Text ℤ := do
  reject (height < 1) (lit "block reward is defined for height >= 1, got " ++ decimal height)
  pure (rewardInEra (eraOf height policy) policy)

theorem blockRewardAt_eq_ok {height : ℕ} {policy : MonetaryPolicy} {reward : ℤ} :
    blockRewardAt height policy = .ok reward ↔
      1 ≤ height ∧ reward = rewardInEra (eraOf height policy) policy := by
  rw [blockRewardAt, seq_eq_ok, reject_eq_ok, not_lt]
  exact and_congr_right fun _ => ⟨fun h => (Except.ok.inj h).symm, fun h => h ▸ rfl⟩

/-! ## Sums over the schedule -/

/-- The body of the loop of `cumulativeEmission`: adds what an era mints up to a
    height. -/
def addEra (tipHeight : ℕ) (policy : MonetaryPolicy) (total : ℤ) (era : ℕ) : ℤ :=
  let first := max 1 (era * policy.halvingInterval)
  let last := min tipHeight ((era + 1) * policy.halvingInterval - 1)
  if first ≤ last then total + rewardInEra era policy * (last - first + 1 : ℕ) else total

/-- Sum of rewards for heights `1..tipHeight`, in closed form per era. -/
def cumulativeEmission (tipHeight : ℕ) (policy : MonetaryPolicy) : ℤ :=
  if tipHeight < 1 then 0
  else if policy.halvingInterval = 0 then policy.initialReward * tipHeight
  else (List.range (eraOf tipHeight policy + 1)).foldl (addEra tipHeight policy) 0

theorem halved_succ (reward : ℤ) (era : ℕ) : reward / 2 ^ (era + 1) = reward / 2 ^ era / 2 := by
  rw [pow_succ, Int.ediv_ediv_of_nonneg (by positivity)]

theorem rewardInEra_eq_max (era : ℕ) (policy : MonetaryPolicy) :
    rewardInEra era policy = max (policy.initialReward / 2 ^ era) policy.tailEmission := by
  rw [rewardInEra]
  split <;> omega

/-- The loop of `maxSupply`. It stops because there is no tail: the reward of an
    era that pays is more than that of the next. -/
def supplyFrom (policy : MonetaryPolicy) (hstops : policy.tailEmission ≤ 0) (era : ℕ)
    (total : ℤ) : ℤ :=
  if 0 < rewardInEra era policy then
    -- Era 0 starts at height 1.
    let blocks : ℕ := if era = 0 then policy.halvingInterval - 1 else policy.halvingInterval
    supplyFrom policy hstops (era + 1) (total + rewardInEra era policy * blocks)
  else total
termination_by (policy.initialReward / 2 ^ era).toNat
decreasing_by
  rw [halved_succ]
  simp only [rewardInEra_eq_max] at *
  omega

/-- Coins that can ever exist: the genesis allocation plus every reward. There is
    no limit where emission never stops. -/
def maxSupply (policy : MonetaryPolicy) (genesisAllocation : ℤ) : Option ℤ :=
  if h : policy.halvingInterval = 0 ∨ 0 < policy.tailEmission then none
  else some (supplyFrom policy (not_lt.1 (not_or.1 h).2) 0 genesisAllocation)

/-- First height above `height` where the reward changes, if it ever will. -/
def nextHalvingHeight (height : ℕ) (policy : MonetaryPolicy) : Except Text (Option ℕ) := do
  if policy.halvingInterval = 0 then pure none
  else
    let next := (eraOf height policy + 1) * policy.halvingInterval
    let rewardThere ← blockRewardAt next policy
    let rewardHere ← blockRewardAt (max 1 height) policy
    pure (if rewardThere < rewardHere then some next else none)

/-! ## The schedule itself -/

section Schedule

variable {policy : MonetaryPolicy}

/-- The rewards of the heights `1..tip`, added one by one. -/
def rewardsUpTo (tip : ℕ) (policy : MonetaryPolicy) : Except Text ℤ :=
  (List.range' 1 tip).foldlM (fun sum height => do
    let reward ← blockRewardAt height policy
    pure (sum + reward)) 0

/-- What the heights `1..tip` mint. -/
def minted (policy : MonetaryPolicy) (tip : ℕ) : ℤ :=
  ∑ height ∈ Finset.Icc 1 tip, rewardInEra (eraOf height policy) policy

@[simp] theorem minted_zero : minted policy 0 = 0 := rfl

theorem minted_succ (tip : ℕ) :
    minted policy (tip + 1) =
      minted policy tip + rewardInEra (eraOf (tip + 1) policy) policy :=
  Finset.sum_Icc_succ_top (by omega) _

theorem blockRewardAt_of_pos {height : ℕ} (h : 1 ≤ height) :
    blockRewardAt height policy = .ok (rewardInEra (eraOf height policy) policy) :=
  blockRewardAt_eq_ok.2 ⟨h, rfl⟩

theorem rewardsUpTo_eq (tip : ℕ) : rewardsUpTo tip policy = .ok (minted policy tip) := by
  induction tip with
  | zero => rfl
  | succ tip ih =>
    rw [rewardsUpTo, range'_1_concat, foldlM_append, ← rewardsUpTo, ih, minted_succ,
      Nat.add_comm 1 tip]
    simp [bind, Except.bind, blockRewardAt_of_pos, pure, Except.pure]

theorem eraOf_of_pos (h : 0 < policy.halvingInterval) (height : ℕ) :
    eraOf height policy = height / policy.halvingInterval :=
  if_pos h

end Schedule

/-! ## The closed form -/

section ClosedForm

variable {policy : MonetaryPolicy}

/-- A sum over heights by the eras they are in. -/
theorem sum_by_era {interval : ℕ} (h : 0 < interval) (tip : ℕ) (reward : ℕ → ℤ) :
    ∑ height ∈ Finset.Icc 1 tip, reward (height / interval) =
      ∑ era ∈ Finset.range (tip / interval + 1),
        reward era * (Finset.Icc (max 1 (era * interval))
          (min tip ((era + 1) * interval - 1))).card := by
  rw [← Finset.sum_fiberwise_of_maps_to (f := fun height => reward (height / interval))
    (g := (· / interval)) (t := Finset.range (tip / interval + 1))]
  · refine Finset.sum_congr rfl fun era _ => ?_
    have hfiber : (Finset.Icc 1 tip).filter (· / interval = era) =
        Finset.Icc (max 1 (era * interval)) (min tip ((era + 1) * interval - 1)) := by
      ext height
      have hera : height / interval = era ↔
          era * interval ≤ height ∧ height < (era + 1) * interval := by
        rw [Nat.div_eq_iff h, Nat.succ_mul]
        omega
      have hpos : 0 < (era + 1) * interval := Nat.mul_pos (Nat.succ_pos _) h
      simp only [Finset.mem_filter, Finset.mem_Icc, hera]
      omega
    rw [← hfiber, Finset.sum_congr rfl fun height hheight => by
      rw [(Finset.mem_filter.1 hheight).2], Finset.sum_const, nsmul_eq_mul, mul_comm]
  · intro height hheight
    exact Finset.mem_range.2
      (Nat.lt_succ_of_le (Nat.div_le_div_right (Finset.mem_Icc.1 hheight).2))

theorem minted_of_constant (h : policy.halvingInterval = 0) (tip : ℕ) :
    minted policy tip = max policy.initialReward policy.tailEmission * tip := by
  have hera : ∀ height, eraOf height policy = 0 := fun height => if_neg (by omega)
  simp [minted, hera, rewardInEra_eq_max, mul_comm]

theorem foldl_addEra (tip eras : ℕ) :
    (List.range eras).foldl (addEra tip policy) 0 =
      ∑ era ∈ Finset.range eras, rewardInEra era policy *
        (Finset.Icc (max 1 (era * policy.halvingInterval))
          (min tip ((era + 1) * policy.halvingInterval - 1))).card := by
  induction eras with
  | zero => rfl
  | succ era ih =>
    rw [range_succ, foldl_append, ih, Finset.sum_range_succ, foldl_cons,
      foldl_nil, addEra, Nat.card_Icc]
    split
    next hle => rw [Nat.sub_add_comm hle]
    next hlt => rw [Nat.sub_eq_zero_of_le (by omega), Nat.cast_zero, mul_zero, add_zero]

theorem cumulativeEmission_of_halving (h : 0 < policy.halvingInterval) (tip : ℕ) :
    cumulativeEmission tip policy = minted policy tip := by
  rw [cumulativeEmission]
  split
  next hlt =>
    obtain rfl : tip = 0 := by omega
    rfl
  rw [if_neg (by omega), foldl_addEra, eraOf_of_pos h, ← sum_by_era h]
  simp only [minted, eraOf_of_pos h]

theorem cumulativeEmission_of_constant (h : policy.halvingInterval = 0) (tip : ℕ) :
    cumulativeEmission tip policy = policy.initialReward * tip := by
  rw [cumulativeEmission]
  split
  next hlt =>
    obtain rfl : tip = 0 := by omega
    simp
  rfl

/-- The closed form is the sum of the rewards, unless a constant reward lies below
    the tail: blocks then pay the tail, but the closed form counts the reward. -/
theorem cumulativeEmission_iff (policy : MonetaryPolicy) (tip : ℕ) :
    rewardsUpTo tip policy = .ok (cumulativeEmission tip policy) ↔
      (policy.halvingInterval = 0 → policy.initialReward < policy.tailEmission → tip = 0) := by
  rw [rewardsUpTo_eq, Except.ok.injEq]
  rcases Nat.eq_zero_or_pos policy.halvingInterval with h | h
  · rw [minted_of_constant h, cumulativeEmission_of_constant h]
    rcases le_or_gt policy.tailEmission policy.initialReward with hle | hlt
    · simp [max_eq_left hle, not_lt.2 hle]
    · have hne : policy.tailEmission ≠ policy.initialReward := by omega
      simp [max_eq_right hlt.le, h, hlt, hne]
  · rw [cumulativeEmission_of_halving h]
    exact iff_of_true rfl fun hzero => absurd hzero (by omega)

/-- A constant reward of `50` with a tail of `100`: the first block mints `100`. -/
theorem cumulativeEmission_below_tail :
    ¬ rewardsUpTo 1 ⟨50, 0, 100⟩ = .ok (cumulativeEmission 1 ⟨50, 0, 100⟩) := by
  decide

end ClosedForm

/-! ## Rewards of eras -/

section Eras

variable {policy : MonetaryPolicy} {era era' : ℕ}

/-- The reward falls after an era exactly if the tail is not reached in it. -/
theorem rewardInEra_succ_lt (htail : 0 ≤ policy.tailEmission) :
    rewardInEra (era + 1) policy < rewardInEra era policy ↔
      policy.tailEmission < policy.initialReward / 2 ^ era := by
  rw [rewardInEra_eq_max, rewardInEra_eq_max, halved_succ]
  omega

/-- Once the tail is reached the reward stays there. -/
theorem rewardInEra_of_le (htail : 0 ≤ policy.tailEmission)
    (h : policy.initialReward / 2 ^ era ≤ policy.tailEmission) (hle : era ≤ era') :
    rewardInEra era' policy = policy.tailEmission := by
  have hhalved : policy.initialReward / 2 ^ era' ≤ policy.tailEmission := by
    induction era', hle using Nat.le_induction with
    | base => exact h
    | succ era' _ ih =>
      rw [halved_succ]
      omega
  rw [rewardInEra_eq_max, max_eq_right hhalved]

theorem tail_le_rewardInEra : policy.tailEmission ≤ rewardInEra era policy := by
  rw [rewardInEra_eq_max]
  exact le_max_right _ _

theorem minted_mono (htail : 0 ≤ policy.tailEmission) : Monotone (minted policy) :=
  monotone_nat_of_le_succ fun tip => by
    have hreward : policy.tailEmission ≤ rewardInEra (eraOf (tip + 1) policy) policy :=
      tail_le_rewardInEra
    rw [minted_succ]
    omega

/-- What is minted up to the end of an era is what was minted before it, and its
    reward for each of its blocks. Height `0` is in era `0`, but mints nothing. -/
theorem minted_era (h : 0 < policy.halvingInterval) (era : ℕ) :
    minted policy ((era + 1) * policy.halvingInterval - 1) =
      minted policy (era * policy.halvingInterval - 1) + rewardInEra era policy *
        (if era = 0 then policy.halvingInterval - 1 else policy.halvingInterval : ℕ) := by
  -- The blocks of the era up to its `k`-th height.
  have hpart : ∀ k < policy.halvingInterval,
      minted policy (era * policy.halvingInterval + k) =
        minted policy (era * policy.halvingInterval - 1) + rewardInEra era policy *
          (if era = 0 then k else k + 1 : ℕ) := by
    intro k hk
    induction k with
    | zero =>
      rcases Nat.eq_zero_or_pos era with rfl | hera
      · simp
      · have hpos : 0 < era * policy.halvingInterval := Nat.mul_pos hera h
        obtain ⟨n, hn⟩ : ∃ n, era * policy.halvingInterval = n + 1 := ⟨_, (Nat.succ_pred hpos.ne').symm⟩
        have hdiv : (n + 1) / policy.halvingInterval = era := by
          rw [← hn, Nat.mul_div_cancel _ h]
        rw [if_neg hera.ne', hn, Nat.add_zero, minted_succ, eraOf_of_pos h, hdiv]
        simp
    | succ k ih =>
      have hdiv : (era * policy.halvingInterval + k + 1) / policy.halvingInterval = era := by
        rw [Nat.add_assoc, Nat.mul_comm, Nat.mul_add_div h, Nat.div_eq_of_lt hk, Nat.add_zero]
      rw [← Nat.add_assoc, minted_succ, ih (by omega), eraOf_of_pos h, hdiv]
      split <;> push_cast <;> ring
  have hend : (era + 1) * policy.halvingInterval - 1 =
      era * policy.halvingInterval + (policy.halvingInterval - 1) := by
    rw [Nat.succ_mul]
    omega
  rw [hend, hpart _ (by omega), Nat.sub_add_cancel h]

end Eras

/-! ## The limit of the supply -/

section Limit

variable {policy : MonetaryPolicy}

/-- The loop adds up everything that is minted from an era on: it ends where
    nothing more is. -/
theorem supplyFrom_eq (h : 0 < policy.halvingInterval) (htail : policy.tailEmission = 0)
    (allocation : ℤ) (era : ℕ) :
    ∃ last, supplyFrom policy htail.le era
        (allocation + minted policy (era * policy.halvingInterval - 1)) =
          allocation + minted policy last ∧
      ∀ tip, last ≤ tip → minted policy tip = minted policy last := by
  generalize htotal : allocation + minted policy (era * policy.halvingInterval - 1) = total
  induction era, total using supplyFrom.induct policy htail.le with
  | case1 era total hpays blocks ih =>
    rw [supplyFrom, if_pos hpays]
    refine ih ?_
    rw [minted_era h, ← add_assoc, htotal]
    rfl
  | case2 era total hends =>
    rw [supplyFrom, if_neg hends, ← htotal]
    refine ⟨_, rfl, fun tip hle => ?_⟩
    -- No era from this one on pays anything.
    have hhalved : policy.initialReward / 2 ^ era ≤ policy.tailEmission := by
      rw [rewardInEra_eq_max] at hends
      omega
    induction tip, hle using Nat.le_induction with
    | base => rfl
    | succ tip hle ih =>
      have hera : era ≤ (tip + 1) / policy.halvingInterval := by
        rw [Nat.le_div_iff_mul_le h]
        omega
      rw [minted_succ, ih, eraOf_of_pos h, rewardInEra_of_le htail.ge hhalved hera, htail, add_zero]

theorem maxSupply_eq_some (h : 0 < policy.halvingInterval) (htail : policy.tailEmission = 0)
    (allocation : ℤ) :
    ∃ last, maxSupply policy allocation = some (allocation + minted policy last) ∧
      ∀ tip, last ≤ tip → minted policy tip = minted policy last := by
  obtain ⟨last, hsupply, hlast⟩ := supplyFrom_eq h htail allocation 0
  refine ⟨last, ?_, hlast⟩
  rw [maxSupply, dif_neg (by omega), ← hsupply]
  simp

end Limit

/-! ## The next change of the reward -/

section Halving

variable {policy : MonetaryPolicy} {height : ℕ}

/-- The heights above `max 1 height` with another reward. -/
def rewardChanges (policy : MonetaryPolicy) (height : ℕ) : Set ℕ :=
  { m | max 1 height < m ∧ blockRewardAt m policy ≠ blockRewardAt (max 1 height) policy }

/-- What `nextHalvingHeight` is for: the first change of the reward, if there is
    one. -/
def FindsNextHalving (policy : MonetaryPolicy) (height : ℕ) : Prop :=
  (∀ m, nextHalvingHeight height policy = .ok (some m) ↔ IsLeast (rewardChanges policy height) m) ∧
  (nextHalvingHeight height policy = .ok none ↔ rewardChanges policy height = ∅)

theorem findsNextHalving_of_isLeast {m : ℕ} (hnext : nextHalvingHeight height policy = .ok (some m))
    (hleast : IsLeast (rewardChanges policy height) m) : FindsNextHalving policy height := by
  refine ⟨fun m' => ?_, ?_⟩
  · rw [hnext]
    constructor
    · intro h
      cases h
      exact hleast
    · intro h
      rw [hleast.unique h]
  · rw [hnext]
    exact iff_of_false (by simp) hleast.nonempty.ne_empty

theorem findsNextHalving_of_empty (hnext : nextHalvingHeight height policy = .ok none) :
    FindsNextHalving policy height ↔ rewardChanges policy height = ∅ := by
  rw [FindsNextHalving, hnext]
  constructor
  · intro h
    exact h.2.1 rfl
  · intro h
    simp [h, IsLeast]

theorem mem_rewardChanges {m : ℕ} : m ∈ rewardChanges policy height ↔
    max 1 height < m ∧
      rewardInEra (eraOf m policy) policy ≠ rewardInEra (eraOf (max 1 height) policy) policy := by
  refine and_congr_right fun hm => ?_
  rw [blockRewardAt_of_pos (by omega), blockRewardAt_of_pos (le_max_left _ _), ne_eq,
    Except.ok.injEq]

theorem nextHalvingHeight_eq (h : 0 < policy.halvingInterval) :
    nextHalvingHeight height policy =
      .ok (if rewardInEra (height / policy.halvingInterval + 1) policy <
            rewardInEra (max 1 height / policy.halvingInterval) policy
          then some ((height / policy.halvingInterval + 1) * policy.halvingInterval) else none) := by
  have hpos : 1 ≤ (height / policy.halvingInterval + 1) * policy.halvingInterval :=
    Nat.mul_pos (Nat.succ_pos _) h
  simp only [nextHalvingHeight, if_neg h.ne', eraOf_of_pos h, blockRewardAt_of_pos hpos,
    blockRewardAt_of_pos (le_max_left 1 height), Nat.mul_div_cancel _ h]
  rfl

/-- From an era in which the tail is reached on, the reward does not change. -/
theorem rewardChanges_eq_empty (h : 0 < policy.halvingInterval) (htail : 0 ≤ policy.tailEmission)
    (hreached : policy.initialReward / 2 ^ (max 1 height / policy.halvingInterval) ≤
      policy.tailEmission) : rewardChanges policy height = ∅ := by
  refine Set.eq_empty_of_forall_notMem fun m hm => ?_
  obtain ⟨hlt, hne⟩ := mem_rewardChanges.1 hm
  rw [eraOf_of_pos h, eraOf_of_pos h, rewardInEra_of_le htail hreached le_rfl,
    rewardInEra_of_le htail hreached (Nat.div_le_div_right hlt.le)] at hne
  exact hne rfl

/-- Where the tail is not reached the next era is the first change. -/
theorem isLeast_rewardChanges (h : 0 < policy.halvingInterval) (htail : 0 ≤ policy.tailEmission)
    (hreached : policy.tailEmission <
      policy.initialReward / 2 ^ (max 1 height / policy.halvingInterval)) :
    IsLeast (rewardChanges policy height)
      ((max 1 height / policy.halvingInterval + 1) * policy.halvingInterval) := by
  constructor
  · rw [mem_rewardChanges, eraOf_of_pos h, eraOf_of_pos h, Nat.mul_div_cancel _ h]
    exact ⟨Nat.lt_mul_of_div_lt (Nat.lt_succ_self _) h, ((rewardInEra_succ_lt htail).2 hreached).ne⟩
  · intro m hm
    obtain ⟨hlt, hne⟩ := mem_rewardChanges.1 hm
    rw [eraOf_of_pos h, eraOf_of_pos h] at hne
    have hera : max 1 height / policy.halvingInterval < m / policy.halvingInterval :=
      lt_of_le_of_ne (Nat.div_le_div_right hlt.le) fun heq => hne (by rw [heq])
    exact (Nat.le_div_iff_mul_le h).1 hera

/-- Height `0` is looked up as height `1`: it is in the same era, unless every era
    is one block. -/
theorem div_max_one (h : 0 < policy.halvingInterval)
    (hshort : ¬ (height = 0 ∧ policy.halvingInterval = 1)) :
    max 1 height / policy.halvingInterval = height / policy.halvingInterval := by
  rcases Nat.eq_zero_or_pos height with rfl | hpos
  · rw [Nat.zero_div, Nat.div_eq_of_lt]
    omega
  · rw [max_eq_right hpos]

theorem findsNextHalving_of_era (h : 0 < policy.halvingInterval) (htail : 0 ≤ policy.tailEmission)
    (hera : max 1 height / policy.halvingInterval = height / policy.halvingInterval) :
    FindsNextHalving policy height := by
  have hnext : nextHalvingHeight height policy = _ := nextHalvingHeight_eq h
  rw [← hera] at hnext
  by_cases hreached : policy.tailEmission <
      policy.initialReward / 2 ^ (max 1 height / policy.halvingInterval)
  · rw [if_pos ((rewardInEra_succ_lt htail).2 hreached)] at hnext
    exact findsNextHalving_of_isLeast hnext (isLeast_rewardChanges h htail hreached)
  · rw [if_neg fun hlt => hreached ((rewardInEra_succ_lt htail).1 hlt)] at hnext
    exact (findsNextHalving_of_empty hnext).2
      (rewardChanges_eq_empty h htail (not_lt.1 hreached))

/-- With eras of one block the candidate at height `0` is height `1`, which is not
    above `max 1 0`: nothing is found, and that is right only if height `1` has the
    last reward. -/
theorem findsNextHalving_at_zero (h : policy.halvingInterval = 1) (htail : 0 ≤ policy.tailEmission) :
    FindsNextHalving policy 0 ↔ policy.initialReward / 2 ≤ policy.tailEmission := by
  have hpos : 0 < policy.halvingInterval := by omega
  have hnext : nextHalvingHeight 0 policy = .ok none := by
    rw [nextHalvingHeight_eq hpos, h]
    simp
  rw [findsNextHalving_of_empty hnext]
  constructor
  · intro hempty
    by_contra hreached
    have hleast : IsLeast (rewardChanges policy 0)
        ((max 1 0 / policy.halvingInterval + 1) * policy.halvingInterval) := by
      refine isLeast_rewardChanges hpos htail ?_
      rw [h]
      exact not_le.1 hreached
    exact hleast.nonempty.ne_empty hempty
  · intro hreached
    refine rewardChanges_eq_empty hpos htail ?_
    rw [h]
    exact hreached

theorem findsNextHalving_iff (htail : 0 ≤ policy.tailEmission) :
    FindsNextHalving policy height ↔
      ¬ (height = 0 ∧ policy.halvingInterval = 1 ∧
        policy.tailEmission < policy.initialReward / 2) := by
  rcases Nat.eq_zero_or_pos policy.halvingInterval with hzero | hpos
  · have hnext : nextHalvingHeight height policy = .ok none := by
      rw [nextHalvingHeight, if_pos hzero]
      rfl
    refine iff_of_true ((findsNextHalving_of_empty hnext).2 ?_) (by omega)
    refine Set.eq_empty_of_forall_notMem fun m hm => (mem_rewardChanges.1 hm).2 ?_
    rw [eraOf, eraOf, if_neg (by omega), if_neg (by omega)]
  by_cases hshort : height = 0 ∧ policy.halvingInterval = 1
  · obtain ⟨rfl, hone⟩ := hshort
    rw [findsNextHalving_at_zero hone htail]
    omega
  · exact iff_of_true (findsNextHalving_of_era hpos htail (div_max_one hpos hshort)) (by omega)

end Halving

/-! ## Supply and halving -/

/-- The supply has its limit, and reaches it. -/
def LimitsSupply (policy : MonetaryPolicy) (genesisAllocation : ℤ) : Prop :=
  ∃ limit, maxSupply policy genesisAllocation = some limit ∧
    IsLUB { supply | ∃ tip sum, rewardsUpTo tip policy = .ok sum ∧
      supply = genesisAllocation + sum } limit ∧
    ∃ last, ∀ tip, last ≤ tip → rewardsUpTo tip policy = .ok (limit - genesisAllocation)

theorem limitsSupply {policy : MonetaryPolicy} (h : 0 < policy.halvingInterval)
    (htail : policy.tailEmission = 0) (genesisAllocation : ℤ) :
    LimitsSupply policy genesisAllocation := by
  obtain ⟨last, hsupply, hlast⟩ := maxSupply_eq_some h htail genesisAllocation
  refine ⟨_, hsupply, ⟨?_, ?_⟩, last, fun tip hle => ?_⟩
  · rintro _ ⟨tip, sum, hsum, rfl⟩
    rw [rewardsUpTo_eq] at hsum
    cases hsum
    have hmono := minted_mono htail.ge (le_max_left tip last)
    rw [hlast _ (le_max_right tip last)] at hmono
    omega
  · intro bound hbound
    exact hbound ⟨last, _, rewardsUpTo_eq last, rfl⟩
  · rw [rewardsUpTo_eq, hlast tip hle]
    congr 1
    omega

/-- The limit of the supply is right for every schedule that ends. The next
    halving is right too, but for height `0` of a schedule that halves with every
    block. -/
theorem supply_iff (policy : MonetaryPolicy) (genesisAllocation : ℤ) (height : ℕ)
    (htail : 0 ≤ policy.tailEmission) :
    ((1 ≤ policy.halvingInterval → policy.tailEmission = 0 →
        LimitsSupply policy genesisAllocation) ∧ FindsNextHalving policy height) ↔
      ¬ (height = 0 ∧ policy.halvingInterval = 1 ∧
        policy.tailEmission < policy.initialReward / 2) := by
  rw [findsNextHalving_iff htail]
  exact and_iff_right fun h hzero => limitsSupply h hzero genesisAllocation

/-- A reward of `4` that halves with every block: `2` at height `1`, and `1` at
    height `2`, which is not found. -/
theorem nextHalvingHeight_missed :
    nextHalvingHeight 0 ⟨4, 1, 0⟩ = .ok none ∧ 2 ∈ rewardChanges ⟨4, 1, 0⟩ 0 ∧
      ¬ FindsNextHalving ⟨4, 1, 0⟩ 0 := by
  have hnext : nextHalvingHeight 0 ⟨4, 1, 0⟩ = .ok none := by decide
  have hchange : 2 ∈ rewardChanges ⟨4, 1, 0⟩ 0 := ⟨by decide, by decide⟩
  refine ⟨hnext, hchange, fun h => ?_⟩
  have hempty := h.2.1 hnext
  rw [hempty] at hchange
  exact hchange

/-- A schedule of `1000` that halves every four blocks, at height `4`. -/
theorem supply_sample :
    ((1 ≤ 4 → (0 : ℤ) = 0 → LimitsSupply ⟨1000, 4, 0⟩ 500) ∧ FindsNextHalving ⟨1000, 4, 0⟩ 4) ∧
      maxSupply ⟨1000, 4, 0⟩ 500 = some 7476 ∧ nextHalvingHeight 4 ⟨1000, 4, 0⟩ = .ok (some 8) :=
  ⟨(supply_iff ⟨1000, 4, 0⟩ 500 4 (by decide)).2 (by decide),
    by decide +kernel, by decide⟩

end Plainchain
