import Plainchain.Node.Run

/-!
# The coinbase of a template

A template pays its miner the reward of its height and the fees of what it includes
(`coinbase_of_template`). A transaction may not have an output without value, so
that such a coinbase is refused where the schedule has ended and nothing pays a fee
(`coinbase_iff`).
-/

namespace Plainchain

open Js Kv List

section Included

variable {opts : NodeOptions} {env : Env} {parent : Block} {timestamp : ℕ} {target : Text}

/-- A template is a coinbase and some of what is pending: the coinbase pays the reward
    of the height and the fees. -/
theorem coinbase_of_template {w : World} {template : Template}
    (h : buildBlockTemplate opts env w = .ok template) :
    ∃ timestamp reward included, included.Sublist w.mempool.getTransactionsByFee ∧
      blockRewardAt template.header.height opts.policy = .ok reward ∧
      template.transactions =
        buildCoinbase opts timestamp reward (totalFee included) :: included := by
  obtain ⟨tip, parent, target, -, -, -, hfill⟩ := buildBlockTemplate_eq_ok h
  obtain ⟨reward, bytes, hreward, -, htxs, hheader⟩ := fillTemplate_eq_ok hfill
  obtain ⟨included, hincluded, heq, -⟩ := dropLast_eq_ok htxs
  obtain ⟨added, hselected, hadded, -⟩ := @selectTransactions_spec (templateMaxBytes opts)
    (templateMaxTransactions opts) bytes [] w.mempool.getTransactionsByFee
  rw [reverse_reverse, hselected, nil_append] at hincluded
  refine ⟨_, reward, included, hincluded.trans hadded, ?_, heq⟩
  rw [(headerFor_eq_ok hheader).2]
  exact hreward

end Included

/-- A coinbase is well structured exactly if it pays something. -/
theorem wellStructured_buildCoinbase {opts : NodeOptions} {timestamp : ℕ} {reward fees : ℤ} :
    validateTransactionStructure (buildCoinbase opts timestamp reward fees) = .ok () ↔
      0 < reward + fees := by
  rw [validateTransactionStructure_eq_ok]
  constructor
  · intro h
    exact h.amount_pos _ mem_cons_self
  · intro hpos
    exact
      { id_eq := rfl
        outputs_ne := cons_ne_nil _ _
        amount_pos := by
          intro output houtput
          rw [mem_singleton.1 houtput]
          exact hpos
        fee_nonneg := le_rfl
        data_hex := by rintro d ⟨⟩
        data_ne := by rintro d ⟨⟩
        data_length := by rintro d ⟨⟩
        nodup_inputs := nodup_nil }

/-- Fees add up to something exactly if one of them does. -/
theorem totalFee_pos_iff {txs : List Transaction} (h : ∀ tx ∈ txs, WellStructured tx) :
    0 ≤ totalFee txs ∧ (0 < totalFee txs ↔ ∃ tx ∈ txs, 0 < tx.fee) := by
  induction txs with
  | nil => simp [totalFee]
  | cons tx txs ih =>
    obtain ⟨hnonneg, hiff⟩ := ih fun tx htx => h tx (mem_cons_of_mem _ htx)
    have hfee := (h tx mem_cons_self).fee_nonneg
    have hsum : totalFee (tx :: txs) = tx.fee + totalFee txs := by
      rw [totalFee, map_cons, sum_cons, ← totalFee]
    rw [hsum, exists_mem_cons_iff, ← hiff]
    omega

/-- Where the schedule pays. -/
theorem rewardInEra_pos_iff {policy : MonetaryPolicy} {era : ℕ} :
    0 < rewardInEra era policy ↔
      0 < policy.tailEmission ∨ 0 < policy.initialReward / 2 ^ era := by
  rw [rewardInEra]
  split <;> omega

/-- The coinbase of a selection is within what it may pay. It is well structured
    exactly if the schedule pays at its height, or the selection does. The coinbase of
    a template is that of what the template includes. -/
theorem coinbase_iff (opts : NodeOptions) (height timestamp : ℕ) (selected : List Transaction)
    (htail : 0 ≤ opts.policy.tailEmission) (hheight : 1 ≤ height)
    (hselected : ∀ tx ∈ selected, validateTransactionStructure tx = .ok ()) :
    ((∃ reward, blockRewardAt height opts.policy = .ok reward ∧
        validateTransactionStructure
          (buildCoinbase opts timestamp reward (totalFee selected)) = .ok () ∧
        totalAmount (buildCoinbase opts timestamp reward (totalFee selected)).outputs ≤
          reward + totalFee selected) ↔
      (0 < opts.policy.tailEmission ∨
        0 < opts.policy.initialReward / 2 ^ eraOf height opts.policy ∨
        ∃ tx ∈ selected, 0 < tx.fee)) ∧
    ∀ env w template, buildBlockTemplate opts env w = .ok template →
      ∃ timestamp reward included, included.Sublist w.mempool.getTransactionsByFee ∧
        blockRewardAt template.header.height opts.policy = .ok reward ∧
        template.transactions =
          buildCoinbase opts timestamp reward (totalFee included) :: included := by
  refine ⟨?_, fun env w template h => coinbase_of_template h⟩
  obtain ⟨hnonneg, hfees⟩ := totalFee_pos_iff fun tx htx =>
    validateTransactionStructure_eq_ok.1 (hselected tx htx)
  have hreward : 0 ≤ rewardInEra (eraOf height opts.policy) opts.policy := by
    rw [rewardInEra]
    split <;> omega
  have hpays : 0 < rewardInEra (eraOf height opts.policy) opts.policy ↔ _ := rewardInEra_pos_iff
  have htotal : ∀ reward fees, totalAmount (buildCoinbase opts timestamp reward fees).outputs =
      reward + fees := fun reward fees => add_zero _
  rw [← or_assoc, ← hpays, ← hfees]
  constructor
  · rintro ⟨reward, heq, hstructured, -⟩
    obtain ⟨-, rfl⟩ := blockRewardAt_eq_ok.1 heq
    have := wellStructured_buildCoinbase.1 hstructured
    omega
  · intro hpos
    exact ⟨_, blockRewardAt_eq_ok.2 ⟨hheight, rfl⟩, wellStructured_buildCoinbase.2 (by omega),
      (htotal _ _).le⟩

/-- A node whose reward of one halves with every block: there is nothing left at
    height `1`. -/
def endedOptions : NodeOptions :=
  { sampleOptions with
    policy := { initialReward := 1, halvingInterval := 1, tailEmission := 0 } }

/-- The template of that node is a coinbase that no block may have. -/
theorem coinbase_refused :
    (buildBlockTemplate endedOptions sampleEnv (started endedOptions)).toOption.map (fun template =>
      template.transactions.map fun tx => validateTransactionStructure tx) =
        some [.error (.invalid (lit "output amount must be positive, got 0"))] := by
  decide +kernel

/-- With a payment the coinbase of that node is one that a block may have: it pays the
    fee. -/
theorem coinbase_sample :
    ∃ reward, blockRewardAt 1 endedOptions.policy = .ok reward ∧
      validateTransactionStructure (buildCoinbase endedOptions 2 reward
        (totalFee [payment paidCoinbase.id (lit "n")])) = .ok () ∧
      totalAmount (buildCoinbase endedOptions 2 reward
        (totalFee [payment paidCoinbase.id (lit "n")])).outputs ≤
        reward + totalFee [payment paidCoinbase.id (lit "n")] :=
  (coinbase_iff endedOptions 1 2 _ le_rfl le_rfl (by decide +kernel)).1.2
    (.inr (.inr ⟨_, mem_singleton_self _, by decide⟩))

end Plainchain
