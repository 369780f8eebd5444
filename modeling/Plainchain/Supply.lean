import Plainchain.Consensus.BlockValidator
import Plainchain.Consensus.Monetary
import Plainchain.State.UtxoSet

/-!
# The supply

Chains of blocks connected to a UTXO set one after the other, from a set that
holds the genesis allocation only (`Connected`), and the sum of all unspent
amounts along them (`UtxoSet.supply`).

Spending a transaction's inputs and creating its outputs changes the supply by
at most outputs minus inputs (`supply_apply`), which a non-coinbase transaction
makes at most minus its fee. So a block adds no more than its reward
(`supply_connect`) provided that its coinbase pays no more than the reward and
the fees of the *other* transactions (`HonestCoinbase`).
The cap that `validateBlock` puts on a coinbase is not that one: it counts the
`fee` field of the coinbase itself among the fees, and nothing pays that fee.
-/

namespace Plainchain

open Js Kv List

/-- The sum of all unspent amounts. -/
def UtxoSet.supply (u : UtxoSet) : ℤ := u.store.total fun entry => entry.amount

/-- The sum of `blockRewardAt` for the heights from `1` to `n`, where it is
    always defined. -/
def emission (policy : MonetaryPolicy) (n : ℕ) : ℤ :=
  ∑ h ∈ Finset.Icc 1 n, (blockRewardAt h policy).toOption.getD 0

/-- The coinbase of a block pays at most the block reward and the fees of the
    other transactions. -/
def HonestCoinbase (policy : MonetaryPolicy) (block : Block) : Prop :=
  ∀ coinbase rest reward, block.transactions = coinbase :: rest →
    blockRewardAt block.header.height policy = .ok reward →
    totalAmount coinbase.outputs ≤ reward + totalFee rest

/-- A set whose writes are persisted, and whose amounts are not negative. -/
structure UtxoSet.Settled (u : UtxoSet) : Prop where
  staging : u.staging = none
  nonneg : ∀ key entry, u.store.get key = some entry → 0 ≤ entry.amount

variable {undos : List TxUndo}

section Step

variable {S : SignatureScheme} {u u' : UtxoSet} {height : ℕ}

theorem UtxoSet.Settled.write {ops : List UtxoWrite} (h : u.Settled)
    (hops : ∀ key entry, (key, some entry) ∈ ops → 0 ≤ entry.amount) : (u.write ops).Settled := by
  obtain ⟨store, staging, maturity⟩ := u
  obtain ⟨rfl, hs⟩ := h
  refine ⟨rfl, fun key entry hget => ?_⟩
  change (store.batch ops).get key = some entry at hget
  rw [Store.get_batch] at hget
  cases hl : lastWrite ops key with
  | none =>
    rw [hl] at hget
    exact hs key entry hget
  | some v =>
    rw [hl, Option.getD_some] at hget
    subst hget
    exact hops key entry (mem_of_lastWrite hl)

theorem createdEntries_amounts (tx : Transaction) (height : ℕ) :
    (createdEntries tx height).map (fun e => e.2.amount) = tx.outputs.map TxOutput.amount := by
  rw [createdEntries, map_map]
  calc tx.outputs.zipIdx.map _ = (tx.outputs.zipIdx.map Prod.fst).map TxOutput.amount := by
        rw [map_map]; rfl
    _ = tx.outputs.map TxOutput.amount := by rw [zipIdx_map_fst]

variable {tx : Transaction}

theorem amount_nonneg_of_mem_createdEntries (h : WellStructured tx) {e : Text × UtxoEntry}
    (he : e ∈ createdEntries tx height) : 0 ≤ e.2.amount := by
  have hmem := mem_map_of_mem (f := fun e : Text × UtxoEntry => e.2.amount) he
  rw [createdEntries_amounts, mem_map] at hmem
  obtain ⟨output, ho, heq⟩ := hmem
  exact heq ▸ (h.amount_pos output ho).le

theorem amount_nonneg_of_mem_createOps (h : WellStructured tx) (key : Text) (entry : UtxoEntry)
    (hmem : (key, some entry) ∈ spendOps tx ++ createOps tx height) : 0 ≤ entry.amount := by
  rcases mem_append.1 hmem with hmem | hmem
  · simp [spendOps] at hmem
  · obtain ⟨e, he, heq⟩ := mem_map.1 hmem
    cases heq
    exact amount_nonneg_of_mem_createdEntries h he

theorem UtxoSet.Settled.apply {undo : TxUndo} (hu : u.Settled)
    (h : applyTransaction S u tx height = .ok (undo, u')) : u'.Settled := by
  obtain ⟨hv, heq⟩ := applyTransaction_eq_ok.1 h
  obtain ⟨-, rfl⟩ := Prod.mk.inj heq
  exact hu.write (amount_nonneg_of_mem_createOps hv.structured)

/-- Transactions applied in order keep what each of them keeps. -/
theorem applyTransactions_induction {P : UtxoSet → Prop} {txs : List Transaction} (h : applyTransactions S height u txs = .ok (undos, u')) (h₀ : P u)
    (hstep : ∀ {tx undo v v'}, tx ∈ txs → applyTransaction S v tx height = .ok (undo, v') →
      P v → P v') : P u' := by
  induction txs generalizing u undos with
  | nil =>
    cases h
    exact h₀
  | cons tx txs ih =>
    obtain ⟨undo, u₁, undos₂, h₁, h₂, rfl⟩ := applyTransactions_cons_eq_ok h
    exact ih h₂ (hstep mem_cons_self h₁ h₀)
      fun hmem => hstep (mem_cons_of_mem _ hmem)

/-- A transaction changes the supply by at most its outputs minus its inputs. -/
theorem supply_apply {undo : TxUndo} (hu : u.Settled)
    (h : applyTransaction S u tx height = .ok (undo, u')) :
    u'.supply ≤ u.supply - (tx.inputs.map fun input => u.amountAt input.key).sum
      + totalAmount tx.outputs := by
  obtain ⟨hv, heq⟩ := applyTransaction_eq_ok.1 h
  obtain ⟨-, rfl⟩ := Prod.mk.inj heq
  obtain ⟨store, staging, maturity⟩ := u
  obtain ⟨rfl, hnonneg⟩ := hu
  let amount : UtxoEntry → ℤ := fun entry => entry.amount
  -- The inputs are deleted, each once.
  have hdel : (store.batch (spendOps tx)).total amount = store.total amount -
      (tx.inputs.map fun input => (store.get input.key).elim 0 amount).sum := by
    simpa only [spendOps, map_map, Function.comp_def] using
      Store.total_batch_delete amount store hv.structured.nodup_inputs
  -- Then the outputs are put.
  have hmid : ∀ key entry, (store.batch (spendOps tx)).get key = some entry →
      0 ≤ amount entry :=
    (UtxoSet.Settled.write ⟨rfl, hnonneg⟩ (by simp [spendOps]) :
      (UtxoSet.write ⟨store, none, maturity⟩ (spendOps tx)).Settled).nonneg
  have hput := Store.total_batch_put_le amount _ hmid
    fun e (he : e ∈ createdEntries tx height) =>
      amount_nonneg_of_mem_createdEntries hv.structured he
  rw [createdEntries_amounts, hdel, ← createOps, ← Store.batch_append] at hput
  exact hput

/-- Transactions that spend something lower the supply by their fees. -/
theorem supply_applyTransactions {txs : List Transaction} (hu : u.Settled)
    (hin : ∀ tx ∈ txs, tx.inputs ≠ []) (h : applyTransactions S height u txs = .ok (undos, u')) :
    u'.supply ≤ u.supply - totalFee txs := by
  induction txs generalizing u undos with
  | nil =>
    cases h
    simp [totalFee]
  | cons tx txs ih =>
    obtain ⟨undo, u₁, undos₂, h₁, h₂, rfl⟩ := applyTransactions_cons_eq_ok h
    rw [forall_mem_cons] at hin
    have hle₁ := supply_apply hu h₁
    have hle₂ := ih (hu.apply h₁) hin.2 h₂
    have hcov := (applyTransaction_eq_ok.1 h₁).1.covered hin.1
    simp only [totalFee, map_cons, sum_cons] at hle₂ ⊢
    linarith

/-- The coins a block adds are at most its reward, if its coinbase is honest. -/
theorem supply_connect {policy : MonetaryPolicy} {block : Block} {ctx : BlockValidationContext}
    (hu : u.Settled) (hvalid : validateBlock S block ctx = .ok ())
    (hreward : blockRewardAt block.header.height policy = .ok ctx.blockReward)
    (happly : applyTransactions S height u block.transactions = .ok (undos, u'))
    (hcb : HonestCoinbase policy block) : u'.supply ≤ u.supply + ctx.blockReward := by
  obtain ⟨coinbase, rest, hv⟩ := validateBlock_eq_ok.1 hvalid
  rw [hv.transactions_eq] at happly
  obtain ⟨undo, u₁, undos₂, h₁, h₂, rfl⟩ := applyTransactions_cons_eq_ok happly
  have hle₁ := supply_apply hu h₁
  have hle₂ := supply_applyTransactions (hu.apply h₁) hv.rest_inputs h₂
  have hpay := hcb coinbase rest _ hv.transactions_eq hreward
  rw [hv.coinbase_inputs, map_nil, sum_nil] at hle₁
  linarith

end Step

/-! ## Chains -/

section Chain

variable (S : SignatureScheme) (config : GenesisConfig) (policy : MonetaryPolicy) (maturity : ℕ)

/-- The chains, tip first, whose blocks were accepted by `validateBlock` with the
    reward of their height and connected one after the other, and the UTXO set
    this leads to. -/
inductive Connected : List Block → UtxoSet → Prop
  | genesis {genesis : Block} {undos : List TxUndo} {u : UtxoSet} :
    createGenesisBlock config = .ok genesis →
    applyTransactions S 0 (.new .empty maturity) genesis.transactions = .ok (undos, u) →
    Connected [genesis] u
  | connect {parent block : Block} {chain : List Block} {u u' : UtxoSet}
    {ctx : BlockValidationContext} {undos : List TxUndo} :
    Connected (parent :: chain) u →
    ctx.parent = parent →
    blockRewardAt block.header.height policy = .ok ctx.blockReward →
    validateBlock S block ctx = .ok () →
    applyTransactions S block.header.height u block.transactions = .ok (undos, u') →
    Connected (block :: parent :: chain) u'

variable {S config policy maturity} {chain : List Block} {u : UtxoSet}

theorem emission_succ (n : ℕ) {reward : ℤ} (h : blockRewardAt (n + 1) policy = .ok reward) :
    emission policy (n + 1) = emission policy n + reward := by
  rw [emission, Finset.sum_Icc_succ_top (by omega), h]
  rfl

/-- The set of a connected chain is persisted, and has no negative amounts. -/
theorem Connected.settled (h : Connected S config policy maturity chain u) : u.Settled := by
  induction h with
  | genesis _ happly =>
    exact applyTransactions_induction happly ⟨rfl, by simp [UtxoSet.new]⟩
      fun _ happly hv => hv.apply happly
  | connect _ _ _ _ happly ih =>
    exact applyTransactions_induction happly ih fun _ happly hv => hv.apply happly

/-- Connecting genesis creates its allocation. -/
theorem supply_genesis {genesis : Block} (hg : createGenesisBlock config = .ok genesis)
    (happly : applyTransactions S 0 (.new .empty maturity) genesis.transactions = .ok (undos, u)) :
    ∃ allocation, genesisAllocationTotal config = .ok allocation ∧ u.supply ≤ allocation := by
  obtain ⟨allocations, hall, htxs, -⟩ := createGenesisBlock_eq_ok hg
  rw [htxs] at happly
  simp only [applyTransactions, bind_eq_ok] at happly
  obtain ⟨⟨undo, u₁⟩, h₁, ⟨undos₂, u₂⟩, h₂, h⟩ := happly
  cases h₂
  cases h
  have hle := supply_apply ⟨rfl, by simp [UtxoSet.new]⟩ h₁
  refine ⟨totalAmount allocations, by rw [genesisAllocationTotal, hall]; rfl, ?_⟩
  simpa [genesisCoinbase, UnsignedTransactionBody.identified, UtxoSet.supply, UtxoSet.new] using hle

/-- Along every chain whose coinbases are honest, the supply stays within the
    genesis allocation and the rewards of the heights reached, and the next
    block with an honest coinbase adds at most its reward. -/
theorem supply_cap (h : Connected S config policy maturity chain u)
    (hcb : ∀ block ∈ chain, HonestCoinbase policy block) :
    (∃ allocation, genesisAllocationTotal config = .ok allocation ∧
      ∀ tip ∈ chain.head?, u.supply ≤ allocation + emission policy tip.header.height) ∧
    ∀ (block : Block) (ctx : BlockValidationContext) (undos : List TxUndo) (u' : UtxoSet),
      ctx.parent ∈ chain.head? → validateBlock S block ctx = .ok () →
      blockRewardAt block.header.height policy = .ok ctx.blockReward →
      applyTransactions S block.header.height u block.transactions = .ok (undos, u') →
      HonestCoinbase policy block → u'.supply ≤ u.supply + ctx.blockReward := by
  refine ⟨?_, fun block ctx undos u' _ hvalid hreward happly hhonest =>
    supply_connect h.settled hvalid hreward happly hhonest⟩
  induction h with
  | genesis hg happly =>
    obtain ⟨allocation, hall, hle⟩ := supply_genesis hg happly
    obtain ⟨-, -, -, hheight, -⟩ := createGenesisBlock_eq_ok hg
    refine ⟨allocation, hall, fun tip htip => ?_⟩
    cases htip
    simpa [hheight, emission] using hle
  | connect hconn hparent hreward hvalid happly ih =>
    rw [forall_mem_cons] at hcb
    obtain ⟨allocation, hall, hle⟩ := ih hcb.2
    refine ⟨allocation, hall, fun tip htip => ?_⟩
    cases htip
    have hadd := supply_connect hconn.settled hvalid hreward happly hcb.1
    have hprev := hle _ rfl
    obtain ⟨_, _, hv⟩ := validateBlock_eq_ok.1 hvalid
    have hheight := hv.header.height_eq
    simp only [BlockValidationContext.forHeader, hparent] at hheight
    rw [hheight] at hreward ⊢
    rw [emission_succ _ hreward]
    linarith

end Chain

/-! ## A coinbase with a fee -/

/-- A chain that starts with `50` coins and pays `50` for every block. -/
def sampleConfig : GenesisConfig :=
  { timestamp := 1, difficultyTarget := easiestTarget, reward := 50, genesisAddress := lit "a",
    allocations := none }

def samplePolicy : MonetaryPolicy := { initialReward := 50, halvingInterval := 0, tailEmission := 0 }

def sampleGenesis : Block :=
  let coinbase := genesisCoinbase sampleConfig [⟨lit "a", 50⟩]
  let header : BlockHeader :=
    { version := 1, previousHash := ZERO_HASH, merkleRoot := coinbase.id, timestamp := 1,
      difficultyTarget := easiestTarget, nonce := 0, height := 0, signer := none,
      signature := none }
  { header, transactions := [coinbase], hash := computeBlockHash header }

/-- A coinbase that declares a fee. -/
def sampleCoinbase (amount fee : ℤ) : Transaction :=
  UnsignedTransactionBody.identified
    { inputs := [], outputs := [⟨lit "m", amount⟩], timestamp := .ofNat 2, fee, data := none }

/-- The sample chain, its coins given to the holder of the key `k`. -/
def paidConfig : GenesisConfig := { sampleConfig with genesisAddress := deriveAddress (lit "k") }

def paidCoinbase : Transaction := genesisCoinbase paidConfig [⟨deriveAddress (lit "k"), 50⟩]

/-- A payment of the coins of a transaction of `k`, for a fee of one. -/
def payment (txId : Text) (address : Text) : Transaction :=
  UnsignedTransactionBody.identified
    { inputs := [⟨txId, .ofNat 0, lit "", lit "k"⟩], outputs := [⟨address, 49⟩],
      timestamp := .ofNat 2, fee := 1, data := none }

/-- The block of a coinbase on top of a parent, one millisecond later. -/
def sampleBlock (parent : Block) (coinbase : Transaction) : Block :=
  let header : BlockHeader :=
    { version := 1, previousHash := parent.hash, merkleRoot := coinbase.id,
      timestamp := parent.header.timestamp + 1, difficultyTarget := easiestTarget, nonce := 0,
      height := parent.header.height + 1, signer := none, signature := none }
  { header, transactions := [coinbase], hash := computeBlockHash header }

def sampleContext (parent : Block) : BlockValidationContext :=
  { expectedTarget := easiestTarget, now := 100, maxFutureDriftMs := 0, checkpoint := none,
    engine := none, recentSigners := none, parent, blockReward := 50, maxBlockBytes := none,
    maxTransactionsPerBlock := none }

theorem createGenesisBlock_sample : createGenesisBlock sampleConfig = .ok sampleGenesis := rfl

/-- The coinbase that pays the reward only makes a valid block. -/
theorem validateBlock_sample : validateBlock noSignatures
    (sampleBlock sampleGenesis (sampleCoinbase 50 0)) (sampleContext sampleGenesis) = .ok () := by
  decide +kernel

/-- A valid block on the sample genesis is connected. -/
theorem connected_sampleBlock {coinbase : Transaction} {undos₀ undos₁ : List TxUndo}
    {u₀ u₁ : UtxoSet}
    (hvalid : validateBlock noSignatures (sampleBlock sampleGenesis coinbase)
      (sampleContext sampleGenesis) = .ok ())
    (h₀ : applyTransactions noSignatures 0 (.new .empty 0) sampleGenesis.transactions =
      .ok (undos₀, u₀))
    (h₁ : applyTransactions noSignatures 1 u₀ [coinbase] = .ok (undos₁, u₁)) :
    Connected noSignatures sampleConfig samplePolicy 0
      [sampleBlock sampleGenesis coinbase, sampleGenesis] u₁ := by
  have hparent : (sampleContext sampleGenesis).parent = sampleGenesis := rfl
  have hreward : blockRewardAt 1 samplePolicy = .ok 50 := by decide +kernel
  exact .connect (.genesis createGenesisBlock_sample h₀) hparent hreward hvalid h₁

/-- The cap on a chain of one block, whose coinbase pays the reward only. -/
theorem supply_cap_sample : ∃ u, Connected noSignatures sampleConfig samplePolicy 0
    [sampleBlock sampleGenesis (sampleCoinbase 50 0), sampleGenesis] u ∧
    ∃ allocation, genesisAllocationTotal sampleConfig = .ok allocation ∧
      ∀ tip ∈ [sampleBlock sampleGenesis (sampleCoinbase 50 0), sampleGenesis].head?,
        u.supply ≤ allocation + emission samplePolicy tip.header.height := by
  have hrun : (do
      let r₀ ← applyTransactions noSignatures 0 (.new .empty 0) sampleGenesis.transactions
      let r₁ ← applyTransactions noSignatures 1 r₀.2 [sampleCoinbase 50 0]
      pure r₁.2.supply) = .ok 100 := by decide +kernel
  simp only [bind_eq_ok] at hrun
  obtain ⟨⟨_, _⟩, h₀, ⟨_, u⟩, h₁, -⟩ := hrun
  have hconn := connected_sampleBlock validateBlock_sample h₀ h₁
  have hhonest : ∀ block ∈ [sampleBlock sampleGenesis (sampleCoinbase 50 0), sampleGenesis],
      HonestCoinbase samplePolicy block := by
    simp only [forall_mem_cons, not_mem_nil, false_implies, implies_true, and_true]
    constructor
    · intro coinbase rest reward htxs hreward
      cases htxs
      rw [blockRewardAt_eq_ok] at hreward
      obtain ⟨-, rfl⟩ := hreward
      decide +kernel
    · intro coinbase rest reward _ hreward
      exact absurd (blockRewardAt_eq_ok.1 hreward).1 (by decide)
  exact ⟨u, hconn, (supply_cap hconn hhonest).1⟩

/-- A coinbase that declares a fee of `1` mints a coin more than the schedule
    allows. -/
theorem supply_cap_exceeded : ∃ chain u, Connected noSignatures sampleConfig samplePolicy 0 chain u ∧
    genesisAllocationTotal sampleConfig = .ok 50 ∧ chain.head?.map (·.header.height) = some 1 ∧
    emission samplePolicy 1 = 50 ∧ u.supply = 101 := by
  have hrun : (do
      let r₀ ← applyTransactions noSignatures 0 (.new .empty 0) sampleGenesis.transactions
      let r₁ ← applyTransactions noSignatures 1 r₀.2 [sampleCoinbase 51 1]
      pure r₁.2.supply) = .ok 101 := by decide +kernel
  simp only [bind_eq_ok] at hrun
  obtain ⟨⟨_, _⟩, h₀, ⟨_, u⟩, h₁, hsupply⟩ := hrun
  have hvalid : validateBlock noSignatures (sampleBlock sampleGenesis (sampleCoinbase 51 1))
      (sampleContext sampleGenesis) = .ok () := by decide +kernel
  exact ⟨_, u, connected_sampleBlock hvalid h₀ h₁, rfl, rfl, rfl, Except.ok.inj hsupply⟩

end Plainchain
