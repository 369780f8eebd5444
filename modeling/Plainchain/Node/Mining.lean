import Plainchain.Node.Sync

/-!
# Mining

`buildBlockTemplate` and `mineBlockSerialized` of `src/node/node.ts`. A template
is made of the tip and the mempool under the chain lock: a coinbase, and pending
transactions by fee as far as the limits of a block allow. It is sealed without
the lock, so that the tip may have moved when the seal is found; the block is
then stale.
-/

namespace Plainchain

open Js Kv List

/-- A block that is not sealed yet. -/
structure Template where
  header : BlockHeader
  transactions : List Transaction

def serializeTransaction (tx : Transaction) : Text := (toWireTransaction tx).stringify.getD []

section Template

variable (opts : NodeOptions) (parent : Block) (timestamp : ℕ) (expectedTarget : Text)

def templateMaxBytes : ℕ := opts.maxBlockBytes.getD DEFAULT_MAX_BLOCK_BYTES

def templateMaxTransactions : ℕ :=
  opts.maxTransactionsPerBlock.getD DEFAULT_MAX_TRANSACTIONS_PER_BLOCK

/-- The coinbase that pays the miner the reward and the fees. -/
def buildCoinbase (reward fees : ℤ) : Transaction :=
  UnsignedTransactionBody.identified
    { inputs := [], outputs := [⟨opts.minerAddress, reward + fees⟩],
      timestamp := .ofNat timestamp, fee := 0, data := none }

def headerFor (txs : List Transaction) : Except Text BlockHeader := do
  let root ← merkleRoot (txs.map Transaction.id)
  pure { version := 1, previousHash := parent.hash, merkleRoot := root, timestamp,
         difficultyTarget := expectedTarget, nonce := 0, height := parent.header.height + 1,
         signer := none, signature := none }

/-- The size of the block that a template makes. -/
def measure (txs : List Transaction) : Except Text ℕ := do
  let header ← headerFor parent timestamp expectedTarget txs
  pure (blockByteSize { header, transactions := txs, hash := ZERO_HASH })

/-- Fills a block: a transaction that does not fit is passed over, as a smaller
    one may. -/
def selectTransactions (maxBytes maxTransactions : ℕ) : (selected : List Transaction) →
    (bytes : ℕ) → List Transaction → List Transaction
  | selected, _, [] => selected
  | selected, bytes, tx :: pending =>
    if maxTransactions ≤ selected.length + 1 then selected
    else
      let extra := (utf8 (serializeTransaction tx)).length + 1
      if maxBytes < bytes + extra then selectTransactions maxBytes maxTransactions selected bytes pending
      else
        selectTransactions maxBytes maxTransactions (selected ++ [tx]) (bytes + extra) pending

/-- Drops transactions, the last one first, until the block fits. -/
def dropLast (maxBytes : ℕ) (reward : ℤ) : (lastFirst : List Transaction) →
    Except Text (List Transaction)
  | [] => pure [buildCoinbase opts timestamp reward 0]
  | tx :: before => do
    let fees := totalFee (tx :: before)
    let transactions := buildCoinbase opts timestamp reward fees :: (tx :: before).reverse
    let bytes ← measure parent timestamp expectedTarget transactions
    if maxBytes < bytes then dropLast maxBytes reward before else pure transactions

/-- A template on top of `parent`, of the pending transactions in their order. -/
def fillTemplate (pending : List Transaction) : Except Text Template := do
  let reward ← blockRewardAt (parent.header.height + 1) opts.policy
  let maxBytes := templateMaxBytes opts
  let bytes ← measure parent timestamp expectedTarget [buildCoinbase opts timestamp reward 0]
  let selected := selectTransactions maxBytes (templateMaxTransactions opts) [] bytes pending
  let transactions ← dropLast opts parent timestamp expectedTarget maxBytes reward selected.reverse
  let header ← headerFor parent timestamp expectedTarget transactions
  pure { header, transactions }

end Template

section Mining

variable (opts : NodeOptions) (env : Env)

/-- Snapshot of the tip and the mempool as a block that is not mined. -/
def buildBlockTemplate (w : World) : Except NodeError Template := do
  match w.chain.tip with
  | none => .error (.error (lit "cannot mine before genesis is initialized"))
  | some tip =>
    match w.chain.getBlock tip.hash with
    | none => .error (.error (lit "tip block " ++ tip.hash ++ lit " missing from store"))
    | some parent => do
      let timestamp := max env.now (parent.header.timestamp + 1)
      let expectedTarget ←
        expectedTargetFor opts w.chain w.headers .empty ⟨parent.hash, parent.header⟩
      (fillTemplate opts parent timestamp expectedTarget
        w.mempool.getTransactionsByFee).mapError .error

/-- The seal of a header: proof of work with the nonce that the search found, or
    the signature of an authority. -/
def sealHeader (S : SignatureScheme) (engine : ConsensusEngine) (nonce : ℕ) (key : KeyPair)
    (header : BlockHeader) : Option BlockHeader :=
  match engine with
  | .pow => some { header with nonce }
  | .poa _ =>
    let unsigned := { header with nonce := 0, signer := some key.publicKey, signature := none }
    (S.sign key.privateKey (computeSealHash unsigned)).map fun signature =>
      { unsigned with signature := some signature }

/-- The block of a sealed template. -/
def Template.block (template : Template) (header : BlockHeader) : Block :=
  { header, transactions := template.transactions, hash := computeBlockHash header }

/-- Adopts a mined block if it still extends the tip. -/
def adoptIfFresh (block : Block) : NodeM Unit := do
  let tip ← Prog.reads fun w => w.chain.tip
  if tip.map (·.hash) = some block.header.previousHash then do
    adoptBlock opts env block
    act (.broadcast (.NEW_BLOCK block) none)

/-- What follows the seal. A seal that the network would refuse is not adopted.
    (The signers are those of the ancestry of the template, which is fixed.) -/
def adoptMined (block : Block) : NodeM Unit := do
  let w ← Prog.reads id
  match opts.engine.verifySeal opts.signatures block.header block.hash
      (recentSignersFor opts w.chain w.headers .empty block.header.previousHash) with
  | .ok () => adoptIfFresh opts env block
  | .error (.invalid reason) => throw (.error (lit "cannot produce a block: " ++ reason))
  | .error (.thrown message) => throw (.error message)

end Mining

/-! ## What a template is made of -/

section Spec

variable {opts : NodeOptions} {env : Env} {parent : Block} {timestamp : ℕ} {target : Text}

theorem headerFor_eq_ok {txs : List Transaction} {header : BlockHeader}
    (h : headerFor parent timestamp target txs = .ok header) :
    merkleRoot (txs.map Transaction.id) = .ok header.merkleRoot ∧
    header = { version := 1, previousHash := parent.hash, merkleRoot := header.merkleRoot, timestamp,
               difficultyTarget := target, nonce := 0, height := parent.header.height + 1,
               signer := none, signature := none } := by
  simp only [headerFor, bind_eq_ok] at h
  obtain ⟨root, hroot, h⟩ := h
  cases h
  exact ⟨hroot, rfl⟩

/-- The bytes of a transaction within a block, with the comma before it. -/
def entryBytes (tx : Transaction) : ℕ := (utf8 (serializeTransaction tx)).length + 1

/-- What a selection adds is pending, and it is counted: within the number of
    transactions, and within the bytes if those before it were. -/
theorem selectTransactions_spec {maxBytes maxTransactions bytes : ℕ}
    (selected pending : List Transaction) :
    ∃ added, selectTransactions maxBytes maxTransactions selected bytes pending = selected ++ added ∧
      added.Sublist pending ∧
      (selected.length + 1 ≤ maxTransactions → (selected ++ added).length + 1 ≤ maxTransactions) ∧
      (bytes ≤ maxBytes → bytes + (added.map entryBytes).sum ≤ maxBytes) := by
  induction pending generalizing selected bytes with
  | nil => exact ⟨[], by simp [selectTransactions]⟩
  | cons tx pending ih =>
    rw [selectTransactions]
    dsimp only
    split_ifs with hfull hlarge
    · exact ⟨[], by simp⟩
    · obtain ⟨added, heq, hsub, hcount, hbytes⟩ := @ih bytes selected
      exact ⟨added, heq, hsub.cons tx, hcount, hbytes⟩
    · obtain ⟨added, heq, hsub, hcount, hbytes⟩ := @ih (bytes + entryBytes tx) (selected ++ [tx])
      have hassoc : selected ++ tx :: added = selected ++ [tx] ++ added := List.append_cons ..
      refine ⟨tx :: added, heq.trans hassoc.symm, hsub.cons_cons tx, fun _ => ?_, fun _ => ?_⟩
      · rw [hassoc]
        exact hcount (by rw [length_append, length_singleton]; omega)
      · rw [map_cons, sum_cons, ← Nat.add_assoc]
        exact hbytes (not_lt.1 hlarge)

/-- Where everything fits, everything is selected. -/
theorem selectTransactions_of_fits {maxBytes maxTransactions bytes : ℕ}
    {selected pending : List Transaction}
    (hcount : selected.length + pending.length + 1 ≤ maxTransactions)
    (hbytes : bytes + (pending.map entryBytes).sum ≤ maxBytes) :
    selectTransactions maxBytes maxTransactions selected bytes pending = selected ++ pending := by
  induction pending generalizing selected bytes with
  | nil => rw [selectTransactions, append_nil]
  | cons tx pending ih =>
    rw [length_cons] at hcount
    rw [map_cons, sum_cons, entryBytes] at hbytes
    rw [selectTransactions, if_neg (by omega)]
    dsimp only
    rw [if_neg (by omega), ih (by simp; omega) (by omega), append_assoc]
    rfl

/-- What is left of a selection is paid for by the coinbase, and it was measured to
    fit, unless nothing but the coinbase is left. -/
theorem dropLast_eq_ok {maxBytes : ℕ} {reward : ℤ} {lastFirst txs : List Transaction}
    (h : dropLast opts parent timestamp target maxBytes reward lastFirst = .ok txs) :
    ∃ included, included.Sublist lastFirst.reverse ∧
      txs = buildCoinbase opts timestamp reward (totalFee included) :: included ∧
      (included = [] ∨ ∃ bytes ≤ maxBytes, measure parent timestamp target txs = .ok bytes) := by
  induction lastFirst with
  | nil =>
    cases h
    exact ⟨[], nil_sublist _, rfl, .inl rfl⟩
  | cons tx before ih =>
    rw [dropLast, bind_eq_ok] at h
    obtain ⟨bytes, hbytes, h⟩ := h
    split_ifs at h with hlarge
    · obtain ⟨included, hincluded, hrest⟩ := ih h
      refine ⟨included, hincluded.trans ?_, hrest⟩
      rw [reverse_cons]
      exact sublist_append_left _ _
    · cases h
      refine ⟨(tx :: before).reverse, List.Sublist.refl _, ?_, .inr ⟨bytes, not_lt.1 hlarge, hbytes⟩⟩
      rw [totalFee, totalFee, map_reverse, sum_reverse]

/-- What is measured to fit is not dropped. -/
theorem dropLast_of_fits {maxBytes : ℕ} {reward : ℤ} {selected : List Transaction} {bytes : ℕ}
    (h : measure parent timestamp target
      (buildCoinbase opts timestamp reward (totalFee selected) :: selected) = .ok bytes)
    (hle : bytes ≤ maxBytes) :
    dropLast opts parent timestamp target maxBytes reward selected.reverse =
      .ok (buildCoinbase opts timestamp reward (totalFee selected) :: selected) := by
  have hfees : totalFee selected.reverse = totalFee selected := by
    rw [totalFee, totalFee, map_reverse, sum_reverse]
  cases hrev : selected.reverse with
  | nil =>
    rw [reverse_eq_nil_iff.1 hrev]
    rfl
  | cons tx before =>
    rw [dropLast, ← hrev, hfees, reverse_reverse, h]
    exact if_neg (not_lt.2 hle)

theorem fillTemplate_eq_ok {pending : List Transaction} {template : Template}
    (h : fillTemplate opts parent timestamp target pending = .ok template) :
    ∃ reward bytes, blockRewardAt (parent.header.height + 1) opts.policy = .ok reward ∧
      measure parent timestamp target [buildCoinbase opts timestamp reward 0] = .ok bytes ∧
      dropLast opts parent timestamp target (templateMaxBytes opts) reward
        (selectTransactions (templateMaxBytes opts) (templateMaxTransactions opts) [] bytes
          pending).reverse = .ok template.transactions ∧
      headerFor parent timestamp target template.transactions = .ok template.header := by
  simp only [fillTemplate, bind_eq_ok] at h
  obtain ⟨reward, hreward, bytes, hbytes, transactions, htxs, header, hheader, h⟩ := h
  cases h
  exact ⟨reward, bytes, hreward, hbytes, htxs, hheader⟩

/-- A template is on top of the stored tip. -/
theorem buildBlockTemplate_eq_ok {w : World} {template : Template}
    (h : buildBlockTemplate opts env w = .ok template) :
    ∃ tip parent target, w.chain.tip = some tip ∧ w.chain.getBlock tip.hash = some parent ∧
      expectedTargetFor opts w.chain w.headers .empty ⟨parent.hash, parent.header⟩ = .ok target ∧
      fillTemplate opts parent (max env.now (parent.header.timestamp + 1)) target
        w.mempool.getTransactionsByFee = .ok template := by
  rw [buildBlockTemplate] at h
  split at h
  · cases h
  next tip htip =>
  split at h
  · cases h
  next parent hparent =>
  simp only [bind_eq_ok, mapError_eq_ok] at h
  obtain ⟨target, htarget, h⟩ := h
  exact ⟨tip, parent, target, htip, hparent, htarget, h⟩

/-- A seal leaves what a header says but for the nonce and the signature. -/
theorem sealHeader_eq_some {S : SignatureScheme} {engine : ConsensusEngine} {nonce : ℕ}
    {key : KeyPair} {header header' : BlockHeader}
    (h : sealHeader S engine nonce key header = some header') :
    header' = { header with
      nonce := header'.nonce, signer := header'.signer, signature := header'.signature } := by
  cases engine with
  | pow =>
    cases h
    rfl
  | poa authorities =>
    simp only [sealHeader, Option.map_eq_some_iff] at h
    obtain ⟨signature, -, rfl⟩ := h
    rfl

end Spec

end Plainchain
