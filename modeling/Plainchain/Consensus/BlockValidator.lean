import Plainchain.Consensus.Engine
import Plainchain.Ledger.Serialize

/-!
# Block validation

`src/consensus/blockValidator.ts`: the rules a header, and then a block, has to
satisfy before its transactions meet the UTXO set.

`ValidHeader` and `ValidBlock` say what is accepted
(`validateHeader_eq_ok`, `validateBlock_eq_ok`), rule by rule.
-/

namespace Plainchain

open Js List

/-- The one rejection an honest peer can produce. -/
def FUTURE_TIMESTAMP_REASON : Text := lit "timestamp is too far in the future"

def DEFAULT_MAX_BLOCK_BYTES : ℕ := 1000000

def DEFAULT_MAX_TRANSACTIONS_PER_BLOCK : ℕ := 5000

/-- What a header or a block is judged by, besides its parent. -/
structure ValidationContext where
  /-- What the retarget rule says the target must be. -/
  expectedTarget : Text
  now : ℕ
  maxFutureDriftMs : ℕ
  /-- The hash this height must have, if it is checkpointed. -/
  checkpoint : Option Text
  /-- Proof of work when omitted. -/
  engine : Option ConsensusEngine
  recentSigners : Option (List Text)

structure HeaderValidationContext extends ValidationContext where
  parent : ChainHeader

structure BlockValidationContext extends ValidationContext where
  parent : Block
  blockReward : ℤ
  maxBlockBytes : Option ℕ
  maxTransactionsPerBlock : Option ℕ

/-- The size of a block as consensus measures it. -/
def blockByteSize (block : Block) : ℕ := (utf8 (serializeBlock block)).length

theorem byteSize_headerValue (header : BlockHeader) : (headerValue header).byteSize =
    1 + ((headerFields header).map fun f =>
      byteLength (Value.quote f.1) + f.2.byteSize + 2).sum :=
  Value.byteSize_obj (cons_ne_nil _ _) (isSome_headerFields header)

theorem byteSize_toWireOutput (output : TxOutput) : (toWireOutput output).byteSize =
    24 + byteLength (Value.quote output.address) + (decimalInt output.amount).length := by
  have haddress : byteLength (Value.quote (lit "address")) = 9 := by decide
  have hamount : byteLength (Value.quote (lit "amount")) = 8 := by decide
  rw [toWireOutput, Value.byteSize_obj (by simp) (by simp [Value.stringify])]
  simp only [map_cons, map_nil, sum_cons, sum_nil, haddress, hamount,
    Value.byteSize_str, Value.byteLength_quote_decimalInt]
  omega

/-- The parts of a transaction by size. -/
theorem byteSize_transactionFields (tx : Transaction) {outputs fee : Value}
    (houtputs : outputs.stringify.isSome) (hfee : fee.stringify.isSome) :
    (Value.obj (transactionFields tx outputs fee)).byteSize =
      48 + byteLength (Value.quote tx.id) + (Value.arr (tx.inputs.map inputValue)).byteSize
        + outputs.byteSize + (Value.num tx.timestamp).byteSize + fee.byteSize
        + ((dataFields tx.data).map fun f => byteLength (Value.quote f.1) + f.2.byteSize + 2).sum := by
  have hid : byteLength (Value.quote (lit "id")) = 4 := by decide
  have hinputs : byteLength (Value.quote (lit "inputs")) = 8 := by decide
  have houts : byteLength (Value.quote (lit "outputs")) = 9 := by decide
  have htimestamp : byteLength (Value.quote (lit "timestamp")) = 11 := by decide
  have hfees : byteLength (Value.quote (lit "fee")) = 5 := by decide
  have hsize : (Value.obj (transactionFields tx outputs fee)).byteSize =
      1 + ((transactionFields tx outputs fee).map fun f =>
        byteLength (Value.quote f.1) + f.2.byteSize + 2).sum :=
    Value.byteSize_obj (cons_ne_nil _ _) (isSome_transactionFields tx houtputs hfee)
  rw [hsize]
  simp only [transactionFields, map_append, map_cons, map_nil, sum_append,
    sum_cons, sum_nil, hid, hinputs, houts, htimestamp, hfees, Value.byteSize_str]
  omega

/-- A block by the sizes of its parts, however its transactions are written. -/
theorem byteSize_blockFields (block : Block) {txs : Value} (htxs : txs.stringify.isSome) :
    let value : Value := .obj [(lit "header", headerValue block.header), (lit "transactions", txs),
      (lit "hash", .str block.hash)]
    value.stringify.isSome ∧ value.byteSize =
      (headerValue block.header).byteSize + txs.byteSize + byteLength (Value.quote block.hash) + 35 := by
  intro value
  have hfields : ∀ f ∈ ([(lit "header", headerValue block.header), (lit "transactions", txs),
      (lit "hash", .str block.hash)] : List (Text × Value)), f.2.stringify.isSome :=
    forall_mem_cons.2 ⟨Value.isSome_stringify_obj (isSome_headerFields _),
      forall_mem_cons.2 ⟨htxs, forall_mem_singleton.2 rfl⟩⟩
  have hsize := Value.byteSize_obj (cons_ne_nil _ _) hfields
  have hheader : byteLength (Value.quote (lit "header")) = 8 := by decide
  have htransactions : byteLength (Value.quote (lit "transactions")) = 14 := by decide
  have hhash : byteLength (Value.quote (lit "hash")) = 6 := by decide
  simp only [map_cons, map_nil, sum_cons, sum_nil, hheader, htransactions, hhash,
    Value.byteSize_str] at hsize
  exact ⟨Value.isSome_stringify_obj hfields, hsize.trans (by omega)⟩

/-- The parts of a block by size. -/
theorem blockByteSize_eq (block : Block) : blockByteSize block = (headerValue block.header).byteSize
    + (Value.arr (block.transactions.map toWireTransaction)).byteSize
    + byteLength (Value.quote block.hash) + 35 :=
  (byteSize_blockFields block (Value.isSome_stringify_arr
    (forall_mem_map.2 fun tx _ => isSome_stringify_transaction tx))).2

/-- The rules on a header alone. -/
def validateHeader (S : SignatureScheme) (header : BlockHeader) (hash : Text)
    (ctx : HeaderValidationContext) : Verdict := do
  refuse (computeBlockHash header ≠ hash) (lit "block hash does not match header")
  refuse (header.difficultyTarget ≠ ctx.expectedTarget)
    (lit "difficulty target " ++ header.difficultyTarget ++ lit " does not match expected "
      ++ ctx.expectedTarget)
  (ctx.engine.getD .pow).verifySeal S header hash (ctx.recentSigners.getD [])
  refuse (header.previousHash ≠ ctx.parent.hash) (lit "previousHash does not match parent")
  refuse (header.height ≠ ctx.parent.header.height + 1)
    (lit "height " ++ decimal header.height ++ lit " is not parent height + 1")
  refuse (header.timestamp ≤ ctx.parent.header.timestamp)
    (lit "timestamp is not after parent's timestamp")
  refuse (ctx.now + ctx.maxFutureDriftMs < header.timestamp) FUTURE_TIMESTAMP_REASON
  refuse (∃ c ∈ ctx.checkpoint, c ≠ hash)
    (lit "conflicts with checkpoint at height " ++ decimal header.height)

/-- An objection to a transaction, as one to its block. -/
def Objection.ofTransaction (tx : Transaction) : Objection → Objection
  | .invalid reason => .invalid (lit "transaction " ++ tx.id ++ lit ": " ++ reason)
  | .thrown message => .thrown message

/-- The loop over the transactions: their structure, no id and no outpoint
    twice. It returns the sum of the fees. -/
def checkTransactions : (seenTxIds spentOutpoints : List Text) → (totalFees : ℤ) →
    List Transaction → Except Objection ℤ
  | _, _, totalFees, [] => .ok totalFees
  | seenTxIds, spentOutpoints, totalFees, tx :: txs => do
    (validateTransactionStructure tx).mapError (Objection.ofTransaction tx)
    refuse (tx.id ∈ seenTxIds) (lit "duplicate transaction " ++ tx.id ++ lit " in block")
    distinct (fun key => lit "outpoint " ++ key ++ lit " spent twice within block") spentOutpoints
      (tx.inputs.map TxInput.key)
    checkTransactions (tx.id :: seenTxIds) (tx.inputs.map TxInput.key ++ spentOutpoints)
      (totalFees + tx.fee) txs

/-- The rules on the body of a block. -/
def validateBody (block : Block) (ctx : BlockValidationContext) : Verdict :=
  match block.transactions with
  | [] => .error (.invalid (lit "block has no transactions (missing coinbase)"))
  | coinbase :: rest => do
    let maxTransactions := ctx.maxTransactionsPerBlock.getD DEFAULT_MAX_TRANSACTIONS_PER_BLOCK
    refuse (maxTransactions < block.transactions.length)
      (lit "block has " ++ decimal block.transactions.length ++ lit " transactions; at most "
        ++ decimal maxTransactions ++ lit " allowed")
    let maxBytes := ctx.maxBlockBytes.getD DEFAULT_MAX_BLOCK_BYTES
    refuse (maxBytes < blockByteSize block)
      (lit "block is " ++ decimal (blockByteSize block) ++ lit " bytes; at most "
        ++ decimal maxBytes ++ lit " allowed")
    refuse (coinbase.inputs ≠ []) (lit "first transaction must be the coinbase (no inputs)")
    forM rest fun tx =>
      refuse (tx.inputs = []) (lit "only the first transaction may be a coinbase")
    let root ← attempt (merkleRoot (block.transactions.map Transaction.id))
    refuse (root ≠ block.header.merkleRoot) (lit "merkle root does not match transactions")
    let totalFees ← checkTransactions [] [] 0 block.transactions
    let coinbaseOut := totalAmount coinbase.outputs
    let maxCoinbase := ctx.blockReward + totalFees
    refuse (maxCoinbase < coinbaseOut)
      (lit "coinbase pays " ++ decimalInt coinbaseOut ++ lit " but block reward + fees is only "
        ++ decimalInt maxCoinbase)

/-- The context of the header rules. -/
def BlockValidationContext.forHeader (ctx : BlockValidationContext) : HeaderValidationContext :=
  { ctx.toValidationContext with parent := ⟨ctx.parent.hash, ctx.parent.header⟩ }

/-- Every rule a block must satisfy whatever the UTXO set holds. -/
def validateBlock (S : SignatureScheme) (block : Block) (ctx : BlockValidationContext) : Verdict := do
  validateHeader S block.header block.hash ctx.forHeader
  validateBody block ctx

/-! ## What is accepted -/

/-- What `validateHeader` accepts. -/
structure ValidHeader (S : SignatureScheme) (header : BlockHeader) (hash : Text)
    (ctx : HeaderValidationContext) : Prop where
  hash_eq : computeBlockHash header = hash
  target_eq : header.difficultyTarget = ctx.expectedTarget
  seal_ok : (ctx.engine.getD .pow).verifySeal S header hash (ctx.recentSigners.getD []) = .ok ()
  previousHash_eq : header.previousHash = ctx.parent.hash
  height_eq : header.height = ctx.parent.header.height + 1
  timestamp_gt : ctx.parent.header.timestamp < header.timestamp
  timestamp_le : header.timestamp ≤ ctx.now + ctx.maxFutureDriftMs
  checkpoint_eq : ∀ c ∈ ctx.checkpoint, c = hash

theorem validateHeader_eq_ok {S : SignatureScheme} {header : BlockHeader} {hash : Text}
    {ctx : HeaderValidationContext} :
    validateHeader S header hash ctx = .ok () ↔ ValidHeader S header hash ctx := by
  simp only [validateHeader, seq_eq_ok, refuse_eq_ok, not_not, not_le, not_lt, not_exists, not_and]
  constructor
  · rintro ⟨h₁, h₂, h₃, h₄, h₅, h₆, h₇, h₈⟩
    exact ⟨h₁, h₂, h₃, h₄, h₅, h₆, h₇, h₈⟩
  · rintro ⟨h₁, h₂, h₃, h₄, h₅, h₆, h₇, h₈⟩
    exact ⟨h₁, h₂, h₃, h₄, h₅, h₆, h₇, h₈⟩

/-- The outpoints that transactions spend, in order. -/
def spentKeys (txs : List Transaction) : List Text := txs.flatMap fun tx => tx.inputs.map TxInput.key

/-- The fees of transactions, summed. -/
def totalFee (txs : List Transaction) : ℤ := (txs.map fun tx => tx.fee).sum

theorem checkTransactions_eq_ok {txs : List Transaction} {seen spent : List Text} {fees r : ℤ} :
    checkTransactions seen spent fees txs = .ok r ↔
      (∀ tx ∈ txs, WellStructured tx) ∧
      ((txs.map Transaction.id).Nodup ∧ ∀ tx ∈ txs, tx.id ∉ seen) ∧
      ((spentKeys txs).Nodup ∧ ∀ k ∈ spentKeys txs, k ∉ spent) ∧ r = fees + totalFee txs := by
  induction txs generalizing seen spent fees with
  | nil => simp [checkTransactions, spentKeys, totalFee, eq_comm]
  | cons tx txs ih =>
    have hkeys : spentKeys (tx :: txs) = tx.inputs.map TxInput.key ++ spentKeys txs := rfl
    simp only [checkTransactions, seq_eq_ok, mapError_eq_ok, validateTransactionStructure_eq_ok,
      refuse_eq_ok, distinct_eq_ok, ih, hkeys, totalFee, map_cons, sum_cons,
      forall_eq_or_imp, nodup_cons, nodup_append, mem_append, mem_cons,
      mem_map, not_or, not_exists, not_and]
    constructor
    · rintro ⟨hs, hseen, ⟨hnk, hspent⟩, hws, ⟨hids, hseen'⟩, ⟨hks, hspent'⟩, rfl⟩
      refine ⟨⟨hs, hws⟩, ⟨⟨fun t ht h => (hseen' t ht).1 h, hids⟩, hseen,
        fun t ht => (hseen' t ht).2⟩, ⟨⟨hnk, hks, ?_⟩, ?_⟩, by ring⟩
      · rintro a ⟨i, hi, rfl⟩ b hb rfl
        exact (hspent' _ hb).1 i hi rfl
      · rintro k (⟨i, hi, rfl⟩ | hk)
        · exact hspent _ ⟨i, hi, rfl⟩
        · exact (hspent' k hk).2
    · rintro ⟨⟨hs, hws⟩, ⟨⟨hne, hids⟩, hseen, hseen'⟩, ⟨⟨hnk, hks, hdisj⟩, hspent⟩, rfl⟩
      refine ⟨hs, hseen, ⟨hnk, ?_⟩, hws, ⟨hids, fun t ht => ⟨hne t ht, hseen' t ht⟩⟩,
        ⟨hks, fun k hk => ⟨fun i hi h => ?_, hspent k (.inr hk)⟩⟩, by ring⟩
      · rintro k ⟨i, hi, rfl⟩
        exact hspent _ (.inl ⟨i, hi, rfl⟩)
      · exact hdisj _ ⟨i, hi, rfl⟩ k hk h

/-- What `validateBlock` accepts: a block made of a coinbase and the rest. -/
structure ValidBlock (S : SignatureScheme) (block : Block) (ctx : BlockValidationContext)
    (coinbase : Transaction) (rest : List Transaction) : Prop where
  header : ValidHeader S block.header block.hash ctx.forHeader
  transactions_eq : block.transactions = coinbase :: rest
  length_le : block.transactions.length ≤
    ctx.maxTransactionsPerBlock.getD DEFAULT_MAX_TRANSACTIONS_PER_BLOCK
  size_le : blockByteSize block ≤ ctx.maxBlockBytes.getD DEFAULT_MAX_BLOCK_BYTES
  coinbase_inputs : coinbase.inputs = []
  rest_inputs : ∀ tx ∈ rest, tx.inputs ≠ []
  root_eq : merkleRoot (block.transactions.map Transaction.id) = .ok block.header.merkleRoot
  structured : ∀ tx ∈ block.transactions, WellStructured tx
  nodup_ids : (block.transactions.map Transaction.id).Nodup
  nodup_spent : (spentKeys block.transactions).Nodup
  coinbase_le : totalAmount coinbase.outputs ≤ ctx.blockReward + totalFee block.transactions

theorem validateBlock_eq_ok {S : SignatureScheme} {block : Block} {ctx : BlockValidationContext} :
    validateBlock S block ctx = .ok () ↔ ∃ coinbase rest, ValidBlock S block ctx coinbase rest := by
  rw [validateBlock, seq_eq_ok, validateHeader_eq_ok]
  cases hb : block.transactions with
  | nil =>
    simp only [validateBody, hb, reduceCtorEq, and_false, false_iff, not_exists]
    intro coinbase rest h
    cases hb.symm.trans h.transactions_eq
  | cons coinbase rest =>
    have hbody : validateBody block ctx = .ok () ↔
        (block.transactions.length ≤
          ctx.maxTransactionsPerBlock.getD DEFAULT_MAX_TRANSACTIONS_PER_BLOCK) ∧
        blockByteSize block ≤ ctx.maxBlockBytes.getD DEFAULT_MAX_BLOCK_BYTES ∧
        coinbase.inputs = [] ∧ (∀ tx ∈ rest, tx.inputs ≠ []) ∧
        ∃ root, merkleRoot (block.transactions.map Transaction.id) = .ok root ∧
          root = block.header.merkleRoot ∧
          ∃ fees, checkTransactions [] [] 0 block.transactions = .ok fees ∧
            totalAmount coinbase.outputs ≤ ctx.blockReward + fees := by
      simp only [validateBody, hb]
      rw [seq_eq_ok, seq_eq_ok, seq_eq_ok, seq_eq_ok, bind_eq_ok]
      simp only [refuse_eq_ok, not_lt, not_not, forM_eq_ok, attempt_eq_ok, seq_eq_ok, ne_eq]
      simp only [bind_eq_ok, refuse_eq_ok, not_lt]
    rw [hbody]
    constructor
    · rintro ⟨hh, hlen, hsize, hcb, hrest, root, hroot, rfl, fees, hfees, hle⟩
      obtain ⟨hws, ⟨hids, -⟩, ⟨hks, -⟩, rfl⟩ := checkTransactions_eq_ok.1 hfees
      exact ⟨coinbase, rest, hh, hb, hlen, hsize, hcb, hrest, hroot, hws, hids, hks,
        by simpa using hle⟩
    · rintro ⟨coinbase', rest', h⟩
      obtain ⟨rfl, rfl⟩ := List.cons.inj (hb.symm.trans h.transactions_eq)
      refine ⟨h.header, h.length_le, h.size_le, h.coinbase_inputs, h.rest_inputs, _, h.root_eq, rfl,
        _, checkTransactions_eq_ok.2 ⟨h.structured, ⟨h.nodup_ids, by simp⟩, ⟨h.nodup_spent,
          by simp⟩, rfl⟩, ?_⟩
      simpa using h.coinbase_le

end Plainchain
