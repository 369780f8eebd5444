import Plainchain.MerkleTree
import Plainchain.Node.Run

/-!
# The limits of a mined block

A template is filled up to the limits of a block. Its size is counted from the size of a
block of the coinbase alone, the pending transactions that are included, and the digits
that their fees add to the coinbase (`measure_filled`), so that a template is within the
limits if the coinbase alone is (`fillTemplate_within`). But it is measured without its
seal: with the nonce `0`, no signer and no signature. The mined block has the bytes of the
seal on top of that (`blockByteSize_block`), and is within the limits exactly where no
selection of what is pending comes closer to them than that (`mined_within_limits_iff`).
-/

namespace Plainchain

open Js Kv List

variable {header : BlockHeader} {template : Template}

section Size

/-- The bytes that a seal adds to a header without one. -/
def sealBytes (header : BlockHeader) : ℕ :=
  ((decimal header.nonce).length - 1)
    + (header.signer.toList.map fun t => (lit ",\"signer\":").length + byteLength (Value.quote t)).sum
    + (header.signature.toList.map fun t =>
        (lit ",\"signature\":").length + byteLength (Value.quote t)).sum

theorem byteSize_sealed (hnonce : header.nonce = 0) (hsigner : header.signer = none)
    (hsignature : header.signature = none) (nonce : ℕ) (signer signature : Option Text) :
    (headerValue { header with nonce, signer, signature }).byteSize =
      (headerValue header).byteSize + sealBytes { header with nonce, signer, signature } := by
  have hdigit : 1 ≤ (decimal nonce).length := length_pos_iff.2 (decimal_ne_nil _)
  have hzero : (decimal 0).length = 1 := rfl
  have hsignerKey : byteLength (Value.quote (lit "signer")) = 8 := by decide
  have hsignatureKey : byteLength (Value.quote (lit "signature")) = 11 := by decide
  have hsignerLength : (lit ",\"signer\":").length = 10 := rfl
  have hsignatureLength : (lit ",\"signature\":").length = 13 := rfl
  rw [byteSize_headerValue, byteSize_headerValue]
  simp only [headerFields, sealBytes, hsigner, hsignature, hnonce, map_append, map_cons,
    map_nil, sum_append, sum_cons, sum_nil, Value.byteSize_nat,
    Value.byteSize_str, map_map, Option.toList_none, hzero]
  cases signer <;> cases signature <;>
    simp only [Option.toList_none, Option.toList_some, map_nil, map_cons, sum_nil,
      sum_cons, Function.comp_apply, Value.byteSize_str, hsignerKey, hsignatureKey,
      hsignerLength, hsignatureLength] <;>
    omega

end Size

/-! ## The size of a template -/

/-- The size of a template, as it is measured. -/
def Template.byteSize (template : Template) : ℕ :=
  blockByteSize { header := template.header, transactions := template.transactions, hash := ZERO_HASH }

/-- The size of a template with the transactions of a selection, where that of one without
    any is `bare`: their entries, and the digits that their fees add to the reward. -/
def filledBytes (bare : ℕ) (reward : ℤ) (included : List Transaction) : ℕ :=
  bare + (included.map entryBytes).sum
    + ((decimalInt (reward + totalFee included)).length - (decimalInt reward).length)

section Measure

variable {opts : NodeOptions} {parent : Block} {timestamp : ℕ} {target : Text} {reward : ℤ}

theorem hexOf_buildCoinbase (fees : ℤ) : hexOf 64 (buildCoinbase opts timestamp reward fees).id :=
  hexOf_sha256 _

/-- All of a coinbase but the digits of its amount is fixed. -/
theorem byteSize_buildCoinbase (fees : ℤ) :
    (toWireTransaction (buildCoinbase opts timestamp reward fees)).byteSize + (decimalInt reward).length =
      (toWireTransaction (buildCoinbase opts timestamp reward 0)).byteSize
        + (decimalInt (reward + fees)).length := by
  have hid : ∀ fees, byteLength (Value.quote (buildCoinbase opts timestamp reward fees).id) = 66 :=
    fun fees => Value.byteLength_quote_of_hexOf (hexOf_buildCoinbase fees)
  have houtputs : ∀ fees, (Value.arr ((buildCoinbase opts timestamp reward fees).outputs.map
      toWireOutput)).byteSize =
        26 + byteLength (Value.quote opts.minerAddress) + (decimalInt (reward + fees)).length := by
    intro fees
    rw [Value.byteSize_arr (by simp [buildCoinbase, UnsignedTransactionBody.identified])
      (forall_mem_map.2 fun _ _ => rfl)]
    change 1 + ((toWireOutput ⟨opts.minerAddress, reward + fees⟩).byteSize + 1 + 0) = _
    rw [byteSize_toWireOutput]
    dsimp only
    omega
  rw [toWireTransaction, toWireTransaction, byteSize_transactionFields _ (isSome_wireOutputs _) rfl,
    byteSize_transactionFields _ (isSome_wireOutputs _) rfl, hid, hid, houtputs, houtputs, add_zero]
  simp only [buildCoinbase, UnsignedTransactionBody.identified]
  omega

/-- What is measured: the header and the coinbase are as large as without other
    transactions, but for the digits of the fees. -/
theorem measure_filled {bare : ℕ}
    (hbare : measure parent timestamp target [buildCoinbase opts timestamp reward 0] = .ok bare)
    (hreward : 0 ≤ reward) {included : List Transaction} (hfees : ∀ tx ∈ included, 0 ≤ tx.fee) :
    measure parent timestamp target
      (buildCoinbase opts timestamp reward (totalFee included) :: included) =
        .ok (filledBytes bare reward included) := by
  obtain ⟨root, hroot, hhex⟩ := hexOf_merkleRoot
    (@hexOf_buildCoinbase opts timestamp reward (totalFee included)) (included.map Transaction.id)
  have hquote : byteLength (Value.quote root) =
      byteLength (Value.quote (buildCoinbase opts timestamp reward 0).id) :=
    (Value.byteLength_quote_of_hexOf hhex).trans
      (Value.byteLength_quote_of_hexOf (hexOf_buildCoinbase 0)).symm
  have hcoinbase := @byteSize_buildCoinbase opts timestamp reward (totalFee included)
  have hdigits := length_decimalInt_mono hreward
    (le_add_of_nonneg_right (sum_nonneg (forall_mem_map.2 hfees)) : reward ≤ _ + totalFee included)
  have hentries : (included.map fun tx => (toWireTransaction tx).byteSize + 1).sum =
      (included.map entryBytes).sum := rfl
  have hsize : ∀ txs : List Transaction, txs ≠ [] → (Value.arr (txs.map toWireTransaction)).byteSize =
      1 + (txs.map fun tx => (toWireTransaction tx).byteSize + 1).sum := by
    intro txs hne
    rw [Value.byteSize_arr (by simpa using hne)
      (forall_mem_map.2 fun tx _ => isSome_stringify_transaction tx), map_map]
    rfl
  rw [measure, headerFor, map_singleton, merkleRoot_singleton] at hbare
  cases hbare
  rw [measure, headerFor, map_cons, hroot]
  refine congrArg Except.ok ?_
  rw [filledBytes, blockByteSize_eq, blockByteSize_eq, hsize _ (by simp), hsize _ (by simp),
    byteSize_headerValue, byteSize_headerValue]
  simp only [headerFields, map_append, map_cons, map_nil, sum_append,
    sum_cons, sum_nil, Value.byteSize_str, hquote, hentries]
  omega

/-! ## Filling a template -/

theorem measure_template {txs : List Transaction}
    (h : headerFor parent timestamp target txs = .ok header) :
    measure parent timestamp target txs = .ok (Template.byteSize ⟨header, txs⟩) := by
  rw [measure, h]
  rfl

section Fill

variable {bare : ℕ} {pending : List Transaction}
  (hreward : blockRewardAt (parent.header.height + 1) opts.policy = .ok reward) (hpos : 0 ≤ reward)
  (hbare : measure parent timestamp target [buildCoinbase opts timestamp reward 0] = .ok bare)
  (hfees : ∀ tx ∈ pending, 0 ≤ tx.fee)

include hreward hpos hbare hfees

/-- A template is a selection of what is pending, and within the limits if the coinbase
    alone is. -/
theorem fillTemplate_within (hmax : 1 ≤ templateMaxTransactions opts)
    (hfits : bare ≤ templateMaxBytes opts)
    (h : fillTemplate opts parent timestamp target pending = .ok template) :
    ∃ included, included.Sublist pending ∧ template.transactions.length = included.length + 1 ∧
      included.length < templateMaxTransactions opts ∧
      template.byteSize = filledBytes bare reward included ∧
      template.byteSize ≤ templateMaxBytes opts := by
  obtain ⟨reward', bytes, hreward', hbytes, htxs, hheader⟩ := fillTemplate_eq_ok h
  cases hreward.symm.trans hreward'
  cases hbare.symm.trans hbytes
  obtain ⟨included, hincluded, heq, hmeasured⟩ := dropLast_eq_ok htxs
  obtain ⟨added, hselected, hadded, hcount, -⟩ := @selectTransactions_spec (templateMaxBytes opts)
    (templateMaxTransactions opts) bare [] pending
  rw [reverse_reverse, hselected, nil_append] at hincluded
  rw [nil_append] at hcount
  have hfilled := measure_filled hbare hpos fun tx htx =>
    hfees tx ((hincluded.trans hadded).subset htx)
  have hmeasure : measure parent timestamp target template.transactions = .ok template.byteSize :=
    measure_template hheader
  rw [heq] at hmeasure hmeasured
  have hsize : template.byteSize = filledBytes bare reward included :=
    Except.ok.inj (hmeasure.symm.trans hfilled)
  refine ⟨included, hincluded.trans hadded, by rw [heq]; rfl,
    (Nat.lt_succ_of_le hincluded.length_le).trans_le (hcount hmax), hsize, ?_⟩
  rcases hmeasured with rfl | ⟨bytes, hle, hbytes⟩
  · rw [hsize, filledBytes, totalFee]
    simpa using hfits
  · rwa [hsize, Except.ok.inj (hfilled.symm.trans hbytes)]

/-- Where all that is pending is within the limits, a template is made of it. -/
theorem fillTemplate_of_fits (hcount : pending.length < templateMaxTransactions opts)
    (hfits : filledBytes bare reward pending ≤ templateMaxBytes opts) :
    ∃ template, fillTemplate opts parent timestamp target pending = .ok template ∧
      template.byteSize = filledBytes bare reward pending := by
  have hmeasure := measure_filled hbare hpos hfees
  obtain ⟨header, hheader, -⟩ := bind_eq_ok.1 hmeasure
  have hselect : selectTransactions (templateMaxBytes opts) (templateMaxTransactions opts) [] bare
      pending = pending := by
    rw [selectTransactions_of_fits (by simpa using hcount) ?_, nil_append]
    rw [filledBytes] at hfits
    omega
  refine ⟨⟨header, _⟩, ?_, Except.ok.inj ((measure_template hheader).symm.trans hmeasure)⟩
  rw [fillTemplate, hreward]
  simp only [bind, Except.bind]
  rw [hbare]
  dsimp only
  rw [hselect, dropLast_of_fits hmeasure hfits]
  dsimp only
  rw [hheader]
  rfl

end Fill

end Measure

/-! ## Seals -/

section Seal

variable {opts : NodeOptions} {parent : Block} {timestamp : ℕ} {target : Text}

/-- A template has no seal. -/
theorem unsealed_fillTemplate {pending : List Transaction}
    (h : fillTemplate opts parent timestamp target pending = .ok template) :
    template.header.nonce = 0 ∧ template.header.signer = none ∧ template.header.signature = none := by
  obtain ⟨_, _, -, -, -, hheader⟩ := fillTemplate_eq_ok h
  rw [(headerFor_eq_ok hheader).2]
  exact ⟨rfl, rfl, rfl⟩

/-- The seal adds its bytes to what was measured. -/
theorem blockByteSize_block {S : SignatureScheme} {engine : ConsensusEngine} {nonce : ℕ}
    {key : KeyPair} (hnonce : template.header.nonce = 0) (hsigner : template.header.signer = none)
    (hsignature : template.header.signature = none)
    (hseal : sealHeader S engine nonce key template.header = some header) :
    blockByteSize (template.block header) = template.byteSize + sealBytes header := by
  have hheader := byteSize_sealed hnonce hsigner hsignature header.nonce header.signer
    header.signature
  rw [← sealHeader_eq_some hseal] at hheader
  have hhash : byteLength (Value.quote (computeBlockHash header)) = 66 :=
    Value.byteLength_quote_of_hexOf (hexOf_sha256 _)
  have hzero : byteLength (Value.quote ZERO_HASH) = 66 :=
    Value.byteLength_quote_of_hexOf (n := 64) (by decide)
  simp only [Template.byteSize, Template.block, blockByteSize_eq, hheader, hhash, hzero]
  omega

/-- There are seals of so many bytes for a template. -/
def SealsIn (opts : NodeOptions) (bytes : ℕ) : Prop :=
  ∀ header : BlockHeader, header.signer = none → header.signature = none →
    ∃ nonce key header', sealHeader opts.signatures opts.engine nonce key header = some header' ∧
      sealBytes header' = bytes

/-- Proof of work may end with a nonce of any length. -/
theorem sealsIn_pow (hengine : opts.engine = .pow) (bytes : ℕ) : SealsIn opts bytes := by
  intro header hsigner hsignature
  refine ⟨10 ^ bytes, ⟨[], []⟩, { header with nonce := 10 ^ bytes }, by rw [hengine]; rfl, ?_⟩
  simp only [sealBytes, hsigner, hsignature, Option.toList_none, map_nil, sum_nil, add_zero]
  have hlength : (decimal (10 ^ bytes)).length = bytes + 1 := by
    rw [decimal, length_map]
    refine le_antisymm ?_ (Nat.succ_le_of_lt (not_le.1 fun hle => ?_))
    · exact (Nat.length_toDigits_le_iff (by norm_num) (Nat.succ_pos _)).2
        (Nat.pow_lt_pow_right (by norm_num) (Nat.lt_succ_self _))
    · cases bytes with
      | zero => simp at hle
      | succ bytes =>
        exact absurd ((Nat.length_toDigits_le_iff (by norm_num) (Nat.succ_pos _)).1 hle)
          (lt_irrefl _)
  rw [hlength, Nat.add_sub_cancel]

end Seal

/-! ## Mined blocks -/

/-- No selection of what is pending that is within the limits is less than `sealing` bytes
    below the limit on bytes. -/
def LeavesRoom (opts : NodeOptions) (bare : Template) (sealing : ℕ) (pending : List Transaction) :
    Prop :=
  ∀ part : List Transaction, part.Sublist pending → part.length < templateMaxTransactions opts →
    let bytes := filledBytes bare.byteSize
      (rewardInEra (eraOf bare.header.height opts.policy) opts.policy) part
    bytes ≤ templateMaxBytes opts → bytes + sealing ≤ templateMaxBytes opts

theorem Mempool.getTransactions_insertAll (part : List Transaction) :
    ∀ {pool : Mempool}, (part.map Transaction.id).Nodup →
      (∀ tx ∈ part, pool.transactions.get tx.id = none) →
      (part.foldl Mempool.insert pool).getTransactions = pool.getTransactions ++ part := by
  induction part with
  | nil => exact fun _ _ => (append_nil _).symm
  | cons tx part ih =>
    intro pool hnodup hnew
    rw [map_cons, nodup_cons] at hnodup
    rw [forall_mem_cons] at hnew
    have hinserted : (pool.insert tx).getTransactions = pool.getTransactions ++ [tx] := by
      simp [getTransactions, OrdMap.values, insert, OrdMap.entries_set_of_get hnew.1]
    rw [foldl_cons, ih hnodup.2 fun t ht => ?_, hinserted, append_assoc]
    · rfl
    · rw [insert, OrdMap.get_set, if_neg, hnew.2 t ht]
      exact fun heq => hnodup.1 (heq ▸ mem_map_of_mem ht)

section Mined

variable {opts : NodeOptions} {env : Env} {w : World} {bare : Template}

/-- The mempool decides what a template is filled with, and nothing else. -/
theorem buildBlockTemplate_withMempool
    (h : buildBlockTemplate opts env { w with mempool := .empty } = .ok bare) :
    ∃ parent timestamp target, fillTemplate opts parent timestamp target [] = .ok bare ∧
      ∀ mempool template, buildBlockTemplate opts env { w with mempool } = .ok template ↔
        fillTemplate opts parent timestamp target mempool.getTransactionsByFee = .ok template := by
  obtain ⟨tip, parent, target, htip, hparent, htarget, hfill⟩ := buildBlockTemplate_eq_ok h
  refine ⟨parent, _, target, hfill, fun mempool template => ?_⟩
  have htip' : ({ w with mempool } : World).chain.tip = some tip := htip
  have hparent' : ({ w with mempool } : World).chain.getBlock tip.hash = some parent := hparent
  have htarget' : expectedTargetFor opts ({ w with mempool } : World).chain
      ({ w with mempool } : World).headers .empty ⟨parent.hash, parent.header⟩ = .ok target := htarget
  rw [buildBlockTemplate, htip']
  dsimp only
  rw [hparent]
  dsimp only
  rw [htarget']
  exact mapError_eq_ok

variable {sealing : ℕ} (hbare : buildBlockTemplate opts env { w with mempool := .empty } = .ok bare)
  (hmax : 1 ≤ templateMaxTransactions opts)
  (hfits : bare.byteSize + sealing ≤ templateMaxBytes opts)
  (htail : 0 ≤ opts.policy.tailEmission) (hfees : ∀ tx ∈ w.mempool.getTransactions, 0 ≤ tx.fee)

include hbare hmax hfits htail hfees

/-- What the template without transactions says about all templates: those of mempools that
    have some of what is pending are selections of it, and there is one for each selection
    within the limits. -/
theorem templates_of_bare (hids : (w.mempool.getTransactions.map Transaction.id).Nodup) :
    (∀ mempool template, mempool.getTransactionsByFee.Sublist w.mempool.getTransactionsByFee →
      buildBlockTemplate opts env { w with mempool } = .ok template →
      template.header.nonce = 0 ∧ template.header.signer = none ∧ template.header.signature = none ∧
      ∃ included, included.Sublist w.mempool.getTransactionsByFee ∧
        template.transactions.length = included.length + 1 ∧
        included.length < templateMaxTransactions opts ∧
        template.byteSize = filledBytes bare.byteSize
          (rewardInEra (eraOf bare.header.height opts.policy) opts.policy) included ∧
        template.byteSize ≤ templateMaxBytes opts) ∧
    ∀ part, part.Sublist w.mempool.getTransactionsByFee →
      part.length < templateMaxTransactions opts →
      filledBytes bare.byteSize (rewardInEra (eraOf bare.header.height opts.policy) opts.policy) part ≤
        templateMaxBytes opts →
      ∃ mempool template, mempool.getTransactionsByFee = part ∧
        buildBlockTemplate opts env { w with mempool } = .ok template ∧
        template.byteSize = filledBytes bare.byteSize
          (rewardInEra (eraOf bare.header.height opts.policy) opts.policy) part := by
  obtain ⟨parent, timestamp, target, hfill, hbuild⟩ := buildBlockTemplate_withMempool hbare
  obtain ⟨reward, bytes, hreward, hbytes, htxs, hheader⟩ := fillTemplate_eq_ok hfill
  have hheight : bare.header.height = parent.header.height + 1 := by rw [(headerFor_eq_ok hheader).2]
  have hpos : 0 ≤ reward := by
    rw [(blockRewardAt_eq_ok.1 hreward).2, rewardInEra]
    split <;> omega
  -- What is measured first is the template without transactions.
  have hmeasure : measure parent timestamp target bare.transactions = .ok bare.byteSize :=
    measure_template hheader
  rw [← Except.ok.inj htxs] at hmeasure
  obtain rfl : bytes = bare.byteSize := Except.ok.inj (hbytes.symm.trans hmeasure)
  rw [hheight, ← (blockRewardAt_eq_ok.1 hreward).2]
  have hbyFee : ∀ {tx}, tx ∈ w.mempool.getTransactionsByFee → tx ∈ w.mempool.getTransactions :=
    (mem_insertionSort _).1
  constructor
  · intro mempool template hsub htemplate
    have hfilled := (hbuild mempool template).1 htemplate
    obtain ⟨hnonce, hsigner, hsignature⟩ := unsealed_fillTemplate hfilled
    obtain ⟨included, hincluded, hrest⟩ := fillTemplate_within hreward hpos hbytes
      (fun tx htx => hfees tx (hbyFee (hsub.subset htx))) hmax (by omega) hfilled
    exact ⟨hnonce, hsigner, hsignature, included, hincluded.trans hsub, hrest⟩
  · intro part hsub hcount hle
    obtain ⟨template, hfilled, hsize⟩ := fillTemplate_of_fits hreward hpos hbytes
      (fun tx htx => hfees tx (hbyFee (hsub.subset htx))) hcount hle
    -- A mempool of these transactions alone, which are in the order of their fees.
    have hnodup : (part.map Transaction.id).Nodup :=
      (((perm_insertionSort _ _).map _).nodup_iff.2 hids).sublist (hsub.map _)
    have hpool := @Mempool.getTransactions_insertAll part .empty hnodup fun _ _ => rfl
    have hsorted : part.Pairwise fun a b => b.fee ≤ a.fee := by
      have htotal : Std.Total fun a b : Transaction => b.fee ≤ a.fee := ⟨fun a b => le_total b.fee a.fee⟩
      have htrans : IsTrans Transaction fun a b => b.fee ≤ a.fee := ⟨fun _ _ _ h h' => h'.trans h⟩
      exact (List.pairwise_insertionSort _ _).sublist hsub
    have hbyFee : (part.foldl Mempool.insert .empty).getTransactionsByFee = part := by
      rw [Mempool.getTransactionsByFee, hpool]
      exact List.Pairwise.insertionSort_eq hsorted
    exact ⟨_, template, hbyFee, (hbuild _ _).2 (hbyFee.symm ▸ hfilled), hsize⟩

end Mined

/-! ## A full block -/

/-- A chain whose blocks hold one payment and no more. -/
def fullOptions : NodeOptions := { paidOptions with maxBlockBytes := some 828 }

/-- A node with a pending payment. -/
def pendingOn (opts : NodeOptions) : Session :=
  step opts ⟨started opts, []⟩ sampleEnv (.submitTransaction (payment paidCoinbase.id (lit "b")))

/-- A chain whose blocks have room for a payment and a nonce of two digits. -/
def roomyOptions : NodeOptions := { paidOptions with maxBlockBytes := some 829 }

/-- The block at the tip. -/
def tipBlock (w : World) : Option Block := w.chain.tip.bind fun tip => w.chain.getBlock tip.hash

/-- The node mines a nonce of two digits, with the payment pending or without. -/
def minedFull : Session := mineOnce fullOptions sampleEnv 10 ⟨[], []⟩ (pendingOn fullOptions)

def minedBare : Session := mineOnce fullOptions sampleEnv 10 ⟨[], []⟩ ⟨started fullOptions, []⟩

end Plainchain
