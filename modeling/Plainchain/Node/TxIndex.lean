import Plainchain.MerkleTree
import Plainchain.Node.BlockIndex
import Plainchain.Wallet.Cli

/-!
# The transaction index follows the tip

`getTransactionProof` of `src/node/node.ts`, with the index of `src/state/chainState.ts`
that it reads. The locations of the transactions of a block are its page (`txLocations`).
The index holds the pages of the canonical blocks as long as no id is on two of them.

* `tx_index_exact`: where every chain that is adopted has each id once, the index is
  exact, and the proofs that are made with it are accepted.
-/

namespace Plainchain

open Js Kv Ancestry Prog List

/-! ## Proofs -/

def ChainState.getTxLocation (chain : ChainState) (txId : Text) : Option Text :=
  chain.txIndex.get txId

structure TransactionProof where
  txId : Text
  blockHash : Text
  blockHeight : ℕ
  index : ℕ
  siblings : List Sibling
  merkleRoot : Text

/-- A proof as it is sent. -/
def TransactionProof.toValue (proof : TransactionProof) : Value :=
  .obj [(lit "txId", .str proof.txId), (lit "blockHash", .str proof.blockHash),
    (lit "blockHeight", .num (.ofNat proof.blockHeight)), (lit "index", .num (.ofNat proof.index)),
    (lit "siblings", .arr (proof.siblings.map Sibling.toValue)),
    (lit "merkleRoot", .str proof.merkleRoot)]

/-- The siblings that fold the id of a confirmed transaction up to the root of its
    canonical block. -/
def getTransactionProof (chain : ChainState) (txId : Text) : Except Text (Option TransactionProof) :=
  match chain.getTxLocation txId with
  | none => .ok none
  | some blockHash =>
    match chain.getBlock blockHash with
    | none => .ok none
    | some block =>
      if chain.getCanonicalHashAtHeight block.header.height = some block.hash then
        match block.ids.idxOf? txId with
        | none => .ok none
        | some index => do
          let siblings ← merkleProof block.ids (.ofNat index)
          pure (some { txId, blockHash := block.hash, blockHeight := block.header.height, index,
                       siblings, merkleRoot := block.header.merkleRoot })
      else .ok none

/-- The index is defined on the transactions of the canonical chain, it names their blocks,
    and the proofs that are made with it are accepted. -/
structure TxIndexExact (chain : ChainState) : Prop where
  defined : ∀ txId, (chain.getTxLocation txId).isSome ↔ ∃ block, Confirms chain block txId
  names : ∀ txId hash, chain.getTxLocation txId = some hash →
    ∃ block, block.hash = hash ∧ Confirms chain block txId
  proved : ∀ txId block, Confirms chain block txId →
    ∃ proof, getTransactionProof chain txId = .ok (some proof) ∧
      Cli.verifyInclusion proof.toValue ⟨block.hash, block.header⟩ = .ok ()
  unproved : ∀ txId, (∀ block, ¬Confirms chain block txId) → getTransactionProof chain txId = .ok none

/-- What a valid block says of its transactions: their ids are digests, each its own, and
    the header has their root. -/
structure Block.Committed (block : Block) : Prop where
  identified : block.Identified
  root : merkleRoot block.ids = .ok block.header.merkleRoot

theorem Block.Committed.of_valid {S : SignatureScheme} {block : Block} {ctx : BlockValidationContext}
    (h : validateBlock S block ctx = .ok ()) : block.Committed := by
  obtain ⟨_, _, hv⟩ := validateBlock_eq_ok.1 h
  exact ⟨⟨fun tx htx => (hv.structured tx htx).hexOf_id, hv.nodup_ids⟩, hv.root_eq⟩

theorem Block.Committed.hex {block : Block} (h : block.Committed) : ∀ t ∈ block.ids, hexOf 64 t := by
  intro t ht
  obtain ⟨tx, htx, rfl⟩ := mem_map.1 ht
  exact h.identified.hex tx htx

/-- A location that names a canonical block of the transaction makes a proof. -/
theorem getTransactionProof_of_confirms {chain : ChainState} {block : Block} {txId : Text}
    (hlocation : chain.getTxLocation txId = some block.hash) (hconfirms : Confirms chain block txId)
    (hblock : block.Committed) :
    ∃ proof, getTransactionProof chain txId = .ok (some proof) ∧
      Cli.verifyInclusion proof.toValue ⟨block.hash, block.header⟩ = .ok () := by
  obtain ⟨index, hindex⟩ : ∃ index, block.ids.idxOf? txId = some index :=
    Option.isSome_iff_exists.1 (by simpa using hconfirms.mem)
  have hget : block.ids[index]? = some txId := by
    obtain ⟨hlt, heq, -⟩ := idxOf?_eq_some_iff.1 hindex
    rw [getElem?_eq_getElem hlt, heq]
  obtain ⟨siblings, root, hproof, hroot, hverify⟩ := merkleProof_verified hblock.hex hget
  cases hblock.root.symm.trans hroot
  refine ⟨⟨txId, block.hash, block.header.height, index, siblings, block.header.merkleRoot⟩, ?_, ?_⟩
  · rw [getTransactionProof, hlocation]
    simp only [hconfirms.stored, ChainState.getCanonicalHashAtHeight, hconfirms.canonical, if_true,
      hindex, hproof]
    rfl
  · exact Cli.verifyInclusion_eq_ok.2 ⟨rfl, rfl, hverify⟩

/-! ## Pages -/

/-- The locations of the transactions of a block. -/
def locationPage (block : Block) : List (Text × Text) :=
  block.transactions.map fun tx => (tx.id, block.hash)

theorem keys_locationPage (block : Block) : (locationPage block).map Prod.fst = block.ids := by
  rw [locationPage, map_map]
  rfl

theorem mem_locationPage {block : Block} {txId hash : Text} :
    (txId, hash) ∈ locationPage block ↔ txId ∈ block.ids ∧ block.hash = hash := by
  simp only [locationPage, Block.ids, mem_map, Prod.mk.injEq]
  constructor
  · rintro ⟨tx, htx, rfl, rfl⟩
    exact ⟨⟨tx, htx, rfl⟩, rfl⟩
  · rintro ⟨⟨tx, htx, rfl⟩, rfl⟩
    exact ⟨tx, htx, rfl, rfl⟩

theorem txLocation_indexOps (block : Block) :
    (indexOps block).filterMap StateOp.txLocation? = putAll (locationPage block) := by
  rw [indexOps, filterMap_transactionOps fun _ _ => rfl, putAll, locationPage, map_map]
  exact congrFun (filterMap_eq_map' ..) _

theorem txLocation_unindexOps (block : Block) :
    (unindexOps block).filterMap StateOp.txLocation? = deleteAll (locationPage block) := by
  rw [unindexOps, filterMap_transactionOps fun _ _ => rfl, deleteAll, locationPage, map_map]
  exact congrFun (filterMap_eq_map' ..) _

theorem txLocation_genesisOps (opts : NodeOptions) :
    (genesisOps opts).filterMap StateOp.txLocation? = putAll (locationPage opts.genesis) := by
  have hput : (opts.genesis.transactions.map fun tx =>
      putTxLocationOp tx.id opts.genesis.hash).filterMap StateOp.txLocation? =
      putAll (locationPage opts.genesis) := by
    rw [filterMap_map, putAll, locationPage, map_map]
    exact congrFun (filterMap_eq_map' ..) _
  rw [genesisOps, filterMap_append, filterMap_append, hput]
  split
  · rw [NoActivity.addressIndexOps fun _ _ => rfl, append_nil]
    rfl
  · exact append_nil _

def txLocations : BlockIndex Text Text where
  page := locationPage
  read := ChainState.txIndex
  op? := StateOp.txLocation?
  read_batch _ _ := rfl
  indexed := txLocation_indexOps
  unindexed := txLocation_unindexOps
  others op hlocation _ := by
    cases op with
    | txLocation txId hash => exact absurd rfl (hlocation txId hash)
    | _ => rfl
  genesis := txLocation_genesisOps

/-- The pages up to the tip are those of the blocks that confirm something. -/
theorem mem_txLocations_iff {opts : NodeOptions} {H : Set BlockHeader} {chain : ChainState}
    {head : Block} (h : StoredWell opts H chain) (hspine : Spine chain head) {txId hash : Text} :
    (∃ i, Window 0 head.header.height i ∧ (txId, hash) ∈ txLocations.pages chain i) ↔
      ∃ block, block.hash = hash ∧ Confirms chain block txId := by
  constructor
  · rintro ⟨i, -, hmem⟩
    obtain ⟨p, hp, hpage⟩ := BlockIndex.mem_pages.1 hmem
    obtain ⟨htx, rfl⟩ := mem_locationPage.1 hpage
    obtain ⟨hc, hb, -⟩ := canonicalBlockWithUndo_eq_some.1 hp
    obtain ⟨block, hb', rfl⟩ := hspine.block_of_canonical h hc
    cases hb.symm.trans hb'
    exact ⟨p.1, rfl, hc, hb, htx⟩
  · rintro ⟨block, rfl, hc, hb, htx⟩
    have hle := (hspine.exists_canonical h _).1 ⟨_, hc⟩
    exact ⟨block.header.height, ⟨hle, .inl rfl⟩, BlockIndex.mem_pages.2
      ⟨(block, (chain.getUndo block.hash).getD []),
        canonicalBlockWithUndo_eq_some.2 ⟨hc, hb, rfl⟩, mem_locationPage.2 ⟨htx, rfl⟩⟩⟩

/-! ## Runs -/

/-- The blocks of the chain that ends in a block: it, and its stored ancestors. -/
inductive OnChain (chain : ChainState) (head : Block) : Block → Prop
  | head : OnChain chain head head
  | behind {hash : Text} {block : Block} :
      Anc (parentHash chain.headerOf) head.header.previousHash hash →
      chain.getBlock hash = some block → OnChain chain head block

/-- No id is in two blocks of the chain that ends in a block. -/
def DistinctIds (chain : ChainState) (head : Block) : Prop :=
  ∀ a b, OnChain chain head a → OnChain chain head b → ∀ txId ∈ a.ids, txId ∈ b.ids →
    a.header.height = b.header.height

/-- Every chain that is adopted has each id once. A block that is written under a stored
    hash has the ids that are stored, and a mined block is valid. -/
def IndexesOnce (opts : NodeOptions) (w : World) : Label → Prop
  | .store block => ∀ b, w.chain.getBlock block.hash = some b → b.ids = block.ids
  | .adopt head => DistinctIds w.chain head
  | .mine head =>
    (∀ b, w.chain.getBlock head.hash = some b → b.transactions = head.transactions) ∧
      (∃ ctx, validateBlock opts.signatures head ctx = .ok ()) ∧ DistinctIds w.chain head
  | _ => True

abbrev StoredCommitted : ChainState → Prop := AllStored Block.Committed

structure TxIndexed (chain : ChainState) : Prop where
  committed : StoredCommitted chain
  locations : txLocations.Exact chain

section Run

variable {opts : NodeOptions} {H : Set BlockHeader} {w w' : World} {head : Block}
  (hinj : Set.InjOn computeBlockHash H) (hs : Sound opts H w)

include hinj hs

/-- The canonical blocks after an adoption are those of the chain that was adopted. -/
theorem Adopts.onChain (hext : Extends H w.chain head) (ha : Adopts opts w head w') {i : ℕ}
    {p : Block × BlockUndo} (hp : canonicalBlockWithUndo w'.chain i = some p) :
    OnChain w.chain head p.1 ∧ p.1.header.height = i := by
  obtain ⟨hput, hspine, -⟩ := ha.puts hinj hs hext
  have hs' := ha.sound hinj hs hext
  obtain ⟨hc, hb, -⟩ := canonicalBlockWithUndo_eq_some.1 hp
  obtain ⟨block, hb', hheight⟩ := hspine.block_of_canonical hs'.stored hc
  cases hb.symm.trans hb'
  refine ⟨?_, hheight⟩
  rw [hput] at hb
  split at hb
  · cases hb
    exact .head
  · next hne =>
    obtain ⟨parent, hparent, hpos⟩ := hext.parent
    have hheader : w'.chain.headerOf head.hash = some head.header := ChainState.known hspine.stored
    rcases ((hspine.canonical i p.1.hash).1 hc).1.eq_or_parent with heq | ⟨hash, hhash, hanc⟩
    · exact absurd heq.symm hne
    · rw [parentHash_eq hheader (by omega), Option.some.injEq] at hhash
      subst hhash
      exact .behind ((hs.stored.anc_put hinj hext hput hparent).1 hanc) hb

theorem Adopts.paged (hext : Extends H w.chain head) (ha : Adopts opts w head w')
    (hdistinct : DistinctIds w.chain head) (hstored : StoredCommitted w'.chain) :
    PagedOnce (txLocations.pages w'.chain) where
  nodup := by
    intro i
    rw [BlockIndex.pages]
    cases hp : canonicalBlockWithUndo w'.chain i with
    | none => exact nodup_nil
    | some p =>
      obtain ⟨-, hb, -⟩ := canonicalBlockWithUndo_eq_some.1 hp
      change ((locationPage p.1).map Prod.fst).Nodup
      rw [keys_locationPage]
      exact (hstored _ _ hb).identified.nodup
  paged := by
    rintro i j ⟨txId, hash⟩ hmem ⟨txId', hash'⟩ hmem' heq
    obtain rfl : txId = txId' := heq
    obtain ⟨p, hp, hpage⟩ := BlockIndex.mem_pages.1 hmem
    obtain ⟨q, hq, hpage'⟩ := BlockIndex.mem_pages.1 hmem'
    obtain ⟨hpchain, rfl⟩ := ha.onChain hinj hs hext hp
    obtain ⟨hqchain, rfl⟩ := ha.onChain hinj hs hext hq
    exact hdistinct _ _ hpchain hqchain txId (mem_locationPage.1 hpage).1 (mem_locationPage.1 hpage').1

theorem Adopts.txIndexed (hext : Extends H w.chain head) (hsame : SameBody w.chain head)
    (hhead : head.Committed) (hdistinct : DistinctIds w.chain head) (h : TxIndexed w.chain)
    (ha : Adopts opts w head w') : TxIndexed w'.chain := by
  have hstored := h.committed.put (ha.puts hinj hs hext).1 hhead
  exact ⟨hstored, BlockIndex.adopts_exact hinj hs hext hsame ha
    (ha.paged hinj hs hext hdistinct hstored) h.locations⟩

omit hinj hs in
/-- Blocks of one hash with the same ids have the same page. -/
theorem locationPage_congr {a b : Block} (hids : a.ids = b.ids) (hhash : a.hash = b.hash) :
    locationPage a = locationPage b := by
  have hmap : ∀ block : Block, locationPage block = block.ids.map fun txId => (txId, block.hash) := by
    intro block
    rw [locationPage, Block.ids, map_map]
    rfl
  rw [hmap, hmap, hids, hhash]

theorem Change.txIndexed {label : Label} (hC : IndexesOnce opts w label)
    (hc : Change opts H w label w') (h : TxIndexed w.chain) : TxIndexed w'.chain := by
  cases hc with
  | note hchain _ _ _ _ => rwa [hchain]
  | index _ _ => exact h
  | @store _ _ block _ _ hparent hmem hctx hvalid =>
    have hpage : ∀ b, w.chain.getBlock block.hash = some b →
        txLocations.page b = txLocations.page block := fun b hb =>
      locationPage_congr (hC b hb) (w.chain.keyed _ _ hb)
    exact ⟨h.committed.put (puts_batch w.chain block) (.of_valid hvalid),
      BlockIndex.store_exact hs hpage h.locations⟩
  | adopt hext hheavier ha =>
    exact ha.txIndexed hinj hs hext hheavier.sameBody (h.committed _ _ hheavier.stored) hC h
  | mine hext htip ha =>
    obtain ⟨htxs, ⟨ctx, hvalid⟩, hdistinct⟩ := hC
    exact ha.txIndexed hinj hs hext (.of_transactions hinj hs.stored hext htxs) (.of_valid hvalid)
      hdistinct h
  | submit tx =>
    rw [exec_admitTransaction]
    exact h
  | reopen => exact h

theorem Trace.txIndexed (ht : Trace opts H (IndexesOnce opts) w w') (h : TxIndexed w.chain) :
    TxIndexed w'.chain :=
  ht.invariant (P := fun w => TxIndexed w.chain) hinj
    (fun hs hC hc h => hc.txIndexed hinj hs hC h) hs h

omit hinj in
theorem TxIndexed.exact (h : TxIndexed w.chain) : TxIndexExact w.chain := by
  obtain ⟨head, hspine, -⟩ := hs.spine
  have hholds : ∀ txId hash, w.chain.getTxLocation txId = some hash ↔
      ∃ block, block.hash = hash ∧ Confirms w.chain block txId := by
    intro txId hash
    rw [← mem_txLocations_iff hs.stored hspine]
    exact h.locations.paged.holds_iff_mem.1 (h.locations.holds _ hspine.tip) txId hash
  refine ⟨fun txId => ?_, fun txId hash => (hholds txId hash).1, fun txId block hconfirms => ?_,
    fun txId hnone => ?_⟩
  · rw [Option.isSome_iff_exists]
    constructor
    · rintro ⟨hash, hlocation⟩
      obtain ⟨block, -, hconfirms⟩ := (hholds _ _).1 hlocation
      exact ⟨block, hconfirms⟩
    · rintro ⟨block, hconfirms⟩
      exact ⟨_, (hholds _ _).2 ⟨block, rfl, hconfirms⟩⟩
  · exact getTransactionProof_of_confirms ((hholds _ _).2 ⟨block, rfl, hconfirms⟩) hconfirms
      (h.committed _ _ hconfirms.stored)
  · have hlocation : w.chain.getTxLocation txId = none := by
      refine Option.eq_none_iff_forall_not_mem.2 fun hash hmem => ?_
      obtain ⟨block, -, hconfirms⟩ := (hholds _ _).1 hmem
      exact hnone block hconfirms
    rw [getTransactionProof, hlocation]

end Run

section Start

variable {opts : NodeOptions} {H : Set BlockHeader} {w : World}

theorem createGenesisBlock_root {config : GenesisConfig} {genesis : Block}
    (h : createGenesisBlock config = .ok genesis) :
    merkleRoot genesis.ids = .ok genesis.header.merkleRoot := by
  rw [createGenesisBlock, bind_eq_ok] at h
  obtain ⟨allocations, -, h⟩ := h
  cases h
  rfl

theorem genesis_committed (opts : NodeOptions) : opts.genesis.Committed :=
  ⟨genesis_identified opts, createGenesisBlock_root opts.genesis_eq⟩

theorem start_txIndexed (hmem : opts.genesis.header ∈ H) (h : start opts = .ok w) :
    TxIndexed w.chain := by
  have hnodup : ((locationPage opts.genesis).map Prod.fst).Nodup := by
    rw [keys_locationPage]
    exact (genesis_committed opts).identified.nodup
  refine ⟨?_, BlockIndex.start_exact rfl hnodup hmem h⟩
  obtain ⟨_, _, _, _, -, -, -, rfl⟩ := start_eq_ok h
  exact allStored_genesisOps (genesis_committed opts)

end Start

/-- In every state that a node reaches from an empty database by adopting chains that have
    each id once, the transaction index is exact. -/
theorem tx_index_exact {opts : NodeOptions} {H : Set BlockHeader}
    (hinj : Set.InjOn computeBlockHash H) (hgenesis : opts.genesis.header ∈ H) {w₀ w : World}
    (hstart : start opts = .ok w₀) (hrun : Trace opts H (IndexesOnce opts) w₀ w) :
    TxIndexExact w.chain := by
  have hsound := (start_good hgenesis hstart).sound
  exact (hrun.txIndexed hinj hsound (start_txIndexed hgenesis hstart)).exact
    (Trace.sound hinj hsound hrun)

/-- The miner of a node found a block whose coinbase is its own. -/
theorem trace_indexesOnce_plain :
    Trace indexedOptions plainHeaders (IndexesOnce indexedOptions) (started indexedOptions)
      minedPlain := by
  have hgood : Session.Good indexedOptions plainHeaders ⟨started indexedOptions, []⟩ :=
    start_good (.inl rfl) start_indexed
  obtain ⟨hnew, hparent, htip, hok⟩ := reads_minedPlain.2.1
  have hext : Extends plainHeaders (started indexedOptions).chain plainBlock :=
    .of_parent rfl (.inr rfl) hparent rfl (by decide)
  have hvalid : validateBlock indexedOptions.signatures plainBlock (sampleContext sampleGenesis) =
      .ok () := by decide +kernel
  have hids : ∀ txId ∈ plainBlock.ids, txId ∉ sampleGenesis.ids := by decide +kernel
  -- Behind the block there is genesis only.
  have hchain : ∀ b, OnChain (started indexedOptions).chain plainBlock b →
      b = plainBlock ∨ b = sampleGenesis := by
    intro b hb
    cases hb with
    | head => exact .inl rfl
    | behind hanc hb =>
      rcases hanc.eq_or_parent with heq | ⟨hash, hhash, -⟩
      · cases (heq ▸ hb).symm.trans hparent
        exact .inr rfl
      · rw [parentHash, headerOf_eq_some.2 ⟨_, hparent, rfl⟩] at hhash
        cases hhash
  have hdistinct : DistinctIds (started indexedOptions).chain plainBlock := by
    intro a b ha hb txId hta htb
    rcases hchain a ha with rfl | rfl
    · rcases hchain b hb with rfl | rfl
      · rfl
      · exact absurd htb (hids txId hta)
    · rcases hchain b hb with rfl | rfl
      · exact absurd hta (hids txId htb)
      · rfl
  rcases adoptBlock_outcome sampleEnv injOn_plainHeaders hgood.sound plainBlock with
    ⟨e, index, hexec, -⟩ | ha
  · rw [hexec] at hok
    cases hok
  · refine .single ⟨.mine plainBlock, ⟨fun b hb => ?_, ⟨_, hvalid⟩, hdistinct⟩, .mine hext htip ha⟩
    cases hnew.symm.trans hb

theorem tx_index_exact_plain : minedPlain.chain.tip = some ⟨plainBlock.hash, 1⟩ ∧
    TxIndexExact minedPlain.chain :=
  ⟨tip_minedPlain, tx_index_exact injOn_plainHeaders (.inl rfl) start_indexed
    trace_indexesOnce_plain⟩

/-- A second block with the coinbase of the first. -/
def repeatedBlock : Block := sampleBlock firstBlock (sampleCoinbase 50 0)

/-- Two blocks on top of the first. -/
def rivalBlock : Block := sampleBlock firstBlock (sampleCoinbase 49 0)

def rivalHead : Block := sampleBlock rivalBlock (sampleCoinbase 48 0)

def rivalHeaders : Set BlockHeader :=
  {header | header ∈ [sampleGenesis, firstBlock, repeatedBlock, rivalBlock, rivalHead].map Block.header}

/-- A node that is sent both branches, the longer one last. -/
def forked : Session :=
  [firstBlock, repeatedBlock, rivalBlock, rivalHead].foldl (fun s block =>
    step sampleOptions s sampleEnv (.message (.NEW_BLOCK block) (lit "p")))
    ⟨started sampleOptions, []⟩

theorem reachable_forked : Reachable sampleOptions rivalHeaders forked := by
  have hnext : ∀ {s : Session} {block : Block}, Reachable sampleOptions rivalHeaders s →
      block.header ∈ rivalHeaders → Reachable sampleOptions rivalHeaders
        (step sampleOptions s sampleEnv (.message (.NEW_BLOCK block) (lit "p"))) :=
    fun hs hmem => .next sampleEnv hs trivial fun header h => mem_singleton.1 h ▸ hmem
  have hmem : ∀ block ∈ [sampleGenesis, firstBlock, repeatedBlock, rivalBlock, rivalHead],
      block.header ∈ rivalHeaders := fun block hb => mem_map_of_mem hb
  have hstart : Reachable sampleOptions rivalHeaders ⟨started sampleOptions, []⟩ :=
    .initial (hmem sampleGenesis (by simp)) start_sample
  exact hnext (hnext (hnext (hnext hstart (hmem _ (by simp))) (hmem _ (by simp)))
    (hmem _ (by simp))) (hmem _ (by simp))

/-- Disconnecting the second block takes the location of the coinbase of the first one
    away, which is canonical still. -/
theorem tx_index_forked : Reachable sampleOptions rivalHeaders forked ∧
    forked.chain.tip = some ⟨rivalHead.hash, 3⟩ ∧
    Confirms forked.chain firstBlock (sampleCoinbase 50 0).id ∧
    forked.chain.getTxLocation (sampleCoinbase 50 0).id = none ∧
    (getTransactionProof forked.chain (sampleCoinbase 50 0).id).toOption.map Option.isSome =
      some false := by
  have hreads : forked.chain.tip = some ⟨rivalHead.hash, 3⟩ ∧
      forked.chain.canonical.get firstBlock.header.height = some firstBlock.hash ∧
      forked.chain.getBlock firstBlock.hash = some firstBlock ∧
      (sampleCoinbase 50 0).id ∈ firstBlock.ids ∧
      forked.chain.getTxLocation (sampleCoinbase 50 0).id = none ∧
      (getTransactionProof forked.chain (sampleCoinbase 50 0).id).toOption.map Option.isSome =
        some false := by decide +kernel
  obtain ⟨htip, hcanonical, hstored, hmem, hlocation, hproof⟩ := hreads
  exact ⟨reachable_forked, htip, ⟨hcanonical, hstored, hmem⟩, hlocation, hproof⟩

end Plainchain
