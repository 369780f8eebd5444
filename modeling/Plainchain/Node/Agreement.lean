import Plainchain.MerkleTree
import Plainchain.Node.Ledger

/-!
# Agreement

Two nodes of one network, each with a history of its own: other peers, another order of the
blocks, other reorganisations. What they share is hashes. A hash that both of them have on
their chain stands for the same blocks below it, header by header, as long as there are no
collisions, and the root in a header for the same transactions. The UTXO set follows from
these (`Ledgered.exact`), so that the tip determines it.

* `nodes_agree`: below a block that is canonical for both nodes their chains are the same,
  with the same transactions, and with the same tip they have the same UTXO set.
-/

namespace Plainchain

open Js Kv Ancestry List

/-! ## Ids are hashes -/

/-- The ids of the transactions of a block are the hashes of their texts. -/
def Block.HashedIds (block : Block) : Prop :=
  ∀ tx ∈ block.transactions, tx.id = sha256 (serializeTransactionBody tx.toUnsignedTransactionBody)

variable {block b' b : Block} {hash x : Text} {k : ℕ}

theorem Block.HashedIds.of_valid {S : SignatureScheme} {ctx : BlockValidationContext}
    (h : validateBlock S block ctx = .ok ()) : block.HashedIds := by
  obtain ⟨_, _, hv⟩ := validateBlock_eq_ok.1 h
  exact fun tx htx => (hv.structured tx htx).id_eq.symm

abbrev StoredHashedIds : ChainState → Prop := AllStored Block.HashedIds

theorem genesis_hashedIds (opts : NodeOptions) : opts.genesis.HashedIds := by
  obtain ⟨allocations, -, htxs, -⟩ := createGenesisBlock_eq_ok opts.genesis_eq
  intro tx htx
  rw [htxs, mem_singleton] at htx
  subst htx
  rfl

section Run

variable {opts : NodeOptions} {H : Set BlockHeader} {w w' : World}

theorem start_hashedIds (h : start opts = .ok w) : StoredHashedIds w.chain := by
  obtain ⟨_, _, _, _, -, -, -, rfl⟩ := start_eq_ok h
  exact allStored_genesisOps (genesis_hashedIds opts)

variable (hinj : Set.InjOn computeBlockHash H) (hs : Sound opts H w)

include hinj hs

theorem Change.hashedIds {label : Label} (hC : IndexesOnce opts w label)
    (hc : Change opts H w label w') (h : StoredHashedIds w.chain) : StoredHashedIds w'.chain := by
  refine hc.allStored hinj hs (fun _ _ hvalid => .of_valid hvalid) (fun head hlabel _ _ _ => ?_) h
  subst hlabel
  obtain ⟨-, ⟨ctx, hvalid⟩, -⟩ := hC
  exact .of_valid hvalid

theorem Trace.hashedIds (ht : Trace opts H (KeepsLedger opts) w w') (h : StoredHashedIds w.chain) :
    StoredHashedIds w'.chain :=
  ht.invariant (P := fun w => StoredHashedIds w.chain) hinj
    (fun hs hC hc h => hc.hashedIds hinj hs hC.1 h) hs h

end Run

/-! ## Blocks -/

/-- No two texts that are hashed for the blocks have one hash, and no two of their transactions
    have one id. -/
structure Collisionless (blocks : Set Block) : Prop where
  texts : NoCollision {t | ∃ block ∈ blocks, t ∈ blockTexts block}
  ids : Set.InjOn Transaction.id {tx | ∃ block ∈ blocks, tx ∈ block.transactions}

theorem Collisionless.mono {blocks blocks' : Set Block} (h : Collisionless blocks')
    (hsub : blocks ⊆ blocks') : Collisionless blocks := by
  constructor
  · refine h.texts.mono ?_
    rintro t ⟨block, hblock, ht⟩
    exact ⟨block, hsub hblock, ht⟩
  · refine h.ids.mono ?_
    rintro tx ⟨block, hblock, htx⟩
    exact ⟨block, hsub hblock, htx⟩

/-- Lists of transactions with the same ids are the same. -/
theorem eq_of_map_id {T : Set Transaction} (hT : Set.InjOn Transaction.id T)
    {txs txs' : List Transaction} (h : ∀ tx ∈ txs, tx ∈ T) (h' : ∀ tx ∈ txs', tx ∈ T)
    (heq : txs.map Transaction.id = txs'.map Transaction.id) : txs = txs' := by
  induction txs generalizing txs' with
  | nil => exact (map_eq_nil_iff.1 heq.symm).symm
  | cons tx txs ih =>
    cases txs' with
    | nil => cases heq
    | cons tx' txs' =>
      obtain ⟨hid, hrest⟩ := List.cons.inj heq
      obtain ⟨htx, htxs⟩ := forall_mem_cons.1 h
      obtain ⟨htx', htxs'⟩ := forall_mem_cons.1 h'
      rw [hT htx htx' hid, ih htxs htxs' hrest]

/-- The root of a block determines its transactions. -/
theorem Collisionless.transactions_eq {blocks : Set Block} (h : Collisionless blocks)
    (hb : b ∈ blocks) (hb' : b' ∈ blocks) (hc : b.Committed) (hc' : b'.Committed) (hi : b.HashedIds)
    (hi' : b'.HashedIds) (hroot : b.header.merkleRoot = b'.header.merkleRoot) :
    b.transactions = b'.transactions := by
  -- The texts of the transactions, and the ids as their hashes.
  have hids {c : Block} (hi : c.HashedIds) : c.ids = (c.transactions.map fun tx =>
      serializeTransactionBody tx.toUnsignedTransactionBody).map sha256 := by
    rw [map_map]
    exact map_congr_left fun tx htx => hi tx htx
  have htexts {c : Block} (hc : c ∈ blocks) : ∀ t ∈ c.transactions.map fun tx =>
      serializeTransactionBody tx.toUnsignedTransactionBody,
      t ∈ {t | ∃ block ∈ blocks, t ∈ blockTexts block} ∧ ¬hexOf 128 t := by
    intro t ht
    refine ⟨⟨c, hc, ?_⟩, ?_⟩
    · exact mem_cons_of_mem _ (mem_append_left _ ht)
    · obtain ⟨tx, -, rfl⟩ := mem_map.1 ht
      exact not_hexOf_serializeTransactionBody _ _
  have hnodes {c : Block} (hc : c ∈ blocks) : ∀ t ∈ merkleTexts c.ids,
      t ∈ {t | ∃ block ∈ blocks, t ∈ blockTexts block} := fun t ht =>
    ⟨c, hc, mem_cons_of_mem _ (mem_append_right _ ht)⟩
  have hroots {c : Block} (hi : c.HashedIds) (hc : c.Committed) : merkleRoot ((c.transactions.map
      fun tx => serializeTransactionBody tx.toUnsignedTransactionBody).map sha256) =
      .ok c.header.merkleRoot := by
    rw [← hids hi]
    exact hc.root
  have heq : b.ids = b'.ids := by
    rw [hids hi, hids hi']
    refine merkleRoot_inj h.texts (htexts hb) (htexts hb') ?_ ?_ ?_ ?_ (hroots hi hc)
      (hroot ▸ hroots hi' hc')
    · exact hids hi ▸ hc.identified.nodup
    · exact hids hi' ▸ hc'.identified.nodup
    · exact hids hi ▸ hnodes hb
    · exact hids hi' ▸ hnodes hb'
  exact eq_of_map_id h.ids (fun tx htx => ⟨b, hb, htx⟩) (fun tx htx => ⟨b', hb', htx⟩) heq

/-! ## Chains -/

section Chains

variable {opts : NodeOptions} {H : Set BlockHeader} {chain chain' : ChainState}
  (hinj : Set.InjOn computeBlockHash H) (h : StoredWell opts H chain)
  (h' : StoredWell opts H chain')

include hinj h h'

theorem header_eq (hb : chain.getBlock hash = some b) (hb' : chain'.getBlock hash = some b') :
    b.header = b'.header := by
  obtain ⟨hhash, hmem⟩ := h.hashed hash b hb
  obtain ⟨hhash', hmem'⟩ := h'.hashed hash b' hb'
  exact hinj hmem hmem' (hhash.trans hhash'.symm)

variable {y : Text}

/-- The ancestors of a block that both have are stored by both. -/
theorem stored_by_both (hb : chain.getBlock x = some b) (hb' : chain'.getBlock x = some b')
    (hanc : Anc (parentHash chain.headerOf) x y) :
    ∃ c c', chain.getBlock y = some c ∧ chain'.getBlock y = some c' := by
  obtain ⟨l, hl⟩ := hanc
  induction l generalizing x b b' with
  | nil =>
    rw [← show x = y from hl]
    exact ⟨b, b', hb, hb'⟩
  | cons a l ih =>
    obtain ⟨rfl, p, hp, hl⟩ := hl
    have hheader := headerOf_eq_some.2 ⟨b, hb, rfl⟩
    have hheight : b.header.height ≠ 0 := by
      intro h0
      simp [parentHash, hheader, h0] at hp
    rw [parentHash_eq hheader hheight] at hp
    cases hp
    have heq := header_eq hinj h h' hb hb'
    obtain ⟨parent, hparent, -⟩ := h.linked _ b hb hheight
    obtain ⟨parent', hparent', -⟩ := h'.linked _ b' hb' (heq ▸ hheight)
    exact ih hparent (heq ▸ hparent') hl

theorem headerOf_eq_of_both {c c' : Block} (hc : chain.getBlock y = some c)
    (hc' : chain'.getBlock y = some c') : chain'.headerOf y = chain.headerOf y := by
  rw [headerOf_eq_some.2 ⟨c, hc, rfl⟩, headerOf_eq_some.2 ⟨c', hc', rfl⟩,
    header_eq hinj h h' hc hc']

/-- A block that both have has the same ancestors for both. -/
theorem anc_iff_anc (hb : chain.getBlock x = some b) (hb' : chain'.getBlock x = some b') :
    Anc (parentHash chain'.headerOf) x y ↔ Anc (parentHash chain.headerOf) x y := by
  refine Anc.congr fun z hz => ?_
  obtain ⟨c, c', hc, hc'⟩ := stored_by_both hinj h h' hb hb' hz
  rw [parentHash, parentHash, headerOf_eq_of_both hinj h h' hc hc']

/-- So has it the same ancestor at a height. -/
theorem anc_at_iff (hb : chain.getBlock x = some b) (hb' : chain'.getBlock x = some b') :
    Anc (parentHash chain'.headerOf) x y ∧ heightIn chain'.headerOf y = k ↔
      Anc (parentHash chain.headerOf) x y ∧ heightIn chain.headerOf y = k := by
  rw [anc_iff_anc hinj h h' hb hb']
  refine and_congr_right fun hanc => ?_
  obtain ⟨c, c', hc, hc'⟩ := stored_by_both hinj h h' hb hb' hanc
  rw [heightIn, heightIn, headerOf_eq_of_both hinj h h' hc hc']

variable {head head' : Block} (hspine : Spine chain head) (hspine' : Spine chain' head')

include hspine hspine'

/-- Below a block that is canonical for both, their chains are the same. -/
theorem canonical_below {i j : ℕ} (hx : chain.canonical.get i = some x)
    (hx' : chain'.canonical.get j = some x) (hk : k ≤ i) :
    i = j ∧ chain'.canonical.get k = chain.canonical.get k := by
  obtain ⟨b, hb, rfl⟩ := hspine.block_of_canonical h hx
  obtain ⟨b', hb', rfl⟩ := hspine'.block_of_canonical h' hx'
  have hheader := header_eq hinj h h' hb hb'
  refine ⟨by rw [hheader], Option.ext fun y => ?_⟩
  -- At these heights the chains have the ancestors of the block.
  have hanc := ((hspine.canonical _ x).1 hx).1
  have hanc' := ((hspine'.canonical _ x).1 hx').1
  rw [HeightIndex.get_below h.rootward.height_parent hspine.canonical hanc
      (by rwa [heightIn_eq (headerOf_eq_some.2 ⟨b, hb, rfl⟩)]),
    HeightIndex.get_below h'.rootward.height_parent hspine'.canonical hanc'
      (by rwa [heightIn_eq (headerOf_eq_some.2 ⟨b', hb', rfl⟩), ← hheader])]
  exact anc_at_iff hinj h h' hb hb'

end Chains

/-! ## Nodes -/

/-- What holds of a node that keeps its ledger. -/
structure Settled (opts : NodeOptions) (H : Set BlockHeader) (w : World) : Prop where
  sound : Sound opts H w
  ledgered : Ledgered opts w
  hashedIds : StoredHashedIds w.chain

theorem Trace.settled {opts : NodeOptions} {H : Set BlockHeader}
    (hinj : Set.InjOn computeBlockHash H) (hgenesis : opts.genesis.header ∈ H) {w₀ w : World}
    (hstart : start opts = .ok w₀) (hrun : Trace opts H (KeepsLedger opts) w₀ w) :
    Settled opts H w := by
  have hsound := (start_good hgenesis hstart).sound
  exact ⟨Trace.sound hinj hsound hrun,
    hrun.ledgered hinj hsound (start_ledgered hgenesis hstart),
    hrun.hashedIds hinj hsound (start_hashedIds hstart)⟩

section Nodes

variable {opts : NodeOptions} {H : Set BlockHeader} (hinj : Set.InjOn computeBlockHash H)
  {w w' : World} (h : Settled opts H w) (h' : Settled opts H w')
  (hcoll : Collisionless {block | ∃ hash, w.chain.getBlock hash = some block ∨
    w'.chain.getBlock hash = some block})

include hinj h h' hcoll

/-- A hash stands for one block. -/
theorem block_eq (hb : w.chain.getBlock hash = some b) (hb' : w'.chain.getBlock hash = some b') :
    b = b' := by
  have hheader := header_eq hinj h.sound.stored h'.sound.stored hb hb'
  have htxs := hcoll.transactions_eq ⟨hash, .inl hb⟩ ⟨hash, .inr hb'⟩
    (h.ledgered.indexed.committed _ _ hb) (h'.ledgered.indexed.committed _ _ hb')
    (h.hashedIds _ _ hb) (h'.hashedIds _ _ hb') (by rw [hheader])
  have hhash := (w.chain.keyed _ _ hb).trans (w'.chain.keyed _ _ hb').symm
  cases b
  cases b'
  simp only [Block.mk.injEq]
  exact ⟨hheader, htxs, hhash⟩

/-- Below a block that is canonical for both they have the same blocks. -/
theorem blocks_below {i j : ℕ} (hx : w.chain.canonical.get i = some x)
    (hx' : w'.chain.canonical.get j = some x) (hk : k ≤ i) :
    i = j ∧ ∃ hash block, w.chain.canonical.get k = some hash ∧
      w'.chain.canonical.get k = some hash ∧ w.chain.getBlock hash = some block ∧
      w'.chain.getBlock hash = some block := by
  obtain ⟨head, hspine, -⟩ := h.sound.spine
  obtain ⟨head', hspine', -⟩ := h'.sound.spine
  obtain ⟨hij, hsame⟩ :=
    canonical_below hinj h.sound.stored h'.sound.stored hspine hspine' hx hx' hk
  have hle : i ≤ head.header.height := (hspine.exists_canonical h.sound.stored i).1 ⟨x, hx⟩
  obtain ⟨hash, hhash⟩ := (hspine.exists_canonical h.sound.stored k).2 (hk.trans hle)
  obtain ⟨b, hb, -⟩ := hspine.block_of_canonical h.sound.stored hhash
  obtain ⟨b', hb', -⟩ := hspine'.block_of_canonical h'.sound.stored (hsame.trans hhash)
  cases block_eq hinj h h' hcoll hb hb'
  exact ⟨hij, hash, b, hhash, hsame.trans hhash, hb, hb'⟩

/-- With the same tip, what is on the ledger of one is on that of the other. -/
theorem OnLedger.of_tip (htip : w.chain.tip = w'.chain.tip) {tx : Transaction}
    (htx : OnLedger w.chain block tx) : OnLedger w'.chain block tx := by
  obtain ⟨head, hspine, -⟩ := h.sound.spine
  obtain ⟨head', hspine', -⟩ := h'.sound.spine
  have heq := (hspine.tip.symm.trans htip).trans hspine'.tip
  simp only [Option.some.injEq, ChainTip.mk.injEq] at heq
  have hhead : w.chain.canonical.get head.header.height = some head.hash :=
    (hspine.canonical _ _).2 ⟨.refl _, heightIn_eq (headerOf_eq_some.2 ⟨head, hspine.stored, rfl⟩)⟩
  have hhead' : w'.chain.canonical.get head'.header.height = some head.hash := by
    rw [heq.1]
    exact (hspine'.canonical _ _).2
      ⟨.refl _, heightIn_eq (headerOf_eq_some.2 ⟨head', hspine'.stored, rfl⟩)⟩
  have hle := (hspine.exists_canonical h.sound.stored _).1 ⟨_, htx.canonical⟩
  obtain ⟨-, hash, b, hc, hc', hb, hb'⟩ := blocks_below hinj h h' hcoll hhead hhead' hle
  cases hc.symm.trans htx.canonical
  cases hb.symm.trans htx.stored
  exact ⟨hc', hb', htx.mem⟩

end Nodes

section Main

variable {opts : NodeOptions} {H : Set BlockHeader} (hinj : Set.InjOn computeBlockHash H)
  (hgenesis : opts.genesis.header ∈ H) {w₀ w w' : World} (hstart : start opts = .ok w₀)
  (hrun : Trace opts H (KeepsLedger opts) w₀ w) (hrun' : Trace opts H (KeepsLedger opts) w₀ w')
  (hcoll : Collisionless {block | ∃ hash, w.chain.getBlock hash = some block ∨
    w'.chain.getBlock hash = some block})

include hinj hgenesis hstart hrun hrun' hcoll

/-- Nodes with whatever histories have the same blocks below every block that is canonical for
    both. With the same tip they have the same UTXO set. -/
theorem nodes_agree :
    (∀ x i j, w.chain.canonical.get i = some x → w'.chain.canonical.get j = some x →
      ∀ k ≤ i, i = j ∧ ∃ hash block, w.chain.canonical.get k = some hash ∧
        w'.chain.canonical.get k = some hash ∧ w.chain.getBlock hash = some block ∧
        w'.chain.getBlock hash = some block) ∧
    (w.chain.tip = w'.chain.tip → ∀ key, w.utxoSet.store.get key = w'.utxoSet.store.get key) := by
  have h := hrun.settled hinj hgenesis hstart
  have h' := hrun'.settled hinj hgenesis hstart
  refine ⟨fun x i j hx hx' k hk => blocks_below hinj h h' hcoll hx hx' hk,
    fun htip key => Option.ext fun entry => ?_⟩
  have hcoll' : Collisionless {block | ∃ hash, w'.chain.getBlock hash = some block ∨
      w.chain.getBlock hash = some block} := by
    simpa only [or_comm] using hcoll
  have hiff (block : Block) (tx : Transaction) :
      OnLedger w.chain block tx ↔ OnLedger w'.chain block tx :=
    ⟨OnLedger.of_tip hinj h h' hcoll htip, OnLedger.of_tip hinj h' h hcoll' htip.symm⟩
  rw [h.ledgered.exact h.sound, h'.ledgered.exact h'.sound]
  simp only [hiff]

end Main

/-! ## A node with another block -/

/-- The blocks of the two nodes. -/
def paymentBlocks : List Block := [paidGenesis, paymentBlock, sideBlock]

/-- A node that has heard of another block before. -/
def sided : World :=
  { started paidOptions with chain := (started paidOptions).chain.batch [putBlockOp sideBlock] }

theorem reads_sided :
    (((paymentBlocks.flatMap blockTexts).map sha256).Nodup ∧
      ((paymentBlocks.flatMap Block.transactions).map Transaction.id).Nodup) ∧
    ((started paidOptions).chain.getBlock sideBlock.header.previousHash = some paidGenesis ∧
      (started paidOptions).chain.getBlock sideBlock.hash = none ∧
      ((blockContext paidOptions sampleEnv (started paidOptions) sideBlock paidGenesis).toOption.map
        (validateBlock anySignatures sideBlock)) = some (.ok ())) ∧
    (sided.chain.getBlock paymentBlock.hash = none ∧
      sided.chain.getBlock paymentBlock.header.previousHash = some paidGenesis ∧
      sided.chain.tip.map (·.hash) = some paymentBlock.header.previousHash ∧
      ((adoptBlock paidOptions sampleEnv paymentBlock).exec sided).1.isOk = true) ∧
    minedPayment.chain.tip = (minedBy sided).chain.tip ∧
    minedPayment.chain.getBlock sideBlock.hash ≠ (minedBy sided).chain.getBlock sideBlock.hash := by
  decide +kernel

theorem Collisionless.of_nodup {blocks : List Block}
    (htexts : ((blocks.flatMap blockTexts).map sha256).Nodup)
    (hids : ((blocks.flatMap Block.transactions).map Transaction.id).Nodup) :
    Collisionless {block | block ∈ blocks} := by
  refine ⟨.of_injOn ?_, ?_⟩
  · rintro t ⟨block, hblock, ht⟩ t' ⟨block', hblock', ht'⟩ heq
    exact inj_on_of_nodup_map htexts (mem_flatMap.2 ⟨block, hblock, ht⟩)
      (mem_flatMap.2 ⟨block', hblock', ht'⟩) heq
  · rintro tx ⟨block, hblock, htx⟩ tx' ⟨block', hblock', htx'⟩ heq
    exact inj_on_of_nodup_map hids (mem_flatMap.2 ⟨block, hblock, htx⟩)
      (mem_flatMap.2 ⟨block', hblock', htx'⟩) heq

theorem sound_started : Sound paidOptions paymentHeaders (started paidOptions) :=
  (start_good genesis_paymentHeaders start_payment).sound

theorem change_sided : ∃ label, KeepsLedger paidOptions (started paidOptions) label ∧
    Change paidOptions paymentHeaders (started paidOptions) label sided := by
  obtain ⟨-, ⟨hparent, hnew, hvalid⟩, -⟩ := reads_sided
  have hbody : ∀ b, (started paidOptions).chain.getBlock sideBlock.hash ≠ some b :=
    fun b hb => nomatch hnew.symm.trans hb
  cases hctx : blockContext paidOptions sampleEnv (started paidOptions) sideBlock paidGenesis with
  | error e => simp [hctx, Except.toOption] at hvalid
  | ok ctx =>
    rw [hctx] at hvalid
    exact ⟨.store sideBlock, ⟨fun b hb => absurd hb (hbody b), fun b hb => absurd hb (hbody b)⟩,
      .store hparent (mem_cons_of_mem _ (mem_cons_of_mem _ mem_cons_self)) hctx
        (Option.some.inj hvalid)⟩

theorem trace_minedSided : Trace paidOptions paymentHeaders (KeepsLedger paidOptions)
    (started paidOptions) (minedBy sided) := by
  obtain ⟨-, -, ⟨hnew, hparent, htip, hok⟩, -⟩ := reads_sided
  have hsided : Trace paidOptions paymentHeaders (KeepsLedger paidOptions) (started paidOptions)
    sided := .single change_sided
  exact hsided.tail (mines_paymentBlock (Trace.sound injOn_paymentHeaders sound_started hsided)
    hparent hok hnew htip)

/-- What a miner stores besides its block was there before. -/
theorem stored_minedBy {w : World} (hs : Sound paidOptions paymentHeaders w)
    (hparent : w.chain.getBlock paymentBlock.header.previousHash = some paidGenesis)
    (hok : ((adoptBlock paidOptions sampleEnv paymentBlock).exec w).1.isOk = true)
    (hstored : ∀ hash block, w.chain.getBlock hash = some block → block ∈ paymentBlocks)
    (h : (minedBy w).chain.getBlock hash = some block) : block ∈ paymentBlocks := by
  obtain ⟨hext, ha⟩ := adopts_paymentBlock hs hparent hok
  rw [(ha.puts injOn_paymentHeaders hs hext).1] at h
  split at h
  · cases h
    exact mem_cons_of_mem _ mem_cons_self
  · exact hstored hash block h

theorem stored_started (h : (started paidOptions).chain.getBlock hash = some block) :
    block ∈ paymentBlocks := by
  obtain ⟨_, _, _, _, -, -, -, hw⟩ := start_eq_ok start_payment
  rw [hw] at h
  exact allStored_genesisOps (P := (· ∈ paymentBlocks)) mem_cons_self _ _ h

theorem stored_sided (h : sided.chain.getBlock hash = some block) : block ∈ paymentBlocks := by
  rw [show sided.chain.getBlock hash = _ from puts_batch _ sideBlock hash] at h
  split at h
  · cases h
    exact mem_cons_of_mem _ (mem_cons_of_mem _ mem_cons_self)
  · exact stored_started h

/-- Two miners find the same block, one of which has heard of another block before: they
    have the same set. -/
theorem nodes_agree_sided : minedPayment.chain.getBlock sideBlock.hash ≠
      (minedBy sided).chain.getBlock sideBlock.hash ∧
    ∀ key, minedPayment.utxoSet.store.get key = (minedBy sided).utxoSet.store.get key := by
  obtain ⟨⟨htexts, hids⟩, -, ⟨-, hparent', -, hok'⟩, htip, hother⟩ := reads_sided
  obtain ⟨-, ⟨-, hparent, -, hok⟩, -⟩ := reads_minedPayment
  have hsided : Sound paidOptions paymentHeaders sided :=
    Trace.sound injOn_paymentHeaders sound_started (.single change_sided)
  have hcoll : Collisionless {block | ∃ hash, minedPayment.chain.getBlock hash = some block ∨
      (minedBy sided).chain.getBlock hash = some block} := by
    refine (Collisionless.of_nodup htexts hids).mono ?_
    rintro block ⟨hash, hb | hb⟩
    · exact stored_minedBy sound_started hparent hok (fun _ _ => stored_started) hb
    · exact stored_minedBy hsided hparent' hok' (fun _ _ => stored_sided) hb
  exact ⟨hother, (nodes_agree injOn_paymentHeaders genesis_paymentHeaders start_payment
    trace_minedPayment trace_minedSided hcoll).2 htip⟩

end Plainchain
