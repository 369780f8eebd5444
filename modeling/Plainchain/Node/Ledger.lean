import Plainchain.Lib.Coins
import Plainchain.Node.Storage
import Plainchain.Node.TxIndex
import Plainchain.Undo

/-!
# The ledger of the canonical chain

A node keeps its UTXO set up to date by applying the blocks that it connects and undoing
those that it disconnects. What the set is for is said without either: it has the outputs
that the canonical chain has created and not spent. The canonical chain is read as a log of
coins here (`Block.log`), which a connected block plays (`Applied.plays`).

The set is what one obtains by applying the canonical blocks to an empty set, one after the
other, whichever reorganisations the node went through (`Ledgered`). That needs every chain
to have each transaction id once: undoing a block forgets what its outputs were put over.

* `utxo_set_exact`: the set has the outputs that are created and not spent;
* `no_double_spend`: no output is spent twice on the canonical chain, and what is spent was
  created before on it, is mature, and belongs to the signer.
-/

namespace Plainchain

open Js Kv Ancestry Prog List

/-! ## Blocks as logs -/

/-- What a transaction does to the coins, at a height. -/
def Transaction.transfer (tx : Transaction) (height : ℕ) : Coins.Transfer Text UtxoEntry :=
  ⟨tx.inputs.map TxInput.key, createdEntries tx height⟩

def Block.log (block : Block) : List (Coins.Transfer Text UtxoEntry) :=
  block.transactions.map fun tx => tx.transfer block.header.height

theorem Transaction.created_transfer (tx : Transaction) (height : ℕ) :
    (tx.transfer height).created = (createdOutpoints tx).map TxOutpoint.key := by
  simp only [transfer, Coins.Transfer.created, createdEntries, createdOutpoints, map_map]
  rfl

variable {records : List (Block × BlockUndo)} {tx : Transaction} {txs : List Transaction}
  {undos : List TxUndo} {S : SignatureScheme} {block : Block} {height : ℕ} {u u' : UtxoSet}

/-- A key that a transaction creates has its id. -/
theorem Transaction.parse_of_created {key : Text} (h : key ∈ (tx.transfer height).created) :
    (parseUtxoKey key).1 = tx.id := by
  rw [tx.created_transfer] at h
  obtain ⟨outpoint, hmem, rfl⟩ := mem_map.1 h
  obtain ⟨⟨output, index⟩, -, rfl⟩ := mem_map.1 hmem
  rw [TxOutpoint.key, parseUtxoKey_utxoKey]

theorem Transaction.nodup_created (tx : Transaction) (height : ℕ) :
    (tx.transfer height).created.Nodup := by
  -- The keys are those of the indexes, one after the other.
  have hkeys : (createdOutpoints tx).map TxOutpoint.key =
      (List.range' 0 tx.outputs.length).map fun index => utxoKey tx.id (.ofNat index) := by
    rw [createdOutpoints, map_map, ← zipIdx_map_snd, map_map]
    rfl
  rw [tx.created_transfer, hkeys]
  refine (nodup_range' (s := 0)).map fun i j heq => ?_
  have hparse := congrArg parseUtxoKey heq
  rw [parseUtxoKey_utxoKey, parseUtxoKey_utxoKey, Prod.mk.injEq, Option.some.injEq] at hparse
  exact hparse.2

section Plays

variable {S : SignatureScheme} {u u' : UtxoSet} {height : ℕ}

theorem applyTransaction_plays {undo : TxUndo} (h : applyTransaction S u tx height = .ok (undo, u'))
    :
    (tx.transfer height).Plays u.readRaw u'.readRaw := by
  obtain ⟨hv, heq⟩ := applyTransaction_eq_ok.1 h
  cases heq
  have hnodup : ((createOps tx height).map Prod.fst).Nodup := by
    rw [createOps_keys, ← tx.created_transfer height]
    exact tx.nodup_created height
  have hspend : spendOps tx = (tx.inputs.map TxInput.key).map fun key => (key, none) := by
    rw [spendOps, map_map]
    rfl
  refine ⟨fun key hkey => ?_, fun key entry hmem => ?_, fun key hspent hcreated => ?_,
    fun key hspent hcreated => ?_⟩
  · obtain ⟨input, hinput, rfl⟩ := mem_map.1 hkey
    obtain ⟨entry, he, -⟩ := hv.spends input hinput
    simp [he]
  · have hop : (key, some entry) ∈ createOps tx height := mem_map.2 ⟨(key, entry), hmem, rfl⟩
    rw [UtxoSet.readRaw_write, lastWrite_append, lastWrite_of_mem hnodup hop]
    rfl
  · have hnone : lastWrite (createOps tx height) key = none := by
      refine lastWrite_eq_none.2 fun op hop heq => hcreated ?_
      rw [tx.created_transfer, ← createOps_keys tx height, ← heq]
      exact mem_map_of_mem hop
    rw [UtxoSet.readRaw_write, lastWrite_append, hnone, hspend, lastWrite_map,
      if_pos (show key ∈ tx.inputs.map TxInput.key from hspent)]
    rfl
  · rw [tx.created_transfer] at hcreated
    exact readRaw_apply_of_notMem hspent hcreated

theorem applyTransactions_plays (h : applyTransactions S height u txs = .ok (undos, u')) :
    Coins.Plays u.readRaw (txs.map fun tx => tx.transfer height) u'.readRaw := by
  induction txs generalizing u undos with
  | nil =>
    cases h
    rfl
  | cons tx txs ih =>
    obtain ⟨undo, u₁, undos₂, h₁, h₂, rfl⟩ := applyTransactions_cons_eq_ok h
    exact ⟨_, applyTransaction_plays h₁, ih h₂⟩

theorem Applied.plays (h : Applied S u records u') :
    Coins.Plays u.readRaw (records.flatMap fun p => p.1.log) u'.readRaw := by
  induction records generalizing u with
  | nil =>
    cases h
    rfl
  | cons p records ih =>
    obtain ⟨u₁, hblock, hrest⟩ := h
    rw [flatMap_cons]
    exact Coins.plays_append.2 ⟨_, applyTransactions_plays hblock, ih hrest⟩

theorem applied_append {ps qs : List (Block × BlockUndo)} :
    Applied S u (ps ++ qs) u' ↔ ∃ mid, Applied S u ps mid ∧ Applied S mid qs u' := by
  induction ps generalizing u with
  | nil => simp [Applied]
  | cons p ps ih =>
    simp only [cons_append, Applied, ih]
    constructor
    · rintro ⟨a, ha, b, hb, hqs⟩
      exact ⟨b, ⟨a, ha, hb⟩, hqs⟩
    · rintro ⟨b, ⟨a, ha, hb⟩, hqs⟩
      exact ⟨a, ha, b, hb, hqs⟩

end Plays

/-! ## Sets that read the same -/

namespace SameReads

variable {S : SignatureScheme} {u v u' : UtxoSet}

theorem trans {w : UtxoSet} (h : SameReads u v) (h' : SameReads v w) : SameReads u w :=
  ⟨fun key => (h.reads key).trans (h'.reads key), h.maturity.trans h'.maturity⟩

theorem applyTransactions (h : SameReads u v)
    (ha : Plainchain.applyTransactions S height u txs = .ok (undos, u')) :
    ∃ v', Plainchain.applyTransactions S height v txs = .ok (undos, v') ∧ SameReads u' v' := by
  induction txs generalizing u v undos with
  | nil =>
    cases ha
    exact ⟨v, rfl, h⟩
  | cons tx txs ih =>
    obtain ⟨undo, u₁, undos₂, h₁, h₂, rfl⟩ := applyTransactions_cons_eq_ok ha
    obtain ⟨hv, heq⟩ := applyTransaction_eq_ok.1 h₁
    cases heq
    rw [← validateTransaction_eq_ok, h.validateTransaction, validateTransaction_eq_ok] at hv
    obtain ⟨v', hv', hsame⟩ := ih (h.write _) h₂
    refine ⟨v', ?_, hsame⟩
    simp only [Plainchain.applyTransactions, bind_eq_ok]
    exact ⟨_, applyTransaction_eq_ok.2 ⟨hv, rfl⟩, _, hv', by rw [h.undoRecord]; rfl⟩

theorem applied (h : SameReads u v) (ha : Applied S u records u') :
    ∃ v', Applied S v records v' ∧ SameReads u' v' := by
  induction records generalizing u v with
  | nil =>
    cases ha
    exact ⟨v, rfl, h⟩
  | cons p records ih =>
    obtain ⟨u₁, hblock, hrest⟩ := ha
    obtain ⟨v₁, hblock', h₁⟩ := h.applyTransactions hblock
    obtain ⟨v', hrest', h'⟩ := ih h₁ hrest
    exact ⟨v', ⟨v₁, hblock', hrest'⟩, h'⟩

theorem undoTransactions (h : SameReads u v) (undos : BlockUndo) :
    SameReads (Plainchain.undoTransactions u undos) (Plainchain.undoTransactions v undos) := by
  induction undos with
  | nil => exact h
  | cons undo undos ih => exact ih.write _

/-- Staging begins with what is persisted. -/
theorem staged (hidle : u.staging = none) : SameReads u.staged u where
  reads key := by
    rw [UtxoSet.readRaw, UtxoSet.readRaw, hidle]
    rfl
  maturity := rfl

end SameReads

/-! ## Undoing blocks -/

theorem maturity_undoTransactions (u : UtxoSet) (undos : BlockUndo) :
    (undoTransactions u undos).coinbaseMaturity = u.coinbaseMaturity := by
  induction undos with
  | nil => rfl
  | cons undo undos ih => exact (UtxoSet.coinbaseMaturity_write _ _).trans ih

theorem maturity_applyTransactions (h : applyTransactions S height u txs = .ok (undos, u')) :
    u'.coinbaseMaturity = u.coinbaseMaturity := by
  refine applyTransactions_induction (P := fun v => v.coinbaseMaturity = u.coinbaseMaturity) h rfl ?_
  intro tx undo v v' _ happly hv
  obtain ⟨-, heq⟩ := applyTransaction_eq_ok.1 happly
  cases heq
  rw [UtxoSet.coinbaseMaturity_write, hv]

theorem Applied.maturity (h : Applied S u records u') :
    u'.coinbaseMaturity = u.coinbaseMaturity := by
  induction records generalizing u with
  | nil => rw [show u = u' from h]
  | cons p records ih =>
    obtain ⟨u₁, hblock, hrest⟩ := h
    rw [ih hrest, maturity_applyTransactions hblock]

theorem CreatesUnspent.mem_created {key : Text} (h : CreatesUnspent txs key) (height : ℕ) :
    ∃ tx ∈ txs, key ∈ (tx.transfer height).created := by
  induction txs with
  | nil => exact h.elim
  | cons tx txs ih =>
    rcases h.2 with hmem | hrest
    · exact ⟨tx, mem_cons_self, by rwa [tx.created_transfer]⟩
    · obtain ⟨tx', htx', hmem⟩ := ih hrest
      exact ⟨tx', mem_cons_of_mem _ htx', hmem⟩

/-- Blocks that are undone, the last one first, leave the set that they were applied to, if
    they created nothing that was there. -/
theorem Applied.undone {mid v : UtxoSet} (h : Applied S mid records u) (hsame : SameReads v u)
    (hfresh : Coins.Fresh (records.flatMap fun p => p.1.log))
    (habsent : ∀ t ∈ records.flatMap fun p => p.1.log, ∀ key ∈ t.created, mid.readRaw key = none) :
    SameReads (records.reverse.foldl (fun u p => undoTransactions u p.2) v) mid := by
  induction records generalizing mid with
  | nil =>
    cases h
    exact hsame
  | cons p records ih =>
    obtain ⟨u₁, hblock, hrest⟩ := h
    rw [flatMap_cons] at hfresh habsent
    have hplays := applyTransactions_plays hblock
    have hback := ih hrest (Coins.fresh_append.1 hfresh).2.1 (hplays.absent hfresh habsent)
    rw [reverse_cons, foldl_append, foldl_cons, foldl_nil]
    refine (hback.undoTransactions p.2).trans ⟨fun key => ?_, ?_⟩
    · rw [readRaw_undo hblock]
      split
      · next hc =>
        obtain ⟨tx, htx, hmem⟩ := hc.mem_created p.1.header.height
        have hlog : tx.transfer p.1.header.height ∈ p.1.log := mem_map_of_mem htx
        exact (habsent _ (mem_append_left _ hlog) key hmem).symm
      · rfl
    · rw [maturity_undoTransactions, maturity_applyTransactions hblock]

/-! ## The canonical blocks -/

/-- A transaction of a canonical block. -/
structure OnLedger (chain : ChainState) (block : Block) (tx : Transaction) : Prop where
  canonical : chain.canonical.get block.header.height = some block.hash
  stored : chain.getBlock block.hash = some block
  mem : tx ∈ block.transactions

/-- The transactions of blocks, each with its block. -/
def ledgerOf (records : List (Block × BlockUndo)) : List (Block × Transaction) :=
  records.flatMap fun p => p.1.transactions.map fun tx => (p.1, tx)

theorem ledgerOf_log (records : List (Block × BlockUndo)) :
    (ledgerOf records).map (fun q => q.2.transfer q.1.header.height) =
      records.flatMap fun p => p.1.log := by
  rw [ledgerOf, map_flatMap]
  simp only [map_map]
  rfl

theorem mem_ledgerOf {q : Block × Transaction} :
    q ∈ ledgerOf records ↔ ∃ undo, (q.1, undo) ∈ records ∧ q.2 ∈ q.1.transactions := by
  simp only [ledgerOf, mem_flatMap, mem_map]
  constructor
  · rintro ⟨p, hp, tx, htx, rfl⟩
    exact ⟨p.2, hp, htx⟩
  · rintro ⟨undo, hp, htx⟩
    exact ⟨_, hp, q.2, htx, rfl⟩

namespace Stretch

variable {chain chain' : ChainState} {height : ℕ} {ps qs : List (Block × BlockUndo)}

theorem mem (h : Stretch chain height ps) {p : Block × BlockUndo} (hp : p ∈ ps) :
    (height ≤ p.1.header.height ∧ p.1.header.height < height + ps.length) ∧
      canonicalBlockWithUndo chain p.1.header.height = some p := by
  induction ps generalizing height with
  | nil => cases hp
  | cons q ps ih =>
    obtain ⟨⟨hcanonical, hheight⟩, hrest⟩ := h
    rw [length_cons]
    rcases mem_cons.1 hp with rfl | hp
    · exact ⟨by omega, by rwa [hheight]⟩
    · obtain ⟨hbounds, hp⟩ := ih hrest hp
      exact ⟨by omega, hp⟩

/-- Stretches of one length, at one height, are the same. -/
theorem eq_of_length (h : Stretch chain height ps) (h' : Stretch chain height qs)
    (hlen : ps.length = qs.length) : ps = qs := by
  induction ps generalizing height qs with
  | nil => exact (length_eq_zero_iff.1 hlen.symm).symm
  | cons p ps ih =>
    cases qs with
    | nil => cases hlen
    | cons q qs =>
      obtain ⟨⟨hp, -⟩, hps⟩ := h
      obtain ⟨⟨hq, -⟩, hqs⟩ := h'
      cases hp.symm.trans hq
      rw [ih hps hqs (Nat.succ.inj hlen)]

theorem congr (h : Stretch chain height ps)
    (heq : ∀ i : ℕ, height ≤ i → i < height + ps.length →
      canonicalBlockWithUndo chain' i = canonicalBlockWithUndo chain i) : Stretch chain' height ps := by
  induction ps generalizing height with
  | nil => trivial
  | cons p ps ih =>
    obtain ⟨⟨hp, hheight⟩, hps⟩ := h
    rw [length_cons] at heq
    refine ⟨⟨(heq height le_rfl (by omega)).trans hp, hheight⟩, ih hps fun i hi hlt => ?_⟩
    exact heq i (by omega) (by omega)

/-- The block at a height that a stretch reaches is in it. -/
theorem mem_of_canonical (h : Stretch chain height ps) {i : ℕ} {p : Block × BlockUndo}
    (hle : height ≤ i) (hlt : i < height + ps.length) (hp : canonicalBlockWithUndo chain i = some p) :
    p ∈ ps := by
  induction ps generalizing height with
  | nil => exact absurd hlt (by simpa using hle)
  | cons q ps ih =>
    obtain ⟨⟨hq, -⟩, hps⟩ := h
    rcases Nat.eq_or_lt_of_le hle with rfl | hlt'
    · cases hq.symm.trans hp
      exact mem_cons_self
    · rw [length_cons] at hlt
      exact mem_cons_of_mem _ (ih hps hlt' (by omega))

end Stretch

/-! ## Logs without a key twice -/

theorem Block.fresh_log (h : block.ids.Nodup) : Coins.Fresh block.log := by
  rw [Coins.Fresh, Block.log, flatMap_map, nodup_flatMap]
  refine ⟨fun tx _ => tx.nodup_created _, ?_⟩
  refine (pairwise_map.1 h).imp fun hne => disjoint_left.2 fun key hmem hmem' => ?_
  exact hne ((Transaction.parse_of_created hmem).symm.trans (Transaction.parse_of_created hmem'))

theorem TxIndexed.fresh_stretch {chain : ChainState} (h : TxIndexed chain)
    {ps : List (Block × BlockUndo)} (hps : Stretch chain height ps) :
    Coins.Fresh (ps.flatMap fun p => p.1.log) := by
  induction ps generalizing height with
  | nil => exact nodup_nil
  | cons p ps ih =>
    obtain ⟨⟨hp, hheight⟩, hrest⟩ := hps
    obtain ⟨-, hb, -⟩ := canonicalBlockWithUndo_eq_some.1 hp
    rw [flatMap_cons, Coins.fresh_append]
    refine ⟨Block.fresh_log (h.committed _ _ hb).identified.nodup, ih hrest, ?_⟩
    intro t ht key hkey t' ht' hkey'
    obtain ⟨tx, htx, rfl⟩ := mem_map.1 ht
    obtain ⟨q, hq, ht'⟩ := mem_flatMap.1 ht'
    obtain ⟨tx', htx', rfl⟩ := mem_map.1 ht'
    -- The id is on the pages of two heights.
    have hid : tx.id = tx'.id :=
      (Transaction.parse_of_created hkey).symm.trans (Transaction.parse_of_created hkey')
    obtain ⟨hle, hcanonical⟩ := hrest.mem hq
    have hmem : (tx.id, p.1.hash) ∈ txLocations.pages chain height :=
      BlockIndex.mem_pages.2 ⟨p, hp, mem_locationPage.2 ⟨mem_map_of_mem htx, rfl⟩⟩
    have hmem' : (tx'.id, q.1.hash) ∈ txLocations.pages chain q.1.header.height :=
      BlockIndex.mem_pages.2 ⟨q, hcanonical, mem_locationPage.2 ⟨mem_map_of_mem htx', rfl⟩⟩
    have heq := h.locations.paged.paged _ _ _ hmem _ hmem' hid
    omega

/-! ## Runs -/

/-- Every chain that is adopted has each id once, and no block is written over another
    body. -/
def KeepsLedger (opts : NodeOptions) (w : World) (label : Label) : Prop :=
  IndexesOnce opts w label ∧ KeepsBodies w label

/-- The set of a node is the one that its canonical blocks lead to, from genesis on, and the
    records that undo them are the stored ones. -/
structure Ledgered (opts : NodeOptions) (w : World) : Prop where
  indexed : TxIndexed w.chain
  replayed : ∃ records undos₀ u₀ u, Stretch w.chain 0 ((opts.genesis, []) :: records) ∧
    w.chain.tip.map (·.height) = some records.length ∧
    applyTransactions opts.signatures 0 (.new .empty opts.coinbaseMaturity) opts.genesis.transactions =
      .ok (undos₀, u₀) ∧
    Applied opts.signatures u₀ records u ∧ SameReads w.utxoSet u

section Run

variable {opts : NodeOptions} {H : Set BlockHeader} {w w' : World} {head : Block}

/-- The log from genesis on, played from no coins. -/
theorem Applied.plays_genesis {undos₀ : List TxUndo}
    {u₀ : UtxoSet} (h : Applied opts.signatures u₀ records u)
    (hgenesis : applyTransactions opts.signatures 0 (.new .empty opts.coinbaseMaturity)
      opts.genesis.transactions = .ok (undos₀, u₀)) :
    Coins.Plays (fun _ => none) (((opts.genesis, []) :: records).flatMap fun p => p.1.log)
      u.readRaw := by
  rw [flatMap_cons]
  refine Coins.plays_append.2 ⟨_, ?_, h.plays⟩
  rw [Block.log, genesis_height]
  exact applyTransactions_plays hgenesis

variable (hinj : Set.InjOn computeBlockHash H) (hs : Sound opts H w)

include hinj hs

theorem Adopts.ledgered (hext : Extends H w.chain head) (hsame : SameBody w.chain head)
    (hindexed : TxIndexed w'.chain) (h : Ledgered opts w) (ha : Adopts opts w head w') :
    Ledgered opts w' := by
  refine ⟨hindexed, ?_⟩
  obtain ⟨_, undos, records, after, fork, hspine, hb, r⟩ := ha.reorg hinj hs hext hsame
  obtain ⟨staged, hadoption⟩ := hb.adoption
  obtain ⟨old, undos₀, u₀, u, hstretch, hlen, hgenesis, happlied, hreads⟩ := h.replayed
  obtain ⟨hash, htip⟩ := r.tip
  obtain ⟨hash', htip'⟩ := r.tip'
  have hlen : fork + undos.length = old.length := by simpa [htip] using hlen
  -- The old blocks are those up to the fork and those that are disconnected.
  obtain ⟨hzero, hold⟩ := hstretch
  rw [Nat.zero_add] at hold
  have hbelow : (old.take fork).length = fork := by
    rw [length_take]
    omega
  have hsplit : old = old.take fork ++ undos.reverse := by
    have hparts : Stretch w.chain 1 (old.take fork ++ old.drop fork) := by
      rwa [take_append_drop]
    rw [stretch_append, hbelow, Nat.add_comm] at hparts
    have htop : old.drop fork = undos.reverse := by
      refine hparts.2.eq_of_length r.undone ?_
      rw [length_drop, length_reverse]
      omega
    rw [← htop, take_append_drop]
  have hwhole : Stretch w.chain 0 ((opts.genesis, []) :: old) := ⟨hzero, hold⟩
  have hfresh := h.indexed.fresh_stretch hwhole
  generalize old.take fork = below at hsplit hbelow
  subst hsplit
  obtain ⟨mid, hmid, htop⟩ := applied_append.1 happlied
  -- What the disconnected blocks created was not there below them.
  rw [← cons_append, flatMap_append] at hfresh
  have habsent := (hmid.plays_genesis hgenesis).absent hfresh fun _ _ _ _ => rfl
  have hundone := htop.undone ((SameReads.staged hs.idle).trans hreads)
    (Coins.fresh_append.1 hfresh).2.1 habsent
  rw [reverse_reverse] at hundone
  obtain ⟨u', happlied', hsame'⟩ := hundone.applied hadoption.applied
  refine ⟨below ++ records, undos₀, u₀, u', ?_, ?_, hgenesis, applied_append.2 ⟨mid, hmid, happlied'⟩, ?_⟩
  · have hcongr : ∀ i : ℕ, 0 ≤ i → i < 0 + ((opts.genesis, []) :: below).length →
        canonicalBlockWithUndo w'.chain i = canonicalBlockWithUndo w.chain i :=
      fun i _ hi => r.below i (by rw [length_cons, hbelow] at hi; omega)
    have hkept : Stretch w.chain 0 ((opts.genesis, []) :: below) :=
      ⟨hzero, by rw [Nat.zero_add]; exact (stretch_append.1 hold).1⟩
    rw [← cons_append, stretch_append]
    refine ⟨hkept.congr hcongr, ?_⟩
    rw [length_cons, hbelow, Nat.zero_add]
    exact r.done
  · rw [length_append, hbelow]
    exact congrArg (Option.map (·.height)) htip'
  · have hmaturity := (ha.sound hinj hs hext).maturity.trans hs.maturity.symm
    have hover := ((Overlaid.staged w.utxoSet).disconnected undos).applied hadoption.applied
    exact ⟨fun key => (hb.readRaw hs.idle key).trans (hsame'.reads key),
      hmaturity.trans (hover.maturity.symm.trans hsame'.maturity)⟩

omit hinj hs in
/-- What leaves the canonical blocks, the tip and the set leaves the ledger. -/
theorem Ledgered.of_eq (h : Ledgered opts w) (hindexed : TxIndexed w'.chain)
    (hcanonical : ∀ i : ℕ, canonicalBlockWithUndo w'.chain i = canonicalBlockWithUndo w.chain i)
    (htip : w'.chain.tip = w.chain.tip) (hutxo : SameReads w'.utxoSet w.utxoSet) : Ledgered opts w' := by
  obtain ⟨-, records, undos₀, u₀, u, hstretch, hlen, hgenesis, happlied, hreads⟩ := h
  exact ⟨hindexed, records, undos₀, u₀, u, hstretch.congr fun i _ _ => hcanonical i, by rwa [htip],
    hgenesis, happlied, hutxo.trans hreads⟩

theorem Change.ledgered {label : Label} (hC : KeepsLedger opts w label)
    (hc : Change opts H w label w') (h : Ledgered opts w) : Ledgered opts w' := by
  have hindexed := hc.txIndexed hinj hs hC.1 h.indexed
  have hrefl : SameReads w.utxoSet w.utxoSet := ⟨fun _ => rfl, rfl⟩
  cases hc with
  | note hchain _ hutxo _ _ =>
    exact h.of_eq hindexed (fun i => by rw [hchain]) (by rw [hchain]) (by rwa [hutxo])
  | index _ _ => exact h.of_eq hindexed (fun _ => rfl) rfl hrefl
  | @store _ _ block _ _ hparent hmem hctx hvalid =>
    have hsame := SameBody.of_transactions hinj hs.stored (extends_of_valid hparent hmem hctx hvalid)
      hC.2
    exact h.of_eq hindexed (canonicalBlockWithUndo_put hs hsame) rfl hrefl
  | adopt hext hheavier ha =>
    exact ha.ledgered hinj hs hext hheavier.sameBody hindexed h
  | mine hext _ ha =>
    exact ha.ledgered hinj hs hext (.of_transactions hinj hs.stored hext hC.2.1) hindexed h
  | submit tx =>
    rw [exec_admitTransaction] at hindexed ⊢
    exact h.of_eq hindexed (fun _ => rfl) rfl hrefl
  | reopen =>
    refine h.of_eq hindexed (fun _ => rfl) rfl ⟨fun key => ?_, hs.maturity.symm⟩
    rw [UtxoSet.readRaw, UtxoSet.readRaw, hs.idle]
    rfl

theorem Trace.ledgered (ht : Trace opts H (KeepsLedger opts) w w') (h : Ledgered opts w) :
    Ledgered opts w' :=
  ht.invariant hinj (fun hs hC hc h => hc.ledgered hinj hs hC h) hs h

end Run

theorem start_ledgered {opts : NodeOptions} {H : Set BlockHeader} {w : World}
    (hmem : opts.genesis.header ∈ H) (h : start opts = .ok w) : Ledgered opts w := by
  have hcanonical := canonicalBlockWithUndo_genesisOps opts
  have htip : (emptyChain.batch (genesisOps opts)).tip = _ := spine_genesisOps.tip
  refine ⟨start_txIndexed hmem h, [], ?_⟩
  obtain ⟨coinbase, undo, u, work, hhead, happly, -, rfl⟩ := start_eq_ok h
  obtain ⟨allocations, -, htxs, -⟩ := createGenesisBlock_eq_ok opts.genesis_eq
  rw [htxs, head?_cons, Option.some.injEq] at hhead
  refine ⟨[undo], u, u, ⟨⟨hcanonical, genesis_height opts⟩, trivial⟩, ?_, ?_, rfl, ?_⟩
  · change Option.map _ (emptyChain.batch (genesisOps opts)).tip = _
    rw [htip, genesis_height]
    rfl
  · rw [htxs, hhead, applyTransactions, happly]
    rfl
  · -- What is written is persisted at once.
    obtain ⟨-, heq⟩ := applyTransaction_eq_ok.1 happly
    cases heq
    exact ⟨fun _ => rfl, rfl⟩

/-! ## What the ledger says -/

/-- A transaction comes before another one: in a lower block, or earlier in its block. -/
def Precedes (q q' : Block × Transaction) : Prop :=
  q.1.header.height < q'.1.header.height ∨
    q.1 = q'.1 ∧ ∃ before after, q'.1.transactions = before ++ q'.2 :: after ∧ q.2 ∈ before

theorem applyTransactions_valid {before after : List Transaction}
    (h : applyTransactions S height u (before ++ tx :: after) = .ok (undos, u')) :
    ∃ v, Coins.Plays u.readRaw (before.map fun tx => tx.transfer height) v.readRaw ∧
      v.coinbaseMaturity = u.coinbaseMaturity ∧ ValidTransaction S v tx height := by
  induction before generalizing u undos with
  | nil =>
    simp only [nil_append, applyTransactions, bind_eq_ok] at h
    obtain ⟨⟨undo, u₁⟩, h₁, -⟩ := h
    exact ⟨u, rfl, rfl, (applyTransaction_eq_ok.1 h₁).1⟩
  | cons first before ih =>
    rw [cons_append] at h
    obtain ⟨undo, u₁, undos₂, h₁, h₂, rfl⟩ := applyTransactions_cons_eq_ok h
    obtain ⟨v, hplays, hmaturity, hvalid⟩ := ih h₂
    refine ⟨v, ⟨_, applyTransaction_plays h₁, hplays⟩, hmaturity.trans ?_, hvalid⟩
    obtain ⟨-, heq⟩ := applyTransaction_eq_ok.1 h₁
    cases heq
    exact UtxoSet.coinbaseMaturity_write _ _

section Sound

variable {opts : NodeOptions} {H : Set BlockHeader} {w : World} (hs : Sound opts H w)

include hs

/-- The blocks from genesis to the tip have the transactions of the canonical chain. -/
theorem mem_ledgerOf_iff (hstretch : Stretch w.chain 0 ((opts.genesis, []) :: records))
    (hlen : w.chain.tip.map (·.height) = some records.length) :
    (block, tx) ∈ ledgerOf ((opts.genesis, []) :: records) ↔ OnLedger w.chain block tx := by
  obtain ⟨head, hspine, -⟩ := hs.spine
  rw [mem_ledgerOf]
  constructor
  · rintro ⟨undo, hmem, htx⟩
    obtain ⟨hc, hb, -⟩ := canonicalBlockWithUndo_eq_some.1 (hstretch.mem hmem).2
    exact ⟨hc, hb, htx⟩
  · rintro ⟨hc, hb, htx⟩
    have hle := (hspine.exists_canonical hs.stored _).1 ⟨_, hc⟩
    have hlen : head.header.height = records.length := by simpa [hspine.tip] using hlen
    have hcanonical : canonicalBlockWithUndo w.chain block.header.height =
        some (block, (w.chain.getUndo block.hash).getD []) :=
      canonicalBlockWithUndo_eq_some.2 ⟨hc, hb, rfl⟩
    refine ⟨_, hstretch.mem_of_canonical (Nat.zero_le _) ?_ hcanonical, htx⟩
    rw [length_cons]
    omega

/-- The log of the canonical chain, played from no coins to those of the node. -/
theorem Ledgered.plays (h : Ledgered opts w) : ∃ records,
    (∀ block tx, (block, tx) ∈ ledgerOf records ↔ OnLedger w.chain block tx) ∧
    Coins.Fresh (records.flatMap fun p => p.1.log) ∧
    Coins.Plays (fun _ => none) (records.flatMap fun p => p.1.log) w.utxoSet.store.get := by
  obtain ⟨hindexed, records, undos₀, u₀, u, hstretch, hlen, hgenesis, happlied, hreads⟩ := h
  refine ⟨_, fun block tx => mem_ledgerOf_iff hs hstretch hlen, hindexed.fresh_stretch hstretch, ?_⟩
  have hstore : w.utxoSet.store.get = u.readRaw := by
    funext key
    rw [← hreads.reads, UtxoSet.readRaw, hs.idle]
  rw [hstore]
  exact happlied.plays_genesis hgenesis

/-- A canonical transaction was valid in a set that had outputs of the transactions before
    it. -/
theorem Ledgered.valid (h : Ledgered opts w) (htx : OnLedger w.chain block tx)
    (hspends : tx.inputs ≠ []) :
    ∃ v, ValidTransaction opts.signatures v tx block.header.height ∧
      v.coinbaseMaturity = opts.coinbaseMaturity ∧
      ∀ key entry, v.readRaw key = some entry → ∃ block' tx', OnLedger w.chain block' tx' ∧
        Precedes (block', tx') (block, tx) ∧
        (key, entry) ∈ createdEntries tx' block'.header.height := by
  obtain ⟨hindexed, records, undos₀, u₀, u, hstretch, hlen, hgenesis, happlied, hreads⟩ := h
  obtain ⟨undo, hmem, -⟩ := mem_ledgerOf.1 ((mem_ledgerOf_iff hs hstretch hlen).2 htx)
  rcases mem_cons.1 hmem with heq | hmem
  · -- The transaction of genesis spends nothing.
    cases heq
    obtain ⟨_, -, htxs, -⟩ := createGenesisBlock_eq_ok opts.genesis_eq
    have hcoinbase := htx.mem
    rw [htxs, mem_singleton] at hcoinbase
    exact absurd (by rw [hcoinbase]; rfl) hspends
  obtain ⟨ps, qs, rfl⟩ := append_of_mem hmem
  obtain ⟨mid, hmid, u₁, hblock, -⟩ := applied_append.1 happlied
  obtain ⟨before, after, htxs⟩ := append_of_mem htx.mem
  rw [htxs] at hblock
  obtain ⟨v, hplays, hmaturity, hvalid⟩ := applyTransactions_valid hblock
  refine ⟨v, hvalid, ?_, fun key entry hget => ?_⟩
  · rw [hmaturity, hmid.maturity, maturity_applyTransactions hgenesis]
    rfl
  · rcases hplays.created_of_some hget with hget | ⟨t, ht, hcreated⟩
    · -- It was created in a block below: one that was connected, or genesis.
      rcases (hmid.plays_genesis hgenesis).created_of_some hget with hnone | ⟨t, ht, hcreated⟩
      · cases hnone
      rw [← ledgerOf_log] at ht
      obtain ⟨⟨block', tx'⟩, hq, rfl⟩ := mem_map.1 ht
      obtain ⟨undo', hp, htx'⟩ := mem_ledgerOf.1 hq
      have hparts : Stretch w.chain 0 (((opts.genesis, []) :: ps) ++ (block, undo) :: qs) := hstretch
      rw [stretch_append] at hparts
      obtain ⟨⟨-, hlt⟩, -⟩ := hparts.1.mem hp
      have hheight : block.header.height = _ := hparts.2.1.2
      have hmem' : (block', tx') ∈ ledgerOf ((opts.genesis, []) :: (ps ++ (block, undo) :: qs)) :=
        mem_ledgerOf.2 ⟨undo', mem_append_left _ hp, htx'⟩
      exact ⟨block', tx', (mem_ledgerOf_iff hs hstretch hlen).1 hmem', .inl (hlt.trans_eq hheight.symm),
        hcreated⟩
    · obtain ⟨tx', htx', rfl⟩ := mem_map.1 ht
      exact ⟨block, tx', ⟨htx.canonical, htx.stored, by rw [htxs]; exact mem_append_left _ htx'⟩,
        .inr ⟨rfl, before, after, htxs, htx'⟩, hcreated⟩

theorem Ledgered.exact (h : Ledgered opts w) (key : Text) (entry : UtxoEntry) :
    w.utxoSet.store.get key = some entry ↔
      (∃ block tx, OnLedger w.chain block tx ∧
        (key, entry) ∈ createdEntries tx block.header.height) ∧
      ∀ block tx, OnLedger w.chain block tx → key ∉ tx.inputs.map TxInput.key := by
  obtain ⟨records, hiff, hfresh, hplays⟩ := h.plays hs
  rw [hplays.get_iff hfresh fun _ _ _ _ => rfl, ← ledgerOf_log]
  simp only [mem_map, Prod.exists, hiff, reduceCtorEq, false_or]
  refine and_congr ⟨?_, ?_⟩ ⟨?_, ?_⟩
  · rintro ⟨_, ⟨block, tx, htx, rfl⟩, hmem⟩
    exact ⟨block, tx, htx, hmem⟩
  · rintro ⟨block, tx, htx, hmem⟩
    exact ⟨_, ⟨block, tx, htx, rfl⟩, hmem⟩
  · intro hall block tx htx hmem
    exact hall _ ⟨block, tx, htx, rfl⟩ (mem_map.2 hmem)
  · rintro hall _ ⟨block, tx, htx, rfl⟩ hmem
    exact hall block tx htx (mem_map.1 hmem)

theorem Ledgered.spent_once (h : Ledgered opts w) {block' : Block} {tx' : Transaction}
    (htx : OnLedger w.chain block tx) (htx' : OnLedger w.chain block' tx') {input input' : TxInput}
    (hin : input ∈ tx.inputs) (hin' : input' ∈ tx'.inputs) (hkey : input.key = input'.key) :
    block = block' ∧ tx = tx' ∧ input = input' := by
  obtain ⟨records, hiff, hfresh, hplays⟩ := h.plays hs
  have honce := hplays.spent_once hfresh fun _ _ _ _ => rfl
  rw [← ledgerOf_log, pairwise_map] at honce
  have hsymm : Std.Symm fun q q' : Block × Transaction =>
      ∀ key ∈ (q.2.transfer q.1.header.height).spends, key ∉ (q'.2.transfer q'.1.header.height).spends :=
    ⟨fun _ _ hq key hmem hmem' => hq key hmem' hmem⟩
  have heq : (block, tx) = (block', tx') := by
    by_contra hne
    refine honce.forall ((hiff _ _).2 htx) ((hiff _ _).2 htx') hne input.key ?_ ?_
    · exact mem_map_of_mem hin
    · rw [hkey]
      exact mem_map_of_mem hin'
  cases heq
  obtain ⟨v, hvalid, -⟩ := h.valid hs htx (ne_nil_of_mem hin)
  exact ⟨rfl, rfl, inj_on_of_nodup_map hvalid.structured.nodup_inputs hin hin' hkey⟩

end Sound

section Main

variable {opts : NodeOptions} {H : Set BlockHeader} (hinj : Set.InjOn computeBlockHash H)
  (hgenesis : opts.genesis.header ∈ H) {w₀ w : World} (hstart : start opts = .ok w₀)
  (hrun : Trace opts H (KeepsLedger opts) w₀ w)

include hinj hgenesis hstart hrun

/-- Whatever a node connects and disconnects, its UTXO set has the outputs that its canonical
    chain created and did not spend, each with the height and the kind of its transaction. -/
theorem utxo_set_exact (key : Text) (entry : UtxoEntry) :
    w.utxoSet.store.get key = some entry ↔
      (∃ block tx, OnLedger w.chain block tx ∧
        (key, entry) ∈ createdEntries tx block.header.height) ∧
      ∀ block tx, OnLedger w.chain block tx → key ∉ tx.inputs.map TxInput.key := by
  have hsound := (start_good hgenesis hstart).sound
  exact (hrun.ledgered hinj hsound (start_ledgered hgenesis hstart)).exact
    (Trace.sound hinj hsound hrun) key entry

/-- Two inputs of the canonical chain that spend the same output are one input. -/
theorem no_double_spend {block block' : Block} {tx tx' : Transaction}
    (htx : OnLedger w.chain block tx) (htx' : OnLedger w.chain block' tx') {input input' : TxInput}
    (hin : input ∈ tx.inputs) (hin' : input' ∈ tx'.inputs) (hkey : input.key = input'.key) :
    block = block' ∧ tx = tx' ∧ input = input' := by
  have hsound := (start_good hgenesis hstart).sound
  exact (hrun.ledgered hinj hsound (start_ledgered hgenesis hstart)).spent_once
    (Trace.sound hinj hsound hrun) htx htx' hin hin' hkey

/-- Every input of the canonical chain spends an output of a transaction before its own on
    that chain, which is mature, and is signed by the owner of the output. -/
theorem spends_owned_output {block : Block} {tx : Transaction} (htx : OnLedger w.chain block tx)
    {input : TxInput} (hin : input ∈ tx.inputs) :
    ∃ block' tx' entry, OnLedger w.chain block' tx' ∧ Precedes (block', tx') (block, tx) ∧
      (input.key, entry) ∈ createdEntries tx' block'.header.height ∧
      Spends opts.signatures opts.coinbaseMaturity (getSigningPayload tx.toUnsignedTransactionBody)
        block.header.height input entry := by
  have hsound := (start_good hgenesis hstart).sound
  have hledger := hrun.ledgered hinj hsound (start_ledgered hgenesis hstart)
  obtain ⟨v, hvalid, hmaturity, hcreated⟩ :=
    hledger.valid (Trace.sound hinj hsound hrun) htx (ne_nil_of_mem hin)
  obtain ⟨entry, hget, hspends⟩ := hvalid.spends input hin
  obtain ⟨block', tx', htx', hprecedes, hmem⟩ := hcreated _ _ hget
  exact ⟨block', tx', entry, htx', hprecedes, hmem, hmaturity ▸ hspends⟩

end Main

/-! ## A block with a payment -/

/-- A block on top of genesis, with a payment of the coins of genesis. -/
def paymentBlock : Block :=
  let coinbase := UnsignedTransactionBody.identified
    { inputs := [], outputs := [⟨lit "m", 51⟩], timestamp := .ofNat 3, fee := 0, data := none }
  let transactions := [coinbase, payment paidCoinbase.id (lit "n")]
  let header : BlockHeader :=
    { version := 1, previousHash := paidGenesis.hash,
      merkleRoot := (merkleRoot (transactions.map Transaction.id)).toOption.getD [],
      timestamp := paidGenesis.header.timestamp + 1, difficultyTarget := easiestTarget, nonce := 0,
      height := 1, signer := none, signature := none }
  { header, transactions, hash := computeBlockHash header }

/-- Another block on top of genesis, without the payment. -/
def sideBlock : Block := sampleBlock paidGenesis (sampleCoinbase 50 0)

def paymentHeaders : Set BlockHeader :=
  {header | header ∈ [paidGenesis.header, paymentBlock.header, sideBlock.header]}

/-- A node after its miner found the block with the payment. -/
def minedBy (w : World) : World := ((adoptBlock paidOptions sampleEnv paymentBlock).exec w).2

def minedPayment : World := minedBy (started paidOptions)

theorem reads_minedPayment :
    ((start paidOptions).toOption.isSome ∧
      ([paidGenesis.header, paymentBlock.header, sideBlock.header].map computeBlockHash).Nodup) ∧
    ((started paidOptions).chain.getBlock paymentBlock.hash = none ∧
      (started paidOptions).chain.getBlock paymentBlock.header.previousHash = some paidGenesis ∧
      (started paidOptions).chain.tip.map (·.hash) = some paymentBlock.header.previousHash ∧
      ((adoptBlock paidOptions sampleEnv paymentBlock).exec (started paidOptions)).1.isOk = true) ∧
    (validateBlock anySignatures paymentBlock (sampleContext paidGenesis) = .ok () ∧
      paymentBlock.ids.Nodup ∧ ∀ txId ∈ paymentBlock.ids, txId ∉ paidGenesis.ids) ∧
    minedPayment.chain.canonical.get 1 = some paymentBlock.hash ∧
    minedPayment.chain.getBlock paymentBlock.hash = some paymentBlock := by
  decide +kernel

/-- A block on a root with which it shares no id. -/
theorem distinctIds_of_root {chain : ChainState} {root : Block}
    (hroot : chain.getBlock block.header.previousHash = some root) (h0 : root.header.height = 0)
    (hids : ∀ txId ∈ block.ids, txId ∉ root.ids) : DistinctIds chain block := by
  have hchain : ∀ b, OnChain chain block b → b = block ∨ b = root := by
    intro b hb
    cases hb with
    | head => exact .inl rfl
    | behind hanc hb =>
      rcases hanc.eq_or_parent with heq | ⟨hash, hhash, -⟩
      · cases (heq ▸ hb).symm.trans hroot
        exact .inr rfl
      · rw [parentHash, headerOf_eq_some.2 ⟨_, hroot, rfl⟩, Option.bind_some, if_pos h0] at hhash
        cases hhash
  intro a b ha hb txId hta htb
  rcases hchain a ha with rfl | rfl
  · rcases hchain b hb with rfl | rfl
    · rfl
    · exact absurd htb (hids txId hta)
  · rcases hchain b hb with rfl | rfl
    · exact absurd hta (hids txId htb)
    · rfl

theorem start_payment : start paidOptions = .ok (started paidOptions) :=
  start_eq_started reads_minedPayment.1.1

theorem injOn_paymentHeaders : Set.InjOn computeBlockHash paymentHeaders :=
  fun _ h _ h' => inj_on_of_nodup_map reads_minedPayment.1.2 h h'

theorem genesis_paymentHeaders : paidOptions.genesis.header ∈ paymentHeaders := mem_cons_self

section Mines

variable {w : World} (hs : Sound paidOptions paymentHeaders w)
  (hparent : w.chain.getBlock paymentBlock.header.previousHash = some paidGenesis)
  (hok : ((adoptBlock paidOptions sampleEnv paymentBlock).exec w).1.isOk = true)

include hs hparent hok

theorem adopts_paymentBlock : Extends paymentHeaders w.chain paymentBlock ∧
    Adopts paidOptions w paymentBlock (minedBy w) := by
  refine ⟨.of_parent rfl (mem_cons_of_mem _ mem_cons_self) hparent rfl (by decide), ?_⟩
  rcases adoptBlock_outcome sampleEnv injOn_paymentHeaders hs paymentBlock with
    ⟨e, index, hexec, -⟩ | ha
  · rw [hexec] at hok
    cases hok
  · exact ha

/-- A miner on top of genesis finds the block with the payment. -/
theorem mines_paymentBlock (hnew : w.chain.getBlock paymentBlock.hash = none)
    (htip : w.chain.tip.map (·.hash) = some paymentBlock.header.previousHash) :
    ∃ label, KeepsLedger paidOptions w label ∧
      Change paidOptions paymentHeaders w label (minedBy w) := by
  obtain ⟨-, -, ⟨hvalid, hnodup, hids⟩, -⟩ := reads_minedPayment
  have hbody : ∀ b, w.chain.getBlock paymentBlock.hash = some b →
      b.transactions = paymentBlock.transactions := by
    intro b hb
    cases hnew.symm.trans hb
  obtain ⟨hext, ha⟩ := adopts_paymentBlock hs hparent hok
  exact ⟨.mine paymentBlock,
    ⟨⟨hbody, ⟨_, hvalid⟩, distinctIds_of_root hparent rfl hids⟩, hbody, hnodup⟩, .mine hext htip ha⟩

end Mines

theorem trace_minedPayment : Trace paidOptions paymentHeaders (KeepsLedger paidOptions)
    (started paidOptions) minedPayment := by
  obtain ⟨-, ⟨hnew, hparent, htip, hok⟩, -⟩ := reads_minedPayment
  exact .single (mines_paymentBlock (start_good genesis_paymentHeaders start_payment).sound hparent
    hok hnew htip)

theorem onLedger_payment :
    OnLedger minedPayment.chain paymentBlock (payment paidCoinbase.id (lit "n")) :=
  ⟨reads_minedPayment.2.2.2.1, reads_minedPayment.2.2.2.2, by simp [paymentBlock]⟩

/-- The input of the payment. -/
def paymentInput : TxInput := ⟨paidCoinbase.id, .ofNat 0, lit "", lit "k"⟩

theorem paymentInput_mem : paymentInput ∈ (payment paidCoinbase.id (lit "n")).inputs :=
  mem_singleton_self _

/-- The output of genesis was spent, and is not in the set. -/
theorem utxo_set_exact_payment : minedPayment.utxoSet.store.get paymentInput.key ≠
    some ⟨⟨deriveAddress (lit "k"), 50⟩, 0, true⟩ := by
  rw [Ne, utxo_set_exact injOn_paymentHeaders genesis_paymentHeaders start_payment trace_minedPayment]
  exact fun h => h.2 _ _ onLedger_payment (mem_map_of_mem paymentInput_mem)

/-- It was spent by the payment only. -/
theorem no_double_spend_payment :
    OnLedger minedPayment.chain paymentBlock (payment paidCoinbase.id (lit "n")) ∧
    ∀ block tx, OnLedger minedPayment.chain block tx → ∀ input ∈ tx.inputs,
      input.key = paymentInput.key → tx = payment paidCoinbase.id (lit "n") :=
  ⟨onLedger_payment, fun _ _ htx _ hin hkey => (no_double_spend injOn_paymentHeaders
    genesis_paymentHeaders start_payment trace_minedPayment htx onLedger_payment hin
    paymentInput_mem hkey).2.1⟩

theorem spends_owned_output_payment : ∃ block' tx' entry, OnLedger minedPayment.chain block' tx' ∧
    Precedes (block', tx') (paymentBlock, payment paidCoinbase.id (lit "n")) ∧
    (paymentInput.key, entry) ∈ createdEntries tx' block'.header.height ∧
    deriveAddress (lit "k") = entry.address := by
  obtain ⟨block', tx', entry, htx', hprecedes, hmem, hspends⟩ :=
    spends_owned_output injOn_paymentHeaders genesis_paymentHeaders start_payment
      trace_minedPayment onLedger_payment paymentInput_mem
  exact ⟨block', tx', entry, htx', hprecedes, hmem, hspends.owner⟩

end Plainchain
