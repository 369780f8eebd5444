import Plainchain.Node.Handlers
import Plainchain.Node.Reorg
import Plainchain.State.Codec

/-!
# What a node stores is read back

The records of the store are written and read as documents (`State/Codec`). JSON has
no text for numbers that are not finite, and no rule on transactions asks the index
of an input to be finite. But an input spends an output of the set, whose key was
made of an index (`Outpoints`), so that an undo record has the indexes of outputs
that once were created.
-/

namespace Plainchain

open Js Kv Prog Value List

/-- A record whose outputs, when they come back, are under keys of outputs. -/
def Restorable (undo : BlockUndo) : Prop :=
  ∀ tx ∈ undo, (∀ s ∈ tx.spent, IsOutpoint s.key) ∧ ∀ o ∈ tx.created, o.outputIndex.Finite

/-- The text of a number that is not finite has no digits and no colons, so that it
    does not end a key. -/
theorem IsOutpoint.finite {txId : Text} {x : Number} (h : IsOutpoint (utxoKey txId x)) : x.Finite := by
  obtain ⟨txId', i, heq⟩ := h
  intro hbad
  have hlast : x.toText.getLast? = (decimal i).getLast? := by
    have hsame := congrArg List.getLast? heq
    have hne : x.toText ≠ [] := by
      intro hnil
      rw [hnil] at hbad
      revert hbad
      decide
    have hdec : decimal i ≠ [] := decimal_ne_nil i
    simp only [utxoKey, getLast?_append, Number.toText_ofNat, getLast?_cons] at hsame
    rw [getLast?_eq_some_getLast hne, getLast?_eq_some_getLast hdec] at hsame ⊢
    simpa using hsame
  have hdigit : ∀ t ∈ notFinite, t.getLast?.map isDigit = some false := by decide +kernel
  obtain ⟨u, hu⟩ : ∃ u, (decimal i).getLast? = some u :=
    ⟨_, getLast?_eq_some_getLast (decimal_ne_nil i)⟩
  have hu' := isDigit_of_mem_decimal (mem_of_getLast? hu)
  have hnot := hdigit _ hbad
  rw [hlast, hu, Option.map_some, hu'] at hnot
  cases hnot

theorem Restorable.writable {undo : BlockUndo} (h : Restorable undo) : WritableUndo undo :=
  fun tx htx => ⟨fun s hs => ((h tx htx).1 s hs).finite, (h tx htx).2⟩

namespace UtxoSet.Outpoints

variable {u u' : UtxoSet}

theorem write (h : u.Outpoints) {ops : List UtxoWrite}
    (hops : ∀ op ∈ ops, op.2.isSome → IsOutpoint op.1) : (u.write ops).Outpoints := by
  intro key entry hget
  rw [UtxoSet.readRaw_write] at hget
  cases hlast : lastWrite ops key with
  | none =>
    rw [hlast] at hget
    exact h key entry hget
  | some written =>
    rw [hlast, Option.getD_some] at hget
    exact hops _ (mem_of_lastWrite hlast) (by simp [hget])

theorem undoTransactions (h : u.Outpoints) {undo : BlockUndo} (hundo : Restorable undo) :
    (undoTransactions u undo).Outpoints := by
  induction undo with
  | nil => exact h
  | cons tx undo ih =>
    refine (ih fun t ht => hundo t (mem_cons_of_mem _ ht)).write fun op hop hput => ?_
    rcases mem_append.1 hop with hop | hop
    · obtain ⟨o, -, rfl⟩ := mem_map.1 hop
      cases hput
    · obtain ⟨s, hs, rfl⟩ := mem_map.1 hop
      exact (hundo tx (mem_cons_self ..)).1 s hs

theorem disconnected (h : u.Outpoints) {undos : List (Block × BlockUndo)}
    (hundos : ∀ p ∈ undos, Restorable p.2) :
    (undos.foldl (fun u p => Plainchain.undoTransactions u p.2) u).Outpoints := by
  induction undos generalizing u with
  | nil => exact h
  | cons p undos ih =>
    exact ih (h.undoTransactions (hundos p (mem_cons_self ..)))
      fun q hq => hundos q (mem_cons_of_mem _ hq)

/-- What a transaction creates is under keys of outputs, and what it spends was. -/
theorem applyTransaction (h : u.Outpoints) (tx : Transaction) (height : ℕ) :
    (u.write (spendOps tx ++ createOps tx height)).Outpoints ∧ Restorable [undoRecord u tx] := by
  constructor
  · refine h.write fun op hop hput => ?_
    rcases mem_append.1 hop with hop | hop
    · obtain ⟨input, -, rfl⟩ := mem_map.1 hop
      cases hput
    · simp only [createOps, createdEntries, map_map, mem_map] at hop
      obtain ⟨⟨output, i⟩, -, rfl⟩ := hop
      exact ⟨tx.id, i, rfl⟩
  · intro undo hundo
    cases mem_singleton.1 hundo
    constructor
    · intro s hs
      obtain ⟨input, -, hs⟩ := mem_filterMap.1 hs
      obtain ⟨entry, hget, rfl⟩ := Option.map_eq_some_iff.1 hs
      exact h _ _ hget
    · intro o ho
      obtain ⟨⟨output, i⟩, -, rfl⟩ := mem_map.1 ho
      exact Number.finite_ofNat i

theorem applyTransactions (h : u.Outpoints) {S : SignatureScheme} {height : ℕ}
    {txs : List Transaction} {undo : BlockUndo}
    (happly : applyTransactions S height u txs = .ok (undo, u')) : u'.Outpoints ∧ Restorable undo := by
  induction txs generalizing u undo with
  | nil =>
    cases happly
    exact ⟨h, by simp [Restorable]⟩
  | cons tx txs ih =>
    obtain ⟨undo₁, u₁, undos, htx, htxs, rfl⟩ := applyTransactions_cons_eq_ok happly
    obtain ⟨-, heq⟩ := applyTransaction_eq_ok.1 htx
    cases heq
    obtain ⟨hwrite, hrecord⟩ := h.applyTransaction tx height
    obtain ⟨hafter, hundos⟩ := ih hwrite htxs
    refine ⟨hafter, fun t ht => ?_⟩
    rcases mem_cons.1 ht with rfl | ht
    · exact hrecord _ (mem_singleton_self _)
    · exact hundos t ht

theorem applied (h : u.Outpoints) {S : SignatureScheme} {records : List (Block × BlockUndo)}
    (happlied : Applied S u records u') : u'.Outpoints ∧ ∀ p ∈ records, Restorable p.2 := by
  induction records generalizing u with
  | nil =>
    cases happlied
    exact ⟨h, by simp⟩
  | cons p records ih =>
    obtain ⟨u₁, hblock, hrest⟩ := happlied
    obtain ⟨h₁, hundo⟩ := h.applyTransactions hblock
    obtain ⟨h', hall⟩ := ih h₁ hrest
    exact ⟨h', forall_mem_cons.2 ⟨hundo, hall⟩⟩

/-- Connecting a block: its undo record is read back. -/
theorem connectBlock (h : u.Outpoints) {opts : NodeOptions} {chain : ChainState} {block : Block}
    {batch batch' : ConnectedInBatch} {ops : List StateOp}
    (hrun : (connectBlock opts chain block batch).exec u = (.ok (ops, batch'), u')) :
    u'.Outpoints ∧ ∃ undo, ops.filterMap StateOp.undo? = [(block.hash, some undo)] ∧ Restorable undo := by
  simp only [Plainchain.connectBlock, bind_returns, exec_pure] at hrun
  obtain ⟨undo, u₁, happly, heq⟩ := hrun
  cases heq
  obtain ⟨h', hundo⟩ := h.applyTransactions (applyBlock_returns.1 happly)
  have hact : NoActivity StateOp.undo? := fun _ _ => rfl
  have hidx : NoIndex StateOp.undo? := ⟨fun _ _ => rfl, fun _ _ => rfl⟩
  refine ⟨h', undo, ?_, hundo⟩
  rw [filterMap_cons, filterMap_append, filterMap_append, hidx.indexOps, hact.connect]
  rfl

end UtxoSet.Outpoints

/-! ## Runs -/

/-- Unspent outputs are under the keys of outputs, and so are those that undo records
    bring back. -/
structure OutpointsOnly (w : World) : Prop where
  utxo : w.utxoSet.Outpoints
  undo : ∀ hash undo, w.chain.getUndo hash = some undo → Restorable undo

section Run

variable {opts : NodeOptions} {H : Set BlockHeader} {w w' : World}

theorem OutpointsOnly.of_eq (h : OutpointsOnly w) (hundo : w'.chain.undo = w.chain.undo)
    (hutxo : w'.utxoSet = w.utxoSet) : OutpointsOnly w' := by
  obtain ⟨hu, hr⟩ := h
  refine ⟨by rwa [hutxo], ?_⟩
  unfold ChainState.getUndo at hr ⊢
  rwa [hundo]

variable (hinj : Set.InjOn computeBlockHash H)

include hinj

omit hinj in
/-- After an adoption the set reads as the staged one did. -/
theorem Batched.readRaw {previousHead head : Block} {undos records : List (Block × BlockUndo)}
    {after : UtxoSet} (hb : Batched opts w previousHead head undos records after w')
    (hidle : w.utxoSet.staging = none) (key : Text) : w'.utxoSet.readRaw key = after.readRaw key := by
  obtain ⟨hhops, ha, rfl, -, -, hset⟩ := hb
  obtain ⟨writes, hwrites, hops⟩ := ha.ops
  have hact : NoActivity StateOp.utxo? := fun _ _ => rfl
  have hidx : NoIndex StateOp.utxo? := ⟨fun _ _ => rfl, fun _ _ => rfl⟩
  have hclear : (clearOps w.chain head).filterMap StateOp.utxo? = [] := by
    rw [clearOps_eq, filterMap_map, filterMap_eq_nil_iff]
    exact fun _ _ => rfl
  have hd : ∀ b, (disconnectOps b).filterMap StateOp.utxo? = [] := by
    intro b
    rw [disconnectOps, filterMap_cons, hidx.unindexOps]
    rfl
  have hc : ∀ b undo, (connectOps b undo).filterMap StateOp.utxo? = [] := by
    intro b undo
    rw [connectOps, filterMap_cons, filterMap_append, hidx.indexOps]
    rfl
  rw [← hwrites, hset]
  simp only [World.apply, UtxoSet.readRaw, World.withHeaders_utxoSet, hidle]
  rw [filterMap_batch hhops StateOp.utxo? (fun _ _ => rfl) fun _ => rfl, hops StateOp.utxo? hact,
    hclear, flatMap_eq_nil_iff.2 fun p _ => hd p.1,
    flatMap_eq_nil_iff.2 fun p _ => hc p.1 p.2, filterMap_map]
  exact congrArg (fun writes => (w.utxoSet.store.batch writes).get key) filterMap_some

theorem Adopts.outpointsOnly {head : Block} (hs : Sound opts H w) (hext : Extends H w.chain head)
    (ha : Adopts opts w head w') (h : OutpointsOnly w) : OutpointsOnly w' := by
  obtain ⟨_, undos, records, _, -, hb⟩ := ha.batched hinj hs hext
  obtain ⟨staged, hadoption⟩ := hb.adoption
  -- The staged set reads as the persisted one does.
  have hstaged : w.utxoSet.staged.Outpoints := by
    intro key entry hget
    refine h.utxo key entry ?_
    rw [UtxoSet.readRaw, hs.idle]
    exact hget
  obtain ⟨hafter, hrecords⟩ := (hstaged.disconnected fun p hp =>
    h.undo _ _ (hadoption.undo_eq p hp)).applied hadoption.applied
  constructor
  · intro key entry hget
    exact hafter key entry ((hb.readRaw hs.idle key).symm.trans hget)
  · intro hash undo hundo
    rw [hb.getUndo] at hundo
    cases hlast : lastWrite ((undos.map fun p => (p.1.hash, none)) ++
        records.map fun p => (p.1.hash, some p.2)) hash with
    | none =>
      rw [hlast] at hundo
      exact h.undo hash undo hundo
    | some written =>
      rw [hlast, Option.getD_some] at hundo
      rcases mem_append.1 (mem_of_lastWrite hlast) with hmem | hmem
      · obtain ⟨p, -, heq⟩ := mem_map.1 hmem
        cases heq
        cases hundo
      · obtain ⟨p, hp, heq⟩ := mem_map.1 hmem
        cases heq
        cases hundo
        exact hrecords p hp

theorem Change.outpointsOnly {label : Label} (hs : Sound opts H w) (hc : Change opts H w label w')
    (h : OutpointsOnly w) : OutpointsOnly w' := by
  cases hc with
  | note hchain _ hutxo _ _ => exact h.of_eq (by rw [hchain]) hutxo
  | index _ _ => exact h.of_eq rfl rfl
  | store _ _ _ _ => exact h.of_eq rfl rfl
  | adopt hext _ ha => exact ha.outpointsOnly hinj hs hext h
  | mine hext _ ha => exact ha.outpointsOnly hinj hs hext h
  | submit tx =>
    rw [exec_admitTransaction]
    exact h.of_eq rfl rfl
  | reopen =>
    refine ⟨fun key entry hget => h.utxo key entry ?_, h.undo⟩
    rw [UtxoSet.readRaw, hs.idle]
    exact hget

omit hinj in
theorem start_outpointsOnly (h : start opts = .ok w) : OutpointsOnly w := by
  obtain ⟨coinbase, undo, u, work, -, happly, -, rfl⟩ := start_eq_ok h
  have hempty : (UtxoSet.new .empty opts.coinbaseMaturity).Outpoints := by
    intro key entry hget
    rw [UtxoSet.readRaw_new, Store.get_empty] at hget
    cases hget
  obtain ⟨-, heq⟩ := applyTransaction_eq_ok.1 happly
  cases heq
  refine ⟨(hempty.applyTransaction coinbase 0).1, fun hash undo hundo => ?_⟩
  change (Store.empty.batch ((genesisOps opts).filterMap StateOp.undo?)).get hash = some undo at hundo
  rw [genesisOps_filterMap (f := StateOp.undo?) (fun _ _ => rfl) fun _ _ => rfl] at hundo
  cases hundo

theorem Reachable.outpointsOnly {s : Session} (hr : Reachable opts H s) : OutpointsOnly s.toWorld :=
  hr.of_change hinj (fun _ hw => start_outpointsOnly hw) fun _ _ _ hs hc h => hc.outpointsOnly hinj hs h

end Run

/-! ## The store -/

/-- What `getUndo` returns: the record, through its document. -/
def ChainState.readUndo (chain : ChainState) (hash : Text) : Option (Except Text BlockUndo) :=
  (chain.getUndo hash).map fun undo => (undoValue undo).reread deserializeUndo

/-- What `getHeader` returns: the entry, through its document. -/
def readIndexed (headers : HeaderIndex) (hash : Text) : Option (Except Text IndexedHeader) :=
  (headers.get hash).map fun entry => (indexedHeaderValue entry).reread deserializeHeader

theorem Restorable.readUndo {chain : ChainState} {hash : Text} {undo : BlockUndo}
    (h : Restorable undo) (hget : chain.getUndo hash = some undo) :
    chain.readUndo hash = some (.ok undo) := by
  rw [ChainState.readUndo, hget, Option.map_some, reread_undo h.writable]

/-- Storage is lossless: blocks that were accepted, unspent outputs, undo records of
    connected blocks, entries of the header index, and the keys of unspent outputs. -/
theorem storage_lossless :
    (∀ value what block, parseWireBlock value what = .ok block →
      (blockValue block).reread deserializeBlock = .ok block) ∧
    (∀ entry, (entryValue entry).reread deserializeEntry = .ok entry) ∧
    (∀ opts chain block batch ops batch' u u', u.Outpoints →
      (connectBlock opts chain block batch).exec u = (.ok (ops, batch'), u') →
      u'.Outpoints ∧ ∃ undo, ops.filterMap StateOp.undo? = [(block.hash, some undo)] ∧
        (chain.batch ops).readUndo block.hash = some (.ok undo)) ∧
    (∀ opts H, Set.InjOn computeBlockHash H → ∀ s, Reachable opts H s → s.utxoSet.Outpoints ∧
      ∀ hash undo, s.chain.getUndo hash = some undo → s.chain.readUndo hash = some (.ok undo)) ∧
    (∀ (headers : HeaderIndex) hash header work,
      readIndexed (headers.batch ([putHeaderOp hash header work].filterMap StateOp.header?)) hash =
        some (.ok ⟨header, work⟩)) ∧
    ∀ txId i, hexOf 64 txId → parseUtxoKey (utxoKey txId (.ofNat i)) = (txId, some i) := by
  refine ⟨fun value what block h => reread_block (parseWireBlock_wire h), reread_entry, ?_, ?_, ?_, ?_⟩
  · intro opts chain block batch ops batch' u u' hu hrun
    obtain ⟨hu', undo, hops, hundo⟩ := hu.connectBlock hrun
    refine ⟨hu', undo, hops, hundo.readUndo ?_⟩
    change (chain.undo.batch (ops.filterMap StateOp.undo?)).get block.hash = some undo
    rw [hops, Store.batch_cons, Store.batch_nil, Store.get_set_self]
  · intro opts H hinj s hr
    obtain ⟨hu, hundo⟩ := hr.outpointsOnly hinj
    exact ⟨hu, fun hash undo hget => (hundo hash undo hget).readUndo hget⟩
  · intro headers hash header work
    change (((headers.set hash (some ⟨header, work⟩)).get hash).map _) = _
    rw [Store.get_set_self, Option.map_some, reread_header]
  · exact fun txId i _ => parseUtxoKey_utxoKey txId i

/-- A node that adopted a first block reads its undo record. -/
theorem storage_lossless_sample : ∃ undo, sampleRun.chain.getUndo firstBlock.hash = some undo ∧
    sampleRun.chain.readUndo firstBlock.hash = some (.ok undo) := by
  have hundo : (sampleRun.chain.getUndo firstBlock.hash).isSome := by decide +kernel
  obtain ⟨undo, hget⟩ := Option.isSome_iff_exists.1 hundo
  refine ⟨undo, hget, ?_⟩
  exact (storage_lossless.2.2.2.1 _ _ injOn_sampleHeaders _ reachable_sampleRun).2 _ _ hget

end Plainchain
