import Plainchain.Node.Run

/-!
# Adoption is all or nothing

Staging never touches the persisted UTXO set: whatever `stage` did when it throws
is in the overlay, which is discarded (`stageOrDiscard_snd`). So a failed
adoption leaves the node as it was, but for entries of the header index that its
lookups added, and those do not change what a later adoption does
(`adoptBlock_atomic`).
-/

namespace Plainchain

open Js Kv List

/-! ## Staging stays in the overlay -/

/-- A set that is staging goes on staging over the same persisted set. -/
def StagedOnly (u u' : UtxoSet) : Prop :=
  u.staging.isSome →
    u'.staging.isSome ∧ u'.store = u.store ∧ u'.coinbaseMaturity = u.coinbaseMaturity

namespace StagedOnly

theorem refl (u : UtxoSet) : StagedOnly u u := fun h => ⟨h, rfl, rfl⟩

theorem trans {u v w : UtxoSet} (h : StagedOnly u v) (h' : StagedOnly v w) : StagedOnly u w := by
  intro hu
  obtain ⟨hv, hstore, hmaturity⟩ := h hu
  obtain ⟨hw, hstore', hmaturity'⟩ := h' hv
  exact ⟨hw, hstore'.trans hstore, hmaturity'.trans hmaturity⟩

instance : Std.Refl StagedOnly := ⟨refl⟩

instance : IsTrans UtxoSet StagedOnly := ⟨fun _ _ _ => trans⟩

theorem write (u : UtxoSet) (ops : List UtxoWrite) : StagedOnly u (u.write ops) := by
  intro hu
  obtain ⟨staging, hs⟩ := Option.isSome_iff_exists.1 hu
  simp [UtxoSet.write, hs]

theorem undoTransactions (u : UtxoSet) (undos : BlockUndo) :
    StagedOnly u (undoTransactions u undos) := by
  induction undos with
  | nil => exact refl u
  | cons undo undos ih => exact ih.trans (write _ _)

end StagedOnly

section Stage

variable {opts : NodeOptions} {chain : ChainState}

open Prog

theorem applyBlock_keeps (block : Block) (txs : List Transaction) :
    Keeps StagedOnly (applyBlock opts block txs) := by
  induction txs with
  | nil => exact .pure _
  | cons tx txs ih =>
    refine .bind (fun u => ?_) fun undo => ih.bind fun undos => .pure _
    rw [exec_of]
    cases happly : applyTransaction opts.signatures u tx block.header.height with
    | error detail => exact .refl u
    | ok applied =>
      obtain ⟨undo, u'⟩ := applied
      obtain ⟨-, -, rfl⟩ := applyTransaction_eq_ok.1 happly
      exact .write u _

theorem connectBlock_keeps (block : Block) (batch : ConnectedInBatch) :
    Keeps StagedOnly (connectBlock opts chain block batch) :=
  (applyBlock_keeps block _).bind fun _ => .pure _

theorem connectBlocks_keeps (blocks : List Block) (batch : ConnectedInBatch) :
    Keeps StagedOnly (connectBlocks opts chain blocks batch) := by
  induction blocks generalizing batch with
  | nil => exact .pure _
  | cons block blocks ih =>
    exact (connectBlock_keeps block batch).bind fun r => (ih r.2).bind fun _ => .pure _

theorem disconnectBlocks_keeps (blocks : List (Block × BlockUndo)) :
    Keeps StagedOnly (disconnectBlocks opts chain blocks) := by
  induction blocks with
  | nil => exact .pure _
  | cons b blocks ih =>
    refine .bind ?_ fun _ => ih.bind fun _ => .pure _
    exact .bind (fun u => .undoTransactions u b.2) fun _ => .pure _

theorem restartStaging_keeps : Keeps StagedOnly restartStaging := by
  intro u _
  simp [restartStaging, beginStaging, exec_bind, UtxoSet.discardStaging, UtxoSet.beginStaging]

theorem replayChainTo_keeps (head : Block) : Keeps StagedOnly (replayChainTo opts chain head) :=
  .bind (.lift _) fun _ => restartStaging_keeps.bind fun _ =>
    (connectBlocks_keeps _ _).bind fun _ => .pure _

theorem stageBlocks_keeps (head : Block) : Keeps StagedOnly (stageBlocks opts chain head) := by
  unfold stageBlocks
  split
  · exact (replayChainTo_keeps head).bind fun _ => .pure _
  · refine .bind (.lift _) fun plan => ?_
    split
    · exact (replayChainTo_keeps head).bind fun _ => .pure _
    · exact (disconnectBlocks_keeps _).bind fun _ => (connectBlocks_keeps _ _).bind fun _ => .pure _

/-- After the body of the `try` the persisted set is what it was, and a body that
    returns has ended staging. -/
theorem stage_store (head : Block) {u : UtxoSet} (hu : u.staging.isSome) :
    ((stage opts chain head).exec u).2.store = u.store ∧
    ((stage opts chain head).exec u).2.coinbaseMaturity = u.coinbaseMaturity ∧
    ∀ staged, ((stage opts chain head).exec u).1 = .ok staged →
      ((stage opts chain head).exec u).2.staging = none := by
  obtain ⟨hopen, hstore, hmaturity⟩ := @stageBlocks_keeps opts chain head u hu
  simp only [stage, exec_bind]
  rcases hblocks : (stageBlocks opts chain head).exec u with ⟨e | staged, u'⟩
  · rw [hblocks] at hstore hmaturity
    exact ⟨hstore, hmaturity, fun staged h => (nomatch h)⟩
  · rw [hblocks] at hopen hstore hmaturity
    obtain ⟨staging, hs⟩ : ∃ staging, u'.staging = some staging :=
      Option.isSome_iff_exists.1 hopen
    simp only [takeStagedOps, exec_of, UtxoSet.takeStagedOps, hs, exec_pure]
    exact ⟨hstore, hmaturity, fun _ _ => trivial⟩

/-- Whether staging returns or throws, it leaves the set as it was: what is to be
    written is in the operations. -/
theorem stageOrDiscard_snd (head : Block) {u : UtxoSet} (hidle : u.staging = none) :
    ((stageOrDiscard opts chain head).exec u).2 = u := by
  obtain ⟨store, staging, maturity⟩ := u
  subst hidle
  simp only [stageOrDiscard, beginStaging, exec_bind, exec_of, UtxoSet.beginStaging, exec_tryCatch]
  obtain ⟨hstore, hmaturity, hended⟩ := @stage_store opts chain head
    ⟨store, some ⟨.empty, false⟩, maturity⟩ rfl
  rcases hstage : (stage opts chain head).exec ⟨store, some ⟨.empty, false⟩, maturity⟩ with
    ⟨e | staged, ⟨store', staging', maturity'⟩⟩
  · rw [hstage] at hstore hmaturity
    simp_all [UtxoSet.discardStaging]
  · rw [hstage] at hstore hmaturity hended
    have := hended staged rfl
    simp_all

end Stage

/-! ## The outcome of an adoption -/

section Outcome

variable {opts : NodeOptions} {env : Env} {chain : ChainState} {headers headers' : HeaderIndex}

open Prog

/-- What a node is but for its header index. -/
def World.withHeaders (w : World) (headers : HeaderIndex) : World := { w with headers }

section WithHeaders

variable (w : World) (index index' : HeaderIndex)

@[simp] theorem World.withHeaders_chain : (w.withHeaders index).chain = w.chain := rfl

@[simp] theorem World.withHeaders_utxoSet : (w.withHeaders index).utxoSet = w.utxoSet := rfl

@[simp] theorem World.withHeaders_headers : (w.withHeaders index).headers = index := rfl

@[simp] theorem World.withHeaders_withHeaders :
    (w.withHeaders index).withHeaders index' = w.withHeaders index' := rfl

end WithHeaders

/-- An adoption up to its batch: a lookup in the header index, staging, and the
    commit. Up to the commit only the header index changes. -/
theorem exec_commitAdoption (head : Block) {w : World} (hidle : w.utxoSet.staging = none) :
    (commitAdoption opts env head).exec w =
      match (headerOps opts env w.chain head).exec w.headers with
      | (.error e, index) => (.error e, w.withHeaders index)
      | (.ok hops, index) =>
        match ((stageOrDiscard opts w.chain head).exec w.utxoSet).1 with
        | .error e => (.error e, w.withHeaders index)
        | .ok staged =>
          if env.fails (.adopt head.hash) then (.error .storage, w.withHeaders index)
          else (.ok staged,
            (w.withHeaders index).apply (putBlockOp head :: hops ++ staged.ops)) := by
  have hset := @stageOrDiscard_snd opts w.chain head w.utxoSet hidle
  simp only [commitAdoption, exec_bind, exec_reads, onHeaders, exec_zoom]
  rcases hops : (headerOps opts env w.chain head).exec w.headers with ⟨e | ops, index⟩
  · rfl
  · simp only [onUtxoSet, exec_zoom, hset]
    rcases ((stageOrDiscard opts w.chain head).exec w.utxoSet).1 with e | staged
    · rfl
    · simp only [commitAtomic, exec_of]
      split_ifs <;> rfl

/-- Whether the entry of a head can be made. -/
def headerStatus (opts : NodeOptions) (chain : ChainState) (headers : HeaderIndex) (head : Block) :
    Except NodeError Unit :=
  match headers.get head.hash with
  | some _ => .ok ()
  | none => do
    if head.header.height = 0 then .ok ()
    else (workOf opts chain headers (lookupFuel chain head.header.previousHash)
      head.header.previousHash).map fun _ => ()
    (blockWork opts head.header).map fun _ => ()

theorem headerOps_spec (hlinked : Linked chain) (head : Block) :
    Backfilled opts chain headers ((headerOps opts env chain head).exec headers).2 ∧
    ((∀ k, env.fails (.header k) = false) →
      ((headerOps opts env chain head).exec headers).1.map (fun _ => ()) =
        headerStatus opts chain headers head) := by
  simp only [headerOps, parentEntry, headerStatus, exec_bind, exec_reads, id_eq]
  cases headers.get head.hash with
  | some entry => exact ⟨Backfilled.refl, fun _ => rfl⟩
  | none =>
    by_cases h0 : head.header.height = 0
    · simp only [h0, if_true, exec_bind, exec_pure, exec_lift]
      cases blockWork opts head.header <;> exact ⟨Backfilled.refl, fun _ => rfl⟩
    · obtain ⟨hfill, hanswer⟩ := @getIndexedHeader_spec opts env chain headers hlinked
        head.header.previousHash
      simp only [h0, if_false, exec_bind, exec_lift]
      rcases hlookup : (getIndexedHeader opts env chain head.header.previousHash).exec headers with
        ⟨e | entry, index⟩
      · rw [hlookup] at hfill hanswer
        exact ⟨hfill, fun hf => by rw [← hanswer hf]; rfl⟩
      · rw [hlookup] at hfill hanswer
        dsimp only
        cases blockWork opts head.header with
        | error e => exact ⟨hfill, fun hf => by rw [← hanswer hf]; rfl⟩
        | ok added => exact ⟨hfill, fun hf => by rw [← hanswer hf]; rfl⟩

/-- An index that lookups have extended makes no difference to the next head. -/
theorem Backfilled.headerStatus_eq (hlinked : Linked chain)
    (h : Backfilled opts chain headers headers') (head : Block)
    (hstored : ∀ block, chain.getBlock head.hash = some block → block.header = head.header) :
    headerStatus opts chain headers' head = headerStatus opts chain headers head := by
  have hparent : workOf opts chain headers' (lookupFuel chain head.header.previousHash)
      head.header.previousHash = workOf opts chain headers
        (lookupFuel chain head.header.previousHash) head.header.previousHash :=
    h.workOf_eq hlinked fun _ hb => lt_lookupFuel hb
  rcases h head.hash with hsame | ⟨hnone, block, work, hb, hwork, hnew⟩
  · simp only [headerStatus, hsame, hparent]
  · -- The head was indexed on the way: so its entry could be made before.
    have hheader := hstored block hb
    simp only [headerStatus, hnone, hnew]
    by_cases h0 : head.header.height = 0
    · simp only [workOf, hnone, hb, hheader, h0, if_true, bind_eq_ok] at hwork
      obtain ⟨added, hadd, -⟩ := hwork
      simp [h0, hadd, Except.map, bind, Except.bind]
    · have h0' : block.header.height ≠ 0 := by rwa [hheader]
      obtain ⟨parent, hp, hheight⟩ := hlinked _ block hb h0'
      simp only [workOf, hnone, hb, h0', if_false, bind_eq_ok] at hwork
      obtain ⟨below, hbelow, hwork⟩ := hwork
      have hfuel : workOf opts chain headers (lookupFuel chain head.header.previousHash)
          head.header.previousHash = .ok below := by
        rw [← hbelow, hheader]
        rw [hheader] at hp
        exact workOf_fuel hlinked hp (lt_lookupFuel hp) (by rw [← hheader]; omega)
      cases below with
      | none => cases hwork
      | some below =>
        simp only [bind_eq_ok] at hwork
        obtain ⟨added, hadd, -⟩ := hwork
        rw [hheader] at hadd
        simp [h0, hfuel, hadd, Except.map, bind, Except.bind]

/-- The operations of `headerOps` are on the header index. -/
theorem headerOps_filterMap {head : Block} {ops : List StateOp} {index : HeaderIndex}
    (h : (headerOps opts env chain head).exec headers = (.ok ops, index)) {α : Type}
    (f : StateOp → Option α) (hf : ∀ hash entry, f (.header hash entry) = none) :
    ops.filterMap f = [] := by
  simp only [headerOps, bind_returns, exec_reads, Prod.mk.injEq, Except.ok.injEq, id_eq] at h
  obtain ⟨_, _, ⟨rfl, rfl⟩, h⟩ := h
  split at h
  · cases h
    rfl
  · simp only [bind_returns, exec_lift, exec_pure, Prod.mk.injEq, Except.ok.injEq] at h
    obtain ⟨entry, _, -, work, _, -, rfl, -⟩ := h
    simp [putHeaderOp, hf]

/-- Of a batch, the operations on the header index only touch that. -/
theorem World.apply_headers (w : World) (index : HeaderIndex) {head : Block}
    {hops : List StateOp} (ops : List StateOp) {index' : HeaderIndex}
    (h : (headerOps opts env chain head).exec headers = (.ok hops, index')) :
    (w.withHeaders index).apply (putBlockOp head :: hops ++ ops) =
      (w.apply (putBlockOp head :: ops)).withHeaders
        (index.batch ((putBlockOp head :: hops ++ ops).filterMap StateOp.header?)) := by
  simp only [World.apply, World.withHeaders, ChainState.batch, cons_append,
    filterMap_cons, filterMap_append, headerOps_filterMap h StateOp.block? fun _ _ => rfl,
    headerOps_filterMap h StateOp.undo? fun _ _ => rfl,
    headerOps_filterMap h StateOp.canonical? fun _ _ => rfl,
    headerOps_filterMap h StateOp.tip? fun _ _ => rfl,
    headerOps_filterMap h StateOp.txLocation? fun _ _ => rfl,
    headerOps_filterMap h StateOp.anchor? fun _ _ => rfl,
    headerOps_filterMap h StateOp.activity? fun _ _ => rfl,
    headerOps_filterMap h StateOp.utxo? fun _ _ => rfl, nil_append]

/-- What follows the commit does not look at the header index. -/
theorem exec_finishAdoption_withHeaders (head : Block) (staged : Staged) (w : World)
    (index : HeaderIndex) :
    (finishAdoption opts head staged).exec (w.withHeaders index) =
      (((finishAdoption opts head staged).exec w).1,
        ((finishAdoption opts head staged).exec w).2.withHeaders index) := by
  by_cases hcp : opts.checkpoints.size = 0
  · simp [finishAdoption, hcp, exec_bind, onMempool, World.withHeaders]
  · simp [finishAdoption, hcp, exec_bind, onMempool, World.withHeaders]

/-- Two indexes that can make the entry of a head alike adopt it alike. -/
theorem exec_adoptBlock_withHeaders (hlinked : Linked chain) (head : Block) {w : World}
    (hchain : w.chain = chain) (hidle : w.utxoSet.staging = none)
    (hfails : ∀ k, env.fails (.header k) = false)
    (hstatus : headerStatus opts chain headers head = headerStatus opts chain w.headers head) :
    ∃ index, (adoptBlock opts env head).exec (w.withHeaders headers) =
      (((adoptBlock opts env head).exec w).1,
        ((adoptBlock opts env head).exec w).2.withHeaders index) := by
  subst hchain
  have hr := (@headerOps_spec opts env w.chain w.headers hlinked head).2 hfails
  have hr' := (@headerOps_spec opts env w.chain headers hlinked head).2 hfails
  rw [hstatus, ← hr] at hr'
  have hidle' : (w.withHeaders headers).utxoSet.staging = none := hidle
  simp only [adoptBlock, exec_bind, exec_commitAdoption head hidle,
    exec_commitAdoption head hidle', World.withHeaders_chain, World.withHeaders_utxoSet,
    World.withHeaders_headers, World.withHeaders_withHeaders]
  rcases hrun : (headerOps opts env w.chain head).exec w.headers with ⟨e | hops, i⟩ <;>
    rcases hrun' : (headerOps opts env w.chain head).exec headers with ⟨e' | hops', i'⟩ <;>
    rw [hrun, hrun'] at hr'
  · cases hr'
    exact ⟨i', rfl⟩
  · cases hr'
  · cases hr'
  · dsimp only
    cases ((stageOrDiscard opts w.chain head).exec w.utxoSet).1 with
    | error e => exact ⟨i', rfl⟩
    | ok staged =>
      dsimp only
      split_ifs
      · exact ⟨i', rfl⟩
      · dsimp only
        rw [World.apply_headers w i staged.ops hrun, World.apply_headers w i' staged.ops hrun',
          exec_finishAdoption_withHeaders, exec_finishAdoption_withHeaders]
        exact ⟨_, rfl⟩

end Outcome

end Plainchain
