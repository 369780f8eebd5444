import Plainchain.Node.HeaderIndex

/-!
# Adopting a block

`adoptBlock` of `src/node/node.ts`, with `planReorg`, `connectBlock`,
`disconnectBlock` and `replayChainTo`: a block becomes the tip. Both chains are
walked back to their fork point, the blocks above it on the old chain are
disconnected with their undo records, and those of the new chain are connected.
All of this is staged; one batch commits it.

What is staged is a program over the UTXO set (`stage`), for which the persisted
chain is fixed. What was staged before a throw is still there when it is caught.
-/

namespace Plainchain

open Js Kv

section Adopt

variable (opts : NodeOptions) (env : Env) (chain : ChainState)

/-! ## Planning -/

structure ReorgPlan where
  /-- Tip first. -/
  toDisconnect : List Block
  /-- Fork first. -/
  toConnect : List Block

def parentOf (block : Block) : Except NodeError Block :=
  match chain.getBlock block.header.previousHash with
  | some parent => .ok parent
  | none => .error (.error (lit "reorg: missing ancestor " ++ block.header.previousHash))

/-- Walks down to a height: the blocks above it, and where the walk ends. -/
def walkDown (height : ℕ) : (fuel : ℕ) → (block : Block) → Except NodeError (List Block × Block)
  | 0, _ => .error .unfinished
  | fuel + 1, block =>
    if height < block.header.height then do
      let parent ← parentOf chain block
      let (above, last) ← walkDown height fuel parent
      pure (block :: above, last)
    else .ok ([], block)

/-- Walks down two chains until they meet. -/
def walkBoth : (fuel : ℕ) → (a b : Block) → Except NodeError (List Block × List Block)
  | 0, _, _ => .error .unfinished
  | fuel + 1, a, b =>
    if a.hash = b.hash then .ok ([], [])
    else do
      let a' ← parentOf chain a
      let b' ← parentOf chain b
      let (as, bs) ← walkBoth fuel a' b'
      pure (a :: as, b :: bs)

/-- Blocks to disconnect and connect to move from one head to another. -/
def planReorg (start goal : Block) : Except NodeError ReorgPlan := do
  let (above, a) ← walkDown chain start.header.height (walkFuel chain goal) goal
  let (below, b) ← walkDown chain a.header.height (walkFuel chain start) start
  -- As many steps as there are pairs of blocks: after more the walk repeats.
  let (as, bs) ← walkBoth chain ((walkFuel chain a) * (walkFuel chain b)) a b
  pure { toDisconnect := below ++ bs, toConnect := (above ++ as).reverse }

/-! ## Staging -/

/-- The transactions of a block, one after the other. -/
def applyBlock (block : Block) : List Transaction → Prog UtxoSet NodeError BlockUndo
  | [] => pure []
  | tx :: txs => do
    let undo ← Prog.of fun u =>
      match applyTransaction opts.signatures u tx block.header.height with
      | .ok (undo, u') => (.ok undo, u')
      | .error detail => (.error (.replay block.hash detail), u)
    let undos ← applyBlock block txs
    pure (undo :: undos)

/-- The blocks connected so far in a batch, by height. -/
abbrev ConnectedInBatch := List (ℕ × Block × BlockUndo)

/-- Operations for the transactions of a block: one on the location of each, and one on
    its anchor where it has data. -/
def transactionOps (block : Block) (location : Transaction → StateOp)
    (anchor : Transaction → (data : Text) → StateOp) : List StateOp :=
  block.transactions.flatMap fun tx => location tx :: tx.data.toList.map (anchor tx)

/-- The entries of a connected block in the transaction and anchor indexes. -/
def indexOps (block : Block) : List StateOp :=
  transactionOps block (fun tx => putTxLocationOp tx.id block.hash) fun tx data =>
    putAnchorOp data block.header.height tx.id block.hash block.header.timestamp

/-- Takes the entries of a disconnected block out of those indexes. -/
def unindexOps (block : Block) : List StateOp :=
  transactionOps block (fun tx => deleteTxLocationOp tx.id) fun tx data =>
    deleteAnchorOp data block.header.height tx.id

/-- The address entries of a connected block, and the removal of those of the
    block that it pushes out of the window. -/
def connectActivityOps (block : Block) (undo : BlockUndo) (batch : ConnectedInBatch) :
    List StateOp :=
  if opts.addressIndexEnabled then
    let leaving : ℤ := (block.header.height : ℤ) - opts.addressIndexDepth
    let target := (leaving.toNat?.bind fun h => batch.lookup h).or
      (canonicalBlockWithUndo chain leaving)
    addressIndexOps block undo false ++
      if 0 < opts.addressIndexDepth then
        (target.map fun (b, u) => addressIndexOps b u true).getD []
      else []
  else []

/-- The removal of the address entries of a disconnected block, and the entries
    of the block that comes back into the window. -/
def disconnectActivityOps (block : Block) (undo : BlockUndo) : List StateOp :=
  if opts.addressIndexEnabled then
    let returning := canonicalBlockWithUndo chain
      ((block.header.height : ℤ) - opts.addressIndexDepth)
    addressIndexOps block undo true ++
      if 0 < opts.addressIndexDepth then
        (returning.map fun (b, u) => addressIndexOps b u false).getD []
      else []
  else []

/-- Stages the transactions of a block. Its undo record, its index entries and
    its height go to the batch. -/
def connectBlock (block : Block) (batch : ConnectedInBatch) :
    Prog UtxoSet NodeError (List StateOp × ConnectedInBatch) := do
  let undo ← applyBlock opts block block.transactions
  let batch := if opts.addressIndexEnabled then (block.header.height, block, undo) :: batch
    else batch
  pure (putUndoOp block.hash undo :: (indexOps block ++ connectActivityOps opts chain block undo batch
    ++ [setCanonicalHashAtHeightOp block.header.height block.hash]), batch)

def connectBlocks : List Block → ConnectedInBatch → Prog UtxoSet NodeError (List StateOp)
  | [], _ => pure []
  | block :: blocks, batch => do
    let (ops, batch) ← connectBlock opts chain block batch
    let rest ← connectBlocks blocks batch
    pure (ops ++ rest)

/-- Undoes a block, its last transaction first. -/
def disconnectBlock (block : Block) (undo : BlockUndo) : Prog UtxoSet NodeError (List StateOp) := do
  Prog.writes fun u => undoTransactions u undo
  pure (deleteUndoOp block.hash :: (unindexOps block
    ++ disconnectActivityOps opts chain block undo))

def disconnectBlocks : List (Block × BlockUndo) → Prog UtxoSet NodeError (List StateOp)
  | [] => pure []
  | (block, undo) :: blocks => do
    let ops ← disconnectBlock opts chain block undo
    let rest ← disconnectBlocks blocks
    pure (ops ++ rest)

/-- The stored ancestry of a block, itself first, as far as it goes. -/
def ancestry : (fuel : ℕ) → (block : Block) → Except NodeError (List Block)
  | 0, _ => .error .unfinished
  | fuel + 1, block =>
    if block.header.height = 0 then .ok [block]
    else
      match chain.getBlock block.header.previousHash with
      | none => .ok [block]
      | some parent => do
        let below ← ancestry fuel parent
        pure (block :: below)

/-- Begins staging, with the persisted set masked or not. -/
def beginStaging (clearBase : Bool) : Prog UtxoSet NodeError Unit :=
  .of fun u =>
    match u.beginStaging clearBase with
    | .ok u' => (.ok (), u')
    | .error message => (.error (.error message), u)

/-- Restarts staging with the persisted set masked. -/
def restartStaging : Prog UtxoSet NodeError Unit := do
  Prog.writes UtxoSet.discardStaging
  beginStaging true

/-- Stages a rebuild from genesis to a head. -/
def replayChainTo (head : Block) : Prog UtxoSet NodeError (List StateOp × List Block) := do
  let blocks ← Prog.lift (ancestry chain (walkFuel chain head) head)
  restartStaging
  let ops ← connectBlocks opts chain blocks.reverse []
  pure (ops, blocks.reverse)

/-- What was staged: the operations, and the blocks that were connected and
    disconnected. -/
structure Staged where
  ops : List StateOp
  connected : List Block
  disconnected : List Block

/-- The undo records of blocks, if all of them have one. -/
def undosOf (blocks : List Block) : Option (List (Block × BlockUndo)) :=
  blocks.mapM fun block => (chain.getUndo block.hash).map fun undo => (block, undo)

/-- The blocks to disconnect and connect are staged: incrementally, or from
    scratch where an undo record is missing. -/
def stageBlocks (head : Block) : Prog UtxoSet NodeError Staged := do
  match chain.tip.bind fun tip => chain.getBlock tip.hash with
  | none => do
    let (ops, connected) ← replayChainTo opts chain head
    pure { ops, connected, disconnected := [] }
  | some previousHead => do
    let plan ← Prog.lift (planReorg chain previousHead head)
    match undosOf chain plan.toDisconnect with
    | none => do
      let (ops, connected) ← replayChainTo opts chain head
      pure { ops, connected, disconnected := [] }
    | some undos => do
      let disconnectOps ← disconnectBlocks opts chain undos
      let connectOps ← connectBlocks opts chain plan.toConnect []
      pure { ops := disconnectOps ++ connectOps, connected := plan.toConnect,
             disconnected := plan.toDisconnect }

/-- The heights above a head that is lower than the tip. -/
def clearOps (head : Block) : List StateOp :=
  match chain.tip with
  | none => []
  | some tip =>
    if head.header.height < tip.height then
      clearCanonicalHashesAboveOps head.header.height tip.height
    else []

/-- Ends staging: the staged writes go to the batch. -/
def takeStagedOps : Prog UtxoSet NodeError (List StateOp) :=
  .of fun u =>
    match u.takeStagedOps with
    | .ok (writes, u') => (.ok (writes.map .utxo), u')
    | .error message => (.error (.error message), u)

/-- The body of the `try`. -/
def stage (head : Block) : Prog UtxoSet NodeError Staged := do
  let staged ← stageBlocks opts chain head
  let utxoOps ← takeStagedOps
  pure { staged with
    ops := staged.ops ++ clearOps chain head ++ setTipOps head.hash head.header.height ++ utxoOps }

/-- Begins staging, and discards what was staged when the body throws. -/
def stageOrDiscard (head : Block) : Prog UtxoSet NodeError Staged := do
  beginStaging false
  tryCatch (stage opts chain head) fun e => do
    Prog.writes UtxoSet.discardStaging
    throw e

/-! ## Committing -/

/-- The entry of the parent of a head; genesis has none. -/
def parentEntry (head : Block) : Prog HeaderIndex NodeError (Option IndexedHeader) :=
  if head.header.height = 0 then pure none
  else getIndexedHeader opts env chain head.header.previousHash

/-- The entry of a head that is not indexed yet. -/
def headerOps (head : Block) : Prog HeaderIndex NodeError (List StateOp) := do
  let headers ← Prog.reads id
  match headers.get head.hash with
  | some _ => pure []
  | none => do
    let parentIndexed ← parentEntry opts env chain head
    let work ← Prog.lift (blockWork opts head.header)
    pure [putHeaderOp head.hash head.header ((parentIndexed.map (·.work)).getD 0 + work)]

/-- A batch, applied. -/
def World.apply (w : World) (ops : List StateOp) : World :=
  { w with
    chain := w.chain.batch ops
    headers := w.headers.batch (ops.filterMap StateOp.header?)
    utxoSet := { w.utxoSet with
      store := w.utxoSet.store.batch (ops.filterMap StateOp.utxo?) } }

/-- All operations are applied, or none. -/
def commitAtomic (write : Write) (ops : List StateOp) : NodeM Unit :=
  .of fun w => if env.fails write then (.error .storage, w) else (.ok (), w.apply ops)

/-- `adoptBlock` as far as the batch. -/
def commitAdoption (head : Block) : NodeM Staged := do
  let chain ← Prog.reads fun w => w.chain
  let headerOps ← onHeaders (headerOps opts env chain head)
  let staged ← onUtxoSet (stageOrDiscard opts chain head)
  commitAtomic env (.adopt head.hash) (putBlockOp head :: headerOps ++ staged.ops)
  pure staged

/-! ## After the commit -/

/-- The highest checkpoint on the canonical chain. -/
def verifiedCheckpoint (checkpoints : OrdMap ℕ Text) : ℤ :=
  checkpoints.entries.foldl (fun best (height, hash) =>
    if best < height ∧ chain.getCanonicalHashAtHeight height = some hash then height else best) (-1)

/-- Removes from the pool what the new blocks include, and what spends an
    outpoint that they spend. -/
def purgeMempool (connected : List Block) (pool : Mempool) : Mempool :=
  let included := connected.flatMap fun b => b.transactions.map Transaction.id
  let spent := connected.flatMap fun b => spentKeys b.transactions
  let pool := included.foldl Mempool.remove pool
  let stale := pool.getTransactions.filter fun tx => tx.inputs.any fun input => input.key ∈ spent
  (stale.map Transaction.id).foldl Mempool.remove pool

/-- The transactions of abandoned blocks that the new chain does not include. -/
def abandoned (staged : Staged) : List Transaction :=
  let included := staged.connected.flatMap fun b => b.transactions.map Transaction.id
  (staged.disconnected.flatMap Block.transactions).filter fun tx =>
    tx.inputs ≠ [] ∧ tx.id ∉ included

/-- Gives transactions another chance. A refusal is no error. -/
def restorePending (u : UtxoSet) (spendingHeight : ℕ) : List Transaction → Prog Mempool NodeError Unit
  | [] => pure ()
  | tx :: txs => do
    Prog.of fun pool =>
      match (addTransaction opts.signatures opts.mempool u tx spendingHeight).exec pool with
      | (.error (.thrown message), pool') => (.error (.error message), pool')
      | (_, pool') => (.ok (), pool')
    restorePending u spendingHeight txs

/-- A program over the mempool. -/
def onMempool {α : Type} (m : Prog Mempool NodeError α) : NodeM α :=
  Prog.zoom (fun w => w.mempool) (fun w pool => { w with mempool := pool }) m

/-- `adoptBlock` after the batch. -/
def finishAdoption (head : Block) (staged : Staged) : NodeM Unit := do
  Prog.writes fun w => { w with cachedTipHeight := head.header.height }
  if opts.checkpoints.size ≠ 0 then
    Prog.writes fun w =>
      { w with verifiedCheckpointHeight := verifiedCheckpoint w.chain opts.checkpoints }
  Prog.writes fun w => { w with mempool := purgeMempool staged.connected w.mempool }
  let u ← Prog.reads fun w => w.utxoSet
  onMempool (restorePending opts u (head.header.height + 1) (abandoned staged))

/-- Makes `head` the canonical tip. -/
def adoptBlock (head : Block) : NodeM Unit := do
  let staged ← commitAdoption opts env head
  finishAdoption opts head staged

end Adopt

end Plainchain
