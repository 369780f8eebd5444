import Plainchain.Node.Rules

/-!
# Blocks from peers

`handleIncomingBlock` of `src/node/node.ts`, with the pool of orphans and the
rejection of blocks. A block whose parent is missing waits in the pool; when the
parent arrives it is evaluated like a block that has just come in
(`resolveOrphansOf`). A rejected block takes along what waits for it.

What is done for one block, up to its orphans, is `evaluateBlock`. The rounds of
orphans are bounded by the number of blocks in the pool: each takes at least one
out of it, and puts back at most that one.
-/

namespace Plainchain

open Js Kv

def MAX_ORPHANS : ℕ := 50

/-- An invalid block is an instant ban. -/
def PENALTY_INVALID_BLOCK : ℕ := 100

def PENALTY_INVALID_TX : ℕ := 10

/-! ## Locators -/

section Locator

variable (opts : NodeOptions) (chain : ChainState)

/-- Canonical hashes from a height down: ten in a row, then with doubling gaps. -/
def locatorFrom : (fuel h step : ℕ) → (locator : List Text) → List Text
  | 0, _, _, locator => locator
  | fuel + 1, h, step, locator =>
    if h = 0 then locator
    else
      let locator := locator ++ (chain.getCanonicalHashAtHeight h).toList
      let step := if 10 ≤ locator.length then step * 2 else step
      locatorFrom fuel (h - step) step locator

/-- Canonical hashes, the tip first, that end at genesis. -/
def buildLocator : List Text :=
  match chain.tip with
  | none => []
  | some tip => locatorFrom chain tip.height tip.height 1 [] ++ [opts.genesis.hash]

/-- Asks a peer for the canonical headers above what is shared. -/
def requestHeadersFrom (peerId : Text) (fromHash : Option Text) : NodeM Unit := do
  let chain ← Prog.reads fun w => w.chain
  act (.send peerId (.GET_HEADERS (fromHash.toList ++ buildLocator opts chain)))

/-- Asks a peer for the canonical blocks it has beyond the chain. -/
def requestBlocksFrom (peerId : Text) : NodeM Unit := do
  let chain ← Prog.reads fun w => w.chain
  act (.send peerId
    (.GET_BLOCKS ((chain.tip.map (·.height)).getD 0) (some (buildLocator opts chain))))

end Locator

/-! ## Rejection -/

/-- The blocks that wait in the pool, counted. -/
def listedOrphans (w : World) : ℕ :=
  (w.orphansByMissingParent.values.map List.length).sum

/-- The records of a rejection, without what waits for the block. -/
def markInvalid (block : Block) (fromNodeId reason : Text) (blame : Bool) (w : World) : World :=
  { w with
    invalidBlockHashes := insert block.hash w.invalidBlockHashes
    blamelessInvalidHashes :=
      if blame then w.blamelessInvalidHashes else insert block.hash w.blamelessInvalidHashes
    processedBlockHashes := insert block.hash w.processedBlockHashes
    actions := w.actions ++
      if blame then
        [.penalize fromNodeId PENALTY_INVALID_BLOCK
          (lit "invalid block " ++ block.hash ++ lit ": " ++ reason)]
      else [] }

/-- Rejects a block, and everything queued behind it. -/
def rejectBlockFrom : (fuel : ℕ) → (block : Block) → (fromNodeId reason : Text) → (blame : Bool) →
    World → World
  | 0, _, _, _, _, w => w
  | fuel + 1, block, fromNodeId, reason, blame, w =>
    let w := markInvalid block fromNodeId reason blame w
    let dependents := (w.orphansByMissingParent.get block.hash).getD []
    let w := { w with orphansByMissingParent := w.orphansByMissingParent.delete block.hash }
    dependents.foldl (fun w dependent =>
      rejectBlockFrom fuel dependent.block dependent.fromNodeId
        (lit "builds on a known-invalid block") blame
        { w with orphanHashes := w.orphanHashes.erase dependent.block.hash }) w

/-- What a rejection does with a block that waited for the rejected one. -/
def rejectDependent (fuel : ℕ) (blame : Bool) (w : World) (dependent : Orphan) : World :=
  rejectBlockFrom fuel dependent.block dependent.fromNodeId (lit "builds on a known-invalid block") blame
    { w with orphanHashes := w.orphanHashes.erase dependent.block.hash }

def rejectBlock (block : Block) (fromNodeId reason : Text) (blame : Bool) : NodeM Unit :=
  .writes fun w => rejectBlockFrom (listedOrphans w + 1) block fromNodeId reason blame w

/-! ## Orphans -/

/-- Drops the group that has waited longest. -/
def dropOldest (w : World) : World :=
  match w.orphansByMissingParent.entries.head? with
  | none => w
  | some (oldestParent, dropped) =>
    { w with
      orphanHashes := dropped.foldl (fun hashes o => hashes.erase o.block.hash) w.orphanHashes
      orphansByMissingParent := w.orphansByMissingParent.delete oldestParent }

def queueOrphan (block : Block) (fromNodeId : Text) : NodeM Unit :=
  .writes fun w =>
    if block.hash ∈ w.orphanHashes then w
    else
      let waiting := (w.orphansByMissingParent.get block.header.previousHash).getD []
      let w := { w with
        orphansByMissingParent := w.orphansByMissingParent.set block.header.previousHash
          (waiting ++ [⟨block, fromNodeId⟩])
        orphanHashes := insert block.hash w.orphanHashes }
      if MAX_ORPHANS < w.orphanHashes.card then dropOldest w else w

/-! ## Evaluation -/

section Evaluate

variable (opts : NodeOptions) (env : Env)

/-- What a block after a stored parent is judged by. -/
def blockContext (w : World) (block parent : Block) : Except NodeError BlockValidationContext := do
  let expectedTarget ←
    expectedTargetFor opts w.chain w.headers .empty ⟨parent.hash, parent.header⟩
  let blockReward ← (blockRewardAt block.header.height opts.policy).mapError .error
  pure { parent, expectedTarget, blockReward
         maxBlockBytes := opts.maxBlockBytes
         maxTransactionsPerBlock := opts.maxTransactionsPerBlock
         now := env.now
         maxFutureDriftMs := opts.maxFutureDriftMs
         checkpoint := checkpointFor opts block.header.height
         engine := some opts.engine
         recentSigners := some (recentSignersFor opts w.chain w.headers .empty parent.hash) }

def putBlock (block : Block) : NodeM Unit :=
  .of fun w =>
    if env.fails (.block block.hash) then (.error .storage, w)
    else (.ok (), { w with chain := w.chain.batch [putBlockOp block] })

/-- The entry of a block, unless it has one. -/
def indexBlock (block : Block) (work : ℕ) : NodeM Unit := do
  let headers ← Prog.reads fun w => w.headers
  match headers.get block.hash with
  | some _ => pure ()
  | none => onHeaders (putHeader env block.hash block.header work)

/-- The work of the canonical chain. -/
def currentWork : NodeM ℕ := do
  let chain ← Prog.reads fun w => w.chain
  match chain.tip with
  | none => pure 0
  | some tip => do
    let entry ← onHeaders (getIndexedHeader opts env chain tip.hash)
    pure ((entry.map (·.work)).getD 0)

/-- Adopts a block that is better than the tip; whether it stands. A block whose
    transactions fail is rejected. After any other error it may be evaluated
    again. -/
def adoptOrReject (block : Block) (fromNodeId : Text) : NodeM Bool := do
  let adopted ← tryCatch (do adoptBlock opts env block; pure true) fun e =>
    match e with
    | .replay blockHash detail => do
      rejectBlock block fromNodeId
        (lit "block " ++ blockHash ++ lit " failed state replay: " ++ detail) true
      pure false
    | e => do
      Prog.writes fun w =>
        { w with processedBlockHashes := w.processedBlockHashes.erase block.hash }
      throw e
  if adopted then act (.broadcast (.NEW_BLOCK block) (some fromNodeId))
  pure adopted

/-- Decides fork choice for a block that has just been stored, on top of a chain
    with the given work. -/
def decideFork (block : Block) (fromNodeId : Text) (parentWork : ℕ) : NodeM Bool := do
  Prog.writes fun w => { w with processedBlockHashes := insert block.hash w.processedBlockHashes }
  let added ← Prog.lift (blockWork opts block.header)
  indexBlock env block (parentWork + added)
  let current ← currentWork opts env
  if isBetterChain (parentWork + added) current then adoptOrReject opts env block fromNodeId
  else pure true

/-- Stores a valid block and decides fork choice for it; whether its orphans are
    looked at. -/
def acceptBlock (block : Block) (fromNodeId : Text) (parent : Block) : NodeM Bool := do
  let chain ← Prog.reads fun w => w.chain
  match ← onHeaders (getIndexedHeader opts env chain parent.hash) with
  | none => do
    queueOrphan block fromNodeId
    pure false
  | some parentIndexed => do
    putBlock env block
    decideFork opts env block fromNodeId parentIndexed.work

/-- `handleIncomingBlock` for a block with a stored parent that it does not
    conflict with. -/
def validateAndAccept (block : Block) (fromNodeId : Text) (parent : Block) : NodeM Bool := do
  let w ← Prog.reads id
  let ctx ← Prog.lift (blockContext opts env w block parent)
  match validateBlock opts.signatures block ctx with
  | .ok () => acceptBlock opts env block fromNodeId parent
  | .error (.invalid reason) => do
    rejectBlock block fromNodeId reason (reason ≠ FUTURE_TIMESTAMP_REASON)
    pure false
  | .error (.thrown message) => throw (.error message)

/-- `handleIncomingBlock` but for the orphans of the block: whether they are to be
    resolved. -/
def evaluateBlock (block : Block) (fromNodeId : Text) : NodeM Bool := do
  let w ← Prog.reads id
  if block.hash ∈ w.processedBlockHashes ∨ block.hash ∈ w.invalidBlockHashes then pure false
  else if block.header.previousHash ∈ w.invalidBlockHashes then do
    rejectBlock block fromNodeId (lit "builds on a known-invalid block")
      (block.header.previousHash ∉ w.blamelessInvalidHashes)
    pure false
  else
    match w.chain.getBlock block.header.previousHash with
    | none => do
      queueOrphan block fromNodeId
      requestHeadersFrom opts fromNodeId none
      pure false
    | some parent =>
      if conflictsWithVerifiedCheckpoint w.chain w.verifiedCheckpointHeight block.header.height
          block.hash then do
        rejectBlock block fromNodeId
          (lit "conflicts with checkpoint: would reorg below verified height "
            ++ decimalInt w.verifiedCheckpointHeight) true
        pure false
      else validateAndAccept opts env block fromNodeId parent

/-- Takes what waits for a block out of the pool and handles it. -/
def resolveOrphansOf (handle : Block → Text → NodeM Unit) (parentHash : Text) : NodeM Unit := do
  match ← Prog.reads fun w => w.orphansByMissingParent.get parentHash with
  | none => pure ()
  | some waiting => do
    Prog.writes fun w =>
      { w with orphansByMissingParent := w.orphansByMissingParent.delete parentHash }
    forM waiting fun o => do
      Prog.writes fun w => { w with orphanHashes := w.orphanHashes.erase o.block.hash }
      handle o.block o.fromNodeId

/-- A block and the orphans it connects, `fuel` generations deep. -/
def handleBlockFrom : (fuel : ℕ) → (block : Block) → (fromNodeId : Text) → NodeM Unit
  | 0, _, _ => throw .unfinished
  | fuel + 1, block, fromNodeId => do
    if ← evaluateBlock opts env block fromNodeId then
      resolveOrphansOf (handleBlockFrom fuel) block.hash

def handleIncomingBlock (block : Block) (fromNodeId : Text) : NodeM Unit := do
  let listed ← Prog.reads listedOrphans
  handleBlockFrom opts env (listed + 1) block fromNodeId

end Evaluate

end Plainchain
