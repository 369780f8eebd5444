import Plainchain.Node.Incoming

/-!
# Messages

`handleMessage` of `src/node/node.ts`, and what a client submits. Synchronisation
is header first: a node asks for headers, indexes the valid ones, and asks for
blocks only when the chain they announce is heavier than its own.

A peer answers from its canonical chain, above the highest hash of the locator
that it shares with the sender. A reply is capped: what is left out is announced
by the hash it starts with (`INV_BLOCKS`).
-/

namespace Plainchain

open Js Kv

def MAX_LOCATOR_ENTRIES : ℕ := 64

def MAX_INV_ENTRIES : ℕ := 64

section Answers

variable (opts : NodeOptions) (chain : ChainState)

/-- A hash of a locator that is on the canonical chain, by its height. -/
def sharedHeight (hash : Text) : Option ℕ := do
  let block ← chain.getBlock hash
  if chain.getCanonicalHashAtHeight block.header.height = some hash then
    some block.header.height
  else none

/-- The height of the first entry of a locator that is on the canonical chain;
    genesis is always shared. -/
def highestSharedHeight (locator : List Text) : ℕ :=
  ((locator.take MAX_LOCATOR_ENTRIES).findSome? (sharedHeight chain)).getD 0

/-- The canonical block at a height. -/
def canonicalBlock (height : ℕ) : Option Block :=
  (chain.getCanonicalHashAtHeight height).bind chain.getBlock

/-- The reply to `GET_BLOCKS`. -/
def blocksReply (fromHeight : ℕ) (locator : Option (List Text)) : List Message :=
  match chain.tip with
  | none => []
  | some tip =>
    let start := (locator.map (highestSharedHeight chain)).getD fromHeight
    let last := min tip.height (start + opts.maxBlocksPerResponse)
    ((List.range' (start + 1) (last - start)).filterMap fun h =>
      (canonicalBlock chain h).map .NEW_BLOCK) ++
      if last < tip.height then
        (chain.getCanonicalHashAtHeight (last + 1)).toList.map fun next => .INV_BLOCKS [next]
      else []

/-- Canonical headers from a height on, up to the first that is missing. -/
def headersFrom (headers : HeaderIndex) : (count h : ℕ) → List BlockHeader
  | 0, _ => []
  | count + 1, h =>
    match (chain.getCanonicalHashAtHeight h).bind (lookupHeader chain headers .empty) with
    | none => []
    | some header => header :: headersFrom headers count (h + 1)

/-- The reply to `GET_HEADERS`. -/
def headersReply (headers : HeaderIndex) (locator : List Text) : List Message :=
  match chain.tip with
  | none => []
  | some tip =>
    let start := highestSharedHeight chain locator
    let last := min tip.height (start + opts.maxHeadersPerResponse)
    [.HEADERS (headersFrom chain headers (last - start) (start + 1))]

end Answers

/-! ## Headers -/

/-- A header with its hash and the work of its chain. -/
structure ChainEnd extends ChainHeader where
  work : ℕ

section Headers

variable (opts : NodeOptions) (env : Env) (fromNodeId : Text)

def penalizeInvalid (reason : Text) : NodeM Unit :=
  act (.penalize fromNodeId PENALTY_INVALID_BLOCK reason)

/-- What a header after `prev` is judged by. -/
def headerRules (w : World) (batch : OrdMap Text BlockHeader) (prev : ChainEnd)
    (header : BlockHeader) : Except NodeError HeaderValidationContext := do
  let expectedTarget ← expectedTargetFor opts w.chain w.headers batch prev.toChainHeader
  pure { parent := prev.toChainHeader, expectedTarget
         now := env.now
         maxFutureDriftMs := opts.maxFutureDriftMs
         checkpoint := checkpointFor opts header.height
         engine := some opts.engine
         recentSigners := some (recentSignersFor opts w.chain w.headers batch prev.hash) }

/-- Validates a header that is not known and indexes it; none where the sender is
    not followed any further. -/
def indexNewHeader (batch : OrdMap Text BlockHeader) (prev : ChainEnd) (header : BlockHeader) :
    NodeM (Option (ChainEnd × OrdMap Text BlockHeader)) := do
  let hash := computeBlockHash header
  let w ← Prog.reads id
  let ctx ← Prog.lift (headerRules opts env w batch prev header)
  match validateHeader opts.signatures header hash ctx with
  | .ok () => do
    let added ← Prog.lift (blockWork opts header)
    onHeaders (putHeader env hash header (prev.work + added))
    pure (some (⟨⟨hash, header⟩, prev.work + added⟩, batch.set hash header))
  | .error (.invalid reason) => do
    if reason ≠ FUTURE_TIMESTAMP_REASON then
      penalizeInvalid fromNodeId (lit "invalid header " ++ hash ++ lit ": " ++ reason)
    pure none
  | .error (.thrown message) => throw (.error message)

/-- One round of the loop over the headers of a message. -/
def indexHeader (batch : OrdMap Text BlockHeader) (prev : ChainEnd) (header : BlockHeader) :
    NodeM (Option (ChainEnd × OrdMap Text BlockHeader)) := do
  let hash := computeBlockHash header
  let w ← Prog.reads id
  match w.headers.get hash with
  | some known => pure (some (⟨⟨hash, known.header⟩, known.work⟩, batch))
  | none =>
    if hash ∈ w.invalidBlockHashes ∨ header.previousHash ∈ w.invalidBlockHashes then do
      penalizeInvalid fromNodeId
        (lit "header " ++ hash ++ lit " is (or builds on) a known-invalid block")
      pure none
    else if conflictsWithVerifiedCheckpoint w.chain w.verifiedCheckpointHeight header.height
        hash then do
      penalizeInvalid fromNodeId
        (lit "header " ++ hash
          ++ lit " conflicts with checkpoint: would reorg below verified height "
          ++ decimalInt w.verifiedCheckpointHeight)
      pure none
    else indexNewHeader opts env fromNodeId batch prev header

def indexHeaders : (batch : OrdMap Text BlockHeader) → (prev : ChainEnd) → List BlockHeader →
    NodeM (Option ChainEnd)
  | _, prev, [] => pure (some prev)
  | batch, prev, header :: rest => do
    match ← indexHeader opts env fromNodeId batch prev header with
    | none => pure none
    | some (prev, batch) => indexHeaders batch prev rest

/-- Asks for the blocks of a chain of headers that is heavier than the canonical
    one, unless its last block is stored. -/
def requestIfBetter (last : ChainEnd) : NodeM Unit := do
  let current ← currentWork opts env
  let stored ← Prog.reads fun w => (w.chain.getBlock last.hash).isSome
  if isBetterChain last.work current ∧ ¬stored then requestBlocksFrom opts fromNodeId

/-- The chain that the headers of a message make, if each of them is known or
    validates. -/
def acceptHeaders : List BlockHeader → NodeM (Option ChainEnd)
  | [] => pure none
  | first :: rest => do
    let chain ← Prog.reads fun w => w.chain
    match ← onHeaders (getIndexedHeader opts env chain first.previousHash) with
    | none => pure none
    | some entry =>
      indexHeaders opts env fromNodeId .empty ⟨⟨first.previousHash, entry.header⟩, entry.work⟩
        (first :: rest)

/-- What is asked for after the headers were accepted. -/
def followUp (headers : List BlockHeader) : Option ChainEnd → NodeM Unit
  | none => pure ()
  | some last => do
    requestIfBetter opts env fromNodeId last
    if opts.maxHeadersPerResponse ≤ headers.length then
      requestHeadersFrom opts fromNodeId (some last.hash)

def handleHeaders (headers : List BlockHeader) : NodeM Unit := do
  followUp opts env fromNodeId headers (← acceptHeaders opts env fromNodeId headers)

/-! ### What accepting headers keeps

Headers are accepted by writes to the index and penalties for the sender: what these keep
is kept. -/

section Keeps

open Prog

variable {opts env fromNodeId} {R : World → World → Prop} [Std.Refl R] [IsTrans World R]
  (hheaders : ∀ {α : Type} (m : Prog HeaderIndex NodeError α), Keeps R (onHeaders m))
  (hpenalize : ∀ reason, Keeps R (penalizeInvalid fromNodeId reason))

include hheaders hpenalize

theorem keeps_indexHeader (batch : OrdMap Text BlockHeader) (prev : ChainEnd)
    (header : BlockHeader) : Keeps R (indexHeader opts env fromNodeId batch prev header) := by
  refine .bind (.reads _) fun w => ?_
  split
  · exact .pure _
  split
  · exact .bind (hpenalize _) fun _ => .pure _
  split
  · exact .bind (hpenalize _) fun _ => .pure _
  refine .bind (.reads _) fun w => .bind (.lift _) fun ctx => ?_
  split
  · exact .bind (.lift _) fun _ => .bind (hheaders _) fun _ => .pure _
  · split_ifs
    · exact .bind (hpenalize _) fun _ => .pure _
    · exact .pure _
  · exact .throw _

theorem keeps_indexHeaders (batch : OrdMap Text BlockHeader) (prev : ChainEnd)
    (headers : List BlockHeader) :
    Keeps R (indexHeaders opts env fromNodeId batch prev headers) := by
  induction headers generalizing batch prev with
  | nil => exact .pure _
  | cons header headers ih =>
    refine .bind (keeps_indexHeader hheaders hpenalize _ _ _) fun found => ?_
    cases found with
    | none => exact .pure _
    | some found => exact ih _ _

theorem keeps_acceptHeaders (headers : List BlockHeader) :
    Keeps R (acceptHeaders opts env fromNodeId headers) := by
  cases headers with
  | nil => exact .pure _
  | cons first rest =>
    refine .bind (.reads _) fun chain => .bind (hheaders _) fun found => ?_
    cases found with
    | none => exact .pure _
    | some entry => exact keeps_indexHeaders hheaders hpenalize _ _ _

end Keeps

end Headers

/-! ## Transactions -/

section Transactions

variable (opts : NodeOptions)

/-- The height a pending transaction would next be mined at. -/
def nextSpendingHeight (chain : ChainState) : ℕ := (chain.tip.map (·.height)).getD 0 + 1

/-- Admits a transaction to the mempool: the verdict, or what admission threw. -/
def admitTransaction (tx : Transaction) : NodeM Verdict :=
  .of fun w =>
    match (addTransaction opts.signatures opts.mempool w.utxoSet tx
        (nextSpendingHeight w.chain)).exec w.mempool with
    | (.ok _, pool) => (.ok (.ok ()), { w with mempool := pool })
    | (.error (.invalid reason), pool) =>
      (.ok (.error (.invalid reason)), { w with mempool := pool })
    | (.error (.thrown message), pool) => (.error (.error message), { w with mempool := pool })

def submitTransaction (tx : Transaction) : NodeM Verdict := do
  let result ← admitTransaction opts tx
  if result = .ok () then act (.broadcast (.NEW_TX tx) none)
  pure result

/-- A transaction relayed by a peer. Only a malformed one is its sender's fault. -/
def handleTransaction (tx : Transaction) (fromNodeId : Text) : NodeM Unit := do
  let pool ← Prog.reads fun w => w.mempool
  if pool.has tx.id then pure ()
  else
    match validateTransactionStructure tx with
    | .ok () => do
      let result ← admitTransaction opts tx
      if result = .ok () then act (.broadcast (.NEW_TX tx) (some fromNodeId))
    | .error (.invalid reason) =>
      act (.penalize fromNodeId PENALTY_INVALID_TX (lit "invalid transaction: " ++ reason))
    | .error (.thrown message) => throw (.error message)

end Transactions

/-! ## Dispatch -/

section Dispatch

variable (opts : NodeOptions) (env : Env)

def sendAll (peer : Text) (messages : List Message) : NodeM Unit :=
  .writes fun w => { w with actions := w.actions ++ messages.map (.send peer) }

/-- Asks for blocks when one of the announced is neither invalid nor stored. -/
def handleInvBlocks (hashes : List Text) (fromNodeId : Text) : NodeM Unit := do
  let w ← Prog.reads id
  if (hashes.take MAX_INV_ENTRIES).any fun hash =>
      hash ∉ w.invalidBlockHashes ∧ w.chain.getBlock hash = none then
    requestBlocksFrom opts fromNodeId

def handleMessage (message : Message) (fromNodeId : Text) : NodeM Unit :=
  match message with
  | .NEW_TX tx => handleTransaction opts tx fromNodeId
  | .NEW_BLOCK block => handleIncomingBlock opts env block fromNodeId
  | .GET_BLOCKS fromHeight locator => do
    let chain ← Prog.reads fun w => w.chain
    sendAll fromNodeId (blocksReply opts chain fromHeight locator)
  | .GET_HEADERS locator => do
    let w ← Prog.reads id
    sendAll fromNodeId (headersReply opts w.chain w.headers locator)
  | .HEADERS headers =>
    handleHeaders opts env fromNodeId (headers.take opts.maxHeadersPerResponse)
  | .INV_BLOCKS hashes => handleInvBlocks opts hashes fromNodeId

end Dispatch

end Plainchain
