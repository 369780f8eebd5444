import Plainchain.Consensus.BlockValidator
import Plainchain.Consensus.Monetary
import Plainchain.Mempool
import Plainchain.State.ChainState

/-!
# The state of a node

`src/node/node.ts`: what a node is configured with and what it holds. Everything
that reads and writes the chain runs under one lock, so that the handling of a
message is one program over the state (`NodeM`).

Writes to disk may fail. Which of them fail while a message is handled is part of
its environment (`Env`), by what is written: a block, an entry of the header
index, or the batch that adopts a head. Reads do not fail, and a batch is applied
as a whole or not at all.

Walks along the stored ancestry end after at most as many steps as there are
blocks, or never: `walkFuel` bounds them, and a walk that needs more is
`NodeError.unfinished`.
-/

namespace Plainchain

open Js Kv

structure NodeOptions where
  signatures : SignatureScheme
  genesisConfig : GenesisConfig
  /-- The block that `createGenesisBlock` makes of the configuration. -/
  genesis : Block
  genesis_eq : createGenesisBlock genesisConfig = .ok genesis
  engine : ConsensusEngine
  retarget : RetargetRules
  maxFutureDriftMs : ℕ
  maxBlockBytes : Option ℕ
  maxTransactionsPerBlock : Option ℕ
  coinbaseMaturity : ℕ
  /-- The hash that a height must have, for the checkpointed heights. -/
  checkpoints : OrdMap ℕ Text
  policy : MonetaryPolicy
  mempool : MempoolPolicy
  addressIndexEnabled : Bool
  /-- Canonical blocks of history kept per address; `0` keeps all. -/
  addressIndexDepth : ℕ
  minerAddress : Text
  maxBlocksPerResponse : ℕ
  maxHeadersPerResponse : ℕ

/-- A block that waits for its parent, and who sent it. -/
structure Orphan where
  block : Block
  fromNodeId : Text
  deriving DecidableEq

structure NodeState where
  chain : ChainState
  headers : HeaderIndex
  utxoSet : UtxoSet
  mempool : Mempool
  cachedTipHeight : ℕ
  /-- The highest checkpoint on the canonical chain, `-1` if there is none. -/
  verifiedCheckpointHeight : ℤ
  /-- Blocks received before their parent, by the hash of that parent. -/
  orphansByMissingParent : OrdMap Text (List Orphan)
  orphanHashes : Finset Text
  /-- Blocks that have been fully evaluated. -/
  processedBlockHashes : Finset Text
  /-- Blocks that failed validation. -/
  invalidBlockHashes : Finset Text
  /-- Those of them whose sender was not penalized. -/
  blamelessInvalidHashes : Finset Text

/-- The messages of `src/network/protocol.ts` by which nodes learn of blocks and
    transactions. -/
inductive Message
  | GET_BLOCKS (fromHeight : ℕ) (locator : Option (List Text))
  | GET_HEADERS (locator : List Text)
  | HEADERS (headers : List BlockHeader)
  | INV_BLOCKS (hashes : List Text)
  | NEW_BLOCK (block : Block)
  | NEW_TX (transaction : Transaction)

/-- What a node does to its peers. -/
inductive Action
  | send (peer : Text) (message : Message)
  | broadcast (message : Message) (excludeNodeId : Option Text)
  | penalize (peer : Text) (points : ℕ) (reason : Text)

/-- A node with what it has sent so far. -/
structure World extends NodeState where
  actions : List Action

/-- The penalties that a node has imposed: on whom, how many points, and why. -/
def World.penalties (w : World) : List (Text × ℕ × Text) :=
  w.actions.filterMap fun
    | .penalize peer points reason => some (peer, points, reason)
    | _ => none

inductive NodeError
  /-- The transactions of a block failed against the UTXO set: the block is
      invalid. -/
  | replay (blockHash detail : Text)
  | error (message : Text)
  /-- A write failed. -/
  | storage
  /-- A walk that has no end. -/
  | unfinished
  deriving DecidableEq

/-- A write to disk. -/
inductive Write
  | block (hash : Text)
  | header (hash : Text)
  /-- The batch that adopts a head. -/
  | adopt (hash : Text)
  deriving DecidableEq

/-- What surrounds the handling of a message: the clock, and the writes that
    fail. -/
structure Env where
  now : ℕ
  fails : Write → Bool

abbrev NodeM := Prog World NodeError

/-! ## Parts of the state -/

/-- A program over the UTXO set. -/
def onUtxoSet {α : Type} (m : Prog UtxoSet NodeError α) : NodeM α :=
  Prog.zoom (fun w => w.utxoSet) (fun w u => { w with utxoSet := u }) m

/-- A program over the header index. -/
def onHeaders {α : Type} (m : Prog HeaderIndex NodeError α) : NodeM α :=
  Prog.zoom (fun w => w.headers) (fun w h => { w with headers := h }) m

def act (action : Action) : NodeM Unit :=
  .writes fun w => { w with actions := w.actions ++ [action] }

/-! ## Walks -/

/-- More steps than a walk along the stored ancestry of a block can take. -/
def walkFuel (chain : ChainState) (block : Block) : ℕ :=
  chain.blocks.keys.card + block.header.height + 2

end Plainchain
