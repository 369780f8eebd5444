import Plainchain.Ledger.Block
import Plainchain.State.UtxoSet

/-!
# The chain state

`src/state/chainState.ts` and `src/state/db.ts`: what a node keeps on disk about
its chain, each kind of record in a sublevel of its own, and the operations that
are collected and committed in one batch.

A batch is applied all at once. Operations on different sublevels do not meet,
so that what a batch does to one of them is what its operations on that sublevel
do, in their order (`ChainState.batch`).
-/

namespace Plainchain

open Js Kv

structure ChainTip where
  hash : Text
  height : ℕ
  deriving DecidableEq

/-- One record per transaction, in block order. -/
abbrev BlockUndo := List TxUndo

/-- A validated header and the total work of the chain that ends at it. -/
structure IndexedHeader where
  header : BlockHeader
  work : ℕ
  deriving DecidableEq

/-- What one transaction paid to an address and took from it. -/
structure AddressRecord where
  blockHash : Text
  timestamp : Number
  received : ℤ
  sent : ℤ
  deriving DecidableEq

/-- A confirmed transaction that carries a record. -/
structure AnchorRecord where
  blockHash : Text
  blockTimestamp : ℕ
  deriving DecidableEq

/-- Heights are padded with zeros so that the order of keys is chronological. -/
def HEIGHT_WIDTH : ℕ := 10

def paddedHeight (height : ℕ) : Text :=
  List.replicate (HEIGHT_WIDTH - (decimal height).length) (unit '0') ++ decimal height

/-- The key of an anchor, up to the transaction id. -/
def anchorKey (data : Text) (height : ℕ) : Text := data ++ unit ':' :: (paddedHeight height ++ [unit ':'])

/-- The key of what an address received and sent in a transaction. -/
def addressActivityKey (address : Text) (height : ℕ) (txId : Text) : Text :=
  address ++ unit ':' :: (paddedHeight height ++ unit ':' :: txId)

/-- A write of a batch; `none` deletes. -/
inductive StateOp
  | block (block : Block)
  | undo (hash : Text) (undo : Option BlockUndo)
  | header (hash : Text) (entry : IndexedHeader)
  | canonical (height : ℕ) (hash : Option Text)
  | tip (tip : ChainTip)
  | txLocation (txId : Text) (blockHash : Option Text)
  | anchor (key : Text) (record : Option AnchorRecord)
  | activity (key : Text) (record : Option AddressRecord)
  | utxo (write : UtxoWrite)

namespace StateOp

/-! The write of an operation to each sublevel, if it is on that one. -/

def block? : StateOp → Option (Text × Option Block)
  | block b => some (b.hash, some b)
  | _ => none

def undo? : StateOp → Option (Text × Option BlockUndo)
  | undo hash u => some (hash, u)
  | _ => none

def header? : StateOp → Option (Text × Option IndexedHeader)
  | header hash entry => some (hash, some entry)
  | _ => none

def canonical? : StateOp → Option (ℕ × Option Text)
  | canonical height hash => some (height, hash)
  | _ => none

def tip? : StateOp → Option ChainTip
  | tip t => some t
  | _ => none

def txLocation? : StateOp → Option (Text × Option Text)
  | txLocation txId hash => some (txId, hash)
  | _ => none

def anchor? : StateOp → Option (Text × Option AnchorRecord)
  | anchor key record => some (key, record)
  | _ => none

/-- An address may be any text, and its key is written in UTF-8. -/
def activity? : StateOp → Option (List Char × Option AddressRecord)
  | activity key record => some (scalars key, record)
  | _ => none

def utxo? : StateOp → Option UtxoWrite
  | utxo write => some write
  | _ => none

end StateOp

/-- The entries of addresses by the characters of their keys. The database has a key in
    UTF-8, where unpaired surrogates are lost, and orders keys by their bytes, which is
    the order of the characters. The keys of the other sublevels are hex texts and
    numbers, which their bytes determine. -/
abbrev AddressIndex := Store (List Char) AddressRecord

/-- What is persisted about the chain, but for the header index and the UTXO
    set. -/
structure ChainState where
  blocks : Store Text Block
  /-- A block is stored under its own hash. -/
  keyed : ∀ hash block, blocks.get hash = some block → block.hash = hash
  undo : Store Text BlockUndo
  /-- The canonical hash at each height. -/
  canonical : Store ℕ Text
  tip : Option ChainTip
  /-- The canonical block of each transaction. -/
  txIndex : Store Text Text
  anchors : Store Text AnchorRecord
  addrIndex : AddressIndex

/-- Every header that passed the rules on headers, by hash. -/
abbrev HeaderIndex := Store Text IndexedHeader

namespace ChainState

def getBlock (chain : ChainState) (hash : Text) : Option Block := chain.blocks.get hash

def getUndo (chain : ChainState) (hash : Text) : Option BlockUndo := chain.undo.get hash

def getCanonicalHashAtHeight (chain : ChainState) (height : ℕ) : Option Text :=
  chain.canonical.get height

/-- Writes of whole blocks keep every block under its own hash. -/
theorem keyed_batch (chain : ChainState) (ops : List StateOp) (hash : Text) (block : Block)
    (h : (chain.blocks.batch (ops.filterMap StateOp.block?)).get hash = some block) :
    block.hash = hash := by
  rw [Store.get_batch] at h
  cases hlast : lastWrite (ops.filterMap StateOp.block?) hash with
  | none =>
    rw [hlast] at h
    exact chain.keyed hash block h
  | some written =>
    rw [hlast, Option.getD_some] at h
    obtain ⟨op, -, hop⟩ := List.mem_filterMap.1 (mem_of_lastWrite hlast)
    cases op with
    | block b =>
      simp only [StateOp.block?, Option.some.injEq, Prod.mk.injEq] at hop
      obtain ⟨rfl, rfl⟩ := hop
      cases h
      rfl
    | _ => simp [StateOp.block?] at hop

/-- The part of a batch that is on the chain state. -/
def batch (chain : ChainState) (ops : List StateOp) : ChainState where
  blocks := chain.blocks.batch (ops.filterMap StateOp.block?)
  keyed := chain.keyed_batch ops
  undo := chain.undo.batch (ops.filterMap StateOp.undo?)
  canonical := chain.canonical.batch (ops.filterMap StateOp.canonical?)
  tip := (ops.filterMap StateOp.tip?).getLast?.or chain.tip
  txIndex := chain.txIndex.batch (ops.filterMap StateOp.txLocation?)
  anchors := chain.anchors.batch (ops.filterMap StateOp.anchor?)
  addrIndex := chain.addrIndex.batch (ops.filterMap StateOp.activity?)

end ChainState

/-! ## Operations -/

def putBlockOp (block : Block) : StateOp := .block block

def putHeaderOp (hash : Text) (header : BlockHeader) (work : ℕ) : StateOp :=
  .header hash ⟨header, work⟩

def putUndoOp (blockHash : Text) (undo : BlockUndo) : StateOp := .undo blockHash (some undo)

def deleteUndoOp (blockHash : Text) : StateOp := .undo blockHash none

def setTipOps (hash : Text) (height : ℕ) : List StateOp := [.tip ⟨hash, height⟩]

def setCanonicalHashAtHeightOp (height : ℕ) (hash : Text) : StateOp := .canonical height (some hash)

/-- Removes the canonical entries of the heights in `(keepUpTo, clearUpTo]`. -/
def clearCanonicalHashesAboveOps (keepUpTo clearUpTo : ℕ) : List StateOp :=
  (List.range' (keepUpTo + 1) (clearUpTo - keepUpTo)).map fun h => .canonical h none

def putTxLocationOp (txId blockHash : Text) : StateOp := .txLocation txId (some blockHash)

def deleteTxLocationOp (txId : Text) : StateOp := .txLocation txId none

def putAnchorOp (data : Text) (height : ℕ) (txId blockHash : Text) (blockTimestamp : ℕ) : StateOp :=
  .anchor (anchorKey data height ++ txId) (some ⟨blockHash, blockTimestamp⟩)

def deleteAnchorOp (data : Text) (height : ℕ) (txId : Text) : StateOp :=
  .anchor (anchorKey data height ++ txId) none

def putAddressActivityOp (address : Text) (height : ℕ) (txId : Text) (record : AddressRecord) :
    StateOp :=
  .activity (addressActivityKey address height txId) (some record)

def deleteAddressActivityOp (address : Text) (height : ℕ) (txId : Text) : StateOp :=
  .activity (addressActivityKey address height txId) none

/-! ## Address activity -/

/-- An amount added to what an address received, or to what it sent. -/
def bumpActivity (sent : Bool) (totals : OrdMap Text (ℤ × ℤ)) (output : TxOutput) :
    OrdMap Text (ℤ × ℤ) :=
  let t := (totals.get output.address).getD (0, 0)
  totals.set output.address
    (if sent then (t.1, t.2 + output.amount) else (t.1 + output.amount, t.2))

/-- Totals per address for one transaction: outputs paid to the address, and
    inputs that spent outputs of it. -/
def addressActivityOf (tx : Transaction) (spent : List SpentOutput) : OrdMap Text (ℤ × ℤ) :=
  (spent.map fun s => s.entry.toTxOutput).foldl (bumpActivity true)
    (tx.outputs.foldl (bumpActivity false) .empty)

/-- The operations that put, or remove, the address entries of a block. -/
def addressIndexOps (block : Block) (undo : BlockUndo) (remove : Bool) : List StateOp :=
  block.transactions.zipIdx.flatMap fun (tx, i) =>
    (addressActivityOf tx ((undo[i]?.map (·.spent)).getD [])).entries.map fun (address, totals) =>
      if remove then deleteAddressActivityOp address block.header.height tx.id
      else putAddressActivityOp address block.header.height tx.id
        { blockHash := block.hash, timestamp := tx.timestamp, received := totals.1,
          sent := totals.2 }

/-- The canonical block at a height and its undo record. -/
def canonicalBlockWithUndo (chain : ChainState) (height : ℤ) : Option (Block × BlockUndo) := do
  let h ← height.toNat?
  let hash ← chain.getCanonicalHashAtHeight h
  let block ← chain.getBlock hash
  pure (block, (chain.getUndo block.hash).getD [])

end Plainchain
