import Plainchain.Node.Handlers
import Plainchain.Wallet.Spend

/-!
# Records anchored for clients

The part of `anchorRecord` of `src/node/node.ts` that runs in the chain lock, with
`getAnchors` and the anchor index of `src/state/chainState.ts`. A node with an anchor key pays
for the records of its clients. Whether a record was paid for is looked up in the anchor index
and in the mempool. The form of the record is checked before, and what was made is announced
afterwards.
-/

namespace Plainchain

open Js Kv Prog

/-! ## Anchors -/

/-- An anchor as it is returned. -/
structure Anchor extends AnchorRecord where
  txId : Text
  /-- What `Number` makes of the text of the height. -/
  height : Option ℕ

/-- A key is cut at its colons; the second and the third piece are taken. -/
def readAnchor (key : Text) (record : AnchorRecord) : Anchor :=
  match key.splitOn (unit ':') with
  | _ :: heightText :: txId :: _ => { record with txId, height := numberOf heightText }
  | _ => { record with txId := [], height := none }

/-- The keys from a record and a colon on, and before those that go on with `\xff`. -/
def anchorKeys (index : Store Text AnchorRecord) (data : Text) : List Text :=
  (index.keys.sort TextLE).filter fun key =>
    TextLE (data ++ [unit ':']) key ∧ ¬TextLE (data ++ [unit ':'] ++ [0xFF]) key

def listAnchors (index : Store Text AnchorRecord) (data : Text) (limit : ℕ) : List Anchor :=
  ((anchorKeys index data).take limit).filterMap fun key => (index.get key).map (readAnchor key)

/-- The anchors of a record, with their confirmations. -/
def getAnchors (chain : ChainState) (data : Text) (limit : ℕ) : List (Anchor × Option ℤ) :=
  let tipHeight := (chain.tip.map (·.height)).getD 0
  (listAnchors chain.anchors data limit).map fun anchor =>
    (anchor, anchor.height.map fun height => (tipHeight : ℤ) - height + 1)

/-! ## Paying for a record -/

def ANCHOR_COIN_POOL : ℕ := 16

def ANCHOR_MAX_SPLIT : ℕ := 8

inductive AnchorRecordResult
  | confirmed (anchor : Anchor) (confirmations : Option ℤ)
  | pending (txId : Text)

/-- The message of `InsufficientFundsError`. -/
def insufficientFundsMessage (available required immature : ℤ) : Text :=
  lit "insufficient funds: need " ++ decimalInt required ++ lit ", have " ++ decimalInt available
    ++ lit " spendable" ++ (if 0 < immature then lit " (" ++ decimalInt immature
      ++ lit " more in coinbase outputs not yet mature)" else [])

/-- The error of coins that cannot be spent for an anchor. -/
def anchorFailure (address : Text) : SpendError → NodeError
  | .insufficientFunds available required immature =>
    .error (lit "no free confirmed coins at the anchor address " ++ address ++ lit " ("
      ++ insufficientFundsMessage available required immature
      ++ lit "). Coins spent by pending anchors return after the next block; to anchor more per block, send more coins to that address")
  | .error message => .error message

/-- The transaction that pays for a record, with those of the unspent outputs that no pending
    one claims. -/
def anchorTransaction (opts : NodeOptions) (w : World) (key : KeyPair) (now : ℕ) (data : Text)
    (unspent : List Unspent) : Except NodeError Transaction :=
  let spendingHeight := nextSpendingHeight w.chain
  let free := unspent.filter fun u => !w.mempool.isClaimed u.txId u.outputIndex
  let changeSplit := min ANCHOR_MAX_SPLIT (max 1 (ANCHOR_COIN_POOL - (free.length - 1)))
  (buildAnchorTransaction opts.signatures
    { keyPair := key, unspent := free, fee := opts.mempool.minFee, timestamp := .ofNat now
      tipHeight := spendingHeight - 1, coinbaseMaturity := opts.coinbaseMaturity }
    data changeSplit).mapError (anchorFailure (deriveAddress key.publicKey))

/-- Admits what was built for a record. -/
def admitAnchor (opts : NodeOptions) (built : Except NodeError Transaction) :
    NodeM (AnchorRecordResult × Option Transaction) := do
  let tx ← Prog.lift built
  match ← admitTransaction opts tx with
  | .ok () => pure (.pending tx.id, some tx)
  | .error (.invalid reason) => throw (.error (lit "anchor transaction refused: " ++ reason))
  | .error (.thrown message) => throw (.error message)

/-- A pending transaction of a key that carries a record. -/
def carries (key : KeyPair) (data : Text) (tx : Transaction) : Bool :=
  tx.data = some data && tx.inputs.all fun input => input.publicKey = key.publicKey

/-- Pays for a record with the anchor key of the node, unless it is confirmed or pending
    from that key. What was made is returned with the result. -/
def payForRecord (opts : NodeOptions) (key : KeyPair) (now : ℕ) (data : Text) :
    NodeM (AnchorRecordResult × Option Transaction) := do
  let w ← Prog.reads id
  match getAnchors w.chain data 1 with
  | (anchor, confirmations) :: _ => pure (.confirmed anchor confirmations, none)
  | [] =>
    match w.mempool.getTransactions.find? (carries key data) with
    | some tx => pure (.pending tx.id, none)
    | none => admitAnchor opts (anchorTransaction opts w key now data
        (w.utxoSet.listUnspent (deriveAddress key.publicKey)))

end Plainchain
