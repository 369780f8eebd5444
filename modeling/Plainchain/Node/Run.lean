import Plainchain.Node.Mining
import Plainchain.Supply

/-!
# Runs of a node

`start` of `src/node/node.ts`, and what can happen to a node after it: messages,
transactions from clients, templates for the miner and seals that it found, and
restarts. Each is handled as a whole, under the chain lock; what a handler throws
is logged and what it wrote before stays. A crash between two writes leaves what
the failure of the second one leaves, and a restart follows.

* `Reachable`: the states of a node that began with an empty database;
* `ReachableWhere`: those it reaches by events of a kind;
* `Reachable.invariant`: the rule by which what every event preserves holds in
  all of them.
-/

namespace Plainchain

open Js Kv

section Start

variable (opts : NodeOptions)

def emptyChain : ChainState where
  blocks := .empty
  keyed := by simp
  undo := .empty
  canonical := .empty
  tip := none
  txIndex := .empty
  anchors := .empty
  addrIndex := .empty

/-- A node on a database, with nothing in memory. -/
def openNode (chain : ChainState) (headers : HeaderIndex) (store : Store Text UtxoEntry) : World where
  chain := chain
  headers := headers
  utxoSet := .new store opts.coinbaseMaturity
  mempool := .empty
  cachedTipHeight := (chain.tip.map (·.height)).getD 0
  verifiedCheckpointHeight := verifiedCheckpoint chain opts.checkpoints
  orphansByMissingParent := .empty
  orphanHashes := ∅
  processedBlockHashes := ∅
  invalidBlockHashes := ∅
  blamelessInvalidHashes := ∅
  actions := []

/-- The writes of genesis to an empty database, and those that build the indexes
    for it. -/
def genesisOps : List StateOp :=
  [putBlockOp opts.genesis, setCanonicalHashAtHeightOp 0 opts.genesis.hash]
    ++ setTipOps opts.genesis.hash 0
    ++ (opts.genesis.transactions.map fun tx => putTxLocationOp tx.id opts.genesis.hash)
    ++ if opts.addressIndexEnabled then addressIndexOps opts.genesis [] false else []

/-- `start` with an empty database: genesis is applied and stored. -/
def start : Except NodeError World := do
  let utxoSet := UtxoSet.new .empty opts.coinbaseMaturity
  match opts.genesis.transactions.head? with
  | none => .error (.error (lit "Cannot read properties of undefined (reading 'outputs')"))
  | some coinbase => do
    let (_, utxoSet) ←
      (applyTransaction opts.signatures utxoSet coinbase 0).mapError .error
    let work ← blockWork opts opts.genesis.header
    pure (openNode opts (emptyChain.batch (genesisOps opts))
      (Store.empty.set opts.genesis.hash (some ⟨opts.genesis.header, work⟩)) utxoSet.store)

/-- `start` with the database that a node of the same configuration left. -/
def restart (w : World) : World := openNode opts w.chain w.headers w.utxoSet.store

end Start

/-! ## Events -/

/-- A node, with the templates that its miner works on. -/
structure Session extends World where
  templates : List Template

inductive Event
  | message (message : Message) (fromNodeId : Text)
  | peerConnected (peerId : Text)
  | submitTransaction (tx : Transaction)
  | buildBlockTemplate
  /-- The miner found a seal: a nonce, or a signature with the key. -/
  | mined (template : Template) (nonce : ℕ) (key : KeyPair)
  | restart

section Step

variable (opts : NodeOptions)

/-- The state that a program leaves, whether it returns or throws. -/
def Session.run {α : Type} (s : Session) (m : NodeM α) : Session :=
  { s with toWorld := (m.exec s.toWorld).2 }

/-- What an event does. A template only the miner of this node has is sealed. -/
def step (s : Session) (env : Env) : Event → Session
  | .message message fromNodeId => s.run (handleMessage opts env message fromNodeId)
  | .peerConnected peerId => s.run (requestHeadersFrom opts peerId none)
  | .submitTransaction tx => s.run (submitTransaction opts tx)
  | .buildBlockTemplate =>
    match buildBlockTemplate opts env s.toWorld with
    | .ok template => { s with templates := template :: s.templates }
    | .error _ => s
  | .mined template nonce key =>
    match sealHeader opts.signatures opts.engine nonce key template.header with
    | some header => s.run (adoptMined opts env (template.block header))
    | none => s
  | .restart => { toWorld := restart opts s.toWorld, templates := [] }

/-- The headers that an event brings to the node. -/
def Event.headers (event : Event) : List BlockHeader :=
  match event with
  | .message (.NEW_BLOCK block) _ => [block.header]
  | .message (.HEADERS headers) _ => headers
  | .mined template nonce key =>
    (sealHeader opts.signatures opts.engine nonce key template.header).toList
  | _ => []

/-- What can happen to a node: anything, but that a seal is one of a template
    that the node made. -/
def Event.Possible (s : Session) : Event → Prop
  | .mined template _ _ => template ∈ s.templates
  | _ => True

/-- The states a node can reach from an empty database, where all headers that it
    meets are of the set `H`. -/
inductive Reachable (H : Set BlockHeader) : Session → Prop
  | initial {w : World} : opts.genesis.header ∈ H → start opts = .ok w →
      Reachable H { toWorld := w, templates := [] }
  | next {s : Session} (env : Env) {event : Event} : Reachable H s → event.Possible s →
      (∀ header ∈ event.headers opts, header ∈ H) → Reachable H (step opts s env event)

variable {opts}

/-- What holds at the start and is preserved by every event holds always. -/
theorem Reachable.invariant {H : Set BlockHeader} {P : Session → Prop}
    (hstart : ∀ w, opts.genesis.header ∈ H → start opts = .ok w →
      P { toWorld := w, templates := [] })
    (hstep : ∀ s env event, P s → event.Possible s → (∀ header ∈ event.headers opts, header ∈ H) →
      P (step opts s env event)) {s : Session} (h : Reachable opts H s) : P s := by
  induction h with
  | initial hg hw => exact hstart _ hg hw
  | next env _ hp hH ih => exact hstep _ env _ ih hp hH

/-- A template is made and sealed at once. -/
def mineOnce (opts : NodeOptions) (env : Env) (nonce : ℕ) (key : KeyPair) (s : Session) : Session :=
  let s := step opts s env .buildBlockTemplate
  match s.templates with
  | [] => s
  | template :: _ => step opts s env (.mined template nonce key)

theorem Reachable.mineOnce {H : Set BlockHeader} {env : Env} {nonce : ℕ} {key : KeyPair}
    {s : Session} (h : Reachable opts H s)
    (hH : ∀ template ∈ (step opts s env .buildBlockTemplate).templates.head?,
      ∀ header ∈ (Event.mined template nonce key).headers opts, header ∈ H) :
    Reachable opts H (mineOnce opts env nonce key s) := by
  have hbuilt : Reachable opts H (step opts s env .buildBlockTemplate) :=
    .next env h trivial (by simp [Event.headers])
  unfold Plainchain.mineOnce
  dsimp only
  split
  · exact hbuilt
  · next template templates heq =>
    refine .next env hbuilt ?_ (hH template ?_)
    · simp [Event.Possible, heq]
    · simp [heq]

variable (opts)

/-- The states a node can reach by events that all meet the condition `P`. -/
inductive ReachableWhere (H : Set BlockHeader) (P : Session → Env → Event → Prop) : Session → Prop
  | initial {w : World} : opts.genesis.header ∈ H → start opts = .ok w →
      ReachableWhere H P { toWorld := w, templates := [] }
  | next {s : Session} {env : Env} {event : Event} : ReachableWhere H P s → event.Possible s →
      (∀ header ∈ event.headers opts, header ∈ H) → P s env event →
      ReachableWhere H P (step opts s env event)

variable {opts}

theorem ReachableWhere.reachable {H : Set BlockHeader} {P : Session → Env → Event → Prop}
    {s : Session} (h : ReachableWhere opts H P s) : Reachable opts H s := by
  induction h with
  | initial hg hw => exact .initial hg hw
  | next _ hp hH _ ih => exact .next _ ih hp hH

end Step

/-! ## A node -/

/-- A node of the sample chain, which any hash extends. -/
def sampleOptions : NodeOptions where
  signatures := noSignatures
  genesisConfig := sampleConfig
  genesis := sampleGenesis
  genesis_eq := createGenesisBlock_sample
  engine := .pow
  retarget := { targetBlockTimeMs := 1000, difficultyRetargetInterval := 1000,
                maxDifficultyAdjustmentFactor := 4 }
  maxFutureDriftMs := 0
  maxBlockBytes := none
  maxTransactionsPerBlock := none
  coinbaseMaturity := 0
  checkpoints := .empty
  policy := samplePolicy
  mempool := { maxSize := none, minFee := 1, maxReplacements := 100 }
  addressIndexEnabled := false
  addressIndexDepth := 0
  minerAddress := lit "m"
  maxBlocksPerResponse := 16
  maxHeadersPerResponse := 16

/-- A quiet moment, some time after the sample genesis. -/
def sampleEnv : Env := { now := 100, fails := fun _ => false }

/-- The state in which `start` leaves a node, if it does. -/
def started (opts : NodeOptions) : World :=
  (start opts).toOption.getD (openNode opts emptyChain .empty .empty)

theorem start_eq_started {opts : NodeOptions} (h : (start opts).toOption.isSome) :
    start opts = .ok (started opts) := by
  unfold started
  cases hs : start opts with
  | error e => simp [hs, Except.toOption] at h
  | ok w => rfl

/-- A first block. -/
def firstBlock : Block := sampleBlock sampleGenesis (sampleCoinbase 50 0)

def sampleHeaders : Set BlockHeader := {sampleGenesis.header, firstBlock.header}

/-- A node that is sent a first block. -/
def sampleRun : Session :=
  step sampleOptions { toWorld := started sampleOptions, templates := [] } sampleEnv
    (.message (.NEW_BLOCK firstBlock) (lit "p"))

/-- The node starts, the hashes of the two blocks differ, and the first block is
    adopted. -/
theorem reads_sampleRun : (start sampleOptions).toOption.isSome ∧
    computeBlockHash sampleGenesis.header ≠ computeBlockHash firstBlock.header ∧
    sampleRun.chain.tip = some ⟨firstBlock.hash, 1⟩ := by
  decide +kernel

theorem start_sample : start sampleOptions = .ok (started sampleOptions) :=
  start_eq_started reads_sampleRun.1

theorem injOn_sampleHeaders : Set.InjOn computeBlockHash sampleHeaders :=
  Set.injOn_pair.2 fun h => absurd h reads_sampleRun.2.1

theorem reachable_sampleRun : Reachable sampleOptions sampleHeaders sampleRun := by
  refine .next sampleEnv (.initial (.inl rfl) start_sample) trivial fun header hheader => ?_
  cases List.mem_singleton.1 hheader
  exact .inr rfl

theorem tip_sampleRun : sampleRun.chain.tip = some ⟨firstBlock.hash, 1⟩ := reads_sampleRun.2.2

/-! ## A chain with spends -/

/-- The genesis of the chain whose coins are those of the holder of the key `k`. -/
def paidGenesis : Block :=
  let header := { sampleGenesis.header with merkleRoot := paidCoinbase.id }
  { header, transactions := [paidCoinbase], hash := computeBlockHash header }

theorem createGenesisBlock_paid : createGenesisBlock paidConfig = .ok paidGenesis := rfl

def paidOptions : NodeOptions :=
  { sampleOptions with
    signatures := anySignatures, genesisConfig := paidConfig, genesis := paidGenesis,
    genesis_eq := createGenesisBlock_paid }

end Plainchain
