import Plainchain.MerkleTree
import Plainchain.Wallet.Spv

/-!
# The wallet's light-client commands

`src/cli/wallet.ts`, the command `verify`, with `verifyInclusion` of
`src/wallet/spv.ts` and the header store of `src/wallet/headerStore.ts`. A
command runs against a node that may answer anything: `RpcNode` gives the reply to
each request, numbered from the start of the session, and a reply is a value of
no known shape.

* `checkProof_returns`: what a proof that passes has been checked for;
* `verify_requested_iff`: when what was checked is about the transaction that was
  asked for.
-/

namespace Plainchain.Cli

open Js Prog

/-- The replies of a node: the result of a call, or what the client throws. -/
abbrev RpcNode :=
  (request : ℕ) → (method : Text) → (params : List Value) → Except WalletError Value

/-- What is at the path of the header store. -/
inductive HeaderFile
  | missing
  /-- Unreadable, or of another format. -/
  | unusable (reason : Text)
  | holding (headers : List ChainHeader)

/-- What a command touches in the outside world. -/
structure Console where
  requests : ℕ
  stdout : List Text
  stderr : List Text
  headers : HeaderFile

section Commands

variable (S : SignatureScheme) (node : RpcNode)

def call (method : Text) (params : List Value) : Prog Console WalletError Value :=
  .of fun c => (node c.requests method params, { c with requests := c.requests + 1 })

def stdout (line : Text) : Prog Console WalletError Unit :=
  .writes fun c => { c with stdout := c.stdout ++ [line] }

def stderr (line : Text) : Prog Console WalletError Unit :=
  .writes fun c => { c with stderr := c.stderr ++ [line] }

/-- What throws a plain error. -/
def orError {α : Type} (x : Except Text α) : Prog Console WalletError α :=
  .lift (x.mapError .error)

/-- The headers of the store, if they pass from the trusted genesis on, and why
    they were ignored otherwise. The clock is not consulted: it was when the
    headers were first accepted. -/
def loadVerifiedHeaders (path : Text) (params : SpvParams) (file : HeaderFile) :
    Except Text (List ChainHeader × Option Text) :=
  match file with
  | .missing => .ok ([], none)
  | .unusable reason => .ok ([], some reason)
  | .holding headers =>
    match verifyHeaderChain S { params with now := 2 ^ 53 - 1 } headers with
    | .ok _ => .ok (headers, none)
    | .error (.invalid reason) => .ok ([], some (path ++ lit " failed verification (" ++ reason
        ++ lit "); re-syncing from genesis"))
    | .error (.thrown message) => .error message

/-- What the client asks a node for headers. -/
def getHeaders (fromHeight count : ℕ) : Prog Console WalletError Value :=
  call node (lit "getHeaders") [.num (.ofNat fromHeight), .num (.ofNat count)]

/-- An invalid chain is a failed verification; other errors pass. -/
def ofSync : WalletError → WalletError
  | .headerSync message => .spv message
  | e => e

/-- Loads the header store, checks that the node is on our genesis, syncs only
    what is new, and persists the result. -/
def syncVerifiedHeaders (path : Text) (spvParams : Except Text SpvParams) (fuel : ℕ) :
    Prog Console WalletError SyncResult := do
  let params ← orError spvParams
  let info ← call node (lit "getInfo") []
  let reported ← orError (info.read (lit "genesisHash"))
  if ¬reported.isText params.genesisHash then do
    let reported ← orError reported.interpolate
    throw (.spv (lit "node reports genesis " ++ reported ++ lit ", but the trusted genesis is "
      ++ params.genesisHash))
  let file ← Prog.reads Console.headers
  let (stored, discarded) ← orError (loadVerifiedHeaders S path params file)
  if let some reason := discarded then stderr (lit "warning: " ++ reason)
  let synced ← tryCatch (syncHeaders S (.parsed (getHeaders node)) params stored 2000 fuel)
    fun e => throw (ofSync e)
  if 0 < synced.fetched ∨ 0 < synced.discarded then
    Prog.writes fun c => { c with headers := .holding synced.chain }
  pure synced

/-- What was downloaded, kept and refused, in words. -/
def describeSync (synced : SyncResult) (mode : Option ConsensusMode) : Text :=
  let parts := [decimal synced.chain.length ++ lit " headers",
      decimal synced.fetched ++ lit " downloaded",
      decimal (synced.chain.length - synced.fetched) ++ lit " from local store"]
    ++ (if 0 < synced.discarded then
        [lit "reorg: " ++ decimal synced.discarded ++ lit " stored header"
          ++ (if synced.discarded = 1 then [] else lit "s") ++ lit " abandoned for a heavier chain"]
      else [])
    ++ synced.rejectedFork.toList
  (parts.tail.foldl (fun t part => t ++ lit ", " ++ part) (parts.headD []))
    ++ lit "; " ++ (if mode = some .poa then lit "authority signatures and turns"
      else lit "proof-of-work and retargets") ++ lit " checked"

/-- Checks an inclusion proof against a header the client has verified. The root
    that counts is the one in the header. -/
def verifyInclusion (proof : Value) (header : ChainHeader) : Verdict := do
  let blockHash := proof.get (lit "blockHash")
  let blockHeight := proof.get (lit "blockHeight")
  if ¬blockHash.isText header.hash then do
    .error (.invalid (lit "proof is for block " ++ (← attempt blockHash.interpolate) ++ lit ", not "
      ++ header.hash))
  else if ¬blockHeight.isNumber (.ofNat header.header.height) then do
    .error (.invalid (lit "proof height " ++ (← attempt blockHeight.interpolate)
      ++ lit " does not match header height " ++ decimal header.header.height))
  else do
    let folds ← attempt (verifyMerkleProof (proof.get (lit "txId")) (proof.get (lit "siblings"))
      header.header.merkleRoot)
    refuse (¬folds) (lit "merkle proof does not reproduce the header's merkle root")

/-- `chain[key]` for a key of any type. A name that every array has stands for no
    header either: the command fails on it a little later. -/
def headerAt (chain : List ChainHeader) (key : Text) : Option ChainHeader :=
  ((List.range chain.length).find? fun i => decimal i = key).bind fun i => chain[i]?

/-- The number of siblings of an accepted proof. -/
def lengthOf : Value → ℕ
  | .arr vs => vs.length
  | .str t => t.length
  | _ => 0

/-- The line that reports where a transaction is. -/
def confirmedLine (blockHash : Text) (height : ℕ) (index : Text) : Text :=
  lit "confirmed in block " ++ blockHash ++ lit " at height " ++ decimal height ++ lit " (index "
    ++ index ++ lit ")"

/-- The report of a `verify` that succeeds. -/
def report (txId : Text) (proof : Value) (synced : SyncResult) (mode : Option ConsensusMode)
    (header : ChainHeader) : Prog Console WalletError Unit := do
  let height := header.header.height
  stdout (lit "transaction " ++ txId)
  let index ← orError (proof.get (lit "index")).interpolate
  stdout (confirmedLine header.hash height index)
  stdout (lit "confirmations: " ++ decimalInt ((synced.tipHeight : ℤ) - height + 1))
  stdout (lit "header chain valid from trusted genesis: " ++ describeSync synced mode)
  stdout (lit "inclusion proof valid: " ++ decimal (lengthOf (proof.get (lit "siblings")))
    ++ lit " sibling hashes fold to the header's merkle root")

/-- The error of a proof that does not pass. -/
def ofInclusion : Objection → WalletError
  | .invalid reason => .spv (lit "inclusion proof invalid: " ++ reason)
  | .thrown message => .error message

/-- The checks of `verify` on a proof, against the synced chain. -/
def checkProof (proof : Value) (synced : SyncResult) : Prog Console WalletError ChainHeader := do
  let blockHeight ← orError (proof.read (lit "blockHeight"))
  let key ← orError blockHeight.interpolate
  match headerAt synced.chain key with
  | none => throw (.spv (lit "proof refers to height " ++ key
      ++ lit ", beyond the verified chain tip " ++ decimal synced.tipHeight))
  | some header => do
    Prog.lift (reject
      (synced.rejectedFork.isSome ∧ ¬(proof.get (lit "blockHash")).isText header.hash)
      (.spv (synced.rejectedFork.getD []
        ++ lit "; the transaction's block is not on the verified chain")))
    Prog.lift ((verifyInclusion proof header).mapError ofInclusion)
    pure header

/-- The command `verify --tx`. -/
def verify (path : Text) (spvParams : Except Text SpvParams) (fuel : ℕ) (tx : Option Text) :
    Prog Console WalletError Unit := do
  match tx with
  | some txId =>
    if hexOf 64 txId then do
      let proof ← call node (lit "getMerkleProof") [.str txId]
      let synced ← syncVerifiedHeaders S node path spvParams fuel
      let header ← checkProof proof synced
      let params ← orError spvParams
      report txId proof synced params.consensus.mode header
    else throw (.usage (lit "--tx <txId> (64 hex characters) is required"))
  | none => throw (.usage (lit "--tx <txId> (64 hex characters) is required"))

end Commands

/-- The line on `stderr` for what ended a command. -/
def errorLine : WalletError → Text
  | .usage message => lit "error: " ++ message
  | .spv message => lit "error: verification failed: " ++ message
  | .rpc code message =>
    lit "error: node rejected the request (" ++ decimalInt code ++ lit "): " ++ message
  | .headerSync message => lit "error: " ++ message
  | .transport message => lit "error: " ++ message
  | .error message => lit "error: " ++ message
  | .unfinished => []

/-- Runs a command: the exit code of the process, `none` while it is still
    asking for pages, and what it leaves. -/
def runWalletCli (command : Prog Console WalletError Unit) (c : Console) : Option ℕ × Console :=
  match command.exec c with
  | (.ok (), c) => (some 0, c)
  | (.error .unfinished, c) => (none, c)
  | (.error (.usage message), c) =>
    (some 2, { c with stderr := c.stderr ++ [errorLine (.usage message)] })
  | (.error e, c) => (some 1, { c with stderr := c.stderr ++ [errorLine e] })

/-! ## What a successful run has checked -/

section Checked

variable {S : SignatureScheme} {node : RpcNode} {path txId : Text}
  {spvParams : Except Text SpvParams} {fuel : ℕ} {c c' : Console}

@[simp] theorem orError_returns {α : Type} {x : Except Text α} {a : α} :
    (orError x).exec c = (.ok a, c') ↔ x = .ok a ∧ c' = c := by
  rw [orError, exec_lift, Prod.mk.injEq, mapError_eq_ok, eq_comm (a := c)]

variable {header : ChainHeader} {proof : Value}

theorem headerAt_eq_some {chain : List ChainHeader} {key : Text}
    (h : headerAt chain key = some header) : ∃ i, decimal i = key ∧ chain[i]? = some header := by
  obtain ⟨i, hi, hget⟩ := Option.bind_eq_some_iff.1 h
  exact ⟨i, by simpa using List.find?_some hi, hget⟩

theorem verifyInclusion_eq_ok :
    verifyInclusion proof header = .ok () ↔
      proof.get (lit "blockHash") = .str header.hash ∧
      proof.get (lit "blockHeight") = .num (.ofNat header.header.height) ∧
      verifyMerkleProof (proof.get (lit "txId")) (proof.get (lit "siblings"))
        header.header.merkleRoot = .ok true := by
  simp only [verifyInclusion, Value.isText_iff, Value.isNumber_iff]
  by_cases hhash : proof.get (lit "blockHash") = .str header.hash
  · by_cases hheight : proof.get (lit "blockHeight") = .num (.ofNat header.header.height)
    · simp [hhash, hheight, bind_eq_ok]
    · simp [hhash, hheight, bind_eq_ok]
  · simp [hhash, bind_eq_ok]

/-- What the checks on a proof establish. -/
theorem checkProof_returns {synced : SyncResult}
    (h : (checkProof proof synced).exec c = (.ok header, c')) :
    c' = c ∧ verifyInclusion proof header = .ok () ∧
      synced.chain[header.header.height]? = some header := by
  simp only [checkProof, bind_returns, orError_returns] at h
  obtain ⟨field, _, ⟨hfield, rfl⟩, key, _, ⟨hkey, rfl⟩, h⟩ := h
  cases hat : headerAt synced.chain key with
  | none => simp [hat] at h
  | some found =>
    simp only [hat, bind_returns, exec_lift, Prod.mk.injEq, mapError_eq_ok,
      exec_pure, Except.ok.injEq] at h
    obtain ⟨_, _, ⟨-, rfl⟩, _, _, ⟨hv, rfl⟩, rfl, rfl⟩ := h
    refine ⟨rfl, hv, ?_⟩
    -- The key is the text of the height, so the header sits at its height.
    obtain ⟨i, hi, hget⟩ := headerAt_eq_some hat
    obtain ⟨-, hheight, -⟩ := verifyInclusion_eq_ok.1 hv
    have hkey' : decimal found.header.height = key := by
      have hfield' : field = .num (.ofNat found.header.height) := by
        rw [← hheight]
        cases proof <;> simp_all [Value.read]
      subst hfield'
      simpa [Value.interpolate, Value.toText] using hkey
    rwa [decimal_injective (hi.trans hkey'.symm)] at hget

/-- The report names the transaction, the block and its height. -/
theorem report_returns {synced : SyncResult} {mode : Option ConsensusMode}
    (h : (report txId proof synced mode header).exec c = (.ok (), c')) :
    lit "transaction " ++ txId ∈ c'.stdout ∧
      ∃ index, confirmedLine header.hash header.header.height index ∈ c'.stdout := by
  simp only [report, stdout, bind_returns, orError_returns, exec_writes,
    Prod.mk.injEq] at h
  obtain ⟨_, _, ⟨-, rfl⟩, index, _, ⟨-, rfl⟩, _, _, ⟨-, rfl⟩, _, _, ⟨-, rfl⟩, _, _, ⟨-, rfl⟩, -,
    rfl⟩ := h
  exact ⟨by simp, index, by simp⟩

theorem runWalletCli_zero {command : Prog Console WalletError Unit}
    (h : runWalletCli command c = (some 0, c')) : command.exec c = (.ok (), c') := by
  unfold runWalletCli at h
  split at h <;> simp_all

end Checked

/-- **What `verify` confirms.** Exit code 0 reports a header of the synced chain
    and its height. Without collisions, the transaction that was asked for folds
    to the root of that header exactly when the proof the node sent says it is
    for that transaction, which the command does not check. -/
theorem verify_requested_iff {S : SignatureScheme} {node : RpcNode} {path txId : Text}
    {spvParams : Except Text SpvParams} {fuel : ℕ} {c c' : Console}
    (h : runWalletCli (verify S node path spvParams fuel (some txId)) c = (some 0, c')) :
    ∃ proof c₁ synced c₂, ∃ (header : ChainHeader) (index : Text),
      (call node (lit "getMerkleProof") [.str txId]).exec c = (.ok proof, c₁) ∧
      (syncVerifiedHeaders S node path spvParams fuel).exec c₁ = (.ok synced, c₂) ∧
      synced.chain[header.header.height]? = some header ∧
      lit "transaction " ++ txId ∈ c'.stdout ∧
      confirmedLine header.hash header.header.height index ∈ c'.stdout ∧
      (NoCollision (proofTexts (.str txId) (proof.get (lit "siblings")) ∪
          proofTexts (proof.get (lit "txId")) (proof.get (lit "siblings"))) →
        (verifyMerkleProof (.str txId) (proof.get (lit "siblings")) header.header.merkleRoot =
            .ok true ↔
          (proof.get (lit "txId")).toText = some txId)) := by
  have hrun := runWalletCli_zero h
  simp only [verify] at hrun
  split at hrun
  case isFalse => simp at hrun
  -- The proof the node sent is one for a header of the synced chain, at the height it reports.
  simp only [bind_returns, orError_returns] at hrun
  obtain ⟨proof, c₁, hproof, synced, c₂, hsynced, header, c₃, hcheck, params, _, ⟨-, rfl⟩, hrun⟩ := hrun
  obtain ⟨-, hinc, hat⟩ := checkProof_returns hcheck
  obtain ⟨htx, index, hline⟩ := report_returns hrun
  refine ⟨proof, c₁, synced, c₂, header, index, hproof, hsynced, hat, htx, hline, fun hcoll => ?_⟩
  obtain ⟨-, -, hfolds⟩ := verifyInclusion_eq_ok.1 hinc
  constructor
  · intro hrequested
    exact (verifyMerkleProof_inj hcoll hrequested hfolds).symm
  · intro htext
    exact verifyMerkleProof_str hfolds htext

/-- A node whose chain is the trusted genesis alone. It answers every
    `getMerkleProof` with the proof of the one leaf there is. -/
def genesisNode : RpcNode := fun request _ _ =>
  match request with
  | 0 => .ok (.obj [(lit "txId", .str ZERO_HASH), (lit "blockHash", .str trustedParams.genesisHash),
      (lit "blockHeight", .num (.ofNat 0)), (lit "index", .num (.ofNat 0)),
      (lit "siblings", .arr [])])
  | 1 => .ok (.obj [(lit "genesisHash", .str trustedParams.genesisHash)])
  | _ => .ok (.arr [chainHeaderValue ⟨trustedParams.genesisHash, trustedGenesis⟩])

/-- A session that starts with nothing stored. -/
def firstSession : Console := ⟨0, [], [], .missing⟩

/-- The session after the proof was sent. -/
def proofSession : Console := ⟨1, [], [], .missing⟩

/-- The root over two leaves. -/
def pairRoot : Text := sha256 (ZERO_HASH ++ easiestTarget)

/-- A chain of two headers, the second with two leaves. -/
def pairChain : List ChainHeader :=
  [⟨easyParams.genesisHash, easyGenesis⟩,
    ChainHeader.successor ⟨easyParams.genesisHash, easyGenesis⟩ ({ · with merkleRoot := pairRoot })]

/-- The sibling of the first leaf. -/
def pairSiblings : Value := .arr [Sibling.toValue ⟨easiestTarget, true⟩]

/-- A node with that chain, which proves the first leaf. -/
def pairNode : RpcNode := fun request _ _ =>
  match request with
  | 0 => .ok (.obj [(lit "txId", .str ZERO_HASH),
      (lit "blockHash", .str ((pairChain.map (·.hash)).getLastD [])),
      (lit "blockHeight", .num (.ofNat 1)), (lit "index", .num (.ofNat 0)),
      (lit "siblings", pairSiblings)])
  | 1 => .ok (.obj [(lit "genesisHash", .str easyParams.genesisHash)])
  | _ => .ok (.arr (pairChain.map chainHeaderValue))

/-- Asked for that leaf, `verify` confirms it, at height `1`. -/
theorem verify_requested_leaf : ∃ synced c, ∃ header : ChainHeader,
    (syncVerifiedHeaders noSignatures pairNode [] (.ok easyParams) 1).exec proofSession =
      (.ok synced, c) ∧
    synced.chain[header.header.height]? = some header ∧
    verifyMerkleProof (.str ZERO_HASH) pairSiblings header.header.merkleRoot = .ok true := by
  have hrun : (runWalletCli (verify noSignatures pairNode [] (.ok easyParams) 1
      (some ZERO_HASH)) firstSession).1 = some 0 := by decide +kernel
  obtain ⟨proof, c₁, synced, c₂, header, index, hproof, hsynced, hat, -, -, hiff⟩ :=
    verify_requested_iff (Prod.ext hrun rfl)
  simp only [call, pairNode, firstSession, exec_of, Prod.mk.injEq, Except.ok.injEq] at hproof
  obtain ⟨rfl, rfl⟩ := hproof
  -- One text is hashed on the way from the leaf to the root.
  have htexts : ∀ t ∈ foldTexts ZERO_HASH [Sibling.toValue ⟨easiestTarget, true⟩],
      t = ZERO_HASH ++ easiestTarget := by decide +kernel
  have hproofs : ∀ t ∈ proofTexts (.str ZERO_HASH) pairSiblings, t = ZERO_HASH ++ easiestTarget := by
    rintro t ⟨_, _, ⟨⟩, ⟨⟩, ht⟩
    exact htexts t ht
  have hcoll : NoCollision (proofTexts (.str ZERO_HASH) pairSiblings ∪
      proofTexts (.str ZERO_HASH) pairSiblings) := by
    rw [Set.union_self]
    intro t ht t' ht' _
    rw [hproofs t ht, hproofs t' ht']
  exact ⟨synced, c₂, header, hsynced, hat, (hiff hcoll).2 rfl⟩

/-- Asked for a transaction there is not, it confirms that too. -/
theorem verify_confirms_other :
    (runWalletCli (verify noSignatures genesisNode [] (.ok trustedParams) 1 (some easiestTarget))
      firstSession).1 = some 0 ∧
    ((syncVerifiedHeaders noSignatures genesisNode [] (.ok trustedParams) 1).exec
      proofSession).1.toOption.map (·.chain) =
        some [⟨trustedParams.genesisHash, trustedGenesis⟩] ∧
    verifyMerkleProof (.str easiestTarget) (.arr []) trustedGenesis.merkleRoot = .ok false := by
  refine ⟨?_, ?_, ?_⟩ <;> decide +kernel

end Plainchain.Cli
