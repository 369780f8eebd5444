import Plainchain.Consensus.BlockValidator
import Plainchain.Lib.Prog
import Plainchain.Wallet.HeaderChain

/-!
# Light clients

`src/wallet/spv.ts`: a client that holds headers only. It checks a chain of
headers from a genesis hash it trusts, and brings a chain it has verified up to
date with a node that it does not trust.

A node is a `HeaderSource`: any program that answers `getHeaders`, with a state
of its own, so that its answers may depend on everything it was asked before.
The pages of a download may never end: `fuel` bounds how many are asked for, and
a run that needs more is `WalletError.unfinished`.

* `verifyHeaderChain_eq_ok`: what a valid chain satisfies, header by header;
* `verifyHeaderChain_rooted_iff`: when a valid chain hangs from the genesis
  header that the trusted hash is the hash of.
-/

namespace Plainchain

open Js Prog List

/-- What a light client knows of the rules. -/
structure SpvConsensus extends RetargetRules, EngineRules where
  maxFutureDriftMs : ℕ

structure SpvParams where
  /-- Root of trust: the client's own knowledge of the chain's genesis. -/
  genesisHash : Text
  consensus : SpvConsensus
  /-- The clock. -/
  now : ℕ

/-! ## Verification -/

/-- Cumulative weight of a header chain under the sealing rules. -/
def chainWork (engine : ConsensusEngine) (chain : List ChainHeader) : Except Text ℕ :=
  sumWork (fun c => engine.blockWork c.header) chain

/-- Signers of the headers before position `i`, newest first, as far back as the
    turn rule looks. -/
def recentSigners (engine : ConsensusEngine) (chain : List ChainHeader) (i : ℕ) : List Text :=
  signersBefore (·.header.signer) engine chain i

structure HeaderChainResult where
  tipHeight : ℕ
  totalWork : ℕ
  deriving DecidableEq

section Verify

variable (params : SpvParams) (engine : ConsensusEngine) (chain : List ChainHeader)

/-- What a header after `parent`, at position `i`, is judged by. -/
def headerContext (parent : ChainHeader) (expectedTarget : Text) (i : ℕ) :
    HeaderValidationContext :=
  { parent, expectedTarget, now := params.now,
    maxFutureDriftMs := params.consensus.maxFutureDriftMs, checkpoint := none,
    engine := some engine, recentSigners := some (recentSigners engine chain i) }

/-- What a light client asks of the headers that a node serves. -/
def SpvParams.rules : HeaderRules ChainHeader BlockHeader HeaderChainResult where
  engineRules := params.consensus.toEngineRules
  genesisHash := params.genesisHash
  hash := (·.hash)
  header := (·.header)
  heightText header := decimal header.height
  isGenesis header := header.height = 0
  difficultyTarget := (·.difficultyTarget)
  retargetsAt header := params.consensus.difficultyRetargetInterval ≠ 0 ∧
    header.height % params.consensus.difficultyRetargetInterval = 0
  -- `chain[k]` is the header at height `k`: the chain starts at genesis.
  windowStart header :=
    some (retargetWindow header.height params.consensus.difficultyRetargetInterval)
  nextTarget parent periodStart := nextTarget parent periodStart params.consensus.toRetargetRules
  validateHeader S engine chain c parent expectedTarget i :=
    validateHeader S c.header c.hash (headerContext params engine chain parent expectedTarget i)
  blockWork engine := engine.blockWork
  result tip totalWork := { tipHeight := (tip.map (·.header.height)).getD 0, totalWork }

/-- The target a header has to have, given its parent and the chain. -/
def requiredTarget (header parent : BlockHeader) : Except Objection Text :=
  params.rules.requiredTarget engine chain header parent

/-- One round of the loop of `verifyFrom`: the header at position `i`. -/
def verifyAt (S : SignatureScheme) (i : ℕ) : Verdict := params.rules.verifyAt S engine chain i

end Verify

section Verify

variable (S : SignatureScheme) (params : SpvParams) (chain : List ChainHeader)

/-- Validates the headers from position `start` on. -/
def verifyFrom (start : ℕ) : Verdict := params.rules.verifyFrom S chain start

/-- Verifies a contiguous header chain from genesis. -/
def verifyHeaderChain : Except Objection HeaderChainResult := params.rules.verifyHeaderChain S chain

/-- Appends `additions` to an already verified `chain`, checking only the new
    headers. -/
def extendHeaderChain (additions : List ChainHeader) :
    Except Objection (List ChainHeader × HeaderChainResult) :=
  params.rules.extendHeaderChain S chain additions

end Verify

/-! ## What a valid chain satisfies -/

section Verified

variable {S : SignatureScheme} {params : SpvParams} {engine : ConsensusEngine}
  {chain : List ChainHeader}

theorem requiredTarget_eq (header parent : BlockHeader) :
    requiredTarget params engine chain header parent =
      if engine.retargets ∧ params.consensus.difficultyRetargetInterval ≠ 0 ∧
          header.height % params.consensus.difficultyRetargetInterval = 0 then
        match chain[retargetWindow header.height params.consensus.difficultyRetargetInterval]? with
        | none => .error (.invalid (lit "height " ++ decimal header.height
            ++ lit ": retarget period start missing from chain"))
        | some start => attempt (nextTarget parent start.header params.consensus.toRetargetRules)
      else .ok parent.difficultyTarget := by
  have hat : params.rules.atRetarget engine header = true ↔ engine.retargets ∧
      params.consensus.difficultyRetargetInterval ≠ 0 ∧
        header.height % params.consensus.difficultyRetargetInterval = 0 := by
    simp [HeaderRules.atRetarget, SpvParams.rules]
  have hstart : params.rules.periodStart chain header =
    chain[retargetWindow header.height params.consensus.difficultyRetargetInterval]? := rfl
  simp only [requiredTarget, HeaderRules.requiredTarget, hat, hstart]
  cases chain[retargetWindow header.height params.consensus.difficultyRetargetInterval]? <;> rfl

variable {r : HeaderChainResult} {c : ChainHeader}

/-- A round passes when the header satisfies the rules at its target. -/
theorem verifyAt_eq_ok {i : ℕ} {parent : ChainHeader} (hp : chain[i]? = some parent)
    (hc : chain[i + 1]? = some c) :
    verifyAt params engine chain S (i + 1) = .ok () ↔
      ∃ target, requiredTarget params engine chain c.header parent.header = .ok target ∧
        ValidHeader S c.header c.hash (headerContext params engine chain parent target (i + 1)) := by
  rw [verifyAt, HeaderRules.verifyAt_eq_ok, HeaderRules.ValidAt, Nat.add_sub_cancel, hp, hc]
  simp only [← validateHeader_eq_ok]
  constructor
  · intro h
    exact h c parent rfl rfl
  · rintro h _ _ ⟨⟩ ⟨⟩
    exact h

theorem verifyFrom_eq_ok {start : ℕ} :
    verifyFrom S params chain start = .ok () ↔
      ∃ engine, createEngine params.consensus.toEngineRules = .ok engine ∧
        ∀ i, start ≤ i → i < chain.length → verifyAt params engine chain S i = .ok () :=
  HeaderRules.verifyFrom_eq_ok

/-- What is said of a chain that passed. -/
theorem headerChainResult_eq_ok :
    params.rules.headerChainResult chain = .ok r ↔
      ∃ engine, createEngine params.consensus.toEngineRules = .ok engine ∧
        chainWork engine chain = .ok r.totalWork ∧
        (chain.getLast?.map (·.header.height)).getD 0 = r.tipHeight := by
  rw [HeaderRules.headerChainResult_eq_ok]
  refine exists_congr fun engine => ?_
  constructor
  · rintro ⟨work, hengine, hwork, rfl⟩
    exact ⟨hengine, hwork, rfl⟩
  · rintro ⟨hengine, hwork, htip⟩
    exact ⟨r.totalWork, hengine, hwork, congrArg (HeaderChainResult.mk · _) htip⟩

theorem verifyHeaderChain_eq_ok :
    verifyHeaderChain S params chain = .ok r ↔
      (∃ first rest, chain = first :: rest ∧ first.header.height = 0 ∧
        first.hash = params.genesisHash) ∧
      verifyFrom S params chain 1 = .ok () ∧ params.rules.headerChainResult chain = .ok r := by
  refine HeaderRules.verifyHeaderChain_eq_ok.trans (and_congr_left' ?_)
  cases chain with
  | nil => simp [HeaderRules.StartsAtGenesis]
  | cons first rest => simp [HeaderRules.StartsAtGenesis, SpvParams.rules]

/-- Every header of a valid chain after the first satisfies the rules, at the
    target its chain requires. -/
theorem verifyHeaderChain_step (h : verifyHeaderChain S params chain = .ok r)
    (hengine : createEngine params.consensus.toEngineRules = .ok engine) {i : ℕ}
    {parent : ChainHeader} (hp : chain[i]? = some parent) (hc : chain[i + 1]? = some c) :
    ∃ target, requiredTarget params engine chain c.header parent.header = .ok target ∧
      ValidHeader S c.header c.hash (headerContext params engine chain parent target (i + 1)) := by
  obtain ⟨-, hfrom, -⟩ := verifyHeaderChain_eq_ok.1 h
  obtain ⟨engine', hengine', hround⟩ := verifyFrom_eq_ok.1 hfrom
  cases hengine.symm.trans hengine'
  have hlt : i + 1 < chain.length := (List.getElem?_eq_some_iff.1 hc).1
  exact (verifyAt_eq_ok hp hc).1 (hround (i + 1) (by omega) hlt)

/-- All the hashes after the first are checked. -/
theorem hash_eq_of_verifyHeaderChain (h : verifyHeaderChain S params chain = .ok r)
    (hc : c ∈ chain.tail) : computeBlockHash c.header = c.hash := by
  obtain ⟨⟨first, rest, rfl, -, -⟩, hfrom, -⟩ := verifyHeaderChain_eq_ok.1 h
  obtain ⟨engine, hengine, -⟩ := verifyFrom_eq_ok.1 hfrom
  obtain ⟨i, hi, rfl⟩ := getElem_of_mem hc
  have hlt : i < (first :: rest).length := by
    simp only [tail_cons, length_cons] at hi ⊢
    omega
  obtain ⟨target, -, hvalid⟩ := verifyHeaderChain_step h hengine
    (getElem?_eq_getElem hlt) (getElem?_eq_getElem (l := rest) hi)
  exact hvalid.hash_eq

end Verified

/-! ## Synchronisation -/

/-- What ends a command of the wallet early. -/
inductive WalletError
  | usage (message : Text)
  /-- The chain or proof the node served did not verify. -/
  | spv (message : Text)
  /-- The node served headers that fail verification; nothing was accepted. -/
  | headerSync (message : Text)
  /-- The node answered with an error. -/
  | rpc (code : ℤ) (message : Text)
  /-- The node could not be reached, or did not speak JSON-RPC. -/
  | transport (message : Text)
  | error (message : Text)
  /-- No end: the pages of the node go on beyond the bound of the run. -/
  | unfinished
  deriving DecidableEq

/-- Where headers come from: `getHeaders(fromHeight, count)`. -/
abbrev HeaderSource (σ : Type) := (fromHeight count : ℕ) → Prog σ WalletError (List ChainHeader)

/-- The source behind replies of no known shape: a reply has to be an array, and
    every element is parsed. -/
def HeaderSource.parsed {σ : Type} (replies : (fromHeight count : ℕ) → Prog σ WalletError Value) :
    HeaderSource σ := fun fromHeight count => do
  match ← replies fromHeight count with
  | .arr vs =>
    Prog.lift ((mapIdxFrom (fun i v => parseWireChainHeader v (elementPath (lit "headers") i)) 0 vs).mapError
      .error)
  | _ => throw (.error (lit "map is not a function"))

structure SyncResult where
  /-- The verified chain after sync (the stored one if nothing changed). -/
  chain : List ChainHeader
  fetched : ℕ
  discarded : ℕ
  /-- Highest height at which the stored chain and the node agree; none when
      nothing was stored. -/
  forkHeight : Option ℕ
  totalWork : ℕ
  tipHeight : ℕ
  /-- Set when the node offered a fork that was refused for having less work. -/
  rejectedFork : Option Text

section Sync

variable {σ : Type} (S : SignatureScheme) (source : HeaderSource σ) (params : SpvParams)

/-- The error of a chain that does not pass. -/
def Objection.toSync : Objection → WalletError
  | .invalid reason => .headerSync (lit "header chain invalid: " ++ reason)
  | .thrown message => .error message

/-- Pages `getHeaders` until a short page. -/
def fetchFrom (pageSize : ℕ) :
    (fuel fromHeight : ℕ) → (out : List ChainHeader) → Prog σ WalletError (List ChainHeader)
  | 0, _, _ => throw .unfinished
  | fuel + 1, fromHeight, out => do
    let page ← source fromHeight pageSize
    if page.length < pageSize then pure (out ++ page)
    else fetchFrom pageSize fuel (fromHeight + pageSize) (out ++ page)

variable (stored : List ChainHeader)

/-- Whether the node has our header at a height. -/
def agreesAt (height : ℕ) : Prog σ WalletError Bool := do
  let page ← source height 1
  pure (page.head?.map (·.hash) = stored[height]?.map (·.hash))

/-- The exponential back-off from a height of disagreement, `2 ^ k` being the
    step: the last disagreement met, and the agreement below it if any. -/
def backOff (mismatch k : ℕ) : Prog σ WalletError (ℕ × Option ℕ) :=
  if _h : 2 ^ k ≤ mismatch then do
    if ← agreesAt source stored (mismatch - 2 ^ k) then pure (mismatch, some (mismatch - 2 ^ k))
    else backOff (mismatch - 2 ^ k) (k + 1)
  else pure (mismatch, none)
termination_by mismatch
decreasing_by
  have := Nat.two_pow_pos k
  omega

/-- The binary search between an agreement and a disagreement above it. -/
def bisect (agreed mismatch : ℕ) : Prog σ WalletError ℕ :=
  if _h : 1 < mismatch - agreed then do
    if ← agreesAt source stored ((agreed + mismatch) / 2) then
      bisect ((agreed + mismatch) / 2) mismatch
    else bisect agreed ((agreed + mismatch) / 2)
  else pure agreed
termination_by mismatch - agreed

/-- The highest height both sides agree on, below a tip they do not agree on. -/
def findFork (storedTip : ℕ) : Prog σ WalletError ℕ := do
  let (mismatch, found) ← backOff source stored storedTip 0
  match found with
  | some agreed => bisect source stored agreed mismatch
  | none =>
    if ← agreesAt source stored 0 then bisect source stored 0 mismatch
    else throw (.headerSync (lit "node does not share the trusted genesis " ++ params.genesisHash))

/-- The first synchronisation: everything is downloaded and verified. -/
def syncFresh (pageSize fuel : ℕ) : Prog σ WalletError SyncResult := do
  let chain ← fetchFrom source pageSize fuel 0 []
  let result ← Prog.lift ((verifyHeaderChain S params chain).mapError Objection.toSync)
  pure { chain, fetched := chain.length, discarded := 0, forkHeight := none,
         totalWork := result.totalWork, tipHeight := result.tipHeight, rejectedFork := none }

/-- What a source offers: a height up to which it agrees with the stored chain, and
    the headers above. -/
def offer (pageSize fuel : ℕ) : Prog σ WalletError (ℕ × List ChainHeader) := do
  let storedTip := stored.length - 1
  let page ← source (storedTip + 1) pageSize
  let atTip ← match page with
    | next :: _ => pure (some next.header.previousHash = stored[storedTip]?.map (·.hash) : Bool)
    | [] => agreesAt source stored storedTip
  if atTip then pure (storedTip, page)
  else do
    let forkHeight ← findFork source params stored storedTip
    let tail ← fetchFrom source pageSize fuel (forkHeight + 1) []
    pure (forkHeight, tail)

/-- What is made of an offer. -/
def concludeSync (forkHeight : ℕ) (tail : List ChainHeader) : Except WalletError SyncResult := do
  let storedTip := stored.length - 1
  let (chain, result) ←
    (extendHeaderChain S params (stored.take (forkHeight + 1)) tail).mapError Objection.toSync
  let engine ← (createEngine params.consensus.toEngineRules).mapError .error
  let storedWork ← (chainWork engine stored).mapError .error
  if forkHeight < storedTip ∧ result.totalWork ≤ storedWork then
    pure { chain := stored, fetched := 0, discarded := 0, forkHeight := some forkHeight,
           totalWork := storedWork, tipHeight := storedTip,
           rejectedFork := some (lit "node offers a lighter fork from height "
             ++ decimal forkHeight ++ lit " (less work than the " ++ decimal stored.length
             ++ lit " headers already verified); keeping the heavier chain") }
  else
    pure { chain, fetched := tail.length, discarded := storedTip - forkHeight,
           forkHeight := some forkHeight, totalWork := result.totalWork,
           tipHeight := result.tipHeight, rejectedFork := none }

/-- Brings a stored, already verified header chain up to date with a node,
    downloading only what is new. A branch of the node replaces ours only if it
    carries strictly more work. -/
def syncHeaders (pageSize fuel : ℕ) : Prog σ WalletError SyncResult := do
  if stored = [] then syncFresh S source params pageSize fuel
  else do
    let (forkHeight, tail) ← offer source params stored pageSize fuel
    Prog.lift (concludeSync S params stored forkHeight tail)

end Sync

/-! ## The root of trust -/

/-- The texts hashed to identify a genesis header and the headers of a chain. -/
def headerTexts (genesis : BlockHeader) (chain : List ChainHeader) : Set Text :=
  {t | t = serializeHeader genesis ∨ ∃ c ∈ chain, t = serializeHeader c.header}

/-- The first header is one that the trusted hash is the hash of. -/
def GenesisHashed (params : SpvParams) (chain : List ChainHeader) : Prop :=
  ∀ first ∈ chain.head?, computeBlockHash first.header = params.genesisHash

/-- A chain that hangs from the header `genesis`: every hash is the one of its
    header, the first header is `genesis`, and the targets are those that follow
    from it. -/
structure Rooted (params : SpvParams) (genesis : BlockHeader) (chain : List ChainHeader) :
    Prop where
  hash_eq : ∀ c ∈ chain, computeBlockHash c.header = c.hash
  genesis_eq : ∀ first ∈ chain.head?, first.header = genesis
  target_eq : ∀ engine, createEngine params.consensus.toEngineRules = .ok engine →
    ∀ i parent c, (⟨params.genesisHash, genesis⟩ :: chain.tail)[i]? = some parent →
      chain[i + 1]? = some c →
      requiredTarget params engine (⟨params.genesisHash, genesis⟩ :: chain.tail) c.header
        parent.header = .ok c.header.difficultyTarget

section Root

variable {S : SignatureScheme} {params : SpvParams} {genesis : BlockHeader}
  {chain : List ChainHeader} {r : HeaderChainResult}

/-- All hashes of a valid chain are right exactly when the first one is. -/
theorem hash_eq_iff_genesisHashed (h : verifyHeaderChain S params chain = .ok r) :
    (∀ c ∈ chain, computeBlockHash c.header = c.hash) ↔ GenesisHashed params chain := by
  have htail : ∀ c ∈ chain.tail, computeBlockHash c.header = c.hash :=
    fun c hc => hash_eq_of_verifyHeaderChain h hc
  obtain ⟨⟨first, rest, rfl, -, hfirst⟩, -, -⟩ := verifyHeaderChain_eq_ok.1 h
  simp only [GenesisHashed, head?_cons, Option.mem_def, Option.some.injEq, forall_eq', ← hfirst,
    forall_mem_cons]
  exact and_iff_left htail

/-- A valid chain of wire headers hangs from `genesis` exactly when its first
    header has the hash of `genesis`. -/
theorem rooted_iff_genesisHashed (hwire : genesis.Wire)
    (hgenesis : computeBlockHash genesis = params.genesisHash)
    (h : verifyHeaderChain S params chain = .ok r) (hchain : ∀ c ∈ chain, c.header.Wire)
    (hcoll : NoCollision (headerTexts genesis chain)) :
    Rooted params genesis chain ↔ GenesisHashed params chain := by
  refine ⟨fun hr => (hash_eq_iff_genesisHashed h).1 hr.hash_eq, fun hg => ?_⟩
  have hhash := (hash_eq_iff_genesisHashed h).2 hg
  obtain ⟨⟨first, rest, rfl, -, hfirst⟩, -, -⟩ := verifyHeaderChain_eq_ok.1 h
  -- Two wire headers with one hash are the same header.
  have heq : first.header = genesis :=
    computeBlockHash_inj hcoll (hchain first mem_cons_self) hwire
      (.inr ⟨first, mem_cons_self, rfl⟩) (.inl rfl) ((hg first rfl).trans hgenesis.symm)
  obtain ⟨_, _⟩ := first
  subst heq hfirst
  refine ⟨hhash, by simp, fun engine he i parent c hp hc => ?_⟩
  obtain ⟨target, htarget, hvalid⟩ := verifyHeaderChain_step h he hp hc
  rw [tail_cons, htarget, hvalid.target_eq]
  rfl

variable {σ : Type}

/-- What a source of parsed replies returns has the wire shape. -/
theorem HeaderSource.parsed_wire {replies : (fromHeight count : ℕ) → Prog σ WalletError Value}
    {fromHeight count : ℕ} {s s' : σ} {page : List ChainHeader}
    (h : (HeaderSource.parsed replies fromHeight count).exec s = (.ok page, s')) :
    ∀ c ∈ page, c.header.Wire := by
  rw [HeaderSource.parsed, bind_returns] at h
  obtain ⟨reply, s₁, -, h⟩ := h
  cases reply with
  | arr vs =>
    rw [exec_lift, Prod.mk.injEq, mapError_eq_ok] at h
    intro c hc
    obtain ⟨j, v, -, hv⟩ := exists_of_mem_mapIdxFrom h.1 hc
    exact (parseWireChainHeader_wire hv).1
  | _ => simp at h

/-- A property of the pages is one of the download. -/
theorem fetchFrom_forall {source : HeaderSource σ} {P : ChainHeader → Prop}
    (hsource : ∀ fromHeight count s s' page,
      (source fromHeight count).exec s = (.ok page, s') → ∀ c ∈ page, P c)
    {pageSize fuel fromHeight : ℕ} {out chain : List ChainHeader} {s s' : σ}
    (hout : ∀ c ∈ out, P c)
    (h : (fetchFrom source pageSize fuel fromHeight out).exec s = (.ok chain, s')) :
    ∀ c ∈ chain, P c := by
  induction fuel generalizing fromHeight out s with
  | zero => simp [fetchFrom] at h
  | succ fuel ih =>
    rw [fetchFrom, bind_returns] at h
    obtain ⟨page, s₁, hpage, h⟩ := h
    have hboth : ∀ c ∈ out ++ page, P c :=
      forall_mem_append.2 ⟨hout, hsource _ _ _ _ _ hpage⟩
    split at h
    · cases h
      exact hboth
    · exact ih hboth h

/-- The first synchronisation returns what was downloaded, verified. -/
theorem syncFresh_returns {source : HeaderSource σ} {pageSize fuel : ℕ} {s s' : σ}
    {result : SyncResult} (h : (syncFresh S source params pageSize fuel).exec s = (.ok result, s'))
    :
    (∃ s₁, (fetchFrom source pageSize fuel 0 []).exec s = (.ok result.chain, s₁)) ∧
      ∃ r, verifyHeaderChain S params result.chain = .ok r := by
  rw [syncFresh, bind_returns] at h
  obtain ⟨chain, s₁, hfetch, h⟩ := h
  rw [bind_returns] at h
  obtain ⟨r, s₂, hverify, h⟩ := h
  cases h
  rw [exec_lift, Prod.mk.injEq, mapError_eq_ok] at hverify
  exact ⟨⟨s₁, hfetch⟩, r, hverify.1⟩

end Root

/-- **The root of trust.** The rules never look at the hash of the first header:
    a chain that passes them, or that a first synchronisation returns, hangs from
    the genesis header the client trusts exactly when its first header hashes to
    the trusted hash. -/
theorem verifyHeaderChain_rooted_iff {S : SignatureScheme} {params : SpvParams}
    {genesis : BlockHeader} (hwire : genesis.Wire)
    (hgenesis : computeBlockHash genesis = params.genesisHash) :
    (∀ chain r, verifyHeaderChain S params chain = .ok r →
      ((∀ c ∈ chain, computeBlockHash c.header = c.hash) ↔ GenesisHashed params chain)) ∧
    (∀ chain r, verifyHeaderChain S params chain = .ok r → (∀ c ∈ chain, c.header.Wire) →
      NoCollision (headerTexts genesis chain) →
      (Rooted params genesis chain ↔ GenesisHashed params chain)) ∧
    ∀ (σ : Type) (replies : (fromHeight count : ℕ) → Prog σ WalletError Value)
      (pageSize fuel : ℕ) (s s' : σ) (result : SyncResult),
      (syncHeaders S (.parsed replies) params [] pageSize fuel).exec s = (.ok result, s') →
      NoCollision (headerTexts genesis result.chain) →
      (Rooted params genesis result.chain ↔ GenesisHashed params result.chain) := by
  refine ⟨fun chain r h => hash_eq_iff_genesisHashed h,
    fun chain r h hchain hcoll => rooted_iff_genesisHashed hwire hgenesis h hchain hcoll,
    fun σ replies pageSize fuel s s' result h hcoll => ?_⟩
  rw [syncHeaders, if_pos rfl] at h
  obtain ⟨⟨s₁, hfetch⟩, r, hverify⟩ := syncFresh_returns h
  have hchain : ∀ c ∈ result.chain, c.header.Wire :=
    fetchFrom_forall (fun _ _ _ _ _ hpage => HeaderSource.parsed_wire hpage) (by simp) hfetch
  exact rooted_iff_genesisHashed hwire hgenesis hverify hchain hcoll

/-- A genesis whose target only a hash of zeros meets. -/
def trustedGenesis : BlockHeader :=
  { version := 1, previousHash := ZERO_HASH, merkleRoot := ZERO_HASH, timestamp := 1,
    difficultyTarget := ZERO_HASH, nonce := 0, height := 0, signer := none, signature := none }

def trustedParams : SpvParams :=
  { genesisHash := computeBlockHash trustedGenesis, now := 100
    consensus :=
      { targetBlockTimeMs := 1000, difficultyRetargetInterval := 10,
        maxDifficultyAdjustmentFactor := 4, mode := none, authorities := none,
        maxFutureDriftMs := 0 } }

/-- Headers with different hashes do not collide. -/
theorem noCollision_headerTexts {genesis : BlockHeader} {chain : List ChainHeader}
    (hhead : genesis ∈ chain.map (·.header))
    (h : (chain.map fun c => computeBlockHash c.header).Nodup) :
    NoCollision (headerTexts genesis chain) := by
  have hmem : ∀ t ∈ headerTexts genesis chain, ∃ c ∈ chain, t = serializeHeader c.header := by
    rintro t (rfl | ht)
    · obtain ⟨c, hc, rfl⟩ := mem_map.1 hhead
      exact ⟨c, hc, rfl⟩
    · exact ht
  intro t ht t' ht' hhash
  obtain ⟨c, hc, rfl⟩ := hmem t ht
  obtain ⟨c', hc', rfl⟩ := hmem t' ht'
  rw [inj_on_of_nodup_map h hc hc' hhash]

/-- The header after another, a millisecond later, apart from what is changed. -/
def ChainHeader.successor (parent : ChainHeader) (change : BlockHeader → BlockHeader) :
    ChainHeader :=
  let header := change
    { parent.header with
      previousHash := parent.hash
      timestamp := parent.header.timestamp + 1
      height := parent.header.height + 1 }
  ⟨computeBlockHash header, header⟩

/-- A genesis with a target that one in four hashes meets. -/
def quarterGenesis : BlockHeader :=
  { trustedGenesis with difficultyTarget := unit '4' :: List.replicate 63 (unit '0') }

def quarterParams : SpvParams :=
  { genesisHash := computeBlockHash quarterGenesis, now := 20000
    consensus := { trustedParams.consensus with difficultyRetargetInterval := 2 } }

/-- A chain of four headers: they come four times as late as is aimed at, and at height
    `2` the target is eased. -/
def lateChain : List ChainHeader :=
  let late (target : Text) (header : BlockHeader) : BlockHeader :=
    { header with timestamp := header.timestamp + 3999, difficultyTarget := target }
  let genesis : ChainHeader := ⟨quarterParams.genesisHash, quarterGenesis⟩
  let first := genesis.successor (late quarterGenesis.difficultyTarget)
  let second := first.successor (late easiestTarget)
  [genesis, first, second, second.successor (late easiestTarget)]

/-- A chain through a retarget hangs from its genesis. -/
theorem verifyHeaderChain_rooted_trusted :
    lateChain[2]?.map (·.header.difficultyTarget) ≠ some quarterGenesis.difficultyTarget ∧
    Rooted quarterParams quarterGenesis lateChain := by
  have hreads : verifyHeaderChain noSignatures quarterParams lateChain = .ok ⟨3, 8⟩ ∧
      (∀ c ∈ lateChain, parseWireChainHeader (chainHeaderValue c) (lit "header") = .ok c) ∧
      (lateChain.map fun c => computeBlockHash c.header).Nodup ∧
      lateChain[2]?.map (·.header.difficultyTarget) ≠ some quarterGenesis.difficultyTarget := by
    decide +kernel
  obtain ⟨hvalid, hparsed, hnodup, htarget⟩ := hreads
  have hwire : ∀ c ∈ lateChain, c.header.Wire := fun c hc =>
    (parseWireChainHeader_wire (hparsed c hc)).1
  have hgenesis : quarterGenesis ∈ lateChain.map (·.header) := mem_cons_self
  refine ⟨htarget, ((verifyHeaderChain_rooted_iff (hwire _ mem_cons_self) rfl).2.1 _ _ hvalid
    hwire (noCollision_headerTexts hgenesis hnodup)).2 ?_⟩
  rintro _ ⟨⟩
  rfl

/-- A genesis that is easy to build on. -/
def easyGenesis : BlockHeader := { trustedGenesis with difficultyTarget := easiestTarget }

def easyParams : SpvParams := { trustedParams with genesisHash := computeBlockHash easyGenesis }

/-- The trusted hash with another header, of the easiest target, and a header on
    top of it that nobody worked for. -/
def forgedChain : List ChainHeader :=
  let genesis : ChainHeader := ⟨trustedParams.genesisHash, easyGenesis⟩
  [genesis, genesis.successor id]

/-- A forged chain passes, and is what a first synchronisation returns. -/
theorem verifyHeaderChain_forged :
    verifyHeaderChain noSignatures trustedParams forgedChain =
      .ok { tipHeight := 1, totalWork := 2 } ∧
    ((syncHeaders noSignatures
      (.parsed fun _ _ => pure (.arr (forgedChain.map chainHeaderValue))) trustedParams [] 2000
      1).exec ()).1.toOption.map (·.chain) = some forgedChain ∧
    ¬ GenesisHashed trustedParams forgedChain ∧
    forgedChain.head?.map (·.header) ≠ some trustedGenesis := by
  have hreads : verifyHeaderChain noSignatures trustedParams forgedChain =
        .ok { tipHeight := 1, totalWork := 2 } ∧
      ((syncHeaders noSignatures
        (.parsed fun _ _ => pure (.arr (forgedChain.map chainHeaderValue))) trustedParams [] 2000
        1).exec ()).1.toOption.map (·.chain) = some forgedChain ∧
      (∀ c ∈ forgedChain.head?, computeBlockHash c.header ≠ c.hash) ∧
      forgedChain.head?.map (·.header) ≠ some trustedGenesis := by decide +kernel
  obtain ⟨hvalid, hsynced, hforged, hne⟩ := hreads
  exact ⟨hvalid, hsynced, fun h => hforged _ rfl (h _ rfl), hne⟩

end Plainchain
