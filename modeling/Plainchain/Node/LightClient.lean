import Plainchain.Node.Recovery
import Plainchain.Wallet.HeaderSync

/-!
# Headers of a node and of a light client

`handleHeaders` of `src/node/node.ts` and `verifyHeaderChain` of
`src/wallet/spv.ts` apply the same rules. The node finds what a header is judged
by on the ancestry of its parent, hash by hash, in the header index and in the
batch at hand; the client finds it in an array, by position.

A node that has indexed a chain of headers `Tracks` the array of the client. Then
both judge the next header alike (`Tracks.verifyAt_iff`), and the node tracks the
longer array if it accepts (`Tracks.index`). From a fresh node on, this gives
`light_client_agrees`.
-/

namespace Plainchain

open Js Kv Prog List

/-- A header with the hash that it has. -/
def hashed (header : BlockHeader) : ChainHeader := ⟨computeBlockHash header, header⟩

/-- A node and a light client with one configuration, which has no checkpoints. -/
structure SameConsensus (opts : NodeOptions) (params : SpvParams) : Prop where
  engine : createEngine params.consensus.toEngineRules = .ok opts.engine
  retarget : params.consensus.toRetargetRules = opts.retarget
  drift : params.consensus.maxFutureDriftMs = opts.maxFutureDriftMs
  genesis : params.genesisHash = opts.genesis.hash
  checkpoints : opts.checkpoints = .empty

/-- A node that has come to `prev` has indexed the headers of `chain`, which are in
    line, and no others. -/
structure Tracks (opts : NodeOptions) (H : Set BlockHeader) (w : World)
    (batch : OrdMap Text BlockHeader) (prev : ChainEnd) (chain : List ChainHeader) : Prop where
  last : chain.getLast? = some prev.toChainHeader
  heights : ∀ (i : ℕ) (c : ChainHeader), chain[i]? = some c → c.header.height = i
  hashes : ∀ c ∈ chain, computeBlockHash c.header = c.hash ∧ c.header ∈ H
  links : ∀ (i : ℕ) (p c : ChainHeader), chain[i]? = some p → chain[i + 1]? = some c →
    c.header.previousHash = p.hash
  indexed : ∀ c ∈ chain, (w.headers.get c.hash).map (·.header) = some c.header
  known : ∀ hash, (w.headers.get hash).isSome → ∃ c ∈ chain, c.hash = hash
  batch : ∀ hash header, batch.get hash = some header → ∃ c ∈ chain, c.hash = hash ∧ c.header = header
  work : chainWork opts.engine chain = .ok prev.work
  entry : w.headers.get prev.hash = some ⟨prev.header, prev.work⟩
  clean : w.invalidBlockHashes = ∅
  unverified : w.verifiedCheckpointHeight = -1

/-- Whoever could check the seal of a header can compute its work. -/
theorem blockWork_of_seal {S : SignatureScheme} {engine : ConsensusEngine} {header : BlockHeader}
    {hash : Text} {signers : List Text} (h : engine.verifySeal S header hash signers = .ok ()) :
    ∃ work, engine.blockWork header = .ok work := by
  cases engine with
  | pow =>
    simp only [ConsensusEngine.verifySeal, meetsTarget, bind_eq_ok, attempt_eq_ok] at h
    obtain ⟨_, ⟨_, -, target, htarget, -⟩, -⟩ := h
    exact ⟨_, by rw [ConsensusEngine.blockWork, workForTarget, htarget]; rfl⟩
  | poa authorities =>
    rw [ConsensusEngine.blockWork]
    split_ifs <;> exact ⟨_, rfl⟩

variable {headers : List BlockHeader} {i : ℕ}

theorem getElem?_concat_eq_some {α : Type} {l : List α} {a b : α} :
    (l ++ [a])[i]? = some b ↔ l[i]? = some b ∨ (i = l.length ∧ b = a) := by
  rcases Nat.lt_trichotomy i l.length with hlt | rfl | hgt
  · rw [getElem?_append_left hlt]
    simp [hlt.ne]
  · simp [eq_comm]
  · rw [getElem?_eq_none (by rw [length_append, length_singleton]; omega),
      getElem?_eq_none hgt.le]
    simp [hgt.ne']

section Tracks

variable {opts : NodeOptions} {params : SpvParams} {H : Set BlockHeader} {w : World}
  {batch : OrdMap Text BlockHeader} {prev : ChainEnd} {chain : List ChainHeader}

variable {c : ChainHeader}

namespace Tracks

/-- The node has come to the last header. -/
theorem getElem?_last (h : Tracks opts H w batch prev chain) :
    chain[prev.header.height]? = some prev.toChainHeader ∧ chain.length = prev.header.height + 1 := by
  have hlast := h.last
  rw [getLast?_eq_getElem?] at hlast
  have hpos : chain.length ≠ 0 := by
    intro h0
    rw [length_eq_zero_iff] at h0
    rw [h0] at hlast
    cases hlast
  have hheight := h.heights _ _ hlast
  rw [hheight]
  exact ⟨hlast, by omega⟩

variable (hinj : Set.InjOn computeBlockHash H) (h : Tracks opts H w batch prev chain)

include hinj h

/-- The headers of the chain are found by their hashes. -/
theorem lookupHeader_eq (hc : c ∈ chain) :
    lookupHeader w.chain w.headers batch c.hash = some c.header := by
  rw [lookupHeader, h.indexed c hc]
  cases hb : batch.get c.hash with
  | none => rfl
  | some header =>
    obtain ⟨c', hc', hhash, rfl⟩ := h.batch _ _ hb
    obtain ⟨hc₁, hc₂⟩ := h.hashes c hc
    obtain ⟨hc₁', hc₂'⟩ := h.hashes c' hc'
    rw [hinj hc₂' hc₂ (by rw [hc₁', hhash, hc₁])]
    rfl

/-- The header before one of the chain is found by its hash. -/
theorem lookupHeader_previous (hc : chain[i + 1]? = some c) :
    ∃ p, chain[i]? = some p ∧
      lookupHeader w.chain w.headers batch c.header.previousHash = some p.header := by
  have hlt : i + 1 < chain.length := (List.getElem?_eq_some_iff.1 hc).1
  have hp : chain[i]? = some chain[i] := getElem?_eq_getElem (by omega)
  refine ⟨chain[i], hp, ?_⟩
  rw [h.links i _ _ hp hc]
  exact h.lookupHeader_eq hinj (getElem_mem _)

/-- The headers behind one of the chain are those of the chain. -/
theorem resolves : Resolves w.chain w.headers batch chain where
  heights := h.heights
  previous := fun _ _ hc => h.lookupHeader_previous hinj hc

theorem recentSignersFor_eq (c : ChainHeader) :
    recentSignersFor opts w.chain w.headers batch prev.hash =
      recentSigners opts.engine (chain ++ [c]) chain.length := by
  obtain ⟨hprev, hlength⟩ := h.getElem?_last
  have hlookup := h.lookupHeader_eq hinj (mem_of_getElem? hprev)
  rw [recentSignersFor, hlookup, (h.resolves hinj).signersFrom_eq hprev, recentSigners, signersBefore,
    hlength, take_append_of_le_length hlength.ge]

/-- The target after the last header, by both. -/
theorem target_iff (hsame : SameConsensus opts params) {header : BlockHeader}
    (hheight : header.height = prev.header.height + 1) {target : Text} :
    expectedTargetFor opts w.chain w.headers batch prev.toChainHeader = .ok target ↔
      requiredTarget params opts.engine (chain ++ [hashed header]) header prev.header = .ok target := by
  obtain ⟨hprev, hlength⟩ := h.getElem?_last
  have hinterval : params.consensus.difficultyRetargetInterval =
      opts.retarget.difficultyRetargetInterval := by rw [← hsame.retarget]
  rw [expectedTargetFor, requiredTarget_eq, hheight, hinterval, hsame.retarget]
  dsimp only
  set interval := opts.retarget.difficultyRetargetInterval
  by_cases hretarget : opts.engine.retargets ∧ (prev.header.height + 1) % interval = 0
  · obtain ⟨hengine, hmod⟩ := hretarget
    have h0 : interval ≠ 0 := by
      intro h0
      rw [h0, Nat.mod_zero] at hmod
      omega
    rw [if_neg (by simp [hengine, hmod]), if_pos ⟨hengine, h0, hmod⟩]
    -- The last header is that many steps above the start of the period.
    have hgaps : chain[retargetWindow (prev.header.height + 1) interval +
        (prev.header.height + 1 - 1 - retargetWindow (prev.header.height + 1) interval)]? =
        some prev.toChainHeader := by
      rw [← hprev]
      congr 1
      rw [retargetWindow]
      omega
    obtain ⟨a, ha, hancestor⟩ := (h.resolves hinj).ancestorHeader_eq hgaps
    have hlt := (List.getElem?_eq_some_iff.1 ha).1
    rw [hancestor, getElem?_append_left hlt, ha]
    simp only [mapError_eq_ok, attempt_eq_ok]
  · rw [if_pos (by tauto), if_neg (by tauto)]
    simp

/-- The node and the client judge the next header alike. -/
theorem verifyAt_iff (hsame : SameConsensus opts params) {env : Env} (hnow : params.now = env.now)
    (header : BlockHeader) :
    verifyAt params opts.engine (chain ++ [hashed header]) opts.signatures chain.length = .ok () ↔
      ∃ ctx, headerRules opts env w batch prev header = .ok ctx ∧
        validateHeader opts.signatures header (computeBlockHash header) ctx = .ok () := by
  obtain ⟨hprev, hlength⟩ := h.getElem?_last
  have hp : (chain ++ [hashed header])[prev.header.height]? = some prev.toChainHeader := by
    rw [getElem?_append_left (by omega), hprev]
  have hc : (chain ++ [hashed header])[prev.header.height + 1]? = some (hashed header) := by
    rw [getElem?_append_right (by omega), hlength, Nat.sub_self]
    rfl
  have hcheckpoint : checkpointFor opts header.height = none := by
    rw [checkpointFor, hsame.checkpoints]
    rfl
  -- Both contexts say the same, at the same target.
  have hctx : ∀ target, headerContext params opts.engine (chain ++ [hashed header])
      prev.toChainHeader target (prev.header.height + 1) =
        { parent := prev.toChainHeader, expectedTarget := target, now := env.now,
          maxFutureDriftMs := opts.maxFutureDriftMs, checkpoint := checkpointFor opts header.height,
          engine := some opts.engine,
          recentSigners := some (recentSignersFor opts w.chain w.headers batch prev.hash) } := by
    intro target
    rw [headerContext, hnow, hsame.drift, hcheckpoint, h.recentSignersFor_eq hinj (hashed header),
      hlength]
  rw [hlength, verifyAt_eq_ok hp hc]
  simp only [headerRules, bind_eq_ok, validateHeader_eq_ok, hctx]
  constructor
  · rintro ⟨target, htarget, hvalid⟩
    exact ⟨_, ⟨target, (h.target_iff hinj hsame hvalid.height_eq).2 htarget, rfl⟩, hvalid⟩
  · rintro ⟨_, ⟨target, htarget, heq⟩, hvalid⟩
    cases heq
    exact ⟨target, (h.target_iff hinj hsame hvalid.height_eq).1 htarget, hvalid⟩

section Index

variable {env : Env} (fromNodeId : Text) {header : BlockHeader}
  (hmem : header ∈ H) (hnew : ∀ c ∈ chain, c.header ≠ header)

include hmem hnew

theorem get_new : w.headers.get (computeBlockHash header) = none := by
  by_contra hsome
  obtain ⟨c, hc, hhash⟩ := h.known _ (Option.ne_none_iff_isSome.1 hsome)
  obtain ⟨hchash, hcmem⟩ := h.hashes c hc
  exact hnew c hc (hinj hcmem hmem (by rw [hchash, hhash]))

/-- A header that is not known is validated. -/
theorem exec_indexHeader : (indexHeader opts env fromNodeId batch prev header).exec w =
    (indexNewHeader opts env fromNodeId batch prev header).exec w := by
  have hconflict : ¬conflictsWithVerifiedCheckpoint w.chain w.verifiedCheckpointHeight header.height
      (computeBlockHash header) := by
    rw [conflictsWithVerifiedCheckpoint, h.unverified]
    omega
  simp only [indexHeader, exec_bind, exec_reads, id_eq, h.get_new hinj hmem hnew]
  rw [if_neg (by simp [h.clean]), if_neg hconflict]

/-- A header that the rules refuse is not indexed, and the loop ends. -/
theorem refuse (hinvalid : ¬∃ ctx, headerRules opts env w batch prev header = .ok ctx ∧
      validateHeader opts.signatures header (computeBlockHash header) ctx = .ok ()) :
    ((indexHeader opts env fromNodeId batch prev header).exec w).2.headers = w.headers ∧
      ∀ found, ((indexHeader opts env fromNodeId batch prev header).exec w).1 ≠ .ok (some found) := by
  rw [h.exec_indexHeader hinj fromNodeId hmem hnew]
  simp only [indexNewHeader, exec_bind, exec_reads, exec_lift, id_eq]
  cases hctx : headerRules opts env w batch prev header with
  | error e => exact ⟨rfl, by simp⟩
  | ok ctx =>
    dsimp only
    cases hverdict : validateHeader opts.signatures header (computeBlockHash header) ctx with
    | ok _ => exact absurd ⟨ctx, hctx, hverdict⟩ hinvalid
    | error objection =>
      cases objection with
      | invalid reason =>
        dsimp only
        split_ifs
        · simp only [exec_bind, penalizeInvalid, act, exec_writes, exec_pure]
          simp
        · exact ⟨rfl, by simp⟩
      | thrown message => simp

/-- A header that passes is indexed, and the node tracks the longer chain. -/
theorem index (hfails : ∀ write, env.fails write = false)
    (hvalid : ∃ ctx, headerRules opts env w batch prev header = .ok ctx ∧
      validateHeader opts.signatures header (computeBlockHash header) ctx = .ok ()) :
    ∃ next batch' headers, (indexHeader opts env fromNodeId batch prev header).exec w =
        (.ok (some (next, batch')), w.withHeaders headers) ∧
      Tracks opts H (w.withHeaders headers) batch' next (chain ++ [hashed header]) ∧
      Grows w.headers headers := by
  obtain ⟨ctx, hctx, hverdict⟩ := hvalid
  have hv := validateHeader_eq_ok.1 hverdict
  have hrules := hctx
  simp only [headerRules, bind_eq_ok] at hrules
  obtain ⟨target, -, hrules⟩ := hrules
  cases hrules
  obtain ⟨added, hadded⟩ := blockWork_of_seal hv.seal_ok
  have hnone := h.get_new hinj hmem hnew
  obtain ⟨hprev, hlength⟩ := h.getElem?_last
  let next : ChainEnd := ⟨hashed header, prev.work + added⟩
  let headers := w.headers.set (computeBlockHash header) (some ⟨header, prev.work + added⟩)
  have hgrows : Grows w.headers headers := by
    intro hash entry hentry
    rw [Store.get_set_of_ne _ fun heq => by rw [heq, hnone] at hentry; cases hentry]
    exact hentry
  refine ⟨next, batch.set (computeBlockHash header) header, headers, ?_, ⟨?_, ?_, ?_, ?_, ?_, ?_, ?_, ?_,
    Store.get_set_self _ _ _, h.clean, h.unverified⟩, hgrows⟩
  · rw [h.exec_indexHeader hinj fromNodeId hmem hnew]
    simp only [indexNewHeader, exec_bind, exec_reads, exec_lift, id_eq, hctx, hverdict, blockWork,
      Option.getD_some] at hadded ⊢
    rw [hadded]
    simp only [Except.mapError, onHeaders, exec_zoom, putHeader, exec_of, hfails]
    rfl
  · rw [getLast?_concat]
  · intro i c hc
    rcases getElem?_concat_eq_some.1 hc with hc | ⟨rfl, rfl⟩
    · exact h.heights i c hc
    · rw [hlength]
      exact hv.height_eq
  · intro c hc
    rcases mem_append.1 hc with hc | hc
    · exact h.hashes c hc
    · cases mem_singleton.1 hc
      exact ⟨rfl, hmem⟩
  · intro i p c hp hc
    rcases getElem?_concat_eq_some.1 hc with hc | ⟨hi, rfl⟩
    · have hlt := (List.getElem?_eq_some_iff.1 hc).1
      rw [getElem?_append_left (by omega)] at hp
      exact h.links i p c hp hc
    · -- The new header comes after the one that the node has come to.
      rw [getElem?_append_left (by omega), show i = prev.header.height by omega, hprev] at hp
      cases hp
      exact hv.previousHash_eq
  · intro c hc
    rcases mem_append.1 hc with hc | hc
    · obtain ⟨entry, hentry, hheader⟩ := Option.map_eq_some_iff.1 (h.indexed c hc)
      change (headers.get c.hash).map _ = _
      rw [hgrows _ _ hentry, Option.map_some, hheader]
    · cases mem_singleton.1 hc
      change (headers.get (computeBlockHash header)).map _ = _
      rw [Store.get_set_self]
      rfl
  · intro hash hsome
    change (headers.get hash).isSome at hsome
    rw [Store.get_set] at hsome
    split_ifs at hsome with heq
    · exact ⟨hashed header, by simp, heq.symm⟩
    · obtain ⟨c, hc, hhash⟩ := h.known hash hsome
      exact ⟨c, mem_append_left _ hc, hhash⟩
  · intro hash header' hget
    rw [OrdMap.get_set] at hget
    split_ifs at hget with heq
    · cases hget
      exact ⟨hashed header, by simp, heq.symm, rfl⟩
    · obtain ⟨c, hc, hhash⟩ := h.batch hash header' hget
      exact ⟨c, mem_append_left _ hc, hhash⟩
  · refine chainWork_append.2 ⟨prev.work, added, h.work, ?_, rfl⟩
    have hwork : opts.engine.blockWork (hashed header).header = .ok added := hadded
    rw [chainWork, sumWork, foldlM_cons, hwork]
    simp [bind, Except.bind, pure, Except.pure]

end Index

end Tracks

/-! ## The loop -/

theorem verifyAt_height {S : SignatureScheme} {engine : ConsensusEngine} {p : ChainHeader}
    (hp : chain[i]? = some p) (hc : chain[i + 1]? = some c)
    (h : verifyAt params engine chain S (i + 1) = .ok ()) :
    c.header.height = p.header.height + 1 := by
  obtain ⟨target, -, hvalid⟩ := (verifyAt_eq_ok hp hc).1 h
  exact hvalid.height_eq

/-- Headers further on do not matter to the verdict on one. -/
theorem Tracks.verifyAt_append (h : Tracks opts H w batch prev chain) (header : BlockHeader)
    (rest : List ChainHeader) :
    verifyAt params opts.engine (chain ++ hashed header :: rest) opts.signatures chain.length =
        .ok () ↔
      verifyAt params opts.engine (chain ++ [hashed header]) opts.signatures chain.length = .ok () := by
  obtain ⟨hprev, hlength⟩ := h.getElem?_last
  have hget : ∀ rest : List ChainHeader,
      (chain ++ hashed header :: rest)[prev.header.height]? = some prev.toChainHeader ∧
      (chain ++ hashed header :: rest)[prev.header.height + 1]? = some (hashed header) := by
    intro rest
    rw [getElem?_append_left (by omega), getElem?_append_right (by omega), hlength,
      Nat.sub_self]
    exact ⟨hprev, rfl⟩
  have htake : (chain ++ hashed header :: rest).take (chain.length + 1) =
      (chain ++ [hashed header]).take (chain.length + 1) := by
    rw [take_append, take_append]
    simp
  rw [hlength] at htake ⊢
  constructor
  · intro hok
    have hheight := verifyAt_height (hget rest).1 (hget rest).2 hok
    rwa [← verifyAt_congr htake (fun c hc => ?_) (Nat.succ_pos _)]
    rw [(hget rest).2] at hc
    cases hc
    exact hheight
  · intro hok
    have hheight := verifyAt_height (hget []).1 (hget []).2 hok
    rwa [verifyAt_congr htake (fun c hc => ?_) (Nat.succ_pos _)]
    rw [(hget rest).2] at hc
    cases hc
    exact hheight

section Loop

variable (hinj : Set.InjOn computeBlockHash H) (hsame : SameConsensus opts params) {env : Env}
  (hnow : params.now = env.now) (hfails : ∀ write, env.fails write = false) (fromNodeId : Text)

include hinj hsame hnow hfails

/-- The headers of a chain from a position on pass. -/
def PassFrom (opts : NodeOptions) (params : SpvParams) (start : ℕ) (chain : List ChainHeader) : Prop :=
  ∀ i, start ≤ i → i < chain.length → verifyAt params opts.engine chain opts.signatures i = .ok ()

omit hinj hsame hnow hfails in
theorem passFrom_cons {rest : List ChainHeader} :
    PassFrom opts params chain.length (chain ++ c :: rest) ↔
      verifyAt params opts.engine (chain ++ c :: rest) opts.signatures chain.length = .ok () ∧
        PassFrom opts params (chain ++ [c]).length (chain ++ [c] ++ rest) := by
  rw [append_assoc, singleton_append, length_append, length_singleton]
  constructor
  · intro h
    exact ⟨h _ le_rfl (by simp), fun i hi hlt => h i (by omega) hlt⟩
  · rintro ⟨hfirst, hrest⟩ i hi hlt
    rcases Nat.eq_or_lt_of_le hi with rfl | hgt
    · exact hfirst
    · exact hrest i hgt hlt

/-- The loop over headers that continue the chain: all of them pass, and the node
    tracks the longer chain, or one is left out of the index. -/
theorem Tracks.indexHeaders (h : Tracks opts H w batch prev chain)
    (hmem : ∀ header ∈ headers, header ∈ H) (hnodup : headers.Nodup)
    (hnew : ∀ header ∈ headers, ∀ c ∈ chain, c.header ≠ header) :
    let w' := ((indexHeaders opts env fromNodeId batch prev headers).exec w).2
    (PassFrom opts params chain.length (chain ++ headers.map hashed) ∧
      ∃ batch' last, Tracks opts H w' batch' last (chain ++ headers.map hashed)) ∨
    (¬PassFrom opts params chain.length (chain ++ headers.map hashed) ∧
      ∃ header ∈ headers, w'.headers.get (computeBlockHash header) = none) := by
  induction headers generalizing w batch prev chain with
  | nil =>
    rw [map_nil, append_nil]
    exact .inl ⟨fun i hi hlt => by omega, batch, prev, h⟩
  | cons header headers ih =>
    rw [forall_mem_cons] at hmem hnew
    rw [nodup_cons] at hnodup
    rw [map_cons, passFrom_cons, h.verifyAt_append,
      h.verifyAt_iff hinj hsame hnow]
    by_cases hvalid : ∃ ctx, headerRules opts env w batch prev header = .ok ctx ∧
        validateHeader opts.signatures header (computeBlockHash header) ctx = .ok ()
    · obtain ⟨next, batch', index, hexec, htracks, hgrows⟩ :=
        h.index hinj fromNodeId hmem.1 hnew.1 hfails hvalid
      have hnew' : ∀ header' ∈ headers, ∀ c ∈ chain ++ [hashed header], c.header ≠ header' := by
        intro header' hheader' c hc
        rcases mem_append.1 hc with hc | hc
        · exact hnew.2 header' hheader' c hc
        · cases mem_singleton.1 hc
          rintro rfl
          exact hnodup.1 hheader'
      have hrest := ih htracks hmem.2 hnodup.2 hnew'
      rw [Plainchain.indexHeaders, exec_bind, hexec]
      simp only [append_assoc, singleton_append] at hrest ⊢
      rcases hrest with ⟨hpass, hrest⟩ | ⟨hpass, header', hheader', hnone⟩
      · exact .inl ⟨⟨hvalid, hpass⟩, hrest⟩
      · exact .inr ⟨fun hall => hpass hall.2, header', mem_cons_of_mem _ hheader', hnone⟩
    · -- The loop ends here, and the header is not indexed.
      obtain ⟨hheaders, hfound⟩ := h.refuse hinj fromNodeId hmem.1 hnew.1 hvalid
      refine .inr ⟨fun hall => hvalid hall.1, header, mem_cons_self, ?_⟩
      have hnone := h.get_new hinj hmem.1 hnew.1
      rw [← hheaders] at hnone
      rw [Plainchain.indexHeaders, exec_bind]
      rcases hexec : (indexHeader opts env fromNodeId batch prev header).exec w with ⟨e | found, w'⟩
      · rw [hexec] at hnone
        exact hnone
      · rw [hexec] at hnone hfound
        cases found with
        | none => exact hnone
        | some found => exact absurd rfl (hfound found)

end Loop

end Tracks

/-! ## A fresh node -/

section Fresh

variable {opts : NodeOptions} {params : SpvParams} {H : Set BlockHeader} {w : World} {env : Env}

/-- The first header of every chain. -/
def genesisEnd (opts : NodeOptions) (work : ℕ) : ChainEnd :=
  ⟨⟨opts.genesis.hash, opts.genesis.header⟩, work⟩

/-- The headers of a client that trusts genesis. -/
def clientChain (opts : NodeOptions) (headers : List BlockHeader) : List ChainHeader :=
  ⟨opts.genesis.hash, opts.genesis.header⟩ :: headers.map hashed

theorem verifiedCheckpoint_empty (chain : ChainState) : verifiedCheckpoint chain .empty = -1 := rfl

theorem Tracks.start (hmem : opts.genesis.header ∈ H) (hsame : SameConsensus opts params)
    (hstart : start opts = .ok w) :
    ∃ work, Tracks opts H w .empty (genesisEnd opts work) (clientChain opts []) := by
  obtain ⟨coinbase, undo, u, work, -, -, hwork, rfl⟩ := start_eq_ok hstart
  have hget : ∀ hash, (Store.empty.set opts.genesis.hash (some ⟨opts.genesis.header, work⟩) :
      HeaderIndex).get hash = if hash = opts.genesis.hash then some ⟨opts.genesis.header, work⟩
        else none := by
    intro hash
    rw [Store.get_set, Store.get_empty]
  have hone : ∀ (i : ℕ) (c : ChainHeader), (clientChain opts [])[i]? = some c →
      i = 0 ∧ c = ⟨opts.genesis.hash, opts.genesis.header⟩ := by
    intro i c hc
    cases i with
    | zero =>
      cases hc
      exact ⟨rfl, rfl⟩
    | succ i => simp [clientChain] at hc
  refine ⟨work, rfl, ?_, ?_, ?_, ?_, ?_, ?_, ?_, ?_, rfl, ?_⟩
  · intro i c hc
    obtain ⟨rfl, rfl⟩ := hone i c hc
    exact genesis_height opts
  · intro c hc
    cases mem_singleton.1 hc
    exact ⟨genesis_hash opts, hmem⟩
  · intro i p c hp hc
    exact absurd (hone _ c hc).1 (Nat.succ_ne_zero i)
  · intro c hc
    cases mem_singleton.1 hc
    exact congrArg _ ((hget _).trans (if_pos rfl))
  · intro hash hsome
    change ((Store.empty.set opts.genesis.hash (some ⟨opts.genesis.header, work⟩) :
      HeaderIndex).get hash).isSome at hsome
    rw [hget] at hsome
    split_ifs at hsome with heq
    · exact ⟨_, mem_singleton_self _, heq.symm⟩
    · cases hsome
  · exact fun _ _ hnone => nomatch hnone
  · have hengine : opts.engine.blockWork opts.genesis.header = .ok work := mapError_eq_ok.1 hwork
    rw [chainWork, sumWork, clientChain, foldlM_cons, hengine]
    simp [genesisEnd, bind, Except.bind, pure, Except.pure]
  · exact (hget _).trans (if_pos rfl)
  · change verifiedCheckpoint _ opts.checkpoints = -1
    rw [hsame.checkpoints, verifiedCheckpoint_empty]

variable (hinj : Set.InjOn computeBlockHash H)

include hinj

/-- Only the acceptance of headers indexes any. -/
theorem headers_handleHeaders (hs : Sound opts H w) (fromNodeId : Text)
    (hmem : ∀ header ∈ headers, header ∈ H) :
    ((handleHeaders opts env fromNodeId headers).exec w).2.headers =
      ((acceptHeaders opts env fromNodeId headers).exec w).2.headers := by
  rw [handleHeaders, exec_bind]
  rcases hrun : (acceptHeaders opts env fromNodeId headers).exec w with ⟨e | found, w₁⟩
  · rfl
  cases found with
  | none => rfl
  | some last =>
    obtain ⟨hs₁, -⟩ := acceptHeaders_quiet hinj hs hmem hrun
    obtain ⟨actions, hframe⟩ := followUp_frame env fromNodeId hs₁ headers (some last)
    dsimp only
    rw [hframe]

omit hinj in
/-- What is neither indexed nor stored is not found. -/
theorem exec_getIndexedHeader_none {chain : ChainState} {headers : HeaderIndex} {hash : Text}
    (hindex : headers.get hash = none) (hblock : chain.getBlock hash = none) :
    (getIndexedHeader opts env chain hash).exec headers = (.ok none, headers) := by
  simp only [getIndexedHeader, exec_bind, exec_reads, id_eq, hindex, exec_lift, lookupFuel, hblock,
    Option.map_none, Option.getD_none, unindexed]
  rfl

/-- What a fresh node makes of headers is what the loop makes of them after
    genesis; it passes over headers that begin elsewhere. -/
theorem headers_handleHeaders_fresh (hs : Sound opts H w) {work : ℕ}
    (h : Tracks opts H w .empty (genesisEnd opts work) (clientChain opts []))
    (hstored : ∀ hash, hash ≠ opts.genesis.hash → w.chain.getBlock hash = none) (fromNodeId : Text)
    {first : BlockHeader} {rest : List BlockHeader} (hmem : ∀ header ∈ first :: rest, header ∈ H) :
    ((handleHeaders opts env fromNodeId (first :: rest)).exec w).2.headers =
      if first.previousHash = opts.genesis.hash then
        ((indexHeaders opts env fromNodeId .empty (genesisEnd opts work) (first :: rest)).exec
          w).2.headers
      else w.headers := by
  rw [headers_handleHeaders hinj hs fromNodeId hmem, acceptHeaders, exec_bind, exec_reads]
  dsimp only
  rw [exec_bind, onHeaders, exec_zoom]
  by_cases hprev : first.previousHash = opts.genesis.hash
  · have hentry : w.headers.get opts.genesis.hash = some ⟨opts.genesis.header, work⟩ := h.entry
    rw [if_pos hprev, hprev, exec_getIndexedHeader hentry]
    rfl
  · have hnone : w.headers.get first.previousHash = none := by
      by_contra hsome
      obtain ⟨c, hc, hhash⟩ := h.known _ (Option.ne_none_iff_isSome.1 hsome)
      cases mem_singleton.1 hc
      exact hprev hhash.symm
    rw [if_neg hprev, exec_getIndexedHeader_none hnone (hstored _ hprev)]
    rfl

omit hinj in
/-- What a valid chain of a client is: its headers after genesis pass. -/
theorem verifyHeaderChain_iff_passFrom (hsame : SameConsensus opts params) :
    (∃ r, verifyHeaderChain opts.signatures params (clientChain opts headers) = .ok r) ↔
      PassFrom opts params 1 (clientChain opts headers) ∧
        ∃ work, chainWork opts.engine (clientChain opts headers) = .ok work := by
  simp only [verifyHeaderChain_eq_ok, verifyFrom_eq_ok, headerChainResult_eq_ok, hsame.engine,
    Except.ok.injEq, exists_eq_left']
  constructor
  · rintro ⟨r, -, hpass, hwork, -⟩
    exact ⟨hpass, r.totalWork, hwork⟩
  · rintro ⟨hpass, work, hwork⟩
    refine ⟨⟨_, work⟩, ⟨_, _, rfl, genesis_height opts, hsame.genesis.symm⟩, hpass, hwork, rfl⟩

/-- What a node knows that has indexed the chain of a client. -/
structure Indexes (opts : NodeOptions) (index : HeaderIndex) (chain : List ChainHeader) (work : ℕ) :
    Prop where
  summed : chainWork opts.engine chain = .ok work
  indexed : ∀ c ∈ chain, (index.get c.hash).map (·.header) = some c.header
  last : ∀ c ∈ chain.getLast?, index.get c.hash = some ⟨c.header, work⟩

omit hinj in
theorem Tracks.indexes {batch : OrdMap Text BlockHeader} {prev : ChainEnd} {chain : List ChainHeader}
    (h : Tracks opts H w batch prev chain) : Indexes opts w.headers chain prev.work := by
  refine ⟨h.work, h.indexed, fun c hc => ?_⟩
  rw [h.last] at hc
  cases hc
  exact h.entry

/-- A fresh node indexes the chain of the client if it passes, and leaves a header
    out if it does not. -/
theorem handleHeaders_outcome (hmemg : opts.genesis.header ∈ H) (hsame : SameConsensus opts params)
    (hstart : start opts = .ok w) (hnow : params.now = env.now)
    (hfails : ∀ write, env.fails write = false) (fromNodeId : Text)
    (hmem : ∀ header ∈ headers, header ∈ H) (hnodup : headers.Nodup)
    (hgenesis : opts.genesis.header ∉ headers) :
    let w' := ((handleHeaders opts env fromNodeId headers).exec w).2
    (PassFrom opts params 1 (clientChain opts headers) ∧
      ∃ work, Indexes opts w'.headers (clientChain opts headers) work) ∨
    (¬PassFrom opts params 1 (clientChain opts headers) ∧
      ∃ header ∈ headers, w'.headers.get (computeBlockHash header) = none) := by
  obtain ⟨work, htracks⟩ := Tracks.start hmemg hsame hstart
  have hnew : ∀ header ∈ headers, ∀ c ∈ clientChain opts [], c.header ≠ header := by
    intro header hheader c hc heq
    cases mem_singleton.1 hc
    exact hgenesis ((show opts.genesis.header = header from heq) ▸ hheader)
  cases headers with
  | nil => exact .inl ⟨fun i hi hlt => absurd hlt (by simp [clientChain]; omega), work, htracks.indexes⟩
  | cons first rest =>
    have hstored : ∀ hash, hash ≠ opts.genesis.hash → w.chain.getBlock hash = none := by
      obtain ⟨coinbase, undo, u, _, -, -, -, rfl⟩ := start_eq_ok hstart
      exact fun hash hne => (getBlock_genesisOps hash).trans (if_neg hne)
    intro w'
    have hw' : w'.headers = _ := headers_handleHeaders_fresh hinj (start_good hmemg hstart).sound
      htracks hstored fromNodeId hmem
    rw [hw']
    by_cases hprev : first.previousHash = opts.genesis.hash
    · rw [if_pos hprev]
      rcases htracks.indexHeaders hinj hsame hnow hfails fromNodeId hmem hnodup hnew with
        ⟨hpass, batch, last, hlast⟩ | ⟨hpass, header, hheader, hnone⟩
      · exact .inl ⟨hpass, last.work, hlast.indexes⟩
      · exact .inr ⟨hpass, header, hheader, hnone⟩
    · -- The headers do not begin after genesis, which the client refuses.
      rw [if_neg hprev]
      refine .inr ⟨fun hpass => hprev ?_, first, mem_cons_self,
        htracks.get_new hinj (hmem first mem_cons_self) (hnew first mem_cons_self)⟩
      obtain ⟨target, -, hvalid⟩ := (verifyAt_eq_ok rfl rfl).1
        (hpass 1 le_rfl (by simp [clientChain]))
      exact hvalid.previousHash_eq

end Fresh

/-- A fresh node accepts and indexes a list of headers exactly when a light client
    of the same configuration finds them valid after genesis; and then both have
    the same work for the last of them. -/
theorem light_client_agrees {opts : NodeOptions} {params : SpvParams} {w : World} {env : Env}
    {headers : List BlockHeader} (hsame : SameConsensus opts params) (hstart : start opts = .ok w)
    (hinj : Set.InjOn computeBlockHash {header | header ∈ opts.genesis.header :: headers})
    (hnodup : headers.Nodup) (hgenesis : opts.genesis.header ∉ headers)
    (hnow : params.now = env.now) (hfails : ∀ write, env.fails write = false) (fromNodeId : Text) :
    let w' := ((handleHeaders opts env fromNodeId headers).exec w).2
    ((∀ header ∈ headers, ∃ work,
        w'.headers.get (computeBlockHash header) = some ⟨header, work⟩) ↔
      ∃ r, verifyHeaderChain opts.signatures params (clientChain opts headers) = .ok r) ∧
    ∀ r, verifyHeaderChain opts.signatures params (clientChain opts headers) = .ok r →
      ∀ last ∈ (clientChain opts headers).getLast?,
        w'.headers.get last.hash = some ⟨last.header, r.totalWork⟩ := by
  intro w'
  have houtcome := handleHeaders_outcome hinj mem_cons_self hsame hstart hnow hfails fromNodeId
    (fun _ h => mem_cons_of_mem _ h) hnodup hgenesis
  rw [verifyHeaderChain_iff_passFrom hsame]
  rcases houtcome with ⟨hpass, work, hindexes⟩ | ⟨hpass, header, hheader, hnone⟩
  · refine ⟨iff_of_true (fun header hheader => ?_) ⟨hpass, work, hindexes.summed⟩, fun r hr => ?_⟩
    · obtain ⟨⟨header', work'⟩, hentry, rfl⟩ := Option.map_eq_some_iff.1 (hindexes.indexed
        (hashed header) (mem_cons_of_mem _ (mem_map_of_mem hheader)))
      exact ⟨work', hentry⟩
    · obtain ⟨-, engine, hengine, hwork⟩ := verifyHeaderChain_result hr
      cases hengine.symm.trans hsame.engine
      cases hwork.symm.trans hindexes.summed
      exact hindexes.last
  · have hrefused : ¬∃ r, verifyHeaderChain opts.signatures params (clientChain opts headers) = .ok r :=
      fun hr => hpass ((verifyHeaderChain_iff_passFrom hsame).1 hr).1
    refine ⟨iff_of_false (fun hall => ?_) fun h => hpass h.1, fun r hr => absurd ⟨r, hr⟩ hrefused⟩
    obtain ⟨work, hentry⟩ := hall header hheader
    cases hnone.symm.trans hentry

/-! ## A chain through a retarget -/

/-- The sample chain, with a target that one in four hashes meets. -/
def lateConfig : GenesisConfig :=
  { sampleConfig with difficultyTarget := quarterGenesis.difficultyTarget }

def lateGenesis : Block :=
  let coinbase := genesisCoinbase lateConfig [⟨lit "a", 50⟩]
  let header : BlockHeader :=
    { sampleGenesis.header with
      merkleRoot := coinbase.id, difficultyTarget := quarterGenesis.difficultyTarget }
  { header, transactions := [coinbase], hash := computeBlockHash header }

theorem createGenesisBlock_late : createGenesisBlock lateConfig = .ok lateGenesis := rfl

/-- A node that retargets at every second block. -/
def lateOptions : NodeOptions :=
  { sampleOptions with
    genesisConfig := lateConfig, genesis := lateGenesis, genesis_eq := createGenesisBlock_late
    retarget := { sampleOptions.retarget with difficultyRetargetInterval := 2 } }

def lateEnv : Env := { sampleEnv with now := 20000 }

/-- A client of that chain. -/
def lateParams : SpvParams :=
  { quarterParams with genesisHash := lateGenesis.hash }

/-- Three headers, each four times as late as is aimed at: the target is eased with the
    second. -/
def lateHeaders : List BlockHeader :=
  let late (target : Text) (header : BlockHeader) : BlockHeader :=
    { header with timestamp := header.timestamp + 3999, difficultyTarget := target, nonce := 1 }
  let first := ChainHeader.successor ⟨lateGenesis.hash, lateGenesis.header⟩
    (late lateConfig.difficultyTarget)
  let second := first.successor (late easiestTarget)
  [first.header, second.header, (second.successor (late easiestTarget)).header]

/-- Node and client agree on these headers, which are valid. -/
theorem light_client_agrees_first :
    ∃ r, verifyHeaderChain noSignatures lateParams (clientChain lateOptions lateHeaders) = .ok r ∧
      ∀ last ∈ (clientChain lateOptions lateHeaders).getLast?,
        ((handleHeaders lateOptions lateEnv (lit "p") lateHeaders).exec
          (started lateOptions)).2.headers.get last.hash = some ⟨last.header, r.totalWork⟩ := by
  have hreads : verifyHeaderChain noSignatures lateParams (clientChain lateOptions lateHeaders) =
        .ok ⟨3, 8⟩ ∧
      ((lateGenesis.header :: lateHeaders).map computeBlockHash).Nodup ∧
      (start lateOptions).toOption.isSome := by decide +kernel
  obtain ⟨hvalid, hnodup, hstart⟩ := hreads
  have hsame : SameConsensus lateOptions lateParams := ⟨rfl, rfl, rfl, rfl, rfl⟩
  have hinj : Set.InjOn computeBlockHash {header | header ∈ lateGenesis.header :: lateHeaders} :=
    fun header hheader header' hheader' => inj_on_of_nodup_map hnodup hheader hheader'
  obtain ⟨hgenesis, hheaders⟩ := nodup_cons.1 hnodup.of_map
  exact ⟨_, hvalid, (light_client_agrees hsame (start_eq_started hstart) hinj hheaders hgenesis rfl
    (fun _ => rfl) (lit "p")).2 _ hvalid⟩

end Plainchain
