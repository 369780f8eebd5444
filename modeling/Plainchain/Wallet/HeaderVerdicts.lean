import Plainchain.Lib.Returns
import Plainchain.Wallet.HeaderFile

/-!
# Verdicts on headers

Of the steps on the way to a verdict on headers some throw: on a seal that has no
text, on a retarget that has no period or whose times are no integers, on a target
that is not hex. A height is used for a retarget before it is compared with that
of the parent.

* `returns_verifyAt`: a round of the loop returns on harmless headers alone;
* `verdicts_iff`: verification returns a verdict if and only if the first header
  that is not valid is harmless.
-/

namespace Plainchain

open Js

namespace HeaderFile

section Returns

variable {N : Type} {A : Arithmetic N} {S : SignatureScheme} {params : SpvParams N}
  {engine : ConsensusEngine} {chain : List (ChainHeader N)}

/-- A text that reads as a big integer after `0x`. -/
def IsHex (t : Text) : Prop := ∃ n, hexBigInt t = .ok n

variable {header : Header N} {value : Value} {start : ℕ}

theorem sealField_eq_ok : (∃ ts, sealField value = .ok ts) ↔ value.toText.isSome := by
  unfold sealField Value.interpolate
  cases value with
  | undefined => simp [Value.toText]
  | _ =>
    dsimp only
    split
    · next t ht => simp [ht, pure, Except.pure, bind, Except.bind]
    · next ht => simp [ht, bind, Except.bind]

/-- A header has a hash when its seal has a text. -/
theorem computeBlockHash_eq_ok :
    (∃ hash, computeBlockHash A header = .ok hash) ↔
      header.signer.toText.isSome ∧ header.signature.toText.isSome := by
  rw [← sealField_eq_ok, ← sealField_eq_ok]
  simp only [computeBlockHash, fields, bind_eq_ok]
  constructor
  · rintro ⟨_, _, ⟨signer, hsigner, signature, hsignature, -⟩, -⟩
    exact ⟨⟨signer, hsigner⟩, signature, hsignature⟩
  · rintro ⟨⟨signer, hsigner⟩, signature, hsignature⟩
    exact ⟨_, _, ⟨signer, hsigner, signature, hsignature, rfl⟩, rfl⟩

theorem hexOf_of_computeBlockHash {hash : Text} (h : computeBlockHash A header = .ok hash) :
    hexOf 64 hash := by
  simp only [computeBlockHash, bind_eq_ok] at h
  obtain ⟨_, -, h⟩ := h
  cases h
  exact hexOf_sha256 _

theorem returns_verifyAuthority {authorities : Authorities} {recents : List Value} :
    Returns (verifyAuthority A S authorities header recents) := by
  unfold verifyAuthority
  split
  · next signer hsigner =>
    refine returns_bind.2 ⟨returns_refuse _ _, fun _ _ => ?_⟩
    split
    · refine returns_bind.2 ⟨returns_attempt.2 ?_, fun _ _ => returns_bind.2
        ⟨returns_refuse _ _, fun _ _ => returns_refuse _ _⟩⟩
      refine computeBlockHash_eq_ok.2 ⟨?_, rfl⟩
      rw [hsigner]
      rfl
    · exact returns_invalid _
  · exact returns_invalid _

/-- A hash is compared with a target that reads as a number. -/
theorem returns_verifySeal {hash : Text} {recents : List Value} (hhash : hexOf 64 hash) :
    Returns (verifySeal A S engine header hash recents) ↔
      (engine = .pow → IsHex header.difficultyTarget) := by
  cases engine with
  | poa authorities => simpa [verifySeal] using returns_verifyAuthority
  | pow =>
    obtain ⟨v, -, hv⟩ := hexBigInt_of_hexOf (by norm_num) hhash
    simp only [verifySeal, returns_bind, returns_attempt, returns_refuse, implies_true, and_true,
      forall_const, meetsTarget, bind_eq_ok, hv, Except.ok.injEq, exists_eq_left']
    constructor
    · rintro ⟨_, n, hn, -⟩
      exact ⟨n, hn⟩
    · rintro ⟨n, hn⟩
      exact ⟨_, n, hn, rfl⟩

theorem returns_validateHeader {c parent : ChainHeader N} {target : Text} {i : ℕ} :
    Returns (validateHeader A S params engine chain c parent target i) ↔
      (c.header.signer.toText.isSome ∧ c.header.signature.toText.isSome) ∧
      (computeBlockHash A c.header = .ok c.hash → c.header.difficultyTarget = target →
        engine = .pow → IsHex c.header.difficultyTarget) := by
  rw [validateHeader, returns_bind, returns_attempt, computeBlockHash_eq_ok]
  refine and_congr_right fun _ => ?_
  simp only [returns_refuse_bind, returns_bind (x := verifySeal _ _ _ _ _ _), returns_refuse,
    attempt_eq_ok, not_not, implies_true, and_true]
  constructor
  · intro h hhash htarget
    exact (returns_verifySeal (hexOf_of_computeBlockHash hhash)).1 (h _ hhash rfl htarget)
  · rintro h hash hhash rfl htarget
    exact (returns_verifySeal (hexOf_of_computeBlockHash hhash)).2 (h hhash htarget)

/-- A retarget that can be computed: there is time between the two headers, the
    target is a number, and so are the times that are taken as big integers. -/
structure Measurable (A : Arithmetic N) (params : SpvParams N) (parent start : Header N) :
    Prop where
  precedes : A.le (A.sub parent.height start.height) (A.ofNat 0) = false
  hex : IsHex parent.difficultyTarget
  span : (A.toBigInt (A.round (A.mul
    (A.min (A.mul (A.mul (A.sub parent.height start.height) params.targetBlockTimeMs)
        params.maxDifficultyAdjustmentFactor)
      (A.max (A.div (A.mul (A.sub parent.height start.height) params.targetBlockTimeMs)
          params.maxDifficultyAdjustmentFactor)
        (A.sub parent.timestamp start.timestamp)))
    (A.ofNat 1000000)))).isSome
  period : ∃ z, A.toBigInt (A.mul (A.sub parent.height start.height) params.targetBlockTimeMs) =
    some z ∧ z ≠ 0

theorem nextTarget_eq_ok {parent start : Header N} :
    (∃ target, nextTarget A params parent start = .ok target) ↔
      Measurable A params parent start := by
  simp only [nextTarget, retargetDifficulty, bind_eq_ok, Arithmetic.bigInt_eq_ok]
  constructor
  · rintro ⟨_, _, hle, n, hn, scaled, hscaled, z, hz, _, hne, -⟩
    exact ⟨eq_false_of_ne_true (reject_eq_ok.1 hle), ⟨n, hn⟩,
      Option.isSome_iff_exists.2 ⟨scaled, hscaled⟩, z, hz, reject_eq_ok.1 hne⟩
  · rintro ⟨hle, ⟨n, hn⟩, hspan, z, hz, hne⟩
    obtain ⟨scaled, hscaled⟩ := Option.isSome_iff_exists.1 hspan
    exact ⟨_, (), reject_eq_ok.2 (ne_true_of_eq_false hle), n, hn, scaled, hscaled, z, hz, (),
      reject_eq_ok.2 hne, rfl⟩

/-- When there is a verdict on the target, and when there is a target: not where the
    period is missing, which is a verdict. -/
theorem requiredTarget_outcome (A : Arithmetic N) (params : SpvParams N) (engine : ConsensusEngine)
    (chain : List (ChainHeader N)) (header parent : Header N) :
    (Returns (requiredTarget A params engine chain header parent) ↔
      (atRetarget A params engine header → ∀ start, periodStart A params chain header = some start →
        Measurable A params parent start.header)) ∧
    ((∃ target, requiredTarget A params engine chain header parent = .ok target) ↔
      Returns (requiredTarget A params engine chain header parent) ∧
        (atRetarget A params engine header → (periodStart A params chain header).isSome)) := by
  unfold requiredTarget HeaderRules.requiredTarget atRetarget periodStart
  split
  · next hat =>
    simp only [hat, forall_const]
    split
    · next hstart => simp [hstart]
    · next start hstart =>
      have htarget : (∃ target, (params.rules A).nextTarget parent ((params.rules A).header start) =
        .ok target) ↔ Measurable A params parent start.header := nextTarget_eq_ok
      simp [hstart, htarget]
  · next hat => simp [hat]

/-- The header at a position is valid after the ones before it. -/
def ValidAt (A : Arithmetic N) (S : SignatureScheme) (params : SpvParams N)
    (engine : ConsensusEngine) (chain : List (ChainHeader N)) (i : ℕ) : Prop :=
  (params.rules A).ValidAt S engine chain i

/-- A header that nothing throws on: the retarget that it asks for can be
    computed, its seal has a text, and the target that a hash is compared with is a
    number. -/
structure Harmless (A : Arithmetic N) (params : SpvParams N) (engine : ConsensusEngine)
    (chain : List (ChainHeader N)) (c parent : ChainHeader N) : Prop where
  measurable : atRetarget A params engine c.header →
    ∀ start, periodStart A params chain c.header = some start →
      Measurable A params parent.header start.header
  printable : (atRetarget A params engine c.header →
      (periodStart A params chain c.header).isSome) →
    c.header.signer.toText.isSome ∧ c.header.signature.toText.isSome
  hex : engine = .pow → computeBlockHash A c.header = .ok c.hash →
    requiredTarget A params engine chain c.header parent.header = .ok c.header.difficultyTarget →
    IsHex c.header.difficultyTarget

theorem atHeight_invalid (height reason : Text) :
    ∃ reason', Objection.atHeight height (.invalid reason) = .invalid reason' := ⟨_, rfl⟩

theorem atHeight_thrown (height message : Text) :
    Objection.atHeight height (.thrown message) = .thrown message := rfl

/-- A round of the loop returns on harmless headers alone. -/
theorem returns_verifyAt {i : ℕ} :
    Returns ((params.rules A).verifyAt S engine chain i) ↔
      ∀ c parent, chain[i]? = some c → chain[i - 1]? = some parent →
        Harmless A params engine chain c parent := by
  unfold HeaderRules.verifyAt
  split
  · next c parent hc hparent =>
    obtain ⟨hreturns, htargets⟩ :=
      requiredTarget_outcome A params engine chain c.header parent.header
    have hvalidate := fun target =>
      @returns_validateHeader N A S params engine chain c parent target i
    rw [returns_bind]
    simp only [returns_mapError (atHeight_invalid _) (atHeight_thrown _), hc, hparent,
      Option.some.injEq]
    constructor
    · rintro ⟨hrequired, hrest⟩ c' parent' rfl rfl
      refine ⟨hreturns.1 hrequired, fun hperiod => ?_, fun hpow hhash htarget => ?_⟩
      · obtain ⟨target, htarget⟩ := htargets.2 ⟨hrequired, hperiod⟩
        exact ((hvalidate target).1 (hrest target htarget)).1
      · exact ((hvalidate _).1 (hrest _ htarget)).2 hhash rfl hpow
    · intro h
      obtain ⟨hmeasurable, hprintable, hhex⟩ := h c parent rfl rfl
      refine ⟨hreturns.2 hmeasurable, fun target htarget => (hvalidate target).2
        ⟨hprintable (htargets.1 ⟨target, htarget⟩).2, ?_⟩⟩
      rintro hhash rfl hpow
      exact hhex hpow hhash htarget
  · next hnone =>
    exact ⟨fun _ c parent hc hparent => absurd hparent (hnone c parent hc), fun _ => returns_ok ()⟩

/-- The loop returns when the first header that is not valid is harmless. -/
theorem returns_verifyFrom :
    Returns ((params.rules A).verifyFrom S chain start) ↔
      ∃ engine, createEngine params.toEngineRules = .ok engine ∧
        ∀ i, start ≤ i → (∀ j, start ≤ j → j < i → ValidAt A S params engine chain j) →
          ∀ c parent, chain[i]? = some c → chain[i - 1]? = some parent →
            Harmless A params engine chain c parent := by
  rw [HeaderRules.verifyFrom, returns_bind, returns_attempt]
  constructor
  · rintro ⟨⟨engine, hengine⟩, hloop⟩
    refine ⟨engine, hengine, fun i hs hvalid c parent hc hparent => ?_⟩
    have hi : i < chain.length := (List.getElem?_eq_some_iff.1 hc).1
    have hround := (returns_forM_range _ _).1 (hloop engine (attempt_eq_ok.2 hengine)) i hs
      (by omega) fun j hj hji => HeaderRules.verifyAt_eq_ok.2 (hvalid j hj hji)
    exact returns_verifyAt.1 hround c parent hc hparent
  · rintro ⟨engine, hengine, h⟩
    refine ⟨⟨engine, hengine⟩, fun engine' hengine' => ?_⟩
    cases hengine.symm.trans (attempt_eq_ok.1 hengine')
    refine (returns_forM_range _ _).2 fun i hs _ hpassed => returns_verifyAt.2 ?_
    exact h i hs fun j hj hji => HeaderRules.verifyAt_eq_ok.1 (hpassed j hj hji)

theorem verifyFrom_eq_ok (hengine : createEngine params.toEngineRules = .ok engine) :
    (params.rules A).verifyFrom S chain start = .ok () ↔
      ∀ j, start ≤ j → ValidAt A S params engine chain j := by
  rw [HeaderRules.verifyFrom_eq_ok]
  constructor
  · rintro ⟨engine', hengine', h⟩ j hj c parent hc hparent
    cases hengine.symm.trans hengine'
    have hlt : j < chain.length := (List.getElem?_eq_some_iff.1 hc).1
    exact HeaderRules.verifyAt_eq_ok.1 (h j hj hlt) c parent hc hparent
  · exact fun h => ⟨engine, hengine, fun j hj _ => HeaderRules.verifyAt_eq_ok.2 (h j hj)⟩

theorem blockWork_eq_ok :
    (∃ work, blockWork A engine header = .ok work) ↔
      (engine = .pow → IsHex header.difficultyTarget) := by
  cases engine with
  | pow =>
    simp only [blockWork, workForTarget, bind_eq_ok, forall_const, IsHex]
    constructor
    · rintro ⟨_, n, hn, -⟩
      exact ⟨n, hn⟩
    · rintro ⟨n, hn⟩
      exact ⟨_, n, hn, rfl⟩
  | poa authorities =>
    simp only [reduceCtorEq, false_implies, iff_true, blockWork]
    split <;> exact ⟨_, rfl⟩

theorem returns_headerChainResult (hengine : createEngine params.toEngineRules = .ok engine) :
    Returns ((params.rules A).headerChainResult chain) ↔
      (engine = .pow → ∀ c ∈ chain, IsHex c.header.difficultyTarget) := by
  have hwork : (∃ work, sumWork (fun c : ChainHeader N => blockWork A engine c.header) chain =
      .ok work) ↔ ∀ c ∈ chain, ∃ work, blockWork A engine c.header = .ok work := foldlM_eq_ok 0
  have hengine' : createEngine (params.rules A).engineRules = .ok engine := hengine
  have hreturns : Returns ((params.rules A).headerChainResult chain) ↔
      ∃ work, sumWork (fun c : ChainHeader N => blockWork A engine c.header) chain = .ok work := by
    simp only [HeaderRules.headerChainResult, returns_bind, returns_attempt, returns_pure,
      attempt_eq_ok, hengine', Except.ok.injEq, exists_eq', forall_eq', implies_true, and_true,
      true_and]
    rfl
  rw [hreturns, hwork]
  simp only [blockWork_eq_ok]
  exact ⟨fun h hpow c hc => h c hc hpow, fun h c hc hpow => h hpow c hc⟩

/-- The headers from a position on are free of what is thrown on: the first that
    is not valid is harmless, and if all are valid, every target of the chain is a
    number. -/
def Sane (A : Arithmetic N) (S : SignatureScheme) (params : SpvParams N)
    (chain : List (ChainHeader N)) (start : ℕ) : Prop :=
  ∃ engine, createEngine params.toEngineRules = .ok engine ∧
    (∀ i, start ≤ i → (∀ j, start ≤ j → j < i → ValidAt A S params engine chain j) →
      ∀ c parent, chain[i]? = some c → chain[i - 1]? = some parent →
        Harmless A params engine chain c parent) ∧
    ((∀ j, start ≤ j → ValidAt A S params engine chain j) → engine = .pow →
      ∀ c ∈ chain, IsHex c.header.difficultyTarget)

theorem returns_verifyFrom_result :
    Returns ((params.rules A).verifyFrom S chain start >>= fun _ => (params.rules A).headerChainResult chain) ↔
      Sane A S params chain start := by
  rw [returns_bind, returns_verifyFrom]
  constructor
  · rintro ⟨⟨engine, hengine, hharmless⟩, hresult⟩
    exact ⟨engine, hengine, hharmless, fun hvalid =>
      (returns_headerChainResult hengine).1 (hresult () ((verifyFrom_eq_ok hengine).2 hvalid))⟩
  · rintro ⟨engine, hengine, hharmless, hhex⟩
    exact ⟨⟨engine, hengine, hharmless⟩, fun _ hvalid =>
      (returns_headerChainResult hengine).2 (hhex ((verifyFrom_eq_ok hengine).1 hvalid))⟩

/-- A chain that begins with the genesis that is trusted. -/
def Rooted (A : Arithmetic N) (params : SpvParams N) (chain : List (ChainHeader N)) : Prop :=
  (params.rules A).StartsAtGenesis chain

theorem returns_verifyHeaderChain :
    Returns (verifyHeaderChain A S params chain) ↔
      (Rooted A params chain → Sane A S params chain 1) := by
  unfold verifyHeaderChain HeaderRules.verifyHeaderChain Rooted HeaderRules.StartsAtGenesis
  split
  · simp
  · rw [returns_refuse_bind, returns_verifyFrom_result]
    simp

/-- The light client, on headers of the wire. -/
theorem returns_verifyHeaderChain_wire {params : Plainchain.SpvParams}
    (hinterval : 0 < params.consensus.difficultyRetargetInterval)
    {chain : List Plainchain.ChainHeader} :
    Returns (Plainchain.verifyHeaderChain S params chain) ↔
      (Rooted rationals (ofParams params) (chain.map ofChainHeader) →
        Sane rationals S (ofParams params) (chain.map ofChainHeader) 1) := by
  rw [← returns_verifyHeaderChain, verifyHeaderChain_wire S hinterval, returns_map]

/-- A value that a property can be read of. -/
def Readable (value : Value) : Prop := value ≠ .undefined ∧ value ≠ .null

theorem read_eq_ok (key : Text) : (∃ v, value.read key = .ok v) ↔ Readable value := by
  cases value <;> simp [Value.read, Readable]

/-- A file that was parsed is judged when its value can be read and the headers in
    it get a verdict. -/
theorem loadVerifiedHeaders_parsed {path : Text} :
    (∃ loaded, loadVerifiedHeaders A S params path (.parsed value) = .ok loaded) ↔
      Readable value ∧ ∀ headers, fileHeaders A value = some headers →
        Returns (verifyHeaderChain A S { params with now := A.ofNat maxSafeInteger } headers) := by
  simp only [loadVerifiedHeaders, bind_eq_ok]
  constructor
  · rintro ⟨loaded, v, hv, h⟩
    refine ⟨(read_eq_ok _).1 ⟨v, hv⟩, fun headers hheaders => ?_⟩
    rw [hheaders] at h
    dsimp only at h
    rintro message hthrown
    rw [hthrown] at h
    cases h
  · rintro ⟨hreadable, hreturns⟩
    obtain ⟨v, hv⟩ := (read_eq_ok (lit "format")).2 hreadable
    split
    · exact ⟨_, v, hv, rfl⟩
    · next headers hheaders =>
      split
      · exact ⟨_, v, hv, rfl⟩
      · exact ⟨_, v, hv, rfl⟩
      · next message hthrown => exact absurd hthrown (hreturns headers hheaders message)

/-- Header verification returns a verdict if and only if the first header that is
    not valid is harmless, and a stored file is judged if and only if, besides, a
    property can be read of what it holds. -/
theorem verdicts_iff (A : Arithmetic N) (S : SignatureScheme) (params : SpvParams N) :
    (∀ chain, Returns (verifyHeaderChain A S params chain) ↔
      (Rooted A params chain → Sane A S params chain 1)) ∧
    (∀ chain additions, Returns (extendHeaderChain A S params chain additions) ↔
      ((chain = [] → Rooted A params additions → Sane A S params additions 1) ∧
        (chain ≠ [] → Sane A S params (chain ++ additions) chain.length))) ∧
    (∀ path content, (∃ loaded, loadVerifiedHeaders A S params path content = .ok loaded) ↔
      ∀ value, content = .parsed value → Readable value ∧
        ∀ headers, fileHeaders A value = some headers →
          Rooted A params headers →
            Sane A S { params with now := A.ofNat maxSafeInteger } headers 1) := by
  refine ⟨fun _ => returns_verifyHeaderChain, fun chain additions => ?_, fun path content => ?_⟩
  · unfold extendHeaderChain HeaderRules.extendHeaderChain
    split
    · simp [returns_verifyHeaderChain.symm, verifyHeaderChain]
    · simp only [← returns_verifyFrom_result]
      simp [returns_bind]
  · cases content with
    | missing => exact ⟨fun _ value h => (nomatch h), fun _ => ⟨_, rfl⟩⟩
    | unparsable message => exact ⟨fun _ value h => (nomatch h), fun _ => ⟨_, rfl⟩⟩
    | parsed value =>
      simp only [loadVerifiedHeaders_parsed, returns_verifyHeaderChain, FileContent.parsed.injEq,
        forall_eq']
      rfl

end Returns

/-- A second genesis, which asks for a retarget that has no period. -/
def stalledChain : List Plainchain.ChainHeader :=
  [⟨easyParams.genesisHash, easyGenesis⟩, ⟨easyParams.genesisHash, easyGenesis⟩]

/-- A reply of a node that repeats its genesis, the same headers in a file, and a
    file that holds `null` are thrown on. -/
theorem verdict_missing :
    (∀ c ∈ stalledChain, parseWireChainHeader (chainHeaderValue c) (lit "header") = .ok c) ∧
    Plainchain.verifyHeaderChain noSignatures easyParams stalledChain =
      .error (.thrown (lit "retarget period start (height 0) must precede the parent (height 0)")) ∧
    (loadVerifiedHeaders rationals noSignatures (ofParams easyParams) (lit "headers.json")
      (.parsed (savedFile stalledChain))).isOk = false ∧
    (loadVerifiedHeaders rationals noSignatures (ofParams easyParams) (lit "headers.json")
      (.parsed .null)).isOk = false := by
  decide +kernel

end HeaderFile

end Plainchain
