import Plainchain.Wallet.HeaderSync

/-!
# Headers from a file

`src/wallet/headerStore.ts`: the headers that a wallet has stored are read back,
shape-checked (`isChainHeader`) and verified by `verifyHeaderChain` of
`src/wallet/spv.ts`. The check asks for numbers and texts only: a height may be a
fraction or an infinity, a target need not be hex, and the seal is any value. The
functions that judge headers are given here for such headers. What they do with
numbers is a parameter (`Arithmetic`): nothing but the operations of the language
is used.

Headers of the wire are among these: on them, and with rational numbers
(`rationals`), the functions are those of the light client
(`verifyHeaderChain_wire`, `extendHeaderChain_wire`), and a file that was saved is
read back (`fileHeaders_savedFile`) and kept (`loadVerifiedHeaders_savedFile`).
-/

namespace Plainchain

open Js List

/-! ## Numbers -/

/-- Numbers of the language, with what is done to them. -/
structure Arithmetic (N : Type) where
  /-- A number of a document. -/
  ofNumber : Number → N
  toText : N → Text
  add : N → N → N
  sub : N → N → N
  mul : N → N → N
  div : N → N → N
  rem : N → N → N
  min : N → N → N
  max : N → N → N
  round : N → N
  /-- `===`. -/
  eq : N → N → Bool
  le : N → N → Bool
  lt : N → N → Bool
  /-- The position that a number is as a key of an array, if it is one. -/
  index : N → Option ℕ
  /-- The big integer of a number, if it is an integer. -/
  toBigInt : N → Option ℤ

namespace Arithmetic

variable {N : Type} (A : Arithmetic N)

def ofNat (n : ℕ) : N := A.ofNumber (.ofNat n)

/-- `BigInt` of a number. -/
def bigInt (x : N) : Except Text ℤ :=
  match A.toBigInt x with
  | some z => .ok z
  | none => .error (lit "The number " ++ A.toText x
      ++ lit " cannot be converted to a BigInt because it is not an integer")

theorem bigInt_eq_ok {x : N} {z : ℤ} : A.bigInt x = .ok z ↔ A.toBigInt x = some z := by
  unfold bigInt
  cases A.toBigInt x <;> simp

end Arithmetic

namespace HeaderFile

/-- A header of the shape that `isChainHeader` checks. -/
structure Header (N : Type) where
  version : N
  previousHash : Text
  merkleRoot : Text
  timestamp : N
  difficultyTarget : Text
  nonce : N
  height : N
  signer : Value
  signature : Value

structure ChainHeader (N : Type) where
  hash : Text
  header : Header N

/-- What a light client knows of the rules. -/
structure SpvParams (N : Type) extends EngineRules where
  genesisHash : Text
  targetBlockTimeMs : N
  difficultyRetargetInterval : N
  maxDifficultyAdjustmentFactor : N
  maxFutureDriftMs : N
  now : N

section Model

variable {N : Type} (A : Arithmetic N)

/-! ## Hashes and seals -/

/-- A part of the seal among the fields that are hashed, if it is there. -/
def sealField (value : Value) : Except Text (List Text) :=
  match value with
  | .undefined => .ok []
  | value => do pure [← value.interpolate]

def fields (header : Header N) : Except Text (List Text) := do
  let signer ← sealField header.signer
  let signature ← sealField header.signature
  pure (A.toText header.version :: header.previousHash :: header.merkleRoot ::
    A.toText header.timestamp :: header.difficultyTarget :: A.toText header.nonce ::
    A.toText header.height :: (signer ++ signature))

def computeBlockHash (header : Header N) : Except Text Text := do
  pure (sha256 (join (unit '|') (← fields A header)))

def computeSealHash (header : Header N) : Except Text Text :=
  computeBlockHash A { header with signature := .undefined }

/-- The rules of a proof-of-authority seal. -/
def verifyAuthority (S : SignatureScheme) (authorities : Authorities) (header : Header N)
    (recentSigners : List Value) : Verdict := do
  let window := authorities.list.length / 2
  match header.signer with
  | .str signer => do
    refuse (signer ∉ authorities.list) (lit "block signer is not an authority")
    match header.signature with
    | .str signature => do
      let sealHash ← attempt (computeSealHash A header)
      refuse (¬S.verify signer sealHash signature) (lit "block signature is invalid")
      refuse ((recentSigners.take window).any (·.isText signer))
        (lit "authority signed too recently: at most one block per " ++ decimal (window + 1)
          ++ lit " consecutive blocks")
    | _ => .error (.invalid (lit "block signature is invalid"))
  | _ => .error (.invalid (lit "block signer is not an authority"))

def verifySeal (S : SignatureScheme) (engine : ConsensusEngine) (header : Header N) (hash : Text)
    (recentSigners : List Value) : Verdict :=
  match engine with
  | .pow => do
    let met ← attempt (meetsTarget hash header.difficultyTarget)
    refuse (¬met) (lit "block hash does not meet difficulty target")
  | .poa authorities => verifyAuthority A S authorities header recentSigners

/-- The authority whose turn a height is, if it is a height. -/
def inTurnAuthority (authorities : Authorities) (height : N) : Option Text :=
  (A.index (A.rem height (A.ofNat authorities.list.length))).bind (authorities.list[·]?)

def blockWork (engine : ConsensusEngine) (header : Header N) : Except Text ℕ :=
  match engine with
  | .pow => workForTarget header.difficultyTarget
  | .poa authorities =>
    match inTurnAuthority A authorities header.height with
    | some authority =>
      .ok (if header.signer.isText authority then POA_IN_TURN_WORK else POA_OUT_OF_TURN_WORK)
    | none => .ok POA_OUT_OF_TURN_WORK

/-! ## Retargets -/

def retargetDifficulty (currentTarget : Text) (actualTimespanMs targetTimespanMs : N)
    (maxAdjustmentFactor : N) : Except Text Text := do
  let minTimespan := A.div targetTimespanMs maxAdjustmentFactor
  let maxTimespan := A.mul targetTimespanMs maxAdjustmentFactor
  let clampedTimespan := A.min maxTimespan (A.max minTimespan actualTimespanMs)
  let currentTargetValue ← hexBigInt currentTarget
  let scaled ← A.bigInt (A.round (A.mul clampedTimespan (A.ofNat 1000000)))
  let divisor ← A.bigInt targetTimespanMs
  reject (divisor = 0) (lit "Division by zero")
  let newTargetValue := ((currentTargetValue : ℤ) * scaled.tdiv divisor).tdiv 1000000
  pure (paddedHex 64 (max 1 (min newTargetValue MAX_TARGET)).toNat)

/-- The height at which the period starts that a retarget measures. -/
def retargetWindow (nextHeight interval : N) : N :=
  A.max (A.ofNat 0) (A.sub (A.sub nextHeight interval) (A.ofNat 1))

def nextTarget (params : SpvParams N) (parent periodStart : Header N) : Except Text Text := do
  let gaps := A.sub parent.height periodStart.height
  reject (A.le gaps (A.ofNat 0) = true)
    (lit "retarget period start (height " ++ A.toText periodStart.height
      ++ lit ") must precede the parent (height " ++ A.toText parent.height ++ lit ")")
  retargetDifficulty A parent.difficultyTarget (A.sub parent.timestamp periodStart.timestamp)
    (A.mul gaps params.targetBlockTimeMs) params.maxDifficultyAdjustmentFactor

/-! ## Verification -/

section Verify

variable (S : SignatureScheme) (params : SpvParams N) (engine : ConsensusEngine)
  (chain : List (ChainHeader N))

/-- Signers of the headers before position `i`, newest first. -/
def recentSigners (i : ℕ) : List Value :=
  signersBefore (fun c => match c.header.signer with
    | .undefined => none
    | signer => some signer) engine chain i

/-- The rules on a header at position `i`, after `parent`. -/
def validateHeader (c parent : ChainHeader N) (expectedTarget : Text) (i : ℕ) : Verdict := do
  let hash ← attempt (computeBlockHash A c.header)
  refuse (hash ≠ c.hash) (lit "block hash does not match header")
  refuse (c.header.difficultyTarget ≠ expectedTarget)
    (lit "difficulty target " ++ c.header.difficultyTarget ++ lit " does not match expected "
      ++ expectedTarget)
  verifySeal A S engine c.header c.hash (recentSigners engine chain i)
  refuse (c.header.previousHash ≠ parent.hash) (lit "previousHash does not match parent")
  refuse (A.eq c.header.height (A.add parent.header.height (A.ofNat 1)) = false)
    (lit "height " ++ A.toText c.header.height ++ lit " is not parent height + 1")
  refuse (A.le c.header.timestamp parent.header.timestamp = true)
    (lit "timestamp is not after parent's timestamp")
  refuse (A.lt (A.add params.now params.maxFutureDriftMs) c.header.timestamp = true)
    FUTURE_TIMESTAMP_REASON

structure HeaderChainResult (N : Type) where
  tipHeight : Option N
  totalWork : ℕ

/-- What is asked of the headers of a file. -/
def SpvParams.rules : HeaderRules (ChainHeader N) (Header N) (HeaderChainResult N) where
  engineRules := params.toEngineRules
  genesisHash := params.genesisHash
  hash := (·.hash)
  header := (·.header)
  heightText header := A.toText header.height
  isGenesis header := A.eq header.height (A.ofNat 0)
  difficultyTarget := (·.difficultyTarget)
  retargetsAt header := A.eq (A.rem header.height params.difficultyRetargetInterval) (A.ofNat 0)
  windowStart header := A.index (retargetWindow A header.height params.difficultyRetargetInterval)
  nextTarget := nextTarget A params
  validateHeader S engine chain c parent expectedTarget i :=
    validateHeader A S params engine chain c parent expectedTarget i
  blockWork := blockWork A
  result tip totalWork := { tipHeight := tip.map (·.header.height), totalWork }

/-- The header is at a height where the target changes. -/
def atRetarget (header : Header N) : Bool := (params.rules A).atRetarget engine header

/-- The header with which the period starts that the retarget measures. -/
def periodStart (header : Header N) : Option (ChainHeader N) :=
  (params.rules A).periodStart chain header

/-- The target a header has to have, given its parent and the chain. -/
def requiredTarget (header parent : Header N) : Except Objection Text :=
  (params.rules A).requiredTarget engine chain header parent

/-- Verifies a contiguous header chain from genesis. -/
def verifyHeaderChain : Except Objection (HeaderChainResult N) :=
  (params.rules A).verifyHeaderChain S chain

/-- Appends `additions` to an already verified `chain`, checking only the new
    headers. -/
def extendHeaderChain (additions : List (ChainHeader N)) :
    Except Objection (List (ChainHeader N) × HeaderChainResult N) :=
  (params.rules A).extendHeaderChain S chain additions

end Verify

/-! ## The file -/

/-- What there is at a path. -/
inductive FileContent
  | missing
  | unparsable (message : Text)
  | parsed (value : Value)

structure LoadedHeaders (N : Type) where
  headers : List (ChainHeader N)
  /-- Why a present file was ignored. -/
  discardedReason : Option Text

def FORMAT : ℕ := 1

/-- `isChainHeader`, with what it reads. -/
def chainHeader (value : Value) : Option (ChainHeader N) :=
  let header := value.get (lit "header")
  match value.get (lit "hash"), header.get (lit "version"), header.get (lit "previousHash"),
      header.get (lit "merkleRoot"), header.get (lit "timestamp"),
      header.get (lit "difficultyTarget"), header.get (lit "nonce"), header.get (lit "height") with
  | .str hash, .num version, .str previousHash, .str merkleRoot, .num timestamp,
      .str difficultyTarget, .num nonce, .num height =>
    some
      { hash
        header :=
          { version := A.ofNumber version, previousHash, merkleRoot
            timestamp := A.ofNumber timestamp, difficultyTarget
            nonce := A.ofNumber nonce, height := A.ofNumber height
            signer := header.get (lit "signer"), signature := header.get (lit "signature") } }
  | _, _, _, _, _, _, _, _ => none

/-- The headers of a file of the expected format. -/
def fileHeaders (value : Value) : Option (List (ChainHeader N)) :=
  if value.get (lit "format") |>.isNumber (.ofNat FORMAT) then
    match value.get (lit "headers") with
    | .arr values => values.mapM (chainHeader A)
    | _ => none
  else none

/-- The largest safe integer, the clock for stored headers. -/
def maxSafeInteger : ℕ := 2 ^ 53 - 1

def loadVerifiedHeaders (S : SignatureScheme) (params : SpvParams N) (path : Text) :
    FileContent → Except Text (LoadedHeaders N)
  | .missing => .ok { headers := [], discardedReason := none }
  | .unparsable message =>
    .ok { headers := [], discardedReason := some (lit "cannot parse " ++ path ++ lit ": " ++ message) }
  | .parsed value => do
    let _ ← value.read (lit "format")
    match fileHeaders A value with
    | none =>
      pure { headers := [], discardedReason := some (path ++ lit " has an unexpected format") }
    | some headers =>
      match verifyHeaderChain A S { params with now := A.ofNat maxSafeInteger } headers with
      | .ok _ => pure { headers, discardedReason := none }
      | .error (.invalid reason) =>
        pure { headers := [], discardedReason := some (path ++ lit " failed verification ("
          ++ reason ++ lit "); re-syncing from genesis") }
      | .error (.thrown message) => .error message

end Model

/-! ## Headers of the wire -/

/-- Rational numbers, which are those of the language on safe integers. A text
    other than that of an integer is that of no number here in particular. -/
def rationals : Arithmetic ℚ where
  ofNumber
    | .int z => z
    | .other _ _ => 1 / 2
  toText x := if x.den = 1 then decimalInt x.num else decimalInt x.num ++ unit '/' :: decimal x.den
  add := (· + ·)
  sub := (· - ·)
  mul := (· * ·)
  div := (· / ·)
  rem x y := x - y * (if 0 ≤ x / y then ⌊x / y⌋ else ⌈x / y⌉)
  min := min
  max := max
  round x := ⌊x + 1 / 2⌋
  eq x y := decide (x = y)
  le x y := decide (x ≤ y)
  lt x y := decide (x < y)
  index x := if x.den = 1 ∧ 0 ≤ x.num then some x.num.toNat else none
  toBigInt x := if x.den = 1 then some x.num else none

/-- A header of the wire. -/
def ofHeader (header : BlockHeader) : Header ℚ :=
  { version := header.version, previousHash := header.previousHash
    merkleRoot := header.merkleRoot, timestamp := header.timestamp
    difficultyTarget := header.difficultyTarget, nonce := header.nonce, height := header.height
    signer := optional header.signer, signature := optional header.signature }

def ofChainHeader (c : Plainchain.ChainHeader) : ChainHeader ℚ := ⟨c.hash, ofHeader c.header⟩

def ofParams (params : Plainchain.SpvParams) : SpvParams ℚ :=
  { params.consensus.toEngineRules with
    genesisHash := params.genesisHash
    targetBlockTimeMs := params.consensus.targetBlockTimeMs
    difficultyRetargetInterval := params.consensus.difficultyRetargetInterval
    maxDifficultyAdjustmentFactor := params.consensus.maxDifficultyAdjustmentFactor
    maxFutureDriftMs := params.consensus.maxFutureDriftMs
    now := params.now }

section Wire

@[simp] theorem rationals_ofNat (n : ℕ) : rationals.ofNat n = n := by
  simp [Arithmetic.ofNat, rationals, Number.ofNat]

@[simp] theorem rationals_add (x y : ℚ) : rationals.add x y = x + y := rfl

@[simp] theorem rationals_sub (x y : ℚ) : rationals.sub x y = x - y := rfl

@[simp] theorem rationals_eq (x y : ℚ) : rationals.eq x y = true ↔ x = y := decide_eq_true_iff

@[simp] theorem rationals_le (x y : ℚ) : rationals.le x y = true ↔ x ≤ y := decide_eq_true_iff

@[simp] theorem rationals_lt (x y : ℚ) : rationals.lt x y = true ↔ x < y := decide_eq_true_iff

@[simp] theorem rationals_toText (n : ℕ) : rationals.toText n = decimal n := by
  simp [rationals, decimalInt]

@[simp] theorem rationals_index (n : ℕ) : rationals.index n = some n := by
  simp [rationals]

@[simp] theorem rationals_bigInt (z : ℤ) : rationals.bigInt z = .ok z := by
  simp [rationals, Arithmetic.bigInt]

@[simp] theorem rationals_rem (m n : ℕ) : rationals.rem m n = (m % n : ℕ) := by
  have hnonneg : (0 : ℚ) ≤ m / n := by positivity
  have hmod : (m : ℚ) = n * (m / n : ℕ) + (m % n : ℕ) := by exact_mod_cast (Nat.div_add_mod m n).symm
  simp only [rationals, if_pos hnonneg, Rat.floor_natCast_div_natCast, ← Int.natCast_div,
    Int.cast_natCast]
  linarith

theorem sealField_optional (t : Option Text) : sealField (optional t) = .ok t.toList := by
  cases t <;> rfl

theorem computeBlockHash_ofHeader (header : BlockHeader) :
    computeBlockHash rationals (ofHeader header) = .ok (Plainchain.computeBlockHash header) := by
  simp only [computeBlockHash, fields, ofHeader, sealField_optional, rationals_toText]
  rfl

theorem computeSealHash_ofHeader (header : BlockHeader) :
    computeSealHash rationals (ofHeader header) = .ok (Plainchain.computeSealHash header) :=
  computeBlockHash_ofHeader { header with signature := none }

theorem verifyAuthority_ofHeader (S : SignatureScheme) (authorities : Authorities)
    (header : BlockHeader) (recents : List Text) :
    verifyAuthority rationals S authorities (ofHeader header) (recents.map .str) =
      ConsensusEngine.verifyAuthority S authorities header recents := by
  have hrecent : ∀ signer, ((recents.map Value.str).take (authorities.list.length / 2)).any
      (·.isText signer) = true ↔ signer ∈ recents.take (authorities.list.length / 2) := by
    intro signer
    rw [← map_take, any_map]
    simp [Function.comp_def, Value.isText]
  simp only [verifyAuthority, ConsensusEngine.verifyAuthority, computeSealHash_ofHeader]
  cases hsigner : header.signer with
  | none => simp [ofHeader, optional, hsigner]
  | some signer =>
    cases hsignature : header.signature with
    | none => simp [ofHeader, optional, hsigner, hsignature]
    | some signature =>
      simp only [ofHeader, optional, hsigner, hsignature, Option.map_some, Option.getD_some,
        hrecent]
      rfl

theorem verifySeal_ofHeader (S : SignatureScheme) (engine : ConsensusEngine) (header : BlockHeader)
    (hash : Text) (recents : List Text) :
    verifySeal rationals S engine (ofHeader header) hash (recents.map .str) =
      engine.verifySeal S header hash recents := by
  cases engine with
  | pow => rfl
  | poa authorities => exact verifyAuthority_ofHeader S authorities header recents

theorem inTurnAuthority_ofHeader (authorities : Authorities) (header : BlockHeader) :
    inTurnAuthority rationals authorities (ofHeader header).height =
      some (Plainchain.inTurnAuthority authorities header.height) := by
  have hlt : header.height % authorities.list.length < authorities.list.length :=
    Nat.mod_lt _ (length_pos_iff.2 authorities.ne_nil)
  simp only [inTurnAuthority, ofHeader, rationals_ofNat, rationals_rem, rationals_index,
    Plainchain.inTurnAuthority]
  rw [Option.bind_some, getElem?_eq_getElem hlt, Option.getD_some]

theorem isText_optional (t : Option Text) (signer : Text) :
    (optional t).isText signer = true ↔ t = some signer := by
  cases t <;> simp [optional, Value.isText]

theorem blockWork_ofHeader (engine : ConsensusEngine) (header : BlockHeader) :
    blockWork rationals engine (ofHeader header) = engine.blockWork header := by
  cases engine with
  | pow => rfl
  | poa authorities =>
    have hsigner : ∀ signer, (ofHeader header).signer.isText signer = true ↔
        header.signer = some signer := isText_optional header.signer
    simp only [blockWork, inTurnAuthority_ofHeader, ConsensusEngine.blockWork, hsigner]
    split_ifs <;> rfl

theorem recentSigners_ofHeader (engine : ConsensusEngine) (chain : List Plainchain.ChainHeader)
    (i : ℕ) : recentSigners engine (chain.map ofChainHeader) i =
      (Plainchain.recentSigners engine chain i).map .str := by
  refine signersBefore_map (fun c => ?_) engine chain i
  cases hsigner : c.header.signer <;> simp [ofChainHeader, ofHeader, optional, hsigner]

theorem retargetWindow_ofHeader (height interval : ℕ) :
    retargetWindow rationals height interval = (Plainchain.retargetWindow height interval : ℕ) := by
  simp only [retargetWindow, Plainchain.retargetWindow, rationals_ofNat]
  change max ((0 : ℕ) : ℚ) (height - interval - (1 : ℕ)) = _
  rcases Nat.lt_or_ge interval height with hlt | hle
  · rw [Nat.sub_sub, Nat.cast_sub hlt]
    push_cast
    rw [max_eq_right]
    · ring
    · have : (interval : ℚ) + 1 ≤ height := by exact_mod_cast hlt
      linarith
  · have : height - interval - 1 = 0 := by omega
    rw [this, max_eq_left]
    have : (height : ℚ) ≤ interval := by exact_mod_cast hle
    push_cast
    linarith

theorem retargetDifficulty_wire (text : Text) (actual : ℤ) (target : ℕ) (f : ℚ) :
    retargetDifficulty rationals text actual target f =
      Plainchain.retargetDifficulty text actual target f := by
  have hround : ∀ x : ℚ, rationals.bigInt (rationals.round x) = .ok (x + 1 / 2).floor :=
    fun x => rationals_bigInt _
  have hdivisor : rationals.bigInt (target : ℚ) = .ok (target : ℤ) := rationals_bigInt target
  unfold retargetDifficulty Plainchain.retargetDifficulty
  simp only [hround, hdivisor, rationals_ofNat]
  cases hexBigInt text with
  | error e => rfl
  | ok v =>
    change (reject ((target : ℤ) = 0) _ >>= _) = (reject (target = 0) _ >>= _)
    simp only [Nat.cast_eq_zero]
    rfl

theorem nextTarget_ofHeader (params : Plainchain.SpvParams) (parent start : BlockHeader) :
    nextTarget rationals (ofParams params) (ofHeader parent) (ofHeader start) =
      Plainchain.nextTarget parent start params.consensus.toRetargetRules := by
  have hle : rationals.le (rationals.sub (ofHeader parent).height (ofHeader start).height)
      (rationals.ofNat 0) = true ↔ (parent.height : ℤ) - start.height ≤ 0 := by
    simp [ofHeader]
  unfold nextTarget Plainchain.nextTarget
  simp only [hle]
  by_cases hgaps : (parent.height : ℤ) - start.height ≤ 0
  · simp only [reject, if_pos hgaps, ofHeader, rationals_toText]
    rfl
  · simp only [reject, if_neg hgaps]
    have hspan : rationals.mul (rationals.sub (ofHeader parent).height (ofHeader start).height)
        (ofParams params).targetBlockTimeMs =
        (((parent.height : ℤ) - start.height).toNat * params.consensus.targetBlockTimeMs : ℕ) := by
      have htoNat : (((parent.height : ℤ) - start.height).toNat : ℤ) =
          parent.height - start.height := Int.toNat_of_nonneg (by omega)
      have hcast := congrArg (Int.cast (R := ℚ)) htoNat
      push_cast at hcast ⊢
      rw [hcast]
      rfl
    have hactual : rationals.sub (ofHeader parent).timestamp (ofHeader start).timestamp =
        ((parent.timestamp : ℤ) - start.timestamp : ℤ) := by
      push_cast
      rfl
    rw [hspan, hactual]
    exact retargetDifficulty_wire _ _ _ _

theorem validateHeader_ofHeader (S : SignatureScheme) (params : Plainchain.SpvParams)
    (engine : ConsensusEngine) (chain : List Plainchain.ChainHeader)
    (c parent : Plainchain.ChainHeader) (target : Text) (i : ℕ) :
    validateHeader rationals S (ofParams params) engine (chain.map ofChainHeader)
      (ofChainHeader c) (ofChainHeader parent) target i =
    Plainchain.validateHeader S c.header c.hash (headerContext params engine chain parent target i)
      := by
  have hheight : rationals.eq (ofHeader c.header).height (rationals.add
      (ofHeader parent.header).height (rationals.ofNat 1)) = false ↔
        c.header.height ≠ parent.header.height + 1 := by
    rw [← Bool.not_eq_true, rationals_eq, rationals_add, rationals_ofNat]
    simp only [ofHeader]
    exact_mod_cast Iff.rfl
  have hafter : rationals.le (ofHeader c.header).timestamp (ofHeader parent.header).timestamp =
      true ↔ c.header.timestamp ≤ parent.header.timestamp := by
    simp [ofHeader]
  have hdrift : rationals.lt (rationals.add (ofParams params).now
      (ofParams params).maxFutureDriftMs) (ofHeader c.header).timestamp = true ↔
        params.now + params.consensus.maxFutureDriftMs < c.header.timestamp := by
    simp only [rationals_lt, rationals_add, ofHeader, ofParams]
    exact_mod_cast Iff.rfl
  have htext : rationals.toText (ofHeader c.header).height = decimal c.header.height :=
    rationals_toText _
  -- A light client has no checkpoints: the last rule of a node does not apply.
  have hcheckpoint : refuse (∃ hash ∈ (headerContext params engine chain parent target i).checkpoint,
      hash ≠ c.hash) (lit "conflicts with checkpoint at height " ++ decimal c.header.height) =
        pure () := refuse_eq_ok.2 (by simp [headerContext])
  rw [validateHeader, Plainchain.validateHeader, hcheckpoint]
  simp only [ofChainHeader, computeBlockHash_ofHeader, recentSigners_ofHeader, verifySeal_ofHeader,
    hheight, hafter, hdrift, htext, headerContext, bind_pure_unit]
  rfl

/-- A result, of headers of the wire. -/
def ofResult (r : Plainchain.HeaderChainResult) : HeaderChainResult ℚ :=
  ⟨some (r.tipHeight : ℚ), r.totalWork⟩

/-- What is asked of headers of the wire is what is asked of them in a file. -/
theorem hom_ofChainHeader {params : Plainchain.SpvParams}
    (hinterval : 0 < params.consensus.difficultyRetargetInterval) :
    params.rules.Hom ((ofParams params).rules rationals) ofChainHeader ofHeader ofResult where
  engineRules := rfl
  genesisHash := rfl
  hash _ := rfl
  header _ := rfl
  heightText header := rationals_toText header.height
  isGenesis header := by
    rw [Bool.eq_iff_iff]
    simp [SpvParams.rules, Plainchain.SpvParams.rules, ofHeader]
  difficultyTarget _ := rfl
  retargetsAt header := by
    have hrem : rationals.rem (ofHeader header).height (ofParams params).difficultyRetargetInterval =
      (header.height % params.consensus.difficultyRetargetInterval : ℕ) := rationals_rem _ _
    rw [Bool.eq_iff_iff]
    simp [SpvParams.rules, Plainchain.SpvParams.rules, hrem, Nat.pos_iff_ne_zero.1 hinterval]
  windowStart header := by
    have hwindow : retargetWindow rationals (ofHeader header).height
        (ofParams params).difficultyRetargetInterval = (Plainchain.retargetWindow header.height
          params.consensus.difficultyRetargetInterval : ℕ) := retargetWindow_ofHeader _ _
    simp only [SpvParams.rules, Plainchain.SpvParams.rules, hwindow, rationals_index]
  nextTarget parent start := nextTarget_ofHeader params parent start
  validateHeader S engine chain c parent target i :=
    validateHeader_ofHeader S params engine chain c parent target i
  blockWork := blockWork_ofHeader
  result _ _ := rfl

/-- On headers of the wire verification is that of the light client. -/
theorem verifyHeaderChain_wire (S : SignatureScheme) {params : Plainchain.SpvParams}
    (hinterval : 0 < params.consensus.difficultyRetargetInterval)
    (chain : List Plainchain.ChainHeader) :
    verifyHeaderChain rationals S (ofParams params) (chain.map ofChainHeader) =
      ofResult <$> Plainchain.verifyHeaderChain S params chain :=
  (hom_ofChainHeader hinterval).verifyHeaderChain_map S chain

theorem extendHeaderChain_wire (S : SignatureScheme) {params : Plainchain.SpvParams}
    (hinterval : 0 < params.consensus.difficultyRetargetInterval)
    (chain additions : List Plainchain.ChainHeader) :
    extendHeaderChain rationals S (ofParams params) (chain.map ofChainHeader)
        (additions.map ofChainHeader) =
      Prod.map (List.map ofChainHeader) ofResult <$>
        Plainchain.extendHeaderChain S params chain additions :=
  (hom_ofChainHeader hinterval).extendHeaderChain_map S chain additions

/-- What `saveHeaders` writes. -/
def savedFile (headers : List Plainchain.ChainHeader) : Value :=
  .obj [(lit "format", .num (.ofNat FORMAT)), (lit "headers", .arr (headers.map chainHeaderValue))]

theorem chainHeader_chainHeaderValue (c : Plainchain.ChainHeader) :
    chainHeader rationals (chainHeaderValue c) = some (ofChainHeader c) := by
  have hheader : (chainHeaderValue c).get (lit "header") = headerValue c.header := rfl
  rw [chainHeader, hheader]
  simp only [get_signer_headerValue, get_signature_headerValue]
  rw [show (chainHeaderValue c).get (lit "hash") = .str c.hash from rfl,
    show (headerValue c.header).get (lit "version") = .num (.ofNat c.header.version) from rfl,
    show (headerValue c.header).get (lit "previousHash") = .str c.header.previousHash from rfl,
    show (headerValue c.header).get (lit "merkleRoot") = .str c.header.merkleRoot from rfl,
    show (headerValue c.header).get (lit "timestamp") = .num (.ofNat c.header.timestamp) from rfl,
    show (headerValue c.header).get (lit "difficultyTarget") =
      .str c.header.difficultyTarget from rfl,
    show (headerValue c.header).get (lit "nonce") = .num (.ofNat c.header.nonce) from rfl,
    show (headerValue c.header).get (lit "height") = .num (.ofNat c.header.height) from rfl]
  rfl

/-- A saved chain is read back. -/
theorem fileHeaders_savedFile (headers : List Plainchain.ChainHeader) :
    fileHeaders rationals (savedFile headers) = some (headers.map ofChainHeader) := by
  rw [fileHeaders, if_pos (show ((savedFile headers).get (lit "format")).isNumber _ = true from rfl)]
  change (headers.map chainHeaderValue).mapM (chainHeader rationals) = _
  simp only [mapM_map, Function.comp_def, chainHeader_chainHeaderValue]
  exact mapM_pure

/-- What a wallet loads after it has saved a chain. -/
def reloaded (S : SignatureScheme) (params : Plainchain.SpvParams) (path : Text)
    (chain : List Plainchain.ChainHeader) : Except Text (LoadedHeaders ℚ) :=
  loadVerifiedHeaders rationals S (ofParams params) path (.parsed (savedFile chain))

theorem ofParams_at (params : Plainchain.SpvParams) (now : ℕ) :
    { ofParams params with now := rationals.ofNat now } = ofParams { params with now } := by
  rw [rationals_ofNat]
  rfl

/-- A saved chain is loaded if the light client accepts it at the latest time, and discarded for
    the reason of the light client if not. What it accepted once is loaded. -/
theorem loadVerifiedHeaders_savedFile (S : SignatureScheme) {params : Plainchain.SpvParams}
    (hinterval : 0 < params.consensus.difficultyRetargetInterval) (path : Text)
    (chain : List Plainchain.ChainHeader) :
    (∀ r, Plainchain.verifyHeaderChain S { params with now := maxSafeInteger } chain = .ok r →
      reloaded S params path chain = .ok ⟨chain.map ofChainHeader, none⟩) ∧
    (∀ reason, Plainchain.verifyHeaderChain S { params with now := maxSafeInteger } chain =
        .error (.invalid reason) →
      reloaded S params path chain = .ok ⟨[], some (path ++ lit " failed verification ("
        ++ reason ++ lit "); re-syncing from genesis")⟩) ∧
    ∀ r, Plainchain.verifyHeaderChain S params chain = .ok r → params.now ≤ maxSafeInteger →
      reloaded S params path chain = .ok ⟨chain.map ofChainHeader, none⟩ := by
  have hwire := @verifyHeaderChain_wire S { params with now := maxSafeInteger } hinterval chain
  have hload : ∀ r, Plainchain.verifyHeaderChain S { params with now := maxSafeInteger } chain =
      .ok r → reloaded S params path chain = .ok ⟨chain.map ofChainHeader, none⟩ := by
    intro r hr
    simp only [reloaded, loadVerifiedHeaders, fileHeaders_savedFile, ofParams_at, hwire, hr]
    rfl
  refine ⟨hload, fun reason hreason => ?_, fun r hr hnow => ?_⟩
  · simp only [reloaded, loadVerifiedHeaders, fileHeaders_savedFile, ofParams_at, hwire, hreason]
    rfl
  · -- The clock bounds times from above only.
    exact hload r (verifyHeaderChain_later hnow hr)

theorem loadVerifiedHeaders_savedFile_easy : reloaded noSignatures easyParams (lit "headers.json")
    (easyChain 0 3) = .ok ⟨(easyChain 0 3).map ofChainHeader, none⟩ :=
  (loadVerifiedHeaders_savedFile noSignatures (by decide) _ _).2.2 _ easyChains.1.1
    (by decide)

end Wire

end HeaderFile

end Plainchain
