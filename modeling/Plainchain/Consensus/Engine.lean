import Plainchain.Ledger.Block

/-!
# Seals and difficulty

`src/consensus/pow.ts`, `forkChoice.ts`, `engine.ts` and `difficulty.ts`: how a
block is sealed, how much it weighs in fork choice, and what its target has to
be. Proof of work and proof of authority are the two cases of `ConsensusEngine`.

Retargeting divides times: it is computed here over the rationals, and the
target it gives is an integer.
-/

namespace Plainchain

open Js

/-! ## Proof of work -/

def meetsTarget (hash target : Text) : Except Text Bool := do
  let hashValue ← hexBigInt hash
  let targetValue ← hexBigInt target
  pure (hashValue ≤ targetValue)

/-- Work contributed by a single block: inversely proportional to its target. -/
def workForTarget (target : Text) : Except Text ℕ := do
  let targetValue ← hexBigInt target
  pure (2 ^ 256 / (targetValue + 1))

/-- A candidate only wins with strictly more cumulative work. -/
def isBetterChain (candidateWork currentWork : ℕ) : Bool := currentWork < candidateWork

/-! ## Engines -/

/-- The authorities of a chain in turn order: at least one, none of them twice,
    as the constructor of the engine checks. -/
structure Authorities where
  list : List Text
  ne_nil : list ≠ []
  nodup : list.Nodup

def POA_IN_TURN_WORK : ℕ := 2

def POA_OUT_OF_TURN_WORK : ℕ := 1

/-- How blocks are sealed and compared. -/
inductive ConsensusEngine
  | pow
  | poa (authorities : Authorities)

namespace ConsensusEngine

/-- Whether the difficulty retarget rule applies. -/
def retargets : ConsensusEngine → Bool
  | pow => true
  | poa _ => false

/-- The number of ancestors whose signers `verifySeal` looks at. -/
def recentSignerWindow : ConsensusEngine → ℕ
  | pow => 0
  | poa authorities => authorities.list.length / 2

end ConsensusEngine

/-- The authority whose turn a height is. -/
def inTurnAuthority (authorities : Authorities) (height : ℕ) : Text :=
  (authorities.list[height % authorities.list.length]?).getD []

namespace ConsensusEngine

/-- The rules of a proof-of-authority seal. -/
def verifyAuthority (S : SignatureScheme) (authorities : Authorities) (header : BlockHeader)
    (recentSigners : List Text) : Verdict := do
  let window := authorities.list.length / 2
  match header.signer with
  | none => .error (.invalid (lit "block signer is not an authority"))
  | some signer =>
    refuse (signer ∉ authorities.list) (lit "block signer is not an authority")
    match header.signature with
    | none => .error (.invalid (lit "block signature is invalid"))
    | some signature =>
      refuse (¬S.verify signer (computeSealHash header) signature)
        (lit "block signature is invalid")
      refuse (signer ∈ recentSigners.take window)
        (lit "authority signed too recently: at most one block per " ++ decimal (window + 1)
          ++ lit " consecutive blocks")

/-- The seal check, from a header and the signers before it alone. -/
def verifySeal (S : SignatureScheme) (engine : ConsensusEngine) (header : BlockHeader)
    (hash : Text) (recentSigners : List Text) : Verdict :=
  match engine with
  | pow => do
    let met ← attempt (meetsTarget hash header.difficultyTarget)
    refuse (¬met) (lit "block hash does not meet difficulty target")
  | poa authorities => verifyAuthority S authorities header recentSigners

/-- The weight of a block in fork choice. -/
def blockWork (engine : ConsensusEngine) (header : BlockHeader) : Except Text ℕ :=
  match engine with
  | pow => workForTarget header.difficultyTarget
  | poa authorities =>
    if header.signer = some (inTurnAuthority authorities header.height) then .ok POA_IN_TURN_WORK
    else .ok POA_OUT_OF_TURN_WORK

end ConsensusEngine

inductive ConsensusMode
  | pow
  | poa
  deriving DecidableEq

/-- What a configuration says about seals. -/
structure EngineRules where
  mode : Option ConsensusMode
  authorities : Option (List Text)

/-- The engine a configuration asks for: proof of work when unspecified. -/
def createEngine (rules : EngineRules) : Except Text ConsensusEngine :=
  match rules.mode.getD .pow with
  | .pow => .ok .pow
  | .poa =>
    let list := rules.authorities.getD []
    if hne : list = [] then
      .error (lit "consensus mode \"poa\" needs a non-empty consensus.authorities list")
    else if hnodup : list.Nodup then .ok (.poa ⟨list, hne, hnodup⟩)
    else .error (lit "duplicate authority in the authority set")

/-! ## Difficulty -/

def MAX_TARGET : ℕ := 2 ^ 256 - 1

/-- The target that every hash meets. -/
def easiestTarget : Text := List.replicate 64 (unit 'f')

/-- The target after a period that took `actualTimespanMs` where
    `targetTimespanMs` were meant, the ratio being bounded both ways. -/
def retargetDifficulty (currentTarget : Text) (actualTimespanMs : ℤ) (targetTimespanMs : ℕ)
    (maxAdjustmentFactor : ℚ) : Except Text Text := do
  let minTimespan : ℚ := targetTimespanMs / maxAdjustmentFactor
  let maxTimespan : ℚ := targetTimespanMs * maxAdjustmentFactor
  let clampedTimespan := min maxTimespan (max minTimespan actualTimespanMs)
  let currentTargetValue ← hexBigInt currentTarget
  reject (targetTimespanMs = 0) (lit "Division by zero")
  -- `Math.round`, and the truncating division of big integers.
  let scaledFactor := (clampedTimespan * 1000000 + 1 / 2).floor.tdiv targetTimespanMs
  let newTargetValue := ((currentTargetValue : ℤ) * scaledFactor).tdiv 1000000
  pure (paddedHex 64 (max 1 (min newTargetValue MAX_TARGET)).toNat)

structure RetargetRules where
  targetBlockTimeMs : ℕ
  difficultyRetargetInterval : ℕ
  maxDifficultyAdjustmentFactor : ℚ

/-- The height of the ancestor that bounds the period a retarget at `nextHeight`
    measures: the block before the period, or genesis. -/
def retargetWindow (nextHeight interval : ℕ) : ℕ := nextHeight - interval - 1

/-- The target a block after `parent` must use when its height is a retarget
    height. -/
def nextTarget (parent periodStart : BlockHeader) (rules : RetargetRules) : Except Text Text := do
  let gaps := (parent.height : ℤ) - periodStart.height
  reject (gaps ≤ 0)
    (lit "retarget period start (height " ++ decimal periodStart.height
      ++ lit ") must precede the parent (height " ++ decimal parent.height ++ lit ")")
  retargetDifficulty parent.difficultyTarget ((parent.timestamp : ℤ) - periodStart.timestamp)
    (gaps.toNat * rules.targetBlockTimeMs) rules.maxDifficultyAdjustmentFactor

/-- A target after a retarget is of `64` hex digits. -/
theorem hexOf_nextTarget {parent periodStart : BlockHeader} {rules : RetargetRules} {target : Text}
    (h : nextTarget parent periodStart rules = .ok target) : hexOf 64 target := by
  simp only [nextTarget, retargetDifficulty, bind_eq_ok] at h
  obtain ⟨_, -, value, -, _, -, h⟩ := h
  cases h
  refine hexOf_paddedHex (by norm_num) ?_
  have : (16 : ℕ) ^ 64 = MAX_TARGET + 1 := by norm_num [MAX_TARGET]
  have : 1 ≤ MAX_TARGET := by norm_num [MAX_TARGET]
  omega

/-- A target of `64` hex digits is met with some work. -/
theorem workForTarget_pos {target : Text} (h : hexOf 64 target) :
    ∃ work, 0 < work ∧ workForTarget target = .ok work := by
  obtain ⟨value, hlt, hvalue⟩ := hexBigInt_of_hexOf (by norm_num) h
  refine ⟨2 ^ 256 / (value + 1), Nat.div_pos ?_ (by omega), by rw [workForTarget, hvalue]; rfl⟩
  have : (16 : ℕ) ^ 64 = 2 ^ 256 := by norm_num
  omega

end Plainchain
