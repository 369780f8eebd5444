import Plainchain.Consensus.Difficulty
import Plainchain.Node.Run
import Plainchain.Wallet.Spv

/-!
# Chains on time

What the retarget rule requires along a chain in which each block comes exactly
the block time after its parent. The node finds the start of a period along the
ancestry of the parent, the light client by position in its chain; both are
instances of one rule over the list of headers (`RuleTarget`).

* `ruleTarget_of_onTime`: the rule keeps the target over a period on time;
* `onTime_iff`: a chain on time keeps the target of genesis. With a period of one
  block the first retarget has no gap to measure, and is not defined; and a target
  that is not written as the rule writes targets changes at the first retarget.
-/

namespace Plainchain

open Js Kv List

/-! ## The rule -/

/-- `t` is the target of the block after `parent`, the header at position `i` of a
    chain. -/
def RuleTarget (rules : RetargetRules) (retargets : Bool) (list : List ChainHeader) (i : ℕ)
    (parent : BlockHeader) (t : Text) : Prop :=
  if retargets ∧ (i + 1) % rules.difficultyRetargetInterval = 0 then
    ∃ start, list[i - rules.difficultyRetargetInterval]? = some start ∧
      nextTarget parent start.header rules = .ok t
  else t = parent.difficultyTarget

section Rule

variable {opts : NodeOptions} {params : SpvParams} {chain : ChainState} {headers : HeaderIndex}
  {batch : OrdMap Text BlockHeader} {list : List ChainHeader} {i : ℕ} {parent : ChainHeader}
  {t : Text}

theorem expectedTargetFor_iff (h : Resolves chain headers batch list)
    (hparent : list[i]? = some parent) :
    expectedTargetFor opts chain headers batch parent = .ok t ↔
      RuleTarget opts.retarget opts.engine.retargets list i parent.header t := by
  rw [expectedTargetFor, RuleTarget, h.heights i parent hparent]
  dsimp only
  by_cases hretarget : opts.engine.retargets ∧
      (i + 1) % opts.retarget.difficultyRetargetInterval = 0
  · obtain ⟨hengine, hmod⟩ := hretarget
    rw [if_neg (by simp [hengine, hmod]), if_pos ⟨hengine, hmod⟩]
    have hwindow : retargetWindow (i + 1) opts.retarget.difficultyRetargetInterval =
        i - opts.retarget.difficultyRetargetInterval := by
      rw [retargetWindow]
      omega
    -- The parent is that many steps above the start of the period.
    have hsteps : list[i - opts.retarget.difficultyRetargetInterval +
        (i + 1 - 1 - (i - opts.retarget.difficultyRetargetInterval))]? = some parent := by
      rw [← hparent]
      congr 1
      omega
    obtain ⟨start, hstart, hancestor⟩ := h.ancestorHeader_eq hsteps
    rw [hwindow, hancestor, hstart]
    simp only [mapError_eq_ok, Option.some.injEq, exists_eq_left']
  · rw [if_pos (by tauto), if_neg hretarget]
    simp [eq_comm]

theorem requiredTarget_iff {engine : ConsensusEngine} {header : BlockHeader}
    (hinterval : 1 ≤ params.consensus.difficultyRetargetInterval)
    (hheight : header.height = i + 1) :
    requiredTarget params engine list header parent.header = .ok t ↔
      RuleTarget params.consensus.toRetargetRules engine.retargets list i parent.header t := by
  rw [requiredTarget_eq, RuleTarget, hheight]
  have hwindow : retargetWindow (i + 1) params.consensus.difficultyRetargetInterval =
      i - params.consensus.difficultyRetargetInterval := by
    rw [retargetWindow]
    omega
  by_cases hretarget : engine.retargets ∧
      (i + 1) % params.consensus.difficultyRetargetInterval = 0
  · rw [if_pos hretarget, if_pos ⟨hretarget.1, by omega, hretarget.2⟩, hwindow]
    cases list[i - params.consensus.difficultyRetargetInterval]? with
    | none => simp
    | some start => simp only [attempt_eq_ok, Option.some.injEq, exists_eq_left']
  · rw [if_neg hretarget, if_neg (by tauto)]
    simp [eq_comm]

end Rule

/-! ## Periods on time -/

/-- A target as the rule writes one: `64` hex digits, and not `0`. -/
def IsTarget (t : Text) : Prop := hexOf 64 t ∧ hexBigInt t ≠ .ok 0

theorem isTarget_iff {t : Text} :
    IsTarget t ↔ ∃ value, hexBigInt t = .ok value ∧
      paddedHex 64 (scaledTarget value 1000000) = t := by
  have hlt : ∀ value, scaledTarget value 1000000 < 16 ^ 64 := fun value =>
    (scaledTarget_le value _).trans_lt (by norm_num [MAX_TARGET])
  constructor
  · rintro ⟨hhex, hzero⟩
    obtain ⟨value, hvalue, heq⟩ := hexBigInt_of_hexOf (by norm_num) hhex
    have hpos : 1 ≤ value := Nat.one_le_iff_ne_zero.2 fun h => hzero (by rw [heq, h])
    have hmax : value ≤ MAX_TARGET := by
      have : (16 : ℕ) ^ 64 = MAX_TARGET + 1 := by norm_num [MAX_TARGET]
      omega
    refine ⟨value, heq, ?_⟩
    rw [scaledTarget_one hpos hmax]
    exact paddedHex_of_hexOf (by norm_num) hhex heq
  · rintro ⟨value, -, rfl⟩
    refine ⟨hexOf_paddedHex (by norm_num) (hlt value), fun hzero => ?_⟩
    rw [hexBigInt_paddedHex (by norm_num) (hlt value), Except.ok.injEq] at hzero
    have := one_le_scaledTarget value 1000000
    omega

section Period

variable {rules : RetargetRules} {parent start : BlockHeader}

/-- A period on time keeps the target, if that is written as the rule writes it. -/
theorem nextTarget_on_time (htime : 1 ≤ rules.targetBlockTimeMs)
    (hf : 1 ≤ rules.maxDifficultyAdjustmentFactor) (hgaps : start.height < parent.height)
    (helapsed : parent.timestamp =
      start.timestamp + (parent.height - start.height) * rules.targetBlockTimeMs) :
    nextTarget parent start rules = .ok parent.difficultyTarget ↔
      IsTarget parent.difficultyTarget := by
  have hgap : ((parent.height : ℤ) - start.height).toNat = parent.height - start.height := by omega
  have hactual : ((parent.timestamp : ℤ) - start.timestamp) =
      ((parent.height - start.height) * rules.targetBlockTimeMs : ℕ) := by
    rw [helapsed]
    push_cast
    ring
  have hpos : 0 < (parent.height - start.height) * rules.targetBlockTimeMs :=
    Nat.mul_pos (by omega) (by omega)
  simp only [nextTarget, seq_eq_ok, reject_eq_ok, hgap, hactual, isTarget_iff]
  rw [and_iff_right (by omega)]
  constructor
  · intro h
    have hvalue := h
    simp only [retargetDifficulty, bind_eq_ok] at hvalue
    obtain ⟨value, hvalue, -⟩ := hvalue
    rw [retargetDifficulty_on_time hvalue hpos hf, Except.ok.injEq] at h
    exact ⟨value, hvalue, h⟩
  · rintro ⟨value, hvalue, heq⟩
    rw [retargetDifficulty_on_time hvalue hpos hf, heq]

/-- Without a gap to measure there is no target. -/
theorem nextTarget_no_gap (hgaps : parent.height ≤ start.height) (t : Text) :
    nextTarget parent start rules ≠ .ok t := by
  simp only [nextTarget, ne_eq, seq_eq_ok, reject_eq_ok]
  intro h
  omega

end Period

/-! ## Chains on time -/

/-- A chain whose blocks come a block time apart, at the targets that the node
    requires. -/
structure OnTime (opts : NodeOptions) (chain : ChainState) (headers : HeaderIndex)
    (batch : OrdMap Text BlockHeader) (list : List ChainHeader) (genesis : ChainHeader) :
    Prop where
  resolves : Resolves chain headers batch list
  first : list[0]? = some genesis
  apart : ∀ (i : ℕ) (parent c : ChainHeader), list[i]? = some parent → list[i + 1]? = some c →
    c.header.timestamp = parent.header.timestamp + opts.retarget.targetBlockTimeMs
  targets : ∀ (i : ℕ) (parent c : ChainHeader), list[i]? = some parent → list[i + 1]? = some c →
    expectedTargetFor opts chain headers batch parent = .ok c.header.difficultyTarget

/-- After each block of a chain the node and the light client require the target of
    genesis. -/
def KeepsTarget (opts : NodeOptions) (params : SpvParams) (chain : ChainState)
    (headers : HeaderIndex) (batch : OrdMap Text BlockHeader) (list : List ChainHeader)
    (genesis : ChainHeader) : Prop :=
  ∀ (i : ℕ) (parent : ChainHeader), list[i]? = some parent →
    expectedTargetFor opts chain headers batch parent = .ok genesis.header.difficultyTarget ∧
    ∀ header : BlockHeader, header.height = i + 1 →
      requiredTarget params opts.engine list header parent.header =
        .ok genesis.header.difficultyTarget

section Chain

variable {opts : NodeOptions} {params : SpvParams} {chain : ChainState} {headers : HeaderIndex}
  {batch : OrdMap Text BlockHeader} {list : List ChainHeader} {genesis : ChainHeader}

namespace OnTime

variable (h : OnTime opts chain headers batch list genesis)

include h

/-- The time between two blocks of the chain. -/
theorem elapsed {i k : ℕ} {start parent : ChainHeader} (hstart : list[i]? = some start)
    (hparent : list[i + k]? = some parent) :
    parent.header.timestamp =
      start.header.timestamp + k * opts.retarget.targetBlockTimeMs := by
  induction k generalizing parent with
  | zero =>
    cases hstart.symm.trans hparent
    simp
  | succ k ih =>
    have hlt : i + (k + 1) < list.length := (List.getElem?_eq_some_iff.1 hparent).1
    have hbefore : list[i + k]? = some list[i + k] := getElem?_eq_getElem (by omega)
    rw [h.apart (i + k) _ _ hbefore hparent, ih hbefore]
    ring

/-- The rule over a period of the chain. -/
theorem ruleTarget_iff {i : ℕ} {parent : ChainHeader} (hparent : list[i]? = some parent)
    (htime : 1 ≤ opts.retarget.targetBlockTimeMs)
    (hf : 1 ≤ opts.retarget.maxDifficultyAdjustmentFactor)
    (hinterval : 1 ≤ opts.retarget.difficultyRetargetInterval) :
    RuleTarget opts.retarget opts.engine.retargets list i parent.header
        parent.header.difficultyTarget ↔
      (opts.engine.retargets → (i + 1) % opts.retarget.difficultyRetargetInterval = 0 →
        0 < i ∧ IsTarget parent.header.difficultyTarget) := by
  rw [RuleTarget]
  split
  next hretarget =>
    have hlt : i < list.length := (List.getElem?_eq_some_iff.1 hparent).1
    obtain ⟨start, hstart⟩ :
        ∃ start, list[i - opts.retarget.difficultyRetargetInterval]? = some start :=
      ⟨_, getElem?_eq_getElem (by omega)⟩
    have hheight := h.resolves.heights i parent hparent
    have hheight' := h.resolves.heights _ start hstart
    simp only [hstart, Option.some.injEq, exists_eq_left', hretarget, forall_const]
    rcases Nat.eq_zero_or_pos i with rfl | hpos
    · exact iff_of_false (nextTarget_no_gap (by omega) _) (by omega)
    · have hk : i - opts.retarget.difficultyRetargetInterval +
          (parent.header.height - start.header.height) = i := by omega
      rw [and_iff_right hpos]
      exact nextTarget_on_time htime hf (by omega) (h.elapsed hstart (by rw [hk]; exact hparent))
  next hkeep => exact iff_of_true rfl fun hengine hmod => absurd ⟨hengine, hmod⟩ hkeep

/-- Where the rule always keeps the target of the parent, that is the target of
    genesis. -/
theorem target_eq (hkeeps : ∀ (i : ℕ) (parent : ChainHeader), list[i]? = some parent →
      parent.header.difficultyTarget = genesis.header.difficultyTarget →
      RuleTarget opts.retarget opts.engine.retargets list i parent.header
        parent.header.difficultyTarget) {i : ℕ} {c : ChainHeader} (hc : list[i]? = some c) :
    c.header.difficultyTarget = genesis.header.difficultyTarget := by
  induction i generalizing c with
  | zero =>
    cases h.first.symm.trans hc
    rfl
  | succ i ih =>
    have hlt : i + 1 < list.length := (List.getElem?_eq_some_iff.1 hc).1
    have hp : list[i]? = some list[i] := getElem?_eq_getElem (by omega)
    have hrule := (expectedTargetFor_iff h.resolves hp).2 (hkeeps i _ hp (ih hp))
    have heq := (h.targets i _ c hp hc).symm.trans hrule
    rw [Except.ok.injEq] at heq
    rw [heq, ih hp]

/-- Where the target of genesis is kept every header has it. -/
theorem target_of_keeps (hkeeps : KeepsTarget opts params chain headers batch list genesis)
    {i : ℕ} {c : ChainHeader} (hc : list[i]? = some c) :
    c.header.difficultyTarget = genesis.header.difficultyTarget := by
  cases i with
  | zero =>
    cases h.first.symm.trans hc
    rfl
  | succ i =>
    have hlt : i + 1 < list.length := (List.getElem?_eq_some_iff.1 hc).1
    have hp : list[i]? = some list[i] := getElem?_eq_getElem (by omega)
    exact Except.ok.inj ((h.targets i _ c hp hc).symm.trans (hkeeps i _ hp).1)

end OnTime

/-- A chain on time keeps the target of genesis, if it does not come to a retarget,
    or periods are longer than a block and the target is one that the rule could
    have written. -/
theorem onTime_iff (opts : NodeOptions) (params : SpvParams) (chain : ChainState)
    (headers : HeaderIndex) (batch : OrdMap Text BlockHeader) (list : List ChainHeader)
    (genesis : ChainHeader) (h : OnTime opts chain headers batch list genesis)
    (hrules : params.consensus.toRetargetRules = opts.retarget)
    (hinterval : 1 ≤ opts.retarget.difficultyRetargetInterval)
    (htime : 1 ≤ opts.retarget.targetBlockTimeMs)
    (hf : 1 ≤ opts.retarget.maxDifficultyAdjustmentFactor) :
    KeepsTarget opts params chain headers batch list genesis ↔
      (opts.engine.retargets → opts.retarget.difficultyRetargetInterval ≤ list.length →
        opts.retarget.difficultyRetargetInterval ≠ 1 ∧
        IsTarget genesis.header.difficultyTarget) := by
  constructor
  · intro hkeeps hengine hlength
    -- The first retarget is after the last block of the first period.
    have hp : list[opts.retarget.difficultyRetargetInterval - 1]? =
        some list[opts.retarget.difficultyRetargetInterval - 1] :=
      getElem?_eq_getElem (by omega)
    have hmod : (opts.retarget.difficultyRetargetInterval - 1 + 1) %
        opts.retarget.difficultyRetargetInterval = 0 := by
      rw [Nat.sub_add_cancel hinterval, Nat.mod_self]
    have hrule := (expectedTargetFor_iff h.resolves hp).1 (hkeeps _ _ hp).1
    rw [← h.target_of_keeps hkeeps hp] at hrule ⊢
    obtain ⟨hpos, htarget⟩ := (h.ruleTarget_iff hp htime hf hinterval).1 hrule hengine hmod
    exact ⟨by omega, htarget⟩
  · intro hcond
    have hkeeps : ∀ (i : ℕ) (parent : ChainHeader), list[i]? = some parent →
        parent.header.difficultyTarget = genesis.header.difficultyTarget →
        RuleTarget opts.retarget opts.engine.retargets list i parent.header
          parent.header.difficultyTarget := by
      intro i parent hparent htarget
      refine (h.ruleTarget_iff hparent htime hf hinterval).2 fun hengine hmod => ?_
      have hlt : i < list.length := (List.getElem?_eq_some_iff.1 hparent).1
      have hle := Nat.le_of_dvd (Nat.succ_pos i) (Nat.dvd_of_mod_eq_zero hmod)
      obtain ⟨hone, hgenesis⟩ := hcond hengine (hle.trans hlt)
      exact ⟨by omega, htarget ▸ hgenesis⟩
    intro i parent hparent
    have htarget := h.target_eq hkeeps hparent
    have hrule := hkeeps i parent hparent htarget
    rw [htarget] at hrule
    refine ⟨(expectedTargetFor_iff h.resolves hparent).2 hrule, fun header hheight => ?_⟩
    rw [← hrules] at hrule hinterval
    exact (requiredTarget_iff hinterval hheight).2 hrule

end Chain

/-! ## Short periods -/

/-- The sample node with periods of some blocks. -/
def periodOptions (interval : ℕ) : NodeOptions :=
  { sampleOptions with
    retarget := { targetBlockTimeMs := 1000, difficultyRetargetInterval := interval,
                  maxDifficultyAdjustmentFactor := 4 } }

/-- A client of such a node. -/
def periodParams (interval : ℕ) : SpvParams :=
  { genesisHash := sampleGenesis.hash, now := 0
    consensus :=
      { toRetargetRules := (periodOptions interval).retarget
        toEngineRules := { mode := none, authorities := none }
        maxFutureDriftMs := 0 } }

/-- The header of the sample genesis, and one that comes on time after it. -/
def genesisHeader : ChainHeader := ⟨sampleGenesis.hash, sampleGenesis.header⟩

def timedHeader : BlockHeader :=
  { sampleGenesis.header with
    previousHash := sampleGenesis.hash, height := 1
    timestamp := sampleGenesis.header.timestamp + 1000 }

/-- With periods of one block the node cannot say what the first block after genesis
    must be. -/
theorem onTime_no_gap :
    OnTime (periodOptions 1) emptyChain .empty .empty [genesisHeader] genesisHeader ∧
      ¬ KeepsTarget (periodOptions 1) (periodParams 1) emptyChain .empty .empty [genesisHeader]
        genesisHeader := by
  refine ⟨⟨⟨?_, ?_⟩, rfl, ?_, ?_⟩, fun h => ?_⟩
  · rintro (_ | i) c hc
    · cases hc
      rfl
    · cases hc
  · intro i c hc
    cases hc
  · intro i parent c _ hc
    cases hc
  · intro i parent c _ hc
    cases hc
  · have hthrows : (expectedTargetFor (periodOptions 1) emptyChain .empty .empty
        genesisHeader).toOption = none := by decide +kernel
    rw [(h 0 genesisHeader rfl).1] at hthrows
    cases hthrows

/-- Periods of two blocks: the first retarget, after two blocks, keeps the target. -/
theorem onTime_pairs :
    KeepsTarget (periodOptions 2) (periodParams 2) emptyChain .empty
      (OrdMap.empty.set sampleGenesis.hash sampleGenesis.header)
      [genesisHeader, ⟨computeBlockHash timedHeader, timedHeader⟩] genesisHeader := by
  have hlookup : lookupHeader emptyChain .empty
      (OrdMap.empty.set sampleGenesis.hash sampleGenesis.header) timedHeader.previousHash =
      some genesisHeader.header := by decide +kernel
  refine (onTime_iff (periodOptions 2) (periodParams 2) _ _ _ _ _ ⟨⟨?_, ?_⟩, rfl, ?_, ?_⟩ rfl
    (by decide) (by decide) (by decide +kernel)).2 fun _ _ => ⟨by decide, by decide +kernel,
      by decide +kernel⟩
  · rintro (_ | _ | i) c hc
    · cases hc
      rfl
    · cases hc
      rfl
    · cases hc
  · rintro (_ | i) c hc
    · cases hc
      exact ⟨genesisHeader, rfl, hlookup⟩
    · cases hc
  · rintro (_ | i) parent c hparent hc
    · cases hparent
      cases hc
      rfl
    · cases hc
  · rintro (_ | i) parent c hparent hc
    · cases hparent
      cases hc
      rfl
    · cases hc

end Plainchain
