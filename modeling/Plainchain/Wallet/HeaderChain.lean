import Plainchain.Consensus.Engine

/-!
# Walking a chain of headers

The functions of `src/wallet/spv.ts` on a chain, for headers of any kind. A wallet
walks two kinds: headers that a node serves, which are parsed first
(`Plainchain.Wallet.Spv`), and headers of its own file, of which only the shape is
checked (`Plainchain.Wallet.HeaderFile`). What the code asks of a header is
`HeaderRules`.

* `HeaderRules.verifyFrom_eq_ok`, `HeaderRules.verifyHeaderChain_eq_ok`: what a chain
  that passes satisfies;
* `HeaderRules.Hom`: a map between two kinds of header that keeps what is asked keeps
  the verdicts (`Hom.verifyHeaderChain_map`, `Hom.extendHeaderChain_map`).
-/

namespace Plainchain

open Js List

/-- What is asked of headers: `C` is a header with its hash, `H` the part that is
    hashed, `R` what is said of a chain that passes. -/
structure HeaderRules (C H R : Type) where
  engineRules : EngineRules
  /-- Root of trust. -/
  genesisHash : Text
  hash : C → Text
  header : C → H
  /-- The height, as messages have it. -/
  heightText : H → Text
  /-- The height is that of a genesis. -/
  isGenesis : H → Bool
  difficultyTarget : H → Text
  /-- The height is a multiple of the retarget interval. -/
  retargetsAt : H → Bool
  /-- Position of the header with which the period of a retarget starts. -/
  windowStart : H → Option ℕ
  nextTarget : (parent periodStart : H) → Except Text Text
  validateHeader : SignatureScheme → ConsensusEngine → (chain : List C) → (c parent : C) →
    (expectedTarget : Text) → (i : ℕ) → Verdict
  blockWork : ConsensusEngine → H → Except Text ℕ
  result : (tip : Option C) → (totalWork : ℕ) → R

/-- An objection to a header, as one to its chain. -/
def Objection.atHeight (height : Text) : Objection → Objection
  | .invalid reason => .invalid (lit "height " ++ height ++ lit ": " ++ reason)
  | .thrown message => .thrown message

/-- The signers of the headers before position `i`, newest first, as far back as the
    turn rule looks. -/
def signersBefore {C V : Type} (signer : C → Option V) (engine : ConsensusEngine) (chain : List C)
    (i : ℕ) : List V :=
  ((chain.take i).drop (i - engine.recentSignerWindow)).reverse.filterMap signer

/-- The sum of what headers weigh. -/
def sumWork {C : Type} (work : C → Except Text ℕ) (chain : List C) : Except Text ℕ :=
  chain.foldlM (fun total c => do pure (total + (← work c))) 0

namespace HeaderRules

variable {C H R : Type}

section Walk

variable (rules : HeaderRules C H R) (S : SignatureScheme) (engine : ConsensusEngine)
  (chain : List C)

/-- The header is at a height where the target changes. -/
def atRetarget (header : H) : Bool := engine.retargets && rules.retargetsAt header

/-- The header with which the period starts that the retarget measures. -/
def periodStart (header : H) : Option C := (rules.windowStart header).bind (chain[·]?)

/-- The target a header has to have, given its parent and the chain: that of the
    parent, except at retarget heights. -/
def requiredTarget (header parent : H) : Except Objection Text :=
  if rules.atRetarget engine header then
    match rules.periodStart chain header with
    | none => .error (.invalid (lit "height " ++ rules.heightText header
        ++ lit ": retarget period start missing from chain"))
    | some start => attempt (rules.nextTarget parent (rules.header start))
  else .ok (rules.difficultyTarget parent)

/-- One round of the loop of `verifyFrom`: the header at position `i`. -/
def verifyAt (i : ℕ) : Verdict :=
  match chain[i]?, chain[i - 1]? with
  | some c, some parent => do
    let expectedTarget ← rules.requiredTarget engine chain (rules.header c) (rules.header parent)
    (rules.validateHeader S engine chain c parent expectedTarget i).mapError
      (Objection.atHeight (rules.heightText (rules.header c)))
  | _, _ => .ok ()

/-- Validates the headers from position `start` on, against the accepted ones
    before. -/
def verifyFrom (start : ℕ) : Verdict := do
  let engine ← attempt (createEngine rules.engineRules)
  forM (List.range' start (chain.length - start)) (rules.verifyAt S engine chain)

/-- The result for a chain that passed. -/
def headerChainResult : Except Objection R := do
  let engine ← attempt (createEngine rules.engineRules)
  let totalWork ← attempt (sumWork (fun c => rules.blockWork engine (rules.header c)) chain)
  pure (rules.result chain.getLast? totalWork)

/-- Verifies a contiguous header chain from genesis: the first header must be the
    trusted genesis, then every header is checked against its predecessor. -/
def verifyHeaderChain : Except Objection R :=
  match chain with
  | [] => .error (.invalid (lit "empty chain: expected genesis first"))
  | first :: rest => do
    refuse (rules.isGenesis (rules.header first) = false ∨ rules.hash first ≠ rules.genesisHash)
      (lit "chain does not start at the trusted genesis " ++ rules.genesisHash)
    rules.verifyFrom S (first :: rest) 1
    rules.headerChainResult (first :: rest)

/-- Appends `additions` to an already verified `chain`, checking only the new
    headers. -/
def extendHeaderChain (additions : List C) : Except Objection (List C × R) :=
  match chain with
  | [] => do
    let result ← rules.verifyHeaderChain S additions
    pure (additions, result)
  | first :: rest => do
    let extended := first :: rest ++ additions
    rules.verifyFrom S extended (first :: rest).length
    let result ← rules.headerChainResult extended
    pure (extended, result)

/-- The header at a position is valid after the ones before it. -/
def ValidAt (i : ℕ) : Prop :=
  ∀ c parent, chain[i]? = some c → chain[i - 1]? = some parent →
    ∃ target, rules.requiredTarget engine chain (rules.header c) (rules.header parent) =
        .ok target ∧ rules.validateHeader S engine chain c parent target i = .ok ()

/-- The first header is the genesis that is trusted. -/
def StartsAtGenesis : Prop :=
  ∃ first ∈ chain.head?, rules.isGenesis (rules.header first) = true ∧
    rules.hash first = rules.genesisHash

end Walk

/-! ## What passes -/

section Passes

variable {rules : HeaderRules C H R} {S : SignatureScheme} {engine : ConsensusEngine}
  {chain : List C}

theorem verifyAt_eq_ok {i : ℕ} :
    rules.verifyAt S engine chain i = .ok () ↔ rules.ValidAt S engine chain i := by
  unfold verifyAt ValidAt
  split
  · next c parent hc hparent =>
    simp only [bind_eq_ok, mapError_eq_ok, hc, hparent, Option.some.injEq]
    exact ⟨fun h _ _ hc' hparent' => hc' ▸ hparent' ▸ h, fun h => h c parent rfl rfl⟩
  · next hnone => exact ⟨fun _ c parent hc hparent => absurd hparent (hnone c parent hc), fun _ => rfl⟩

theorem verifyFrom_eq_ok {start : ℕ} :
    rules.verifyFrom S chain start = .ok () ↔
      ∃ engine, createEngine rules.engineRules = .ok engine ∧
        ∀ i, start ≤ i → i < chain.length → rules.verifyAt S engine chain i = .ok () := by
  simp only [verifyFrom, bind_eq_ok, attempt_eq_ok, forM_eq_ok, mem_range'_1]
  refine exists_congr fun engine => and_congr_right fun _ => forall_congr' fun i => ?_
  constructor
  · intro h hs hi
    exact h ⟨hs, by omega⟩
  · rintro h ⟨hs, hi⟩
    exact h hs (by omega)

theorem headerChainResult_eq_ok {r : R} : rules.headerChainResult chain = .ok r ↔
    ∃ engine work, createEngine rules.engineRules = .ok engine ∧
      sumWork (fun c => rules.blockWork engine (rules.header c)) chain = .ok work ∧
      rules.result chain.getLast? work = r := by
  simp only [headerChainResult, bind_eq_ok, attempt_eq_ok, pure, Except.pure, Except.ok.injEq,
    exists_and_left]

theorem verifyHeaderChain_eq_ok {r : R} : rules.verifyHeaderChain S chain = .ok r ↔
    rules.StartsAtGenesis chain ∧ rules.verifyFrom S chain 1 = .ok () ∧
      rules.headerChainResult chain = .ok r := by
  cases chain with
  | nil => simp [verifyHeaderChain, StartsAtGenesis]
  | cons first rest =>
    simp only [verifyHeaderChain, StartsAtGenesis, seq_eq_ok, refuse_eq_ok, not_or, not_not,
      Bool.not_eq_false, head?_cons, Option.mem_some_iff, exists_eq_left']

end Passes

/-! ## Maps between kinds of header -/

/-- What is asked of a header of one kind is what is asked of its image. -/
structure Hom {C' H' R' : Type} (rules : HeaderRules C H R) (rules' : HeaderRules C' H' R')
    (f : C → C') (g : H → H') (k : R → R') : Prop where
  engineRules : rules'.engineRules = rules.engineRules
  genesisHash : rules'.genesisHash = rules.genesisHash
  hash : ∀ c, rules'.hash (f c) = rules.hash c
  header : ∀ c, rules'.header (f c) = g (rules.header c)
  heightText : ∀ h, rules'.heightText (g h) = rules.heightText h
  isGenesis : ∀ h, rules'.isGenesis (g h) = rules.isGenesis h
  difficultyTarget : ∀ h, rules'.difficultyTarget (g h) = rules.difficultyTarget h
  retargetsAt : ∀ h, rules'.retargetsAt (g h) = rules.retargetsAt h
  windowStart : ∀ h, rules'.windowStart (g h) = rules.windowStart h
  nextTarget : ∀ h h', rules'.nextTarget (g h) (g h') = rules.nextTarget h h'
  validateHeader : ∀ S engine chain c parent target i,
    rules'.validateHeader S engine (chain.map f) (f c) (f parent) target i =
      rules.validateHeader S engine chain c parent target i
  blockWork : ∀ engine h, rules'.blockWork engine (g h) = rules.blockWork engine h
  result : ∀ c work, rules'.result (some (f c)) work = k (rules.result (some c) work)

namespace Hom

variable {C' H' R' : Type} {rules : HeaderRules C H R} {rules' : HeaderRules C' H' R'} {f : C → C'}
  {g : H → H'} {k : R → R'} (hom : rules.Hom rules' f g k) (S : SignatureScheme)
  (engine : ConsensusEngine) (chain : List C)

include hom

theorem requiredTarget_map (header parent : H) :
    rules'.requiredTarget engine (chain.map f) (g header) (g parent) =
      rules.requiredTarget engine chain header parent := by
  have hstart : rules'.periodStart (chain.map f) (g header) =
      (rules.periodStart chain header).map f := by
    simp only [periodStart, hom.windowStart, getElem?_map, Option.map_bind, Function.comp_def]
  simp only [requiredTarget, atRetarget, hom.retargetsAt, hstart, hom.heightText,
    hom.difficultyTarget]
  cases rules.periodStart chain header with
  | none => rfl
  | some start =>
    simp only [Option.map_some, hom.header, hom.nextTarget]
    rfl

theorem verifyAt_map (i : ℕ) :
    rules'.verifyAt S engine (chain.map f) i = rules.verifyAt S engine chain i := by
  unfold verifyAt
  rw [getElem?_map, getElem?_map]
  cases chain[i]? with
  | none => rfl
  | some c =>
    cases chain[i - 1]? with
    | none => rfl
    | some parent =>
      simp only [Option.map_some, hom.header, hom.requiredTarget_map, hom.heightText,
        hom.validateHeader]

theorem verifyFrom_map (start : ℕ) :
    rules'.verifyFrom S (chain.map f) start = rules.verifyFrom S chain start := by
  simp only [verifyFrom, hom.engineRules, length_map, funext (hom.verifyAt_map S _ chain)]

theorem headerChainResult_map (hne : chain ≠ []) :
    rules'.headerChainResult (chain.map f) = k <$> rules.headerChainResult chain := by
  simp only [headerChainResult, hom.engineRules, sumWork, foldlM_map, hom.header,
    hom.blockWork, getLast?_map, getLast?_eq_some_getLast hne, Option.map_some,
    hom.result, map_bind, map_pure]

/-- The verdict on a chain is the one on its image. -/
theorem verifyHeaderChain_map :
    rules'.verifyHeaderChain S (chain.map f) = k <$> rules.verifyHeaderChain S chain := by
  cases chain with
  | nil => rfl
  | cons first rest =>
    have hfrom := hom.verifyFrom_map S (first :: rest) 1
    have hresult := hom.headerChainResult_map (first :: rest) (cons_ne_nil _ _)
    rw [map_cons] at hfrom hresult
    simp only [map_cons, verifyHeaderChain, hfrom, hresult, hom.header, hom.isGenesis,
      hom.hash, hom.genesisHash, map_bind]

theorem extendHeaderChain_map (additions : List C) :
    rules'.extendHeaderChain S (chain.map f) (additions.map f) =
      Prod.map (List.map f) k <$> rules.extendHeaderChain S chain additions := by
  cases chain with
  | nil =>
    simp only [map_nil, extendHeaderChain, hom.verifyHeaderChain_map, map_bind, bind_map_left,
      map_pure, Prod.map_apply]
  | cons first rest =>
    have hfrom := hom.verifyFrom_map S (first :: rest ++ additions) (first :: rest).length
    have hresult := hom.headerChainResult_map (first :: rest ++ additions) (by simp)
    simp only [map_append, map_cons, length_cons] at hfrom hresult
    simp only [map_cons, extendHeaderChain, length_cons, length_map, hfrom, hresult,
      map_bind, bind_map_left, map_pure, Prod.map_apply, map_append]

end Hom

end HeaderRules

theorem signersBefore_map {C C' V V' : Type} {signer : C → Option V} {signer' : C' → Option V'}
    {f : C → C'} {g : V → V'} (hsigner : ∀ c, signer' (f c) = (signer c).map g)
    (engine : ConsensusEngine) (chain : List C) (i : ℕ) :
    signersBefore signer' engine (chain.map f) i = (signersBefore signer engine chain i).map g := by
  simp only [signersBefore, ← map_take, ← map_drop, ← map_reverse,
    filterMap_map, map_filterMap, Function.comp_def, hsigner]

end Plainchain
