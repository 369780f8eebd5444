import Plainchain.Node.Orphans

/-!
# Blocks that fail in a replay

A block of a side chain is stored without a look at its transactions. They are
looked at when a descendant makes the chain heavier than the canonical one: then
the chain is connected block by block, and the first one whose transactions fail
ends the adoption (`failingBlock`). The handler of `src/node/node.ts` rejects the head
that has just arrived, with what waits for it (`rejected_rejectBlockFrom`), and not
the block that failed.

* `replay_remembered_iff`: the block that failed and what descends from it are
  known to be invalid afterwards if and only if all of these are the head, or wait
  behind it, or were known to be invalid before;
* `ancestor_forgotten`: the head of a side chain whose first block fails.
-/

namespace Plainchain

open Js Kv Prog Relation

/-! ## Rejection -/

section Reject

variable {fuel : ℕ} {blame : Bool} {w w' : World} {hash : Text}

/-- The groups of the pool, but for those of the parents in a set. -/
structure Removed (s : Set Text) (w w' : World) : Prop where
  get : ∀ parent, parent ∉ s →
    w'.orphansByMissingParent.get parent = w.orphansByMissingParent.get parent
  get_none : ∀ parent ∈ s, w'.orphansByMissingParent.get parent = none

theorem Removed.waits_iff {s : Set Text} (h : Removed s w w') {parent : Text} :
    Waits w' parent hash ↔ Reach.Outside (Waits w) s parent hash := by
  rw [Reach.Outside, Waits, Waits]
  by_cases hp : parent ∈ s
  · simp [h.get_none parent hp, hp]
  · simp [h.get parent hp, hp]

theorem Removed.behind_iff {s : Set Text} (h : Removed s w w') {a b : Text} :
    Behind w' a b ↔ ReflTransGen (Reach.Outside (Waits w) s) a b := by
  have : Waits w' = Reach.Outside (Waits w) s := by
    funext parent hash
    exact propext h.waits_iff
  rw [Behind, this]

/-- What waits behind one of several blocks. -/
def behindAny (w : World) (roots : Set Text) : Set Text := {hash | ∃ root ∈ roots, Behind w root hash}

theorem mem_behindAny {roots : Set Text} :
    hash ∈ behindAny w roots ↔ ∃ root ∈ roots, Behind w root hash := Iff.rfl

theorem behindAny_singleton (w : World) (a : Text) :
    behindAny w {a} = {hash | Behind w a hash} := by
  simp [behindAny]

/-- Blocks rejected one after the other, each with what waits behind it. -/
structure Rejected (roots : Set Text) (w w' : World) : Prop where
  invalid : ∀ hash, hash ∈ w'.invalidBlockHashes ↔
    hash ∈ w.invalidBlockHashes ∨ hash ∈ behindAny w roots
  removed : Removed (behindAny w roots) w w'

theorem Rejected.empty (w : World) : Rejected ∅ w w where
  invalid := by simp [mem_behindAny]
  removed := ⟨fun _ _ => rfl, by simp [mem_behindAny]⟩

/-- What has been rejected need not be rejected again. -/
theorem Rejected.trans {a : Text} {roots : Set Text} {w'' : World} (h : Rejected {a} w w')
    (h' : Rejected roots w' w'') : Rejected (insert a roots) w w'' := by
  have hbehind : ∀ {root hash}, Behind w' root hash ↔
      ReflTransGen (Reach.Outside (Waits w) {c | Behind w a c}) root hash := by
    intro root hash
    rw [h.removed.behind_iff, behindAny_singleton]
  have hpast : ∀ hash, hash ∈ behindAny w (insert a roots) ↔
      hash ∈ behindAny w {a} ∨ hash ∈ behindAny w' roots := by
    intro hash
    simp only [mem_behindAny, Set.mem_insert_iff, exists_eq_or_imp, Set.mem_singleton_iff,
      exists_eq_left, hbehind]
    constructor
    · rintro (ha | ⟨root, hroot, hr⟩)
      · exact .inl ha
      · exact (Reach.reaches_past.1 (.inr hr)).imp id fun h => ⟨root, hroot, h⟩
    · rintro (ha | ⟨root, hroot, hr⟩)
      · exact .inl ha
      · exact .inr ⟨root, hroot, Reach.of_outside hr⟩
  refine ⟨fun hash => ?_, fun parent hp => ?_, fun parent hp => ?_⟩
  · rw [h'.invalid, h.invalid, hpast, or_assoc]
  · rw [hpast, not_or] at hp
    rw [h'.removed.get parent hp.2, h.removed.get parent hp.1]
  · rw [hpast] at hp
    by_cases hlater : parent ∈ behindAny w' roots
    · exact h'.removed.get_none parent hlater
    · rw [h'.removed.get parent hlater]
      exact h.removed.get_none parent (hp.resolve_right hlater)

theorem Rejected.congr {roots : Set Text} {w₁ : World} (h : Rejected roots w₁ w')
    (hpool : w₁.orphansByMissingParent = w.orphansByMissingParent)
    (hinvalid : w₁.invalidBlockHashes = w.invalidBlockHashes) : Rejected roots w w' := by
  have hbehind : behindAny w₁ roots = behindAny w roots := by
    have hwaits : Waits w₁ = Waits w := by
      funext parent hash
      rw [Waits, hpool, Waits]
    simp only [behindAny, Behind, hwaits]
  obtain ⟨hi, hget, hnone⟩ := h
  rw [hbehind, hpool] at hget
  rw [hbehind] at hnone
  rw [hbehind, hinvalid] at hi
  exact ⟨hi, hget, hnone⟩

/-- A block is rejected when it is marked, its group is taken out of the pool, and
    the blocks of the group are rejected. -/
theorem Rejected.of_dependents {a : Text} {w₁ : World}
    (hpool : w₁.orphansByMissingParent = w.orphansByMissingParent.delete a)
    (hinvalid : w₁.invalidBlockHashes = insert a w.invalidBlockHashes)
    (h : Rejected {hash | Waits w a hash} w₁ w') : Rejected {a} w w' := by
  have hdelete : Removed {a} w w₁ := by
    refine ⟨fun parent hp => ?_, fun parent hp => ?_⟩
    · rw [hpool, OrdMap.get_delete, if_neg (Set.mem_singleton_iff.not.1 hp)]
    · rw [hpool, OrdMap.get_delete, if_pos (Set.mem_singleton_iff.1 hp)]
  have hbehind : ∀ hash, hash ∈ behindAny w {a} ↔
      hash = a ∨ hash ∈ behindAny w₁ {hash | Waits w a hash} := by
    intro hash
    rw [mem_behindAny, mem_behindAny]
    simp only [hdelete.behind_iff, Set.mem_singleton_iff, exists_eq_left]
    exact Reach.reaches_iff
  refine ⟨fun hash => ?_, fun parent hp => ?_, fun parent hp => ?_⟩
  · rw [h.invalid, hbehind, hinvalid, Finset.mem_insert, ← or_assoc]
    exact or_congr_left or_comm
  · rw [hbehind, not_or] at hp
    rw [h.removed.get parent hp.2, hdelete.get parent hp.1]
  · rw [hbehind] at hp
    by_cases hlater : parent ∈ behindAny w₁ {hash | Waits w a hash}
    · exact h.removed.get_none parent hlater
    · rw [h.removed.get parent hlater]
      exact hdelete.get_none parent (hp.resolve_right hlater)

theorem listedOrphans_delete (w : World) (hash : Text) :
    listedOrphans w = ((w.orphansByMissingParent.get hash).getD []).length +
      listedOrphans { w with orphansByMissingParent := w.orphansByMissingParent.delete hash } := by
  rw [← length_listed, (perm_listed w hash).length_eq, List.length_append, ← length_listed]
  rfl

/-- A rejection takes blocks out of the pool only. -/
theorem listedOrphans_rejectBlockFrom_le (fuel : ℕ) (block : Block) (fromNodeId reason : Text)
    (blame : Bool) (w : World) :
    listedOrphans (rejectBlockFrom fuel block fromNodeId reason blame w) ≤ listedOrphans w := by
  refine rejectBlockFrom_rel (R := fun w w' => listedOrphans w' ≤ listedOrphans w)
    (fun _ => le_rfl) (fun h h' => h'.trans h) (fun _ _ _ _ _ => le_rfl) (fun w hash => ?_)
    (fun _ _ => le_rfl) fuel block fromNodeId reason blame w
  rw [listedOrphans_delete w hash]
  exact Nat.le_add_left _ _

/-- A rejection with rounds for all blocks of the pool makes invalid the block and
    what waits behind it, and takes that out of the pool. -/
theorem rejected_rejectBlockFrom (block : Block) (fromNodeId reason : Text)
    (hfuel : listedOrphans w < fuel) :
    Rejected {block.hash} w (rejectBlockFrom fuel block fromNodeId reason blame w) := by
  induction fuel generalizing block fromNodeId reason w with
  | zero => exact absurd hfuel (Nat.not_lt_zero _)
  | succ fuel ih =>
    have hfold : ∀ (dependents : List Orphan) (w : World),
        (dependents ≠ [] → listedOrphans w < fuel) →
        Rejected {hash | ∃ o ∈ dependents, o.hash = hash} w
          (dependents.foldl (rejectDependent fuel blame) w) := by
      intro dependents
      induction dependents with
      | nil =>
        intro w _
        simpa using Rejected.empty w
      | cons o dependents ihd =>
        intro w hlisted
        have hlt := hlisted (List.cons_ne_nil _ _)
        have hstruck := ih (w := { w with orphanHashes := w.orphanHashes.erase o.block.hash })
          o.block o.fromNodeId (lit "builds on a known-invalid block") hlt
        have hfirst := hstruck.congr (w := w) rfl rfl
        have hroots : {hash | ∃ o' ∈ o :: dependents, o'.hash = hash} =
            insert o.hash {hash | ∃ o' ∈ dependents, o'.hash = hash} := by
          ext hash
          simp [eq_comm]
        rw [hroots]
        exact hfirst.trans (ihd _ fun _ =>
          (listedOrphans_rejectBlockFrom_le _ _ _ _ _ _).trans_lt hlt)
    refine .of_dependents rfl rfl (hfold _ _ fun hne => ?_)
    have hsplit := listedOrphans_delete w block.hash
    have hpos := List.length_pos_iff.2 hne
    change listedOrphans { w with
      orphansByMissingParent := w.orphansByMissingParent.delete block.hash } < fuel
    omega

end Reject

/-! ## The adoption of a head -/

section Adoption

variable (opts : NodeOptions) (env : Env)

/-- `handleIncomingBlock` for a valid block, as far as its adoption: whether it is
    adopted. -/
def choosesBlock (block parent : Block) : NodeM Bool := do
  let chain ← Prog.reads fun w => w.chain
  match ← onHeaders (getIndexedHeader opts env chain parent.hash) with
  | none => pure false
  | some parentIndexed => do
    putBlock env block
    Prog.writes fun w => { w with processedBlockHashes := insert block.hash w.processedBlockHashes }
    let added ← Prog.lift (blockWork opts block.header)
    indexBlock env block (parentIndexed.work + added)
    let current ← currentWork opts env
    pure (isBetterChain (parentIndexed.work + added) current)

/-- The block whose transactions fail when a chosen head is adopted, if one does. -/
def replayFailure (block : Block) (w : World) : Option Text :=
  match ((adoptBlock opts env block).exec w).1 with
  | .error (.replay blockHash _) => some blockHash
  | _ => none

/-- The block at which the adoption of an incoming head fails, if it comes to it. -/
def failingBlock (w : World) (block : Block) : Option Text :=
  if block.hash ∈ w.processedBlockHashes ∨ block.hash ∈ w.invalidBlockHashes then none
  else if block.header.previousHash ∈ w.invalidBlockHashes then none
  else
    match w.chain.getBlock block.header.previousHash with
    | none => none
    | some parent =>
      if conflictsWithVerifiedCheckpoint w.chain w.verifiedCheckpointHeight block.header.height
          block.hash then none
      else
        match blockContext opts env w block parent with
        | .error _ => none
        | .ok ctx =>
          if validateBlock opts.signatures block ctx = .ok () then
            match (choosesBlock opts env block parent).exec w with
            | (.ok true, w') => replayFailure opts env block w'
            | _ => none
          else none

variable {opts env} {w w' : World} {block parent : Block} {fromNodeId : Text}

/-- A block that is chosen is adopted or rejected. -/
theorem exec_acceptBlock (h : (choosesBlock opts env block parent).exec w = (.ok true, w')) :
    (acceptBlock opts env block fromNodeId parent).exec w =
      (adoptOrReject opts env block fromNodeId).exec w' := by
  rw [choosesBlock, bind_returns] at h
  obtain ⟨chain, w₁, hchain, h⟩ := h
  rw [bind_returns] at h
  obtain ⟨found, w₂, hfound, h⟩ := h
  rw [acceptBlock, exec_bind, hchain]
  dsimp only
  rw [exec_bind, hfound]
  cases found with
  | none => cases h
  | some parentIndexed =>
    simp only [bind_returns] at h
    obtain ⟨_, w₃, hput, _, w₄, hwrite, added, w₅, hadded, _, w₆, hindex, current, w₇, hcurrent, h⟩ := h
    dsimp only
    rw [exec_bind, hput]
    dsimp only
    rw [decideFork, exec_bind, hwrite]
    dsimp only
    rw [exec_bind, hadded]
    dsimp only
    rw [exec_bind, hindex]
    dsimp only
    rw [exec_bind, hcurrent]
    dsimp only
    rw [exec_pure, Prod.mk.injEq, Except.ok.injEq] at h
    rw [if_pos h.1, h.2]

theorem untouched_choosesBlock : Keeps Untouched (choosesBlock opts env block parent) := by
  refine .bind (.reads _) fun chain => .bind (Untouched.onHeaders _) fun found => ?_
  cases found with
  | none => exact .pure _
  | some parentIndexed =>
    exact .bind (Untouched.putBlock _) fun _ => .bind (fun _ => ⟨⟨rfl, rfl⟩, rfl⟩) fun _ =>
      .bind (.lift _) fun _ => .bind (Untouched.indexBlock _ _) fun _ =>
      .bind Untouched.currentWork fun _ => .pure _

theorem replayFailure_eq_some {failing : Text} (h : replayFailure opts env block w = some failing) :
    ∃ w' detail, (adoptBlock opts env block).exec w = (.error (.replay failing detail), w') := by
  unfold replayFailure at h
  split at h
  · next detail hrun =>
    cases h
    exact ⟨_, detail, Prod.ext hrun rfl⟩
  · cases h

/-- Where an adoption fails, the head is rejected. -/
theorem exec_evaluateBlock_failing {failing : Text} (h : failingBlock opts env w block = some failing)
    (fromNodeId : Text) :
    ∃ w₁ detail, Untouched w w₁ ∧ (evaluateBlock opts env block fromNodeId).exec w =
      (.ok false, rejectBlockFrom (listedOrphans w₁ + 1) block fromNodeId
        (lit "block " ++ failing ++ lit " failed state replay: " ++ detail) true w₁) := by
  unfold failingBlock at h
  split at h
  · cases h
  next hknown =>
  split at h
  · cases h
  next hparent =>
  split at h
  · cases h
  next parent hstored =>
  split at h
  · cases h
  next hconflict =>
  split at h
  · cases h
  next ctx hctx =>
  split at h
  swap
  · cases h
  next hvalid =>
  split at h
  swap
  · cases h
  next w₁ hchosen =>
  obtain ⟨w₂, detail, hadopt⟩ := replayFailure_eq_some h
  have hsame : Untouched w w₂ := by
    have h₁ : Untouched w ((choosesBlock opts env block parent).exec w).2 :=
      untouched_choosesBlock w
    have h₂ : Untouched w₁ ((adoptBlock opts env block).exec w₁).2 := Untouched.adoptBlock block w₁
    rw [hchosen] at h₁
    rw [hadopt] at h₂
    exact IsTrans.trans _ _ _ h₁ h₂
  refine ⟨w₂, detail, hsame, ?_⟩
  rw [evaluateBlock, exec_bind, exec_reads]
  dsimp only [id_eq]
  rw [if_neg hknown, if_neg hparent, hstored]
  dsimp only
  rw [if_neg hconflict, validateAndAccept, exec_bind, exec_reads]
  dsimp only [id_eq]
  rw [exec_bind, exec_lift, hctx]
  dsimp only
  rw [hvalid]
  dsimp only
  rw [exec_acceptBlock hchosen, adoptOrReject, exec_bind, exec_tryCatch, exec_bind, hadopt]
  rfl

end Adoption

/-! ## What is remembered -/

/-- A block is queued on a parent, or stored on it. The incoming head is stored. -/
def BuildsOn (w : World) (head : Block) (parent hash : Text) : Prop :=
  Waits w parent hash ∨
  (head.hash = hash ∧ head.header.previousHash = parent) ∨
  ∃ child, w.chain.getBlock hash = some child ∧ child.header.previousHash = parent

/-- The hash of a block, and those of its descendants. -/
def Descends (w : World) (head : Block) : Text → Text → Prop :=
  Relation.ReflTransGen (BuildsOn w head)

/-- Afterwards a block and its descendants are known to be invalid. -/
def Remembers (w w' : World) (head : Block) (failing : Text) : Prop :=
  ∀ hash, Descends w head failing hash → hash ∈ w'.invalidBlockHashes

section Remember

variable {opts : NodeOptions} {env : Env} {w : World} {head : Block} {failing : Text}

/-- What builds on a block that is known to be invalid is rejected, unless it was
    decided on before. The chain is not touched. -/
theorem handleIncomingBlock_spoiled (opts : NodeOptions) (env : Env) {block : Block}
    (h : block.header.previousHash ∈ w.invalidBlockHashes) (fromNodeId : Text) :
    ∃ w', (handleIncomingBlock opts env block fromNodeId).exec w = (.ok (), w') ∧ Notes w w' ∧
      (block.hash ∈ w.processedBlockHashes ∨ block.hash ∈ w'.invalidBlockHashes) := by
  rw [handleIncomingBlock, exec_bind, exec_reads]
  dsimp only
  rw [handleBlockFrom, exec_bind, evaluateBlock, exec_bind, exec_reads]
  dsimp only [id_eq]
  by_cases hknown : block.hash ∈ w.processedBlockHashes ∨ block.hash ∈ w.invalidBlockHashes
  · rw [if_pos hknown]
    exact ⟨w, rfl, .refl w, hknown⟩
  · rw [if_neg hknown, if_pos h]
    refine ⟨_, rfl, rejectBlockFrom_notes _ _ _ _ _ _, .inr ?_⟩
    refine ((rejected_rejectBlockFrom block _ _ (Nat.lt_succ_self _)).invalid _).2 (.inr ?_)
    exact mem_behindAny.2 ⟨_, rfl, .refl⟩

theorem exec_handleIncomingBlock (h : failingBlock opts env w head = some failing)
    (fromNodeId : Text) :
    ∃ w', (handleIncomingBlock opts env head fromNodeId).exec w = (.ok (), w') ∧
      ∀ hash, hash ∈ w'.invalidBlockHashes ↔
        hash ∈ w.invalidBlockHashes ∨ Behind w head.hash hash := by
  obtain ⟨w₁, detail, hsame, hexec⟩ := exec_evaluateBlock_failing h fromNodeId
  have hrun : (handleIncomingBlock opts env head fromNodeId).exec w =
      (.ok (), rejectBlockFrom (listedOrphans w₁ + 1) head fromNodeId
        (lit "block " ++ failing ++ lit " failed state replay: " ++ detail) true w₁) := by
    rw [handleIncomingBlock, exec_bind, exec_reads]
    dsimp only
    rw [handleBlockFrom, exec_bind, hexec]
    rfl
  refine ⟨_, hrun, fun hash => ?_⟩
  refine (((rejected_rejectBlockFrom head fromNodeId _ (Nat.lt_succ_self _)).congr
    hsame.orphans hsame.invalid).invalid hash).trans ?_
  rw [behindAny_singleton]
  rfl

/-- The block that failed is remembered, with its descendants, if and only if each
    of these is the head or waits behind it, or was known to be invalid. What
    builds on one that is remembered is rejected without a replay. -/
theorem replay_remembered_iff (h : failingBlock opts env w head = some failing)
    (fromNodeId : Text) :
    ∃ w', (handleIncomingBlock opts env head fromNodeId).exec w = (.ok (), w') ∧
      (failing ∈ w'.invalidBlockHashes ↔
        failing ∈ w.invalidBlockHashes ∨ Behind w head.hash failing) ∧
      (Remembers w w' head failing ↔ ∀ hash, Descends w head failing hash →
        hash ∈ w.invalidBlockHashes ∨ Behind w head.hash hash) ∧
      (Remembers w w' head failing → ∀ (w₁ : World) (later : Block),
        w'.invalidBlockHashes ⊆ w₁.invalidBlockHashes →
        Descends w head failing later.header.previousHash →
        ∀ (env' : Env) (peer : Text), ∃ w₂,
          (handleIncomingBlock opts env' later peer).exec w₁ = (.ok (), w₂) ∧ Notes w₁ w₂ ∧
          (later.hash ∈ w₁.processedBlockHashes ∨ later.hash ∈ w₂.invalidBlockHashes)) := by
  obtain ⟨w', hexec, hinvalid⟩ := exec_handleIncomingBlock h fromNodeId
  refine ⟨w', hexec, hinvalid failing, ?_, fun hremembers w₁ later hkept hdescends env' peer => ?_⟩
  · exact forall₂_congr fun hash _ => hinvalid hash
  · exact handleIncomingBlock_spoiled opts env' (hkept (hremembers _ hdescends)) peer

end Remember

/-! ## A side chain -/

/-- A transaction that spends an output that there is not. -/
def phantomSpend : Transaction :=
  UnsignedTransactionBody.identified
    { inputs := [⟨ZERO_HASH, .ofNat 0, lit "", lit ""⟩], outputs := [⟨ZERO_HASH, 1⟩],
      timestamp := .ofNat 2, fee := 0, data := none }

/-- A block on genesis with that transaction. -/
def phantomBlock : Block :=
  let transactions := [sampleCoinbase 49 0, phantomSpend]
  let root := (merkleRoot (transactions.map Transaction.id)).toOption.getD []
  let header := { firstBlock.header with merkleRoot := root }
  { header, transactions, hash := computeBlockHash header }

/-- A valid block on top of it. -/
def phantomChild : Block := sampleBlock phantomBlock (sampleCoinbase 48 0)

/-- In a fresh node the block is the head that fails, and it is remembered. -/
theorem replay_remembered_head :
    failingBlock sampleOptions sampleEnv (started sampleOptions) phantomBlock =
      some phantomBlock.hash ∧
    ∃ w', (handleIncomingBlock sampleOptions sampleEnv phantomBlock (lit "p")).exec
        (started sampleOptions) = (.ok (), w') ∧
      Remembers (started sampleOptions) w' phantomBlock phantomBlock.hash := by
  have hreads : failingBlock sampleOptions sampleEnv (started sampleOptions) phantomBlock =
        some phantomBlock.hash ∧
      (sampleGenesis.hash ≠ phantomBlock.hash ∧ ZERO_HASH ≠ phantomBlock.hash) ∧
      (started sampleOptions).orphansByMissingParent.entries = [] := by decide +kernel
  obtain ⟨hfails, hne, hpool⟩ := hreads
  -- Nothing builds on the block yet.
  have hnone : ∀ hash, ¬BuildsOn (started sampleOptions) phantomBlock phantomBlock.hash hash := by
    rintro hash (⟨o, ho, -⟩ | ⟨-, hparent⟩ | ⟨child, hchild, hparent⟩)
    · rw [OrdMap.get, hpool] at ho
      cases ho
    · exact hne.1 hparent
    · obtain ⟨coinbase, undo, u, work, -, -, -, hstarted⟩ := start_eq_ok start_sample
      rw [hstarted] at hchild
      cases (getBlock_genesisOps_eq_some hchild).2
      exact hne.2 hparent
  obtain ⟨w', hexec, -, hiff, -⟩ := replay_remembered_iff hfails (lit "p")
  refine ⟨hfails, w', hexec, hiff.2 fun hash hdescends => .inr ?_⟩
  rcases hdescends.cases_head with rfl | ⟨hash, hbuilds, -⟩
  · exact .refl
  · exact absurd hbuilds (hnone hash)

/-- The block comes second and is stored, as it makes no heavier chain. When a
    block on top of it arrives, the adoption of that one fails at it, and only
    that one is rejected. -/
theorem ancestor_forgotten :
    Reachable sampleOptions Set.univ (receivedRun [firstBlock, phantomBlock]) ∧
    failingBlock sampleOptions sampleEnv (receivedRun [firstBlock, phantomBlock]).toWorld
      phantomChild = some phantomBlock.hash ∧
    phantomBlock.hash ∉ ((handleIncomingBlock sampleOptions sampleEnv phantomChild (lit "p")).exec
      (receivedRun [firstBlock, phantomBlock]).toWorld).2.invalidBlockHashes :=
  ⟨reachable_receivedRun _, by decide +kernel⟩

end Plainchain
