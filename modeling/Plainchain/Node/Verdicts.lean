import Plainchain.Node.ForkChoice

/-!
# Verdicts that outlive their reason

A block whose timestamp is ahead of the clock is rejected like any other: its hash
is among the processed and the invalid ones until the process ends. Validity by
the clock is the one rule that changes with time, so that the verdict on such a
block becomes wrong, and the block is not looked at again (`clock_verdict_iff`).
-/

namespace Plainchain

open Js Kv Ancestry Prog

/-! ## Work that can be computed -/

section Measured

variable {opts : NodeOptions} {H : Set BlockHeader}

/-- A header whose work can be computed. -/
def Measured (opts : NodeOptions) (header : BlockHeader) : Prop :=
  ∃ work, blockWork opts header = .ok work

/-- Whether the work can be computed depends on the target only. -/
theorem Measured.congr {header header' : BlockHeader} (h : Measured opts header)
    (heq : header'.difficultyTarget = header.difficultyTarget) : Measured opts header' := by
  obtain ⟨work, hwork⟩ := h
  rw [blockWork] at hwork
  cases hengine : opts.engine with
  | pow =>
    refine ⟨work, ?_⟩
    rw [hengine] at hwork
    rw [blockWork, hengine, ConsensusEngine.blockWork, heq]
    exact hwork
  | poa authorities =>
    rw [Measured, blockWork, hengine, ConsensusEngine.blockWork]
    split_ifs <;> exact ⟨_, rfl⟩

/-- The target after a header with work is one with work. -/
theorem Measured.next {chain : ChainState} {headers : HeaderIndex} {parent : ChainHeader}
    {header : BlockHeader} (h : Measured opts parent.header)
    (ht : expectedTargetFor opts chain headers .empty parent = .ok header.difficultyTarget) :
    Measured opts header := by
  rcases target_of_expectedTargetFor ht with hsame | ⟨hengine, hhex⟩
  · exact h.congr hsame
  · obtain ⟨work, -, hwork⟩ := workForTarget_pos hhex
    exact ⟨work, by rw [blockWork, hengine, ConsensusEngine.blockWork, hwork]; rfl⟩

/-- The work of the chain of a stored block can be computed, where that of every
    stored block can. -/
theorem workOf_isSome {chain : ChainState} {headers : HeaderIndex} (hlinked : Linked chain)
    (hmeasured : ∀ hash block, chain.getBlock hash = some block → Measured opts block.header)
    {fuel : ℕ} {hash : Text} {block : Block} (hb : chain.getBlock hash = some block)
    (hfuel : block.header.height < fuel) :
    ∃ work, workOf opts chain headers fuel hash = .ok (some work) := by
  induction fuel generalizing hash block with
  | zero => omega
  | succ fuel ih =>
    obtain ⟨added, hadded⟩ := hmeasured hash block hb
    cases hentry : headers.get hash with
    | some entry => exact ⟨entry.work, by simp [workOf, hentry]⟩
    | none =>
      by_cases h0 : block.header.height = 0
      · refine ⟨added, ?_⟩
        simp only [workOf, hentry, hb, h0, if_true, hadded]
        rfl
      · obtain ⟨parent, hparent, hheight⟩ := hlinked hash block hb h0
        obtain ⟨work, hwork⟩ := ih hparent (by omega)
        exact ⟨work + added, by rw [workOf_block hentry hb h0 hwork, hadded]; rfl⟩

/-- What holds of the works that a node computes. -/
structure Session.Measured (opts : NodeOptions) (s : Session) : Prop where
  stored : ∀ hash block, s.chain.getBlock hash = some block → Plainchain.Measured opts block.header
  templates : ∀ template ∈ s.templates, Plainchain.Measured opts template.header

/-- The miner's blocks have work. -/
def MinesMeasured (opts : NodeOptions) (_ : World) : Label → Prop
  | .mine head => Measured opts head.header
  | _ => True

theorem lenient_minesMeasured : Lenient (MinesMeasured opts) := by
  intro w label hlabel
  cases label with
  | mine head => exact absurd rfl (hlabel head)
  | _ => trivial

variable (hinj : Set.InjOn computeBlockHash H)

include hinj

theorem Trace.measured {w w' : World} (hs : Sound opts H w)
    (ht : Trace opts H (MinesMeasured opts) w w')
    (h : ∀ hash block, w.chain.getBlock hash = some block → Measured opts block.header) :
    ∀ hash block, w'.chain.getBlock hash = some block → Measured opts block.header := by
  refine ht.invariant (P := fun w => AllStored (fun block => Measured opts block.header) w.chain) hinj
    (fun hs hC hc h => ?_) hs h
  refine hc.forall_stored hinj Measured.next hs ?_ h
  rintro head rfl
  exact hC

theorem step_measured {s : Session} {env : Env} {event : Event} (hg : s.Good opts H)
    (h : s.Measured opts) (hpossible : event.Possible s)
    (hmem : ∀ header ∈ event.headers opts, header ∈ H) : (step opts s env event).Measured opts := by
  have hmeets : event.Meets opts (MinesMeasured opts) s := by
    cases event with
    | mined template nonce key =>
      intro header hseal
      refine (h.templates template hpossible).congr ?_
      change header.difficultyTarget = _
      rw [sealHeader_eq_some hseal]
    | _ => trivial
  have hl := step_leads hinj lenient_minesMeasured hg env hpossible hmem hmeets
  refine ⟨hl.trace.measured hinj hg.sound h.stored, ?_⟩
  cases event with
  | buildBlockTemplate =>
    rw [step]
    split
    · next template hbuild =>
      intro t ht
      rcases List.mem_cons.1 ht with rfl | ht
      · obtain ⟨tip, parent, target, -, hparent, htarget, hfill⟩ := buildBlockTemplate_eq_ok hbuild
        obtain ⟨reward, bytes, -, -, -, hheader⟩ := fillTemplate_eq_ok hfill
        obtain ⟨-, hheader⟩ := headerFor_eq_ok hheader
        have hp : Plainchain.Measured opts (⟨parent.hash, parent.header⟩ : ChainHeader).header :=
          h.stored _ _ hparent
        refine hp.next (htarget.trans ?_)
        rw [hheader]
      · exact h.templates t ht
    · exact h.templates
  | mined template nonce key =>
    rw [step]
    split <;> exact h.templates
  | restart =>
    intro t ht
    cases ht
  | _ => exact h.templates

/-- The work of every block that a node has stored can be computed. -/
theorem Reachable.measured {s : Session} (hr : Reachable opts H s) : s.Measured opts := by
  refine (hr.invariant (P := fun s => s.Good opts H ∧ s.Measured opts) ?_ ?_).2
  · intro w hmem hw
    refine ⟨start_good hmem hw, ?_, by simp⟩
    obtain ⟨coinbase, undo, u, work, -, -, hwork, rfl⟩ := start_eq_ok hw
    exact allStored_genesisOps (P := fun block => Measured opts block.header) ⟨work, hwork⟩
  · rintro s env event ⟨hg, hm⟩ hp hH
    refine ⟨step_good hinj (C := fun _ _ => True) (fun _ _ _ => trivial) hg hp hH ?_,
      step_measured hinj hg hm hp hH⟩
    cases event <;> simp [Event.Meets]

end Measured

/-! ## Delivery -/

section Deliver

variable (opts : NodeOptions)

/-- A peer sends a block at a time. -/
def deliverAt (env : Env) (block : Block) (fromNodeId : Text) (s : Session) : Session :=
  step opts s env (.message (.NEW_BLOCK block) fromNodeId)

/-- A block that breaks no rule but that on the clock at `env₁`, and none at
    `env₂`. -/
structure ClockOnly (w : World) (block : Block) (env₁ env₂ : Env) : Prop where
  rules : ∃ parent ctx₁ ctx₂, w.chain.getBlock block.header.previousHash = some parent ∧
    blockContext opts env₁ w block parent = .ok ctx₁ ∧
    validateBlock opts.signatures block ctx₁ = .error (.invalid FUTURE_TIMESTAMP_REASON) ∧
    blockContext opts env₂ w block parent = .ok ctx₂ ∧
    validateBlock opts.signatures block ctx₂ = .ok ()
  unrejected : block.header.previousHash ∉ w.invalidBlockHashes
  unconflicted : ¬conflictsWithVerifiedCheckpoint w.chain w.verifiedCheckpointHeight
    block.header.height block.hash

/-- A hash on which a verdict is kept. -/
def Judged (w : World) (hash : Text) : Prop :=
  hash ∈ w.processedBlockHashes ∨ hash ∈ w.invalidBlockHashes

/-- The tip and the stored blocks agree, now and after any child of a block is
    delivered. -/
structure SameOutcome (block : Block) (s s' : Session) : Prop where
  tip : s.chain.tip = s'.chain.tip
  stored : s.chain.blocks = s'.chain.blocks
  descendants : ∀ env child fromNodeId, child.header.previousHash = block.hash →
    (deliverAt opts env child fromNodeId s).chain.tip =
      (deliverAt opts env child fromNodeId s').chain.tip ∧
    (deliverAt opts env child fromNodeId s).chain.blocks =
      (deliverAt opts env child fromNodeId s').chain.blocks

end Deliver

section Verdict

variable {opts : NodeOptions} {H : Set BlockHeader} {env env₁ env₂ : Env} {s : Session} {w : World}
  {block : Block}

/-- A block with a verdict is passed over. -/
theorem deliverAt_judged (h : Judged s.toWorld block.hash) (env : Env) (fromNodeId : Text) :
    deliverAt opts env block fromNodeId s = s := by
  have hexec : (handleIncomingBlock opts env block fromNodeId).exec s.toWorld = (.ok (), s.toWorld) := by
    simp only [handleIncomingBlock, handleBlockFrom, evaluateBlock, exec_bind, exec_reads, id_eq]
    rw [if_pos (show _ ∨ _ from h)]
    rfl
  simp only [deliverAt, step, Session.run, handleMessage, hexec]

/-- A block without one, that nothing is known against, is validated. -/
theorem exec_evaluateBlock {parent : Block} (hnew : ¬Judged w block.hash)
    (hunrejected : block.header.previousHash ∉ w.invalidBlockHashes)
    (hparent : w.chain.getBlock block.header.previousHash = some parent)
    (hunconflicted : ¬conflictsWithVerifiedCheckpoint w.chain w.verifiedCheckpointHeight
      block.header.height block.hash) (env : Env) (fromNodeId : Text) :
    (evaluateBlock opts env block fromNodeId).exec w =
      (validateAndAccept opts env block fromNodeId parent).exec w := by
  simp only [evaluateBlock, exec_bind, exec_reads, id_eq]
  rw [if_neg (show ¬(_ ∨ _) from hnew), if_neg hunrejected]
  simp only [hparent]
  rw [if_neg hunconflicted]

/-- A rejected block is in the records, and the database is left alone. -/
theorem rejectBlockFrom_records (fuel : ℕ) (block : Block) (fromNodeId reason : Text) (blame : Bool)
    (w : World) : (rejectBlockFrom (fuel + 1) block fromNodeId reason blame w).chain = w.chain ∧
      block.hash ∈ (rejectBlockFrom (fuel + 1) block fromNodeId reason blame w).invalidBlockHashes := by
  let R : World → World → Prop := fun w w' =>
    w'.chain = w.chain ∧ w.invalidBlockHashes ⊆ w'.invalidBlockHashes
  have hrefl : ∀ w, R w w := fun w => ⟨rfl, subset_rfl⟩
  have htrans : ∀ {a b c}, R a b → R b c → R a c :=
    fun h h' => ⟨h'.1.trans h.1, h.2.trans h'.2⟩
  have hrest := rejectBlockFrom_succ_rel hrefl htrans (fun w _ => hrefl w) (fun w _ => hrefl w)
    (fun b p r w => rejectBlockFrom_rel hrefl htrans
      (fun w _ _ _ _ => ⟨rfl, Finset.subset_insert _ _⟩) (fun w _ => hrefl w) (fun w _ => hrefl w)
      fuel b p r blame w) block fromNodeId reason w
  exact ⟨hrest.1, hrest.2 (Finset.mem_insert_self _ _)⟩

/-- A block ahead of the clock is rejected: it is not stored, and its hash has a
    verdict. -/
theorem deliverAt_future (h : ClockOnly opts s.toWorld block env₁ env₂)
    (hnew : ¬Judged s.toWorld block.hash) (fromNodeId : Text) :
    (deliverAt opts env₁ block fromNodeId s).chain = s.chain ∧
      Judged (deliverAt opts env₁ block fromNodeId s).toWorld block.hash := by
  obtain ⟨parent, ctx₁, ctx₂, hparent, hctx, hfuture, -, -⟩ := h.rules
  have hexec : (handleIncomingBlock opts env₁ block fromNodeId).exec s.toWorld =
      (.ok (), rejectBlockFrom (listedOrphans s.toWorld + 1) block fromNodeId
        FUTURE_TIMESTAMP_REASON false s.toWorld) := by
    simp only [handleIncomingBlock, handleBlockFrom, exec_bind, exec_reads,
      exec_evaluateBlock hnew h.unrejected hparent h.unconflicted, validateAndAccept, exec_lift,
      id_eq, hctx, hfuture]
    simp [rejectBlock, exec_writes]
  obtain ⟨hchain, hmem⟩ := rejectBlockFrom_records (listedOrphans s.toWorld) block fromNodeId
    FUTURE_TIMESTAMP_REASON false s.toWorld
  simp only [deliverAt, step, Session.run, handleMessage, hexec]
  exact ⟨hchain, .inr hmem⟩

section Stores

variable (hinj : Set.InjOn computeBlockHash H) (hs : Sound opts H w)
  (hmeasured : ∀ hash block, w.chain.getBlock hash = some block → Measured opts block.header)
  (hfails : ∀ write, env.fails write = false)

include hinj hs hmeasured hfails

/-- The entry of a stored block is found, or written. -/
theorem getIndexedHeader_isSome {hash : Text} {block : Block}
    (hb : w.chain.getBlock hash = some block) :
    ∃ entry index, (getIndexedHeader opts env w.chain hash).exec w.headers = (.ok (some entry), index) ∧
      IndexedWell opts H index ∧ Grows w.headers index ∧ index.get hash = some entry := by
  obtain ⟨work, hwork⟩ : ∃ work, workOf opts w.chain w.headers (lookupFuel w.chain hash) hash =
      .ok (some work) := workOf_isSome hs.stored.linked hmeasured hb (lt_lookupFuel hb)
  have hspec : ((getIndexedHeader opts env w.chain hash).exec w.headers).1.map (·.map (·.work)) =
      .ok (some work) :=
    ((getIndexedHeader_spec hs.stored.linked hash).2 fun k => hfails _).trans hwork
  rcases hrun : (getIndexedHeader opts env w.chain hash).exec w.headers with ⟨e | found, index⟩
  · rw [hrun] at hspec
    cases hspec
  obtain ⟨henriches, hfound⟩ := (wp_eq_ok hrun).1
    (getIndexedHeader_sound hinj hs.stored hs.indexed hash)
  obtain ⟨hindex, hgrows⟩ := henriches hs.indexed
  cases found with
  | none =>
    rw [hrun] at hspec
    cases hspec
  | some entry => exact ⟨entry, index, rfl, hindex, hgrows, hfound entry rfl⟩

/-- A valid block is stored, and what follows are changes of the node. -/
theorem evaluateBlock_stores {parent : Block} {ctx : BlockValidationContext}
    (hmem : block.header ∈ H) (hnew : ¬Judged w block.hash)
    (hunrejected : block.header.previousHash ∉ w.invalidBlockHashes)
    (hparent : w.chain.getBlock block.header.previousHash = some parent)
    (hunconflicted : ¬conflictsWithVerifiedCheckpoint w.chain w.verifiedCheckpointHeight
      block.header.height block.hash) (hctx : blockContext opts env w block parent = .ok ctx)
    (hvalid : validateBlock opts.signatures block ctx = .ok ()) (fromNodeId : Text) :
    ∃ w₂, Sound opts H w₂ ∧ (Pooled H w → Pooled H w₂) ∧
      w₂.chain.headerOf block.hash = some block.header ∧
      Leads opts H (fun _ _ => True) (fun _ => True) w₂
        ((evaluateBlock opts env block fromNodeId).exec w).2 := by
  obtain ⟨entry, index, hrun, hindex, hgrows, hentry⟩ :=
    getIndexedHeader_isSome hinj hs hmeasured hfails hparent
  have hext := extends_of_valid hparent hmem hctx hvalid
  have hkey := w.chain.keyed _ _ hparent
  let w₂ : World := { w.withHeaders index with chain := w.chain.batch [putBlockOp block] }
  have hexec : (evaluateBlock opts env block fromNodeId).exec w =
      (decideFork opts env block fromNodeId entry.work).exec w₂ := by
    rw [exec_evaluateBlock hnew hunrejected hparent hunconflicted]
    simp only [validateAndAccept, acceptBlock, exec_bind, exec_reads, exec_lift, id_eq, hctx, hvalid,
      onHeaders, exec_zoom, hkey, hrun, putBlock, exec_of, hfails]
    rfl
  have hput := puts_batch w.chain block
  have hlookup : Leads opts H (fun _ _ => True) (fun _ => True) w (w.withHeaders index) :=
    .index abides_true hs hindex hgrows
  have hs₁ := hlookup.trace.sound hinj hs
  have hstore : Leads opts H (fun _ _ => True) (fun _ => True) (w.withHeaders index) w₂ :=
    ⟨.single ⟨_, trivial, .store hparent hmem hctx hvalid⟩, id, id⟩
  have hs₂ := hstore.trace.sound hinj hs₁
  have hstored : w₂.chain.getBlock block.hash = some block := (hput block.hash).trans (if_pos rfl)
  -- The entry of the parent is that of its header, as hashes do not collide.
  obtain ⟨hhashp, hmemp⟩ := hs.stored.hashed _ _ hparent
  have hheaderp : entry.header = parent.header :=
    hindex.header_eq hinj hmemp (by rw [hhashp, hentry])
  obtain ⟨parent', hparent', hheight⟩ := hext.parent
  rw [hparent] at hparent'
  cases hparent'
  rw [← hheaderp] at hheight
  refine ⟨w₂, hs₂, fun hp => (hlookup.trans hstore).pooled hp,
    headerOf_eq_some.2 ⟨block, hstored, rfl⟩, ?_⟩
  rw [hexec]
  exact (Lenient.decides hinj (fun _ _ _ => trivial) hs₂ (Extends.put hinj hs.stored hext hput)
    hstored hunconflicted hentry hheight fromNodeId).exec

end Stores

/-- A valid block without a verdict is stored. -/
theorem deliverAt_stores (hinj : Set.InjOn computeBlockHash H) (hr : Reachable opts H s)
    (hmem : block.header ∈ H) (h : ClockOnly opts s.toWorld block env₁ env₂)
    (hnew : ¬Judged s.toWorld block.hash) (hfails : ∀ write, env₂.fails write = false)
    (fromNodeId : Text) :
    (deliverAt opts env₂ block fromNodeId s).chain.headerOf block.hash = some block.header := by
  obtain ⟨parent, ctx₁, ctx₂, hparent, -, -, hctx, hvalid⟩ := h.rules
  have hg := hr.good hinj
  obtain ⟨w₂, hs₂, hp₂, hheader, hleads⟩ := evaluateBlock_stores hinj hg.sound
    (hr.measured hinj).stored hfails hmem hnew h.unrejected hparent h.unconflicted hctx hvalid
    fromNodeId
  have hend := hleads.trace.sound hinj hs₂
  have hfound := hleads.trace.headerOf hinj hs₂ hheader
  simp only [deliverAt, step, Session.run, handleMessage, handleIncomingBlock, handleBlockFrom,
    exec_bind, exec_reads]
  rcases heval : (evaluateBlock opts env₂ block fromNodeId).exec s.toWorld with ⟨e | connect, w₃⟩
  · rw [heval] at hfound
    exact hfound
  · rw [heval] at hfound hend hleads
    cases connect with
    | false => exact hfound
    | true =>
      have horphans : Leads opts H (fun _ _ => True) (fun _ => True) w₃ ((resolveOrphansOf
          (handleBlockFrom opts env₂ (listedOrphans s.toWorld)) block.hash).exec w₃).2 :=
        (resolveOrphansOf_goes hinj abides_true hend (hleads.pooled (hp₂ hg.pooled))
          (fun fromNodeId hs hp hmem => handleBlockFrom_goes hinj abides_true
            (settles_true hinj) _ hs hp hmem fromNodeId) block.hash).exec
      exact horphans.trace.headerOf hinj hend hfound

/-- A rejection by the clock is final. Where a hash has a verdict already, a block
    that is delivered too early and once more in time leaves the node as one that is
    delivered in time only; and where it has none and the block is not stored, it
    does not. -/
theorem clock_verdict_iff (hinj : Set.InjOn computeBlockHash H) (hr : Reachable opts H s)
    (hmem : block.header ∈ H) (h : ClockOnly opts s.toWorld block env₁ env₂)
    (hfails : ∀ write, env₂.fails write = false) (first second : Text) :
    (Judged s.toWorld block.hash → SameOutcome opts block
      (deliverAt opts env₂ block second (deliverAt opts env₁ block first s))
      (deliverAt opts env₂ block second s)) ∧
    (s.chain.getBlock block.hash = none → SameOutcome opts block
      (deliverAt opts env₂ block second (deliverAt opts env₁ block first s))
      (deliverAt opts env₂ block second s) → Judged s.toWorld block.hash) := by
  constructor
  · intro hjudged
    rw [deliverAt_judged hjudged env₁ first]
    exact ⟨rfl, rfl, fun _ _ _ _ => ⟨rfl, rfl⟩⟩
  · intro hnone hsame
    by_contra hnew
    obtain ⟨hchain, hjudged⟩ := deliverAt_future h hnew first
    have hstored := deliverAt_stores hinj hr hmem h hnew hfails second
    have heq := hsame.stored
    rw [deliverAt_judged hjudged, hchain] at heq
    rw [ChainState.headerOf, ChainState.getBlock, ← heq] at hstored
    rw [ChainState.getBlock] at hnone
    rw [hnone] at hstored
    cases hstored

end Verdict

/-! ## A block that is a second early -/

/-- A block after genesis with the timestamp `1100`. -/
def earlyBlock : Block :=
  let header := { firstBlock.header with timestamp := 1100 }
  { firstBlock with header, hash := computeBlockHash header }

def earlyHeaders : Set BlockHeader := {sampleGenesis.header, earlyBlock.header}

/-- The moment of its timestamp. -/
def laterEnv : Env := { sampleEnv with now := 1100 }

def freshNode : Session := ⟨started sampleOptions, []⟩

theorem reachable_freshNode : Reachable sampleOptions earlyHeaders freshNode :=
  .initial (.inl rfl) start_sample

/-- The verdict of the rules on a block after a stored parent. -/
def verdictAt (opts : NodeOptions) (env : Env) (w : World) (block parent : Block) : Option Verdict :=
  (blockContext opts env w block parent).toOption.map (validateBlock opts.signatures block)

theorem exists_context {opts : NodeOptions} {env : Env} {w : World} {block parent : Block}
    {verdict : Verdict} (h : verdictAt opts env w block parent = some verdict) :
    ∃ ctx, blockContext opts env w block parent = .ok ctx ∧
      validateBlock opts.signatures block ctx = verdict := by
  rw [verdictAt] at h
  cases hctx : blockContext opts env w block parent with
  | error e =>
    rw [hctx] at h
    cases h
  | ok ctx =>
    rw [hctx] at h
    exact ⟨ctx, rfl, Option.some.inj h⟩

/-- What the fresh node has, what the rules say of the block at both moments, and
    the tips after it was delivered. -/
theorem reads_earlyBlock :
    computeBlockHash sampleGenesis.header ≠ computeBlockHash earlyBlock.header ∧
    (freshNode.chain.getBlock earlyBlock.header.previousHash = some sampleGenesis ∧
      verdictAt sampleOptions sampleEnv freshNode.toWorld earlyBlock sampleGenesis =
        some (.error (.invalid FUTURE_TIMESTAMP_REASON)) ∧
      verdictAt sampleOptions laterEnv freshNode.toWorld earlyBlock sampleGenesis = some (.ok ()) ∧
      earlyBlock.header.previousHash ∉ freshNode.invalidBlockHashes ∧
      ¬conflictsWithVerifiedCheckpoint freshNode.chain freshNode.verifiedCheckpointHeight
        earlyBlock.header.height earlyBlock.hash) ∧
    (freshNode.chain.getBlock earlyBlock.hash = none ∧
      ¬(earlyBlock.hash ∈ freshNode.processedBlockHashes ∨
        earlyBlock.hash ∈ freshNode.invalidBlockHashes)) ∧
    (deliverAt sampleOptions laterEnv earlyBlock (lit "p") freshNode).chain.tip =
      some ⟨earlyBlock.hash, 1⟩ ∧
    (deliverAt sampleOptions laterEnv earlyBlock (lit "p")
      (deliverAt sampleOptions sampleEnv earlyBlock (lit "p") freshNode)).chain.tip =
      some ⟨sampleGenesis.hash, 0⟩ := by
  decide +kernel

theorem injOn_earlyHeaders : Set.InjOn computeBlockHash earlyHeaders :=
  Set.injOn_pair.2 fun h => absurd h reads_earlyBlock.1

theorem clockOnly_earlyBlock :
    ClockOnly sampleOptions freshNode.toWorld earlyBlock sampleEnv laterEnv := by
  obtain ⟨hparent, hearly, hlate, hunrejected, hunconflicted⟩ := reads_earlyBlock.2.1
  obtain ⟨ctx₁, hctx₁, hfuture⟩ := exists_context hearly
  obtain ⟨ctx₂, hctx₂, hvalid⟩ := exists_context hlate
  exact ⟨⟨sampleGenesis, ctx₁, ctx₂, hparent, hctx₁, hfuture, hctx₂, hvalid⟩, hunrejected,
    hunconflicted⟩

/-- Delivered early, the block is lost. -/
theorem clock_verdict_early :
    freshNode.chain.getBlock earlyBlock.hash = none ∧ ¬Judged freshNode.toWorld earlyBlock.hash ∧
    ¬SameOutcome sampleOptions earlyBlock
      (deliverAt sampleOptions laterEnv earlyBlock (lit "p")
        (deliverAt sampleOptions sampleEnv earlyBlock (lit "p") freshNode))
      (deliverAt sampleOptions laterEnv earlyBlock (lit "p") freshNode) := by
  obtain ⟨hnone, hnew⟩ : freshNode.chain.getBlock earlyBlock.hash = none ∧
      ¬Judged freshNode.toWorld earlyBlock.hash := reads_earlyBlock.2.2.1
  exact ⟨hnone, hnew, fun hsame => hnew ((clock_verdict_iff injOn_earlyHeaders reachable_freshNode
    (.inr rfl) clockOnly_earlyBlock (fun _ => rfl) (lit "p") (lit "p")).2 hnone hsame)⟩

/-- In time only, the block becomes the tip; once it was early, the tip stays
    genesis. -/
theorem early_block_lost :
    Reachable sampleOptions earlyHeaders freshNode ∧
    ClockOnly sampleOptions freshNode.toWorld earlyBlock sampleEnv laterEnv ∧
    (deliverAt sampleOptions laterEnv earlyBlock (lit "p") freshNode).chain.tip =
      some ⟨earlyBlock.hash, 1⟩ ∧
    (deliverAt sampleOptions laterEnv earlyBlock (lit "p")
      (deliverAt sampleOptions sampleEnv earlyBlock (lit "p") freshNode)).chain.tip =
      some ⟨sampleGenesis.hash, 0⟩ :=
  ⟨reachable_freshNode, clockOnly_earlyBlock, reads_earlyBlock.2.2.2⟩

end Plainchain
