import Plainchain.Node.Canonical

/-!
# Checkpoints

A block that comes from a peer is refused where a checkpoint says another hash,
and where it would reorganise below a checkpoint that is on the canonical chain.
So the checkpoints bind the canonical chain, and what is below one of them is
final (`checkpoints_bind`).

A block that the node mines is not checked: on a node that mines at a checkpointed
height they do not (`checkpoint_mined`).
-/

namespace Plainchain

open Js Kv Ancestry Prog List

section Verified

variable {chain : ChainState}

/-- The loop of `refreshVerifiedCheckpoint`, by the entries that it has seen. -/
theorem foldl_verified (chain : ChainState) (entries : List (ℕ × Text)) (best : ℤ) :
    let verified := entries.foldl (fun best (height, hash) =>
      if best < height ∧ chain.getCanonicalHashAtHeight height = some hash then (height : ℤ)
      else best) best
    best ≤ verified ∧
    (∀ height hash, (height, hash) ∈ entries → chain.canonical.get height = some hash →
      (height : ℤ) ≤ verified) ∧
    (verified = best ∨ ∃ height hash, (height, hash) ∈ entries ∧
      chain.canonical.get height = some hash ∧ verified = height) := by
  induction entries generalizing best with
  | nil => simp
  | cons entry entries ih =>
    obtain ⟨height, hash⟩ := entry
    rw [foldl_cons]
    dsimp only
    by_cases h : best < height ∧ chain.getCanonicalHashAtHeight height = some hash
    · rw [if_pos h]
      obtain ⟨hle, hall, hcases⟩ := ih height
      refine ⟨h.1.le.trans hle, fun height' hash' hmem hc => ?_, ?_⟩
      · rcases mem_cons.1 hmem with heq | hmem
        · cases heq
          exact hle
        · exact hall height' hash' hmem hc
      · rcases hcases with heq | ⟨height', hash', hmem, hc, heq⟩
        · exact .inr ⟨height, hash, mem_cons_self, h.2, heq⟩
        · exact .inr ⟨height', hash', mem_cons_of_mem _ hmem, hc, heq⟩
    · rw [if_neg h]
      obtain ⟨hle, hall, hcases⟩ := ih best
      refine ⟨hle, fun height' hash' hmem hc => ?_, ?_⟩
      · rcases mem_cons.1 hmem with heq | hmem
        · cases heq
          by_contra hlt
          exact h ⟨hle.trans_lt (not_le.1 hlt), hc⟩
        · exact hall height' hash' hmem hc
      · rcases hcases with heq | ⟨height', hash', hmem, hc, heq⟩
        · exact .inl heq
        · exact .inr ⟨height', hash', mem_cons_of_mem _ hmem, hc, heq⟩

/-- A checkpoint on the canonical chain is at or below the verified height. -/
theorem le_verifiedCheckpoint {checkpoints : OrdMap ℕ Text} {height : ℕ} {hash : Text}
    (h : checkpoints.get height = some hash) (hc : chain.canonical.get height = some hash) :
    (height : ℤ) ≤ verifiedCheckpoint chain checkpoints :=
  (foldl_verified chain checkpoints.entries (-1)).2.1 height hash (OrdMap.get_eq_some.1 h) hc

/-- The verified height is that of a checkpoint on the canonical chain. -/
theorem verifiedCheckpoint_eq {checkpoints : OrdMap ℕ Text}
    (h : 0 ≤ verifiedCheckpoint chain checkpoints) :
    ∃ height hash, checkpoints.get height = some hash ∧ chain.canonical.get height = some hash ∧
      verifiedCheckpoint chain checkpoints = height := by
  rcases (foldl_verified chain checkpoints.entries (-1)).2.2 with
    heq | ⟨height, hash, hmem, hc, heq⟩
  · have : verifiedCheckpoint chain checkpoints = -1 := heq
    omega
  · exact ⟨height, hash, OrdMap.get_eq_some.2 hmem, hc, heq⟩

end Verified

section Bind

variable {opts : NodeOptions} {H : Set BlockHeader} {w w' : World}

/-- A block that the miner adopts has the hash that a checkpoint says. -/
def MinesCheckpoints (opts : NodeOptions) (w : World) : Label → Prop
  | .mine head => OnTip w head → ∀ hash, checkpointFor opts head.header.height = some hash →
      hash = head.hash
  | _ => True

/-- What holds of a node that mines by its checkpoints. -/
structure Checkpointed (opts : NodeOptions) (w : World) : Prop where
  /-- Stored blocks have the hashes that checkpoints say. -/
  stored : ∀ hash block, w.chain.getBlock hash = some block →
    ∀ c, checkpointFor opts block.header.height = some c → c = hash
  verified : w.verifiedCheckpointHeight = verifiedCheckpoint w.chain opts.checkpoints

theorem Checkpointed.puts (h : Checkpointed opts w) {block : Block} {chain' : ChainState}
    (hput : Puts w.chain block chain')
    (hblock : ∀ c, checkpointFor opts block.header.height = some c → c = block.hash) :
    ∀ hash block, chain'.getBlock hash = some block →
      ∀ c, checkpointFor opts block.header.height = some c → c = hash := by
  intro hash block' hb c hc
  rw [hput hash] at hb
  split at hb
  · next heq =>
    cases hb
    rw [heq]
    exact hblock c hc
  · exact h.stored hash block' hb c hc

variable (hinj : Set.InjOn computeBlockHash H)

include hinj

/-- The verified height is recomputed after every adoption, if there are
    checkpoints. -/
theorem Adopts.verified {head : Block} (hs : Sound opts H w) (hext : Extends H w.chain head)
    (h : Checkpointed opts w) (ha : Adopts opts w head w') :
    w'.verifiedCheckpointHeight = verifiedCheckpoint w'.chain opts.checkpoints := by
  obtain ⟨env, staged, w₁, hcommit, rfl⟩ := ha
  obtain ⟨previousHead, hspine, -⟩ := hs.spine
  obtain ⟨_, _, _, _, _, -, -, rfl⟩ := commitAdoption_returns hinj hs hspine hext hcommit
  rw [exec_finishAdoption]
  dsimp only
  split
  · rfl
  · next hsize =>
    -- Without checkpoints no height is verified.
    have hempty : opts.checkpoints.entries = [] := by
      rw [not_not, OrdMap.size, length_eq_zero_iff] at hsize
      exact hsize
    refine h.verified.trans ?_
    simp only [verifiedCheckpoint, hempty, foldl_nil]

theorem Change.checkpointed {label : Label} (hs : Sound opts H w) (h : Checkpointed opts w)
    (hC : MinesCheckpoints opts w label) (hc : Change opts H w label w') : Checkpointed opts w' := by
  cases hc with
  | note hchain _ _ _ hverified =>
    exact ⟨by rw [hchain]; exact h.stored, by rw [hverified, hchain, h.verified]⟩
  | index _ _ => exact ⟨h.stored, h.verified⟩
  | store hparent hmem hctx hvalid =>
    obtain ⟨_, _, hv⟩ := validateBlock_eq_ok.1 hvalid
    simp only [blockContext, bind_eq_ok] at hctx
    obtain ⟨target, -, reward, -, hctx⟩ := hctx
    cases hctx
    exact ⟨h.puts (puts_batch _ _) hv.header.checkpoint_eq, h.verified⟩
  | adopt hext hheavier ha =>
    exact ⟨h.puts (ha.puts hinj hs hext).1 (h.stored _ _ hheavier.stored), ha.verified hinj hs hext h⟩
  | mine hext htip ha =>
    exact ⟨h.puts (ha.puts hinj hs hext).1 (hC htip), ha.verified hinj hs hext h⟩
  | submit tx =>
    rw [exec_admitTransaction]
    exact ⟨h.stored, h.verified⟩
  | reopen => exact ⟨h.stored, rfl⟩

/-- The head of a heavier chain descends from every canonical block that is at or
    below a checkpoint on the canonical chain. -/
theorem Heavier.anc_checkpoint {head : Block} (hs : Sound opts H w) (h : Checkpointed opts w)
    (hheavier : Heavier w head) {height : ℕ} {hash : Text} (hcp : opts.checkpoints.get height = some hash)
    (hcanonical : w.chain.canonical.get height = some hash) :
    ∃ height' hash', height ≤ height' ∧ w.chain.canonical.get height' = some hash' ∧
      Anc (parentHash w.chain.headerOf) head.hash hash' := by
  obtain ⟨previousHead, hspine, -⟩ := hs.spine
  have hle := le_verifiedCheckpoint hcp hcanonical
  have hverified : 0 ≤ verifiedCheckpoint w.chain opts.checkpoints := by omega
  obtain ⟨v, vhash, hvcp, hvcanonical, hv⟩ := verifiedCheckpoint_eq hverified
  refine ⟨v, vhash, by omega, hvcanonical, ?_⟩
  by_cases hlow : head.header.height ≤ v
  · -- The head would be the canonical block of its height, and no heavier than the tip.
    exfalso
    obtain ⟨entry, tip, tipEntry, hentry, htip, htipEntry, hwork⟩ := hheavier.work
    rw [hspine.tip] at htip
    cases htip
    have hvtip := (hspine.exists_canonical hs.stored v).1 ⟨vhash, hvcanonical⟩
    obtain ⟨chash, hc⟩ := (hspine.exists_canonical hs.stored head.header.height).2
      (hlow.trans hvtip)
    have heq : chash = head.hash := by
      by_contra hne
      exact hheavier.unconflicted ⟨by rw [h.verified, hv]; exact_mod_cast hlow, chash, hc, hne⟩
    subst heq
    have hanc := ((hspine.canonical _ _).1 hc).1
    have := hs.indexed.work_le hinj hs.stored hanc htipEntry hentry
    omega
  · obtain ⟨hash', block', hanc, hb', hheight⟩ :=
      hs.stored.exists_ancestor hheavier.stored (i := v) (by omega)
    have := h.stored _ _ hb' vhash (by rw [hheight]; exact hvcp)
    rw [this]
    exact hanc

/-- A change leaves the height index at and below a checkpoint that is on the
    canonical chain. -/
theorem Change.canonical_eq {label : Label} (hs : Sound opts H w) (h : Checkpointed opts w)
    (hc : Change opts H w label w') {height : ℕ} {hash : Text}
    (hcp : opts.checkpoints.get height = some hash)
    (hcanonical : w.chain.canonical.get height = some hash) {i : ℕ} (hi : i ≤ height) :
    w'.chain.canonical.get i = w.chain.canonical.get i := by
  cases hc with
  | note hchain _ _ _ _ => rw [hchain]
  | index _ _ => rfl
  | store _ _ _ _ => rfl
  | adopt hext hheavier ha =>
    obtain ⟨previousHead, hspine, -⟩ := hs.spine
    obtain ⟨hput, hspine', -⟩ := ha.puts hinj hs hext
    obtain ⟨height', hash', hle, hc', hanc⟩ :=
      hheavier.anc_checkpoint hinj hs h hcp hcanonical
    refine hspine.canonical_eq hinj hs.stored hext hput hspine' hc' ?_ (hi.trans hle)
    exact (hs.stored.anc_put hinj hext hput hheavier.stored).2 hanc
  | @mine _ head hext htip ha =>
    obtain ⟨previousHead, hspine, -⟩ := hs.spine
    obtain ⟨hput, hspine', -⟩ := ha.puts hinj hs hext
    have hprev : previousHead.hash = head.header.previousHash := by
      rw [OnTip, hspine.tip] at htip
      exact Option.some.inj htip
    have htop : w.chain.canonical.get previousHead.header.height = some previousHead.hash :=
      (hspine.canonical _ _).2
        ⟨.refl _, heightIn_eq (headerOf_eq_some.2 ⟨previousHead, hspine.stored, rfl⟩)⟩
    have hle := (hspine.exists_canonical hs.stored height).1 ⟨hash, hcanonical⟩
    refine hspine.canonical_eq hinj hs.stored hext hput hspine' htop ?_ (hi.trans hle)
    obtain ⟨parent, -, hheight⟩ := hext.parent
    rw [hprev]
    exact .of_parent (parentHash_eq (headerOf_eq_some.2 ⟨head, hspine'.stored, rfl⟩) (by omega))
  | submit tx => rw [exec_admitTransaction]
  | reopen => rfl

theorem Trace.checkpointed (hs : Sound opts H w) (h : Checkpointed opts w)
    (ht : Trace opts H (MinesCheckpoints opts) w w') :
    Checkpointed opts w' ∧ ∀ height hash, opts.checkpoints.get height = some hash →
      w.chain.canonical.get height = some hash →
      ∀ i ≤ height, w'.chain.canonical.get i = w.chain.canonical.get i := by
  induction ht with
  | refl => exact ⟨h, fun _ _ _ _ _ _ => rfl⟩
  | tail ht hc ih =>
    obtain ⟨h', heq⟩ := ih
    obtain ⟨label, hC, hc⟩ := hc
    have hs' := Trace.sound hinj hs ht
    refine ⟨hc.checkpointed hinj hs' h' hC, fun height hash hcp hcanonical i hi => ?_⟩
    rw [← heq height hash hcp hcanonical i hi]
    exact hc.canonical_eq hinj hs' h' hcp ((heq height hash hcp hcanonical height le_rfl).trans
      hcanonical) hi

end Bind

/-- The canonical chain has the hashes that checkpoints say, as far as it
    reaches. -/
def CheckpointsBind (opts : NodeOptions) (chain : ChainState) : Prop :=
  ∀ height hash, opts.checkpoints.get height = some hash → ∀ tip, chain.tip = some tip →
    height ≤ tip.height → chain.canonical.get height = some hash

section Run

variable {opts : NodeOptions} {H : Set BlockHeader} {s : Session}

theorem lenient_minesCheckpoints : Lenient (MinesCheckpoints opts) := by
  intro w label hlabel
  cases label with
  | mine head => exact absurd rfl (hlabel head)
  | _ => trivial

theorem Sound.checkpointsBind {w : World} (hs : Sound opts H w) (h : Checkpointed opts w) :
    CheckpointsBind opts w.chain := by
  intro height hash hcp tip htip hle
  obtain ⟨head, hspine, -⟩ := hs.spine
  rw [hspine.tip] at htip
  cases htip
  obtain ⟨chash, hc⟩ := (hspine.exists_canonical hs.stored height).2 hle
  obtain ⟨block, hb, hheight⟩ := hspine.block_of_canonical hs.stored hc
  rw [hc, h.stored _ _ hb hash (by rw [hheight]; exact hcp)]

theorem start_checkpointed {w : World}
    (hgenesis : ∀ hash, opts.checkpoints.get 0 = some hash → hash = opts.genesis.hash)
    (h : start opts = .ok w) : Checkpointed opts w := by
  obtain ⟨coinbase, undo, u, work, -, -, -, rfl⟩ := start_eq_ok h
  refine ⟨fun hash block hb c hc => ?_, rfl⟩
  obtain ⟨rfl, rfl⟩ := getBlock_genesisOps_eq_some hb
  rw [genesis_height] at hc
  exact hgenesis c hc

/-- Checkpoints bind the canonical chain of a node whose checkpoint at height `0`
    is its genesis and whose miner keeps to the checkpoints; and no event changes
    what is at or below a checkpoint that is on the canonical chain. -/
theorem checkpoints_bind (hinj : Set.InjOn computeBlockHash H)
    (hgenesis : ∀ hash, opts.checkpoints.get 0 = some hash → hash = opts.genesis.hash)
    (hr : ReachableWhere opts H (fun s _ event => event.Meets opts (MinesCheckpoints opts) s) s) :
    CheckpointsBind opts s.chain ∧
    ∀ env event, event.Possible s → (∀ header ∈ event.headers opts, header ∈ H) →
      event.Meets opts (MinesCheckpoints opts) s →
      ∀ height hash, opts.checkpoints.get height = some hash →
        s.chain.canonical.get height = some hash →
        ∀ i ≤ height, (step opts s env event).chain.canonical.get i = s.chain.canonical.get i := by
  have hgood := hr.reachable.good hinj
  have hcheck : Checkpointed opts s.toWorld := by
    induction hr with
    | initial _ hw => exact start_checkpointed hgenesis hw
    | @next s env event hr hp hH hmeets ih =>
      have hgood := hr.reachable.good hinj
      have hleads := step_leads hinj lenient_minesCheckpoints hgood env hp hH hmeets
      exact (hleads.trace.checkpointed hinj hgood.sound (ih hgood)).1
  refine ⟨hgood.sound.checkpointsBind hcheck, fun env event hp hH hmeets => ?_⟩
  have hleads := step_leads hinj lenient_minesCheckpoints hgood env hp hH hmeets
  exact (hleads.trace.checkpointed hinj hgood.sound hcheck).2

end Run

/-! ## A node with a checkpoint -/

/-- The sample node, with a checkpoint at height `1`. -/
def checkpointedOptions (hash : Text) : NodeOptions :=
  { sampleOptions with checkpoints := OrdMap.empty.set 1 hash }

/-- A node that is sent the block of its checkpoint. -/
def checkpointedRun : Session :=
  step (checkpointedOptions firstBlock.hash)
    { toWorld := started (checkpointedOptions firstBlock.hash), templates := [] } sampleEnv
    (.message (.NEW_BLOCK firstBlock) (lit "p"))

theorem checkpoints_bind_sample :
    checkpointedRun.chain.tip = some ⟨firstBlock.hash, 1⟩ ∧
    CheckpointsBind (checkpointedOptions firstBlock.hash) checkpointedRun.chain := by
  have hreads : (start (checkpointedOptions firstBlock.hash)).toOption.isSome ∧
      checkpointedRun.chain.tip = some ⟨firstBlock.hash, 1⟩ := by decide +kernel
  have hr : ReachableWhere (checkpointedOptions firstBlock.hash) sampleHeaders
      (fun s _ event => event.Meets (checkpointedOptions firstBlock.hash)
        (MinesCheckpoints (checkpointedOptions firstBlock.hash)) s) checkpointedRun := by
    refine .next (.initial (.inl rfl) (start_eq_started hreads.1)) trivial
      (fun header hheader => ?_) trivial
    cases mem_singleton.1 hheader
    exact .inr rfl
  exact ⟨hreads.2, (checkpoints_bind injOn_sampleHeaders (by decide +kernel) hr).1⟩

/-- The block that the sample node mines first. -/
def minedRun (opts : NodeOptions) : Session :=
  mineOnce opts sampleEnv 0 ⟨[], []⟩ { toWorld := started opts, templates := [] }

/-- A node whose checkpoint at height `1` is some other hash mines a block of that
    height, and adopts it. -/
theorem checkpoint_mined :
    Reachable (checkpointedOptions ZERO_HASH) Set.univ (minedRun (checkpointedOptions ZERO_HASH)) ∧
    (minedRun (checkpointedOptions ZERO_HASH)).chain.tip.map (·.height) = some 1 ∧
    ¬CheckpointsBind (checkpointedOptions ZERO_HASH)
      (minedRun (checkpointedOptions ZERO_HASH)).chain := by
  have hreads : (start (checkpointedOptions ZERO_HASH)).toOption.isSome ∧
      (minedRun (checkpointedOptions ZERO_HASH)).chain.tip.map (·.height) = some 1 ∧
      (minedRun (checkpointedOptions ZERO_HASH)).chain.canonical.get 1 ≠ some ZERO_HASH := by
    decide +kernel
  obtain ⟨hstart, htip, hne⟩ := hreads
  refine ⟨Reachable.mineOnce (.initial trivial (start_eq_started hstart))
    (fun _ _ _ _ => trivial), htip, fun hbind => hne ?_⟩
  obtain ⟨tip, htip, hheight⟩ := Option.map_eq_some_iff.1 htip
  exact hbind 1 ZERO_HASH (by decide +kernel) tip htip (by omega)

end Plainchain
