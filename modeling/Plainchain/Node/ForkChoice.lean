import Plainchain.Node.Canonical

/-!
# Fork choice

A block that was decided on, that is, processed and not found invalid, has no more
work than the tip; and whenever the tip changes, its work grows
(`heaviest_wins`).

Fork choice is decided once for each block, in `decideFork`. Between its first
write, which marks the block as processed, and its last one, the block is not
decided on yet (`DecidedBut`). Where the header index cannot be written in between,
the block stays marked (`processed_undecided`).
-/

namespace Plainchain

open Js Kv Ancestry Prog

/-! ## Work -/

section Work

variable {opts : NodeOptions}

/-- A header of positive work. -/
def Weighs (opts : NodeOptions) (header : BlockHeader) : Prop :=
  ∃ work, 0 < work ∧ blockWork opts header = .ok work

/-- Whether a header weighs depends on its target only. -/
theorem Weighs.congr {header header' : BlockHeader} (h : Weighs opts header)
    (heq : header'.difficultyTarget = header.difficultyTarget) : Weighs opts header' := by
  obtain ⟨work, hpos, hwork⟩ := h
  rw [blockWork] at hwork
  cases hengine : opts.engine with
  | pow =>
    refine ⟨work, hpos, ?_⟩
    rw [hengine] at hwork
    rw [blockWork, hengine, ConsensusEngine.blockWork, heq]
    exact hwork
  | poa authorities =>
    by_cases hturn : header'.signer = some (inTurnAuthority authorities header'.height)
    · refine ⟨POA_IN_TURN_WORK, by decide, ?_⟩
      rw [blockWork, hengine, ConsensusEngine.blockWork, if_pos hturn]
      rfl
    · refine ⟨POA_OUT_OF_TURN_WORK, by decide, ?_⟩
      rw [blockWork, hengine, ConsensusEngine.blockWork, if_neg hturn]
      rfl

/-- A target is that of the parent, or a retarget of proof of work. -/
theorem target_of_expectedTargetFor {chain : ChainState} {headers : HeaderIndex}
    {unstored : OrdMap Text BlockHeader} {parent : ChainHeader} {target : Text}
    (h : expectedTargetFor opts chain headers unstored parent = .ok target) :
    target = parent.header.difficultyTarget ∨ (opts.engine = .pow ∧ hexOf 64 target) := by
  rw [expectedTargetFor] at h
  dsimp only at h
  split at h
  · exact .inl (Except.ok.inj h).symm
  · next hretargets =>
    split at h
    · cases h
    · rw [mapError_eq_ok] at h
      refine .inr ⟨?_, hexOf_nextTarget h⟩
      cases hengine : opts.engine with
      | pow => rfl
      | poa authorities => simp [hengine, ConsensusEngine.retargets] at hretargets

/-- The target after a header that weighs is one that weighs. -/
theorem Weighs.next {chain : ChainState} {headers : HeaderIndex}
    {unstored : OrdMap Text BlockHeader} {parent : ChainHeader} {header : BlockHeader}
    {target : Text} (h : Weighs opts parent.header)
    (ht : expectedTargetFor opts chain headers unstored parent = .ok target)
    (heq : header.difficultyTarget = target) : Weighs opts header := by
  subst heq
  rcases target_of_expectedTargetFor ht with hsame | ⟨hengine, hhex⟩
  · exact h.congr hsame
  · obtain ⟨work, hpos, hwork⟩ := workForTarget_pos hhex
    exact ⟨work, hpos, by rw [blockWork, hengine, ConsensusEngine.blockWork, hwork]; rfl⟩

end Work

/-! ## The work of the tip -/

/-- The work of the canonical chain. -/
def tipWork (w : World) : ℕ :=
  ((w.chain.tip.bind fun tip => w.headers.get tip.hash).map (·.work)).getD 0

/-- The miner's blocks are of positive work. -/
def MinesWork (opts : NodeOptions) (_ : World) : Label → Prop
  | .mine head => Weighs opts head.header
  | _ => True

theorem lenient_minesWork {opts : NodeOptions} : Lenient (MinesWork opts) := by
  intro w label hlabel
  cases label with
  | mine head => exact absurd rfl (hlabel head)
  | _ => trivial

variable {entry : IndexedHeader} {label : Label} {env : Env}

section TipWork

variable {opts : NodeOptions} {H : Set BlockHeader} {w w' : World}

theorem tipWork_eq {tip : ChainTip} (htip : w.chain.tip = some tip)
    (hentry : w.headers.get tip.hash = some entry) : tipWork w = entry.work := by
  rw [tipWork, htip, Option.bind_some, hentry]
  rfl

theorem Sound.exists_tip (hs : Sound opts H w) :
    ∃ tip entry, w.chain.tip = some tip ∧ w.headers.get tip.hash = some entry ∧
      tipWork w = entry.work := by
  obtain ⟨head, hspine, hentry⟩ := hs.spine
  obtain ⟨entry, hentry⟩ := Option.isSome_iff_exists.1 hentry
  exact ⟨_, entry, hspine.tip, hentry, tipWork_eq hspine.tip hentry⟩

/-- While the tip stays, so does its work. -/
theorem Sound.tipWork_of_grows (hs : Sound opts H w) (w' : World)
    (htip : w'.chain.tip = w.chain.tip)
    (hgrows : Grows w.headers w'.headers) : tipWork w' = tipWork w := by
  obtain ⟨tip, entry, htip', hentry, hwork⟩ := hs.exists_tip
  rw [hwork]
  exact tipWork_eq (htip.trans htip') (hgrows _ _ hentry)

variable (hinj : Set.InjOn computeBlockHash H)

include hinj

theorem Change.grows (hs : Sound opts H w) (hc : Change opts H w label w') :
    Grows w.headers w'.headers := by
  cases hc with
  | note _ hheaders _ _ _ => rw [hheaders]; exact .refl _
  | index _ hgrows => exact hgrows
  | store _ _ _ _ => exact .refl _
  | adopt hext _ ha => exact (ha.puts hinj hs hext).2.2
  | mine hext _ ha => exact (ha.puts hinj hs hext).2.2
  | submit tx =>
    rw [exec_admitTransaction]
    exact .refl _
  | reopen => exact .refl _

/-- The work of a head that is adopted on top of the tip. -/
theorem OnTip.tipWork_eq {head : Block} (hs : Sound opts H w) (hext : Extends H w.chain head)
    (htip : OnTip w head) (ha : Adopts opts w head w') {work : ℕ}
    (hwork : blockWork opts head.header = .ok work) : tipWork w' = tipWork w + work := by
  have hs' := ha.sound hinj hs hext
  obtain ⟨-, hspine, hgrows⟩ := ha.puts hinj hs hext
  obtain ⟨tip, entry, htip', hentry, hold⟩ := hs.exists_tip
  obtain ⟨tip', entry', htip'', hentry', hnew⟩ := hs'.exists_tip
  rw [hspine.tip] at htip''
  cases htip''
  rw [hold, hnew]
  have hheader : entry'.header = head.header :=
    hs'.indexed.header_eq hinj hext.mem (by rw [hext.hash_eq]; exact hentry')
  obtain ⟨parent, -, hheight⟩ := hext.parent
  rcases hs'.indexed.linked _ _ hentry' with hgenesis | ⟨parent', added, hparent', -, hadded, hsum⟩
  · -- The head is not genesis: it is above its parent.
    obtain ⟨_, -, hg⟩ := hs'.indexed.genesis
    rw [← hgenesis, hentry'] at hg
    cases hg
    have := genesis_height opts
    dsimp only at hheader
    rw [hheader] at this
    omega
  · rw [OnTip, htip', Option.map_some, Option.some.injEq] at htip
    rw [hheader, ← htip, hgrows _ _ hentry] at hparent'
    cases hparent'
    rw [hheader, hwork] at hadded
    cases hadded
    exact hsum

/-- Whenever the tip changes, its work grows. -/
theorem Change.tipWork_lt (hs : Sound opts H w) (hC : MinesWork opts w label)
    (hc : Change opts H w label w') :
    (w'.chain.tip = w.chain.tip ∧ tipWork w' = tipWork w) ∨ tipWork w < tipWork w' := by
  have hgrows := hc.grows hinj hs
  have hsame : w'.chain.tip = w.chain.tip → w'.chain.tip = w.chain.tip ∧ tipWork w' = tipWork w :=
    fun htip => ⟨htip, hs.tipWork_of_grows _ htip hgrows⟩
  cases hc with
  | note hchain _ _ _ _ => exact .inl (hsame (by rw [hchain]))
  | index _ _ => exact .inl (hsame rfl)
  | store _ _ _ _ => exact .inl (hsame rfl)
  | adopt hext hheavier ha =>
    obtain ⟨-, hspine, hgrows⟩ := ha.puts hinj hs hext
    obtain ⟨entry, tip, tipEntry, hentry, htip, htipEntry, hlt⟩ := hheavier.work
    refine .inr ?_
    rw [tipWork_eq htip htipEntry, tipWork_eq hspine.tip (hgrows _ _ hentry)]
    exact hlt
  | mine hext htip ha =>
    obtain ⟨work, hpos, hwork⟩ := hC
    refine .inr ?_
    rw [htip.tipWork_eq hinj hs hext ha hwork]
    omega
  | submit tx => exact .inl (hsame (by rw [exec_admitTransaction]))
  | reopen => exact .inl (hsame rfl)

theorem Trace.tipWork_lt (hs : Sound opts H w) (ht : Trace opts H (MinesWork opts) w w') :
    (w'.chain.tip = w.chain.tip ∧ tipWork w' = tipWork w) ∨ tipWork w < tipWork w' := by
  induction ht with
  | refl => exact .inl ⟨rfl, rfl⟩
  | tail ht hc ih =>
    obtain ⟨label, hC, hc⟩ := hc
    rcases hc.tipWork_lt hinj (Trace.sound hinj hs ht) hC with ⟨htip, hwork⟩ | hlt
    · rw [htip, hwork]
      exact ih
    · rcases ih with ⟨-, hwork⟩ | hlt'
      · exact .inr (hwork ▸ hlt)
      · exact .inr (hlt'.trans hlt)

end TipWork

/-! ## Decided blocks -/

/-- Blocks that were decided on, but for one, have no more work than the tip. -/
def DecidedBut (pending : Option Text) (w : World) : Prop :=
  ∀ hash ∈ w.processedBlockHashes, hash ∉ w.invalidBlockHashes → pending ≠ some hash →
    ∃ entry, w.headers.get hash = some entry ∧ entry.work ≤ tipWork w

/-- What holds of a node between two events: the stored blocks weigh, and none of
    those decided on is heavier than the tip. -/
structure Decided (opts : NodeOptions) (w : World) : Prop where
  weighs : ∀ hash block, w.chain.getBlock hash = some block → Weighs opts block.header
  decided : DecidedBut none w

section Decided

variable {opts : NodeOptions} {H : Set BlockHeader} {w w' : World} {pending : Option Text}

/-- Notes mark no block, and the tip and the index stay. -/
theorem DecidedBut.notes (h : DecidedBut pending w) (hn : Notes w w') : DecidedBut pending w' := by
  intro hash hp hi hne
  obtain ⟨hp', hi'⟩ := hn.decided hash hp hi
  obtain ⟨entry, hentry, hle⟩ := h hash hp' hi' hne
  refine ⟨entry, by rw [hn.headers]; exact hentry, ?_⟩
  rwa [tipWork, hn.chain, hn.headers]

/-- The index and the work of the tip may grow. -/
theorem DecidedBut.grows (h : DecidedBut pending w) (hgrows : Grows w.headers w'.headers)
    (hwork : tipWork w ≤ tipWork w')
    (hprocessed : w'.processedBlockHashes = w.processedBlockHashes)
    (hinvalid : w'.invalidBlockHashes = w.invalidBlockHashes) : DecidedBut pending w' := by
  intro hash hp hi hne
  rw [hprocessed] at hp
  rw [hinvalid] at hi
  obtain ⟨entry, hentry, hle⟩ := h hash hp hi hne
  exact ⟨entry, hgrows _ _ hentry, hle.trans hwork⟩

theorem DecidedBut.of_none (h : DecidedBut none w) (pending : Option Text) : DecidedBut pending w :=
  fun hash hp hi _ => h hash hp hi (by simp)

/-- A block that has an entry and no more work than the tip is decided on. -/
theorem DecidedBut.decide {hash : Text} (h : DecidedBut (some hash) w)
    (hentry : w.headers.get hash = some entry) (hle : entry.work ≤ tipWork w) :
    DecidedBut none w := by
  intro hash' hp hi _
  by_cases heq : hash = hash'
  · exact ⟨entry, heq ▸ hentry, hle⟩
  · exact h hash' hp hi (by simpa using heq)

/-- A block that is found invalid, or not processed any more, is not decided
    on. -/
theorem DecidedBut.dismiss {hash : Text} (h : DecidedBut (some hash) w)
    (hout : hash ∉ w.processedBlockHashes ∨ hash ∈ w.invalidBlockHashes) : DecidedBut none w := by
  intro hash' hp hi _
  refine h hash' hp hi ?_
  rintro ⟨rfl⟩
  exact hout.elim (fun hnp => hnp hp) fun hin => hi hin

theorem Change.memory (hs : Sound opts H w) (hc : Change opts H w label w') (hnote : label ≠ .note)
    (hreopen : label ≠ .reopen) :
    w'.processedBlockHashes = w.processedBlockHashes ∧
      w'.invalidBlockHashes = w.invalidBlockHashes := by
  cases hc with
  | note _ _ _ _ _ => exact absurd rfl hnote
  | index _ _ => exact ⟨rfl, rfl⟩
  | store _ _ _ _ => exact ⟨rfl, rfl⟩
  | adopt _ _ ha =>
    rw [ha.frame hs.idle]
    exact ⟨rfl, rfl⟩
  | mine _ _ ha =>
    rw [ha.frame hs.idle]
    exact ⟨rfl, rfl⟩
  | submit tx =>
    rw [exec_admitTransaction]
    exact ⟨rfl, rfl⟩
  | reopen => exact absurd rfl hreopen

variable (hinj : Set.InjOn computeBlockHash H)

include hinj

/-- What the target after a header hands on to the next one holds of every stored
    block, where the miner's blocks have it. -/
theorem Change.forall_stored {P : BlockHeader → Prop}
    (hnext : ∀ {chain : ChainState} {headers : HeaderIndex} {parent : ChainHeader}
      {header : BlockHeader}, P parent.header →
      expectedTargetFor opts chain headers .empty parent = .ok header.difficultyTarget → P header)
    (hs : Sound opts H w) (hmine : ∀ head, label = .mine head → P head.header)
    (hc : Change opts H w label w') (h : AllStored (fun block => P block.header) w.chain) :
    AllStored (fun block => P block.header) w'.chain := by
  refine hc.allStored hinj hs (fun {_ _ _ parent _} hparent hctx hvalid => ?_)
    (fun head hlabel _ _ _ => hmine head hlabel) h
  obtain ⟨_, _, hv⟩ := validateBlock_eq_ok.1 hvalid
  simp only [blockContext, bind_eq_ok] at hctx
  obtain ⟨target, htarget, reward, -, hctx⟩ := hctx
  cases hctx
  have hp : P (⟨parent.hash, parent.header⟩ : ChainHeader).header := h _ _ hparent
  exact hnext hp (htarget.trans (congrArg Except.ok hv.header.target_eq.symm))

/-- Blocks are stored whose target is the expected one, or that the miner made. -/
theorem Change.weighs (hs : Sound opts H w) (hC : MinesWork opts w label)
    (hc : Change opts H w label w')
    (h : ∀ hash block, w.chain.getBlock hash = some block → Weighs opts block.header) :
    ∀ hash block, w'.chain.getBlock hash = some block → Weighs opts block.header := by
  refine hc.forall_stored hinj (fun hparent htarget => hparent.next htarget rfl) hs ?_ h
  rintro head rfl
  exact hC

theorem Trace.weighs (hs : Sound opts H w) (ht : Trace opts H (MinesWork opts) w w')
    (h : ∀ hash block, w.chain.getBlock hash = some block → Weighs opts block.header) :
    ∀ hash block, w'.chain.getBlock hash = some block → Weighs opts block.header :=
  ht.invariant hinj (fun hs hC hc h => hc.weighs hinj hs hC h) hs h

/-- All that handlers do but `decideFork` keeps what was decided. -/
theorem kept_decided : Kept opts H (MinesWork opts) (Decided opts) where
  lenient := lenient_minesWork
  notes := fun hn h => ⟨by rw [hn.chain]; exact h.weighs, h.decided.notes hn⟩
  change := by
    intro w w' label hs hC hc hnote h
    refine ⟨hc.weighs hinj hs hC h.weighs, ?_⟩
    by_cases hreopen : label = .reopen
    · subst hreopen
      cases hc
      exact fun _ hp => absurd hp (Finset.notMem_empty _)
    · obtain ⟨hprocessed, hinvalid⟩ := hc.memory hs hnote hreopen
      refine h.decided.grows (hc.grows hinj hs) ?_ hprocessed hinvalid
      rcases hc.tipWork_lt hinj hs hC with ⟨-, heq⟩ | hlt
      · exact heq.ge
      · exact hlt.le

variable {block : Block}

omit hinj in
/-- A rejected block is not decided on. -/
theorem DecidedBut.reject (h : DecidedBut (some block.hash) w) (fuel : ℕ) (fromNodeId reason : Text)
    (blame : Bool) :
    DecidedBut none (rejectBlockFrom (fuel + 1) block fromNodeId reason blame w) := by
  have hmark : Notes w (markInvalid block fromNodeId reason blame w) := .markInvalid ..
  refine DecidedBut.notes ((h.notes hmark).dismiss (.inr (Finset.mem_insert_self _ _))) ?_
  exact rejectBlockFrom_succ_rel Notes.refl Notes.trans (fun _ _ => .of_eq rfl)
    (fun _ _ => .of_eq rfl) (rejectBlockFrom_notes fuel · · · blame ·) block fromNodeId reason w

theorem adoptOrReject_decided (hs : Sound opts H w) (hext : Extends H w.chain block)
    (hentry : w.headers.get block.hash = some entry) (hheavier : tipWork w ≤ entry.work)
    (h : DecidedBut (some block.hash) w) (fromNodeId : Text) :
    Wp (adoptOrReject opts env block fromNodeId) w (fun _ w' => DecidedBut none w')
      fun _ w' => DecidedBut none w' := by
  have hrest : ∀ (w : World) (adopted : Bool), DecidedBut none w →
      Wp (do
        if adopted then act (.broadcast (.NEW_BLOCK block) (some fromNodeId))
        pure adopted : NodeM Bool) w (fun _ w' => DecidedBut none w') fun _ w' => DecidedBut none w' := by
    intro w adopted h
    split
    · exact h.notes (.of_eq rfl)
    · exact h
  rcases hexec : (adoptBlock opts env block).exec w with ⟨result, w'⟩
  have hafter : DecidedBut none w' ∨ (∃ e, result = .error e) ∧ DecidedBut (some block.hash) w' := by
    rcases adoptBlock_outcome env hinj hs block with ⟨e, index, hfailed, -, hgrows⟩ | ha
    · cases hexec.symm.trans hfailed
      exact .inr ⟨⟨e, rfl⟩, h.grows hgrows (hs.tipWork_of_grows (w.withHeaders index) rfl hgrows).ge
        rfl rfl⟩
    · obtain ⟨-, hspine, hgrows⟩ := ha.puts hinj hs hext
      have hwork := tipWork_eq hspine.tip (hgrows _ _ hentry)
      have hframe := ha.frame hs.idle
      rw [hexec] at hgrows hwork hframe
      refine .inl ((h.grows hgrows (hheavier.trans hwork.ge) ?_ ?_).decide (hgrows _ _ hentry) hwork.ge)
      · rw [hframe]
      · rw [hframe]
  rw [adoptOrReject, wp_bind, wp_tryCatch, wp_bind]
  cases result with
  | ok _ =>
    rw [wp_eq_ok hexec]
    exact hrest w' true (hafter.resolve_right fun h' => nomatch h'.1.choose_spec)
  | error e =>
    -- However an adoption fails, the block is rejected, or is not processed any more.
    have h₁ : DecidedBut (some block.hash) w' := hafter.elim (·.of_none _) (·.2)
    rw [wp_eq_error hexec]
    cases e with
    | replay blockHash detail =>
      rw [wp_bind]
      exact hrest _ false (h₁.reject _ _ _ _)
    | _ =>
      rw [wp_bind, wp_writes, wp_throw]
      refine DecidedBut.dismiss (h₁.notes ⟨rfl, rfl, rfl, rfl, rfl, fun hash hp hi => ?_⟩)
        (.inl (Finset.notMem_erase block.hash _))
      exact ⟨Finset.mem_of_mem_erase hp, hi⟩

/-- Fork choice leaves the block decided on, where header entries are written. -/
theorem decideFork_decided (hfails : ∀ hash, env.fails (.header hash) = false) (hs : Sound opts H w)
    (hext : Extends H w.chain block) (hentry : w.headers.get block.header.previousHash = some entry)
    (hheight : block.header.height = entry.header.height + 1) (hweighs : Weighs opts block.header)
    (h : DecidedBut none w) (fromNodeId : Text) :
    Wp (decideFork opts env block fromNodeId entry.work) w (fun _ w' => DecidedBut none w')
      fun _ w' => DecidedBut none w' := by
  obtain ⟨added, -, hadded⟩ := hweighs
  set w₁ : World := { w with processedBlockHashes := insert block.hash w.processedBlockHashes }
    with hw₁
  have hs₁ : Sound opts H w₁ := hs.of_eq rfl rfl rfl
  have h₁ : DecidedBut (some block.hash) w₁ := by
    intro hash hp hi hne
    refine h hash ((Finset.mem_insert.1 hp).resolve_left fun heq => ?_) hi (by simp)
    exact hne (by rw [heq])
  have hlift : (Prog.lift (blockWork opts block.header) : NodeM ℕ).exec w₁ = (.ok added, w₁) := by
    rw [exec_lift, hadded]
  rw [decideFork, wp_bind, wp_writes, ← hw₁, wp_bind, wp_eq_ok hlift, wp_bind]
  rcases indexBlock_outcome env hinj hs₁.indexed hext.hash_eq hext.mem hentry
    hheight (hext.isLater hinj hs.stored) hadded with ⟨index, hexec, hindex, hgrows, hget⟩ | ⟨hfail, -⟩
  · have hs₂ : Sound opts H (w₁.withHeaders index) := (Change.index hindex hgrows).sound hinj hs₁
    have h₂ : DecidedBut (some block.hash) (w₁.withHeaders index) :=
      h₁.grows hgrows (hs₁.tipWork_of_grows (w₁.withHeaders index) rfl hgrows).ge rfl rfl
    obtain ⟨tip, tipEntry, htip, htipEntry, hcurrent⟩ := exec_currentWork env hs₂
    have hwork := tipWork_eq htip htipEntry
    rw [wp_eq_ok hexec, wp_bind, wp_eq_ok hcurrent]
    split
    · next hbetter =>
      exact adoptOrReject_decided hinj hs₂ hext hget
        (hwork.le.trans (of_decide_eq_true hbetter).le) h₂ fromNodeId
    · next hbetter =>
      refine h₂.decide hget ?_
      rw [hwork]
      exact not_lt.1 fun hlt => hbetter (decide_eq_true hlt)
  · rw [hfails] at hfail
    cases hfail

/-- Fork choice keeps what was decided. -/
theorem decides_decided (hfails : ∀ hash, env.fails (.header hash) = false) :
    Decides opts H (MinesWork opts) (Decided opts) env := by
  intro w block entry hs hext hstored hconflict hentry hheight fromNodeId
  have hdecides : Decides opts H (MinesWork opts) (fun _ => True) env :=
    lenient_minesWork.decides hinj
  have hgoes := hdecides hs hext hstored hconflict hentry hheight fromNodeId
  -- The invariant is about the states before and after only.
  by_cases h : Decided opts w
  · have hdecided := decideFork_decided hinj hfails hs hext hentry hheight
      (h.weighs _ _ hstored) h.decided fromNodeId
    have hweighs : ∀ w', Trace opts H (MinesWork opts) w w' →
        ∀ hash block, w'.chain.getBlock hash = some block → Weighs opts block.header :=
      fun w' ht => ht.weighs hinj hs h.weighs
    exact (hgoes.and hdecided).mono
      (fun _ w' ⟨⟨hl, _⟩, hd⟩ => ⟨⟨hl.trace, hl.pooled, fun _ => ⟨hweighs w' hl.trace, hd⟩⟩, trivial⟩)
      fun _ w' ⟨hl, hd⟩ => ⟨hl.trace, hl.pooled, fun _ => ⟨hweighs w' hl.trace, hd⟩⟩
  · exact Wp.mono hgoes
      (fun _ w' ⟨hl, _⟩ => ⟨⟨hl.trace, hl.pooled, fun h' => absurd h' h⟩, trivial⟩)
      fun _ w' hl => ⟨hl.trace, hl.pooled, fun h' => absurd h' h⟩

end Decided

/-! ## Runs -/

/-- No block that was decided on has more work than the tip. -/
def HeaviestWins (w : World) : Prop :=
  ∃ tip tipEntry, w.chain.tip = some tip ∧ w.headers.get tip.hash = some tipEntry ∧
    ∀ hash ∈ w.processedBlockHashes, hash ∉ w.invalidBlockHashes →
      ∃ entry, w.headers.get hash = some entry ∧ entry.work ≤ tipEntry.work

section Run

variable {opts : NodeOptions} {H : Set BlockHeader} {s : Session}

/-- What holds of a node and of the templates that its miner works on. -/
structure Session.Weighed (opts : NodeOptions) (s : Session) : Prop where
  decided : Decided opts s.toWorld
  templates : ∀ template ∈ s.templates, Weighs opts template.header

theorem start_weighed {w : World} (hgenesis : Weighs opts opts.genesis.header)
    (h : start opts = .ok w) : Session.Weighed opts { toWorld := w, templates := [] } := by
  obtain ⟨coinbase, undo, u, work, -, -, -, rfl⟩ := start_eq_ok h
  exact ⟨⟨allStored_genesisOps (P := fun block => Weighs opts block.header) hgenesis,
    fun _ hp => absurd hp (Finset.notMem_empty _)⟩, by simp⟩

theorem Session.Weighed.meets (h : s.Weighed opts) {event : Event} (hpossible : event.Possible s) :
    event.Meets opts (MinesWork opts) s := by
  cases event with
  | mined template nonce key =>
    intro header hseal
    refine (h.templates template hpossible).congr ?_
    change header.difficultyTarget = _
    rw [sealHeader_eq_some hseal]
  | _ => trivial

/-- The target of a template is that of the block after the tip. -/
theorem buildBlockTemplate_weighs {template : Template} (h : Decided opts s.toWorld)
    (hbuild : buildBlockTemplate opts env s.toWorld = .ok template) :
    Weighs opts template.header := by
  obtain ⟨tip, parent, target, -, hparent, htarget, hfill⟩ := buildBlockTemplate_eq_ok hbuild
  obtain ⟨reward, bytes, -, -, -, hheader⟩ := fillTemplate_eq_ok hfill
  obtain ⟨-, hheader⟩ := headerFor_eq_ok hheader
  refine Weighs.next ?_ htarget (by rw [hheader])
  exact h.weighs _ _ hparent

theorem step_weighed (hinj : Set.InjOn computeBlockHash H)
    (hfails : ∀ hash, env.fails (.header hash) = false) (hg : s.Good opts H) (h : s.Weighed opts)
    {event : Event} (hpossible : event.Possible s)
    (hmem : ∀ header ∈ event.headers opts, header ∈ H) : (step opts s env event).Weighed opts := by
  have hl := step_kept hinj (kept_decided hinj).abides
    ((kept_decided hinj).settles hinj (decides_decided hinj hfails)) hg hpossible hmem
    (h.meets hpossible)
  refine ⟨hl.kept h.decided, ?_⟩
  cases event with
  | buildBlockTemplate =>
    rw [step]
    split
    · next template hbuild =>
      intro t ht
      rcases List.mem_cons.1 ht with rfl | ht
      · exact buildBlockTemplate_weighs h.decided hbuild
      · exact h.templates t ht
    · exact h.templates
  | mined template nonce key =>
    rw [step]
    split <;> exact h.templates
  | restart =>
    intro t ht
    cases ht
  | _ => exact h.templates

/-- The heaviest chain wins, in every run of a node whose genesis has work and
    whose header entries are written; and every event that changes the tip
    increases its work. -/
theorem heaviest_wins (hinj : Set.InjOn computeBlockHash H)
    (hgenesis : Weighs opts opts.genesis.header)
    (hr : ReachableWhere opts H (fun _ env _ => ∀ hash, env.fails (.header hash) = false) s) :
    HeaviestWins s.toWorld ∧
    ∀ env event, event.Possible s → (∀ header ∈ event.headers opts, header ∈ H) →
      (step opts s env event).chain.tip ≠ s.chain.tip →
      tipWork s.toWorld < tipWork (step opts s env event).toWorld := by
  have hgood := hr.reachable.good hinj
  have hweighed : s.Weighed opts := by
    induction hr with
    | initial _ hw => exact start_weighed hgenesis hw
    | next hr hp hH hfails ih =>
      have hgood := hr.reachable.good hinj
      exact step_weighed hinj hfails hgood (ih hgood) hp hH
  refine ⟨?_, fun env event hp hH hne => ?_⟩
  · obtain ⟨tip, entry, htip, hentry, hwork⟩ := hgood.sound.exists_tip
    refine ⟨tip, entry, htip, hentry, fun hash hp hi => ?_⟩
    rw [← hwork]
    exact hweighed.decided.decided hash hp hi (by simp)
  · have hl := step_leads hinj lenient_minesWork hgood env hp hH (hweighed.meets hp)
    rcases hl.trace.tipWork_lt hinj hgood.sound with ⟨heq, -⟩ | hlt
    · exact absurd heq hne
    · exact hlt

end Run

/-- A node that adopted a first block. -/
theorem heaviest_wins_sample :
    sampleRun.chain.tip = some ⟨firstBlock.hash, 1⟩ ∧ HeaviestWins sampleRun.toWorld := by
  have hr : ReachableWhere sampleOptions sampleHeaders
      (fun _ env _ => ∀ hash, env.fails (.header hash) = false) sampleRun := by
    refine .next (.initial (.inl rfl) start_sample) trivial (fun header hheader => ?_) fun _ => rfl
    cases List.mem_singleton.1 hheader
    exact .inr rfl
  exact ⟨tip_sampleRun, (heaviest_wins injOn_sampleHeaders ⟨1, by decide, by decide +kernel⟩ hr).1⟩

/-- A node whose entry for a first block is not written. -/
def entryLost : Session :=
  step sampleOptions { toWorld := started sampleOptions, templates := [] }
    { sampleEnv with fails := fun write => write = .header firstBlock.hash }
    (.message (.NEW_BLOCK firstBlock) (lit "p"))

/-- It is then sent the header of the block. -/
def unindexedRun : Session :=
  step sampleOptions entryLost sampleEnv (.message (.HEADERS [firstBlock.header]) (lit "p"))

theorem reachable_unindexedRun : Reachable sampleOptions sampleHeaders unindexedRun := by
  have hfirst : ∀ header ∈ [firstBlock.header], header ∈ sampleHeaders := fun header hheader =>
    .inr (List.mem_singleton.1 hheader)
  have hopened : Reachable sampleOptions sampleHeaders ⟨started sampleOptions, []⟩ :=
    .initial (.inl rfl) start_sample
  have hlost : Reachable sampleOptions sampleHeaders entryLost :=
    .next _ hopened trivial hfirst
  exact .next _ hlost trivial hfirst

/-- While genesis is the tip, the first block has more work. -/
theorem Sound.tipWork_lt_firstBlock {w : World} (hs : Sound sampleOptions sampleHeaders w)
    (htip : w.chain.tip = some ⟨sampleGenesis.hash, 0⟩)
    (hentry : w.headers.get firstBlock.hash = some entry) : tipWork w < entry.work := by
  have hheader : entry.header = firstBlock.header := by
    obtain ⟨hhash, hmem⟩ := hs.indexed.hashed _ _ hentry
    exact injOn_sampleHeaders hmem (.inr rfl) hhash
  have hne : firstBlock.hash ≠ sampleGenesis.hash := by decide +kernel
  obtain ⟨parent, added, hparent, -, hadded, hsum⟩ :=
    (hs.indexed.linked _ _ hentry).resolve_left hne
  have hroot : w.headers.get sampleGenesis.hash = some parent := by rwa [hheader] at hparent
  have hone : added = 1 := by
    rw [hheader] at hadded
    exact Except.ok.inj (hadded.symm.trans (by decide +kernel))
  rw [tipWork_eq htip hroot]
  omega

/-- The block is marked as processed before its entry is written, and stays so
    when that fails. It is never looked at again, though it has more work than the
    tip. -/
theorem processed_undecided : Reachable sampleOptions sampleHeaders unindexedRun ∧
    firstBlock.hash ∈ unindexedRun.processedBlockHashes ∧
    firstBlock.hash ∉ unindexedRun.invalidBlockHashes ∧
    ∃ entry, unindexedRun.headers.get firstBlock.hash = some entry ∧
      tipWork unindexedRun.toWorld < entry.work := by
  have hreads : (unindexedRun.headers.get firstBlock.hash).isSome ∧
      unindexedRun.chain.tip = some ⟨sampleGenesis.hash, 0⟩ ∧
      firstBlock.hash ∈ unindexedRun.processedBlockHashes ∧
      firstBlock.hash ∉ unindexedRun.invalidBlockHashes := by decide +kernel
  obtain ⟨hindexed, htip, hprocessed, hvalid⟩ := hreads
  obtain ⟨entry, hentry⟩ := Option.isSome_iff_exists.1 hindexed
  have hs := reachable_unindexedRun.sound injOn_sampleHeaders
  exact ⟨reachable_unindexedRun, hprocessed, hvalid, entry, hentry,
    hs.tipWork_lt_firstBlock htip hentry⟩

end Plainchain
