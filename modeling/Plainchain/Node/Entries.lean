import Plainchain.Node.Verdicts

/-!
# The entries of the header index

Four paths of `src/node/node.ts` write entries: `handleHeaders` before a body is
known, `handleIncomingBlock` after the block is stored, `adoptBlock` in the batch of
an adoption, and the lookup `getIndexedHeader` for blocks that lack theirs.
Whichever wrote an entry, it is after the entry of its parent, with the work of its
chain (`EntriesLinked`). Where entries are written, no block is left without one
between two events (`StoredIndexed`): a block is stored before its entry, and both
writes belong to one handler.
-/

namespace Plainchain

open Js Kv Prog

/-- An entry is the one of genesis, or it comes after that of its parent. -/
def EntriesLinked (opts : NodeOptions) (headers : HeaderIndex) : Prop :=
  ∀ hash entry, headers.get hash = some entry → computeBlockHash entry.header = hash ∧
    ((entry.header = opts.genesis.header ∧ blockWork opts opts.genesis.header = .ok entry.work) ∨
      ∃ parent added, headers.get entry.header.previousHash = some parent ∧
        entry.header.height = parent.header.height + 1 ∧
        parent.header.timestamp < entry.header.timestamp ∧
        blockWork opts entry.header = .ok added ∧ entry.work = parent.work + added)

/-- Every stored block has an entry, of its header. -/
def StoredIndexed (w : World) : Prop :=
  ∀ hash block, w.chain.getBlock hash = some block →
    ∃ entry, w.headers.get hash = some entry ∧ entry.header = block.header

section Entries

variable {opts : NodeOptions} {H : Set BlockHeader} {w w' : World}

theorem IndexedWell.entriesLinked {headers : HeaderIndex} (h : IndexedWell opts H headers) :
    EntriesLinked opts headers := by
  intro hash entry he
  refine ⟨(h.hashed hash entry he).1, ?_⟩
  by_cases hgen : hash = opts.genesis.hash
  · obtain ⟨work, hwork, hg⟩ := h.genesis
    rw [hgen, hg] at he
    cases he
    exact .inl ⟨rfl, hwork⟩
  · obtain ⟨parent, added, hp, hheight, hadded, hsum⟩ := (h.linked hash entry he).resolve_left hgen
    obtain ⟨hphash, hpmem⟩ := h.hashed _ _ hp
    have hlater := (h.later hash entry he).resolve_left hgen parent.header hpmem hphash
    exact .inr ⟨parent, added, hp, hheight, hlater, hadded, hsum⟩

theorem StoredIndexed.grows (h : StoredIndexed w) (hgrows : Grows w.headers w'.headers)
    (hchain : w'.chain = w.chain) : StoredIndexed w' := by
  intro hash block hb
  rw [hchain] at hb
  obtain ⟨entry, he, hheader⟩ := h hash block hb
  exact ⟨entry, hgrows _ _ he, hheader⟩

/-- Once a block has its entry, so has every stored block again. -/
theorem StoredIndexed.put (h : StoredIndexed w) {block : Block} (hgrows : Grows w.headers w'.headers)
    (hput : Puts w.chain block w'.chain) {entry : IndexedHeader}
    (he : w'.headers.get block.hash = some entry) (hheader : entry.header = block.header) :
    StoredIndexed w' := by
  intro hash b hb
  rw [hput hash] at hb
  split at hb
  · next heq =>
    cases hb
    exact ⟨entry, heq ▸ he, hheader⟩
  · obtain ⟨entry', he', hheader'⟩ := h hash b hb
    exact ⟨entry', hgrows _ _ he', hheader'⟩

/-- Where all stored blocks have entries, they have work. -/
theorem StoredIndexed.measured (h : StoredIndexed w) (hi : IndexedWell opts H w.headers) {hash : Text}
    {block : Block} (hb : w.chain.getBlock hash = some block) : Measured opts block.header := by
  obtain ⟨entry, he, hheader⟩ := h hash block hb
  rw [← hheader]
  rcases (hi.entriesLinked hash entry he).2 with ⟨hgen, hwork⟩ | ⟨_, added, -, -, -, hadded, -⟩
  · exact ⟨_, by rw [hgen, hwork]⟩
  · exact ⟨added, hadded⟩

variable (hinj : Set.InjOn computeBlockHash H)

include hinj

/-- An adoption writes the entry of its head, unless there is one. -/
theorem Adopts.storedIndexed {head : Block} (hs : Sound opts H w) (hext : Extends H w.chain head)
    (ha : Adopts opts w head w') (h : StoredIndexed w) : StoredIndexed w' := by
  obtain ⟨hput, hspine, hgrows⟩ := ha.puts hinj hs hext
  have hs' := ha.sound hinj hs hext
  obtain ⟨head', hspine', hentry⟩ := hs'.spine
  have hhash : head'.hash = head.hash := by
    have htip := hspine'.tip.symm.trans hspine.tip
    simp only [Option.some.injEq, ChainTip.mk.injEq] at htip
    exact htip.1
  rw [hhash] at hentry
  obtain ⟨entry, he⟩ := Option.isSome_iff_exists.1 hentry
  refine h.put hgrows hput he (hs'.indexed.header_eq hinj hext.mem ?_)
  rw [hext.hash_eq, he]

theorem abides_storedIndexed : Abides opts H (fun _ _ => True) StoredIndexed where
  lenient := fun _ _ _ => trivial
  notes := fun hn h => h.grows (by rw [hn.headers]; exact Grows.refl _) hn.chain
  change := by
    intro w w' label hs _ hc hne h
    cases hc with
    | note _ _ _ _ _ => exact absurd rfl hne.1
    | index _ hgrows => exact h.grows hgrows rfl
    | @store _ _ block _ _ _ _ _ _ => exact absurd rfl (hne.2 block)
    | adopt hext _ ha => exact ha.storedIndexed hinj hs hext h
    | mine hext _ ha => exact ha.storedIndexed hinj hs hext h
    | submit tx =>
      rw [exec_admitTransaction]
      exact h
    | reopen => exact h

/-- A block that was stored is given its entry, where entries are written. What
    follows finds all stored blocks indexed. -/
theorem settle_storedIndexed {env : Env} (hfails : ∀ hash, env.fails (.header hash) = false)
    {block : Block} {entry : IndexedHeader} (hs : Sound opts H w)
    (hmeasured : Measured opts block.header) (hext : Extends H w.chain block)
    (hconflict : ¬conflictsWithVerifiedCheckpoint w.chain w.verifiedCheckpointHeight
      block.header.height block.hash)
    (hentry : w.headers.get block.header.previousHash = some entry)
    (hheight : block.header.height = entry.header.height + 1) (h : StoredIndexed w)
    (hs₁ : Sound opts H { w with chain := w.chain.batch [putBlockOp block] }) (fromNodeId : Text) :
    Wp (do
      putBlock env block
      decideFork opts env block fromNodeId entry.work) w (fun _ w' => StoredIndexed w')
      fun _ w' => StoredIndexed w' := by
  obtain ⟨added, hadded⟩ := hmeasured
  have hput := puts_batch w.chain block
  rw [wp_bind, putBlock, wp_of]
  split_ifs
  · exact h
  change Wp (decideFork opts env block fromNodeId entry.work) _ _ _
  rw [decideFork, wp_bind, wp_writes, wp_bind]
  set w₂ : World := { w with
    chain := w.chain.batch [putBlockOp block]
    processedBlockHashes := insert block.hash w.processedBlockHashes } with hw₂
  have hs₂ : Sound opts H w₂ := hs₁.of_eq rfl rfl rfl
  have hlift : (Prog.lift (blockWork opts block.header) : NodeM ℕ).exec w₂ = (.ok added, w₂) := by
    rw [exec_lift, hadded]
  rw [wp_eq_ok hlift, wp_bind]
  rcases indexBlock_outcome env hinj hs₂.indexed hext.hash_eq hext.mem hentry hheight
    (hext.isLater hinj hs.stored) hadded with ⟨index, hexec, hindex, hgrows, hget⟩ | ⟨hfail, -⟩
  · have hs₃ : Sound opts H (w₂.withHeaders index) := (Change.index hindex hgrows).sound hinj hs₂
    have h₃ : StoredIndexed (w₂.withHeaders index) := h.put hgrows hput hget rfl
    obtain ⟨tip, tipEntry, htip, htipEntry, hcurrent⟩ := exec_currentWork env hs₃
    rw [wp_eq_ok hexec, wp_bind, wp_eq_ok hcurrent]
    split
    · next hbetter =>
      have hheavier : Heavier (w₂.withHeaders index) block :=
        ⟨(hput block.hash).trans (if_pos rfl), hconflict, _, tip, tipEntry, hget, htip, htipEntry,
          of_decide_eq_true hbetter⟩
      have hgoes : Goes opts H (fun _ _ => True) StoredIndexed
          (adoptOrReject opts env block fromNodeId) (w₂.withHeaders index) fun _ _ => True :=
        adoptOrReject_goes hinj (abides_storedIndexed hinj) hs₃
          (Extends.put hinj hs.stored hext hput) hheavier fromNodeId
      exact Wp.mono hgoes (fun _ w' hl => hl.1.kept h₃) fun _ w' hl => hl.kept h₃
    · exact h₃
  · rw [hfails] at hfail
    cases hfail

theorem settles_storedIndexed {env : Env} (hfails : ∀ hash, env.fails (.header hash) = false) :
    Settles opts H (fun _ _ => True) StoredIndexed env := by
  intro w₀ w block parent ctx entry hs hmem hparent hctx hvalid hconflict hentry hheight fromNodeId
  have hgoes := settles_true hinj hs hmem hparent hctx hvalid hconflict hentry hheight fromNodeId
  by_cases h : StoredIndexed w
  · -- The target of the block is the one after its parent, which has work.
    have hmeasured : Measured opts block.header := by
      obtain ⟨_, _, hv⟩ := validateBlock_eq_ok.1 hvalid
      simp only [blockContext, bind_eq_ok] at hctx
      obtain ⟨target, htarget, _, -, heq⟩ := hctx
      cases heq
      have hp : Measured opts (⟨parent.hash, parent.header⟩ : ChainHeader).header :=
        h.measured hs.indexed hparent
      exact hp.next (htarget.trans (congrArg Except.ok hv.header.target_eq.symm))
    have hindexed := settle_storedIndexed hinj hfails hs hmeasured
      (extends_of_valid hparent hmem hctx hvalid) hconflict hentry hheight h
      ((Change.store hparent hmem hctx hvalid).sound hinj hs) fromNodeId
    exact (hgoes.and hindexed).mono
      (fun _ w' hl => ⟨⟨hl.1.1.trace, hl.1.1.pooled, fun _ => hl.2⟩, trivial⟩)
      fun _ w' hl => ⟨hl.1.trace, hl.1.pooled, fun _ => hl.2⟩
  · exact Wp.mono hgoes
      (fun _ w' hl => ⟨⟨hl.1.trace, hl.1.pooled, fun h' => absurd h' h⟩, trivial⟩)
      fun _ w' hl => ⟨hl.trace, hl.pooled, fun h' => absurd h' h⟩

end Entries

/-! ## Runs -/

section Run

variable {opts : NodeOptions} {H : Set BlockHeader} {s : Session}

theorem start_storedIndexed {w : World} (h : start opts = .ok w) : StoredIndexed w := by
  obtain ⟨coinbase, undo, u, work, -, -, -, rfl⟩ := start_eq_ok h
  intro hash block hb
  obtain ⟨rfl, rfl⟩ := getBlock_genesisOps_eq_some hb
  exact ⟨⟨opts.genesis.header, work⟩, Store.get_set_self _ _ _, rfl⟩

/-- The header index is consistent. In every run each entry is after that of its
    parent, and has the work of its chain; and in every run in which no write of an
    entry fails, every stored block has one between any two events. -/
theorem header_index_consistent (hinj : Set.InjOn computeBlockHash H) :
    (∀ s, Reachable opts H s → EntriesLinked opts s.headers) ∧
    ∀ s, ReachableWhere opts H (fun _ env _ => ∀ hash, env.fails (.header hash) = false) s →
      EntriesLinked opts s.headers ∧ StoredIndexed s.toWorld := by
  refine ⟨fun s hr => (hr.sound hinj).indexed.entriesLinked, fun s hr => ?_⟩
  refine ⟨(hr.reachable.sound hinj).indexed.entriesLinked, ?_⟩
  induction hr with
  | initial _ hw => exact start_storedIndexed hw
  | @next _ _ event hr hp hH hfails ih =>
    refine (step_kept hinj (abides_storedIndexed hinj) (settles_storedIndexed hinj hfails)
      (hr.reachable.good hinj) hp hH ?_).kept ih
    cases event <;> simp [Event.Meets]

/-- A node that adopted a first block. -/
theorem header_index_consistent_sample : (sampleRun.headers.get firstBlock.hash).isSome ∧
    EntriesLinked sampleOptions sampleRun.headers ∧ StoredIndexed sampleRun.toWorld := by
  have hr : ReachableWhere sampleOptions sampleHeaders
      (fun _ env _ => ∀ hash, env.fails (.header hash) = false) sampleRun := by
    refine .next (.initial (.inl rfl) start_sample) trivial (fun header hheader => ?_) fun _ => rfl
    cases List.mem_singleton.1 hheader
    exact .inr rfl
  exact ⟨by decide +kernel, (header_index_consistent injOn_sampleHeaders).2 _ hr⟩

end Run

end Plainchain
