import Plainchain.Node.Handlers

/-!
# The canonical chain

In every state that a node reaches from an empty database, the height index lists
the ancestors of the tip and nothing else, and undo records are those of the
listed blocks but genesis (`canonical_chain`).
-/

namespace Plainchain

open Js Kv Ancestry Prog

section Spine

variable {opts : NodeOptions} {H : Set BlockHeader} {chain : ChainState} {head : Block}

/-- A stored block has a stored ancestor at every height below its own. -/
theorem StoredWell.exists_ancestor (h : StoredWell opts H chain) {hash : Text} {block : Block}
    (hb : chain.getBlock hash = some block) {i : ℕ} (hi : i ≤ block.header.height) :
    ∃ hash' block', Anc (parentHash chain.headerOf) hash hash' ∧
      chain.getBlock hash' = some block' ∧ block'.header.height = i := by
  induction hn : block.header.height generalizing hash block with
  | zero => exact ⟨hash, block, .refl _, hb, by omega⟩
  | succ n ih =>
    by_cases heq : i = n + 1
    · exact ⟨hash, block, .refl _, hb, by rw [hn, heq]⟩
    · obtain ⟨parent, hp, hheight⟩ := h.linked hash block hb (by omega)
      obtain ⟨hash', block', hanc, hb', hi'⟩ := ih hp (by omega) (by omega)
      refine ⟨hash', block', (Anc.of_parent ?_).trans hanc, hb', hi'⟩
      exact parentHash_eq (headerOf_eq_some.2 ⟨block, hb, rfl⟩) (by omega)

variable (h : StoredWell opts H chain) (hspine : Spine chain head)

include h hspine

/-- The stored block of an entry of the height index. -/
theorem Spine.block_of_canonical {i : ℕ} {hash : Text} (hc : chain.canonical.get i = some hash) :
    ∃ block, chain.getBlock hash = some block ∧ block.header.height = i := by
  obtain ⟨hanc, hheight⟩ := (hspine.canonical i hash).1 hc
  obtain ⟨block, hblock⟩ := h.stored_of_anc hanc hspine.stored
  refine ⟨block, hblock, ?_⟩
  rw [← hheight, heightIn_eq (headerOf_eq_some.2 ⟨block, hblock, rfl⟩)]

/-- There is an entry at every height up to that of the head, and none above. -/
theorem Spine.exists_canonical (i : ℕ) :
    (∃ hash, chain.canonical.get i = some hash) ↔ i ≤ head.header.height := by
  constructor
  · rintro ⟨hash, hc⟩
    obtain ⟨hanc, rfl⟩ := (hspine.canonical i hash).1 hc
    rw [← heightIn_eq (headerOf_eq_some.2 ⟨head, hspine.stored, rfl⟩)]
    exact hanc.height_le h.rootward.height_parent
  · intro hi
    obtain ⟨hash, block, hanc, hb, rfl⟩ := h.exists_ancestor hspine.stored hi
    exact ⟨hash, (hspine.canonical _ hash).2
      ⟨hanc, heightIn_eq (headerOf_eq_some.2 ⟨block, hb, rfl⟩)⟩⟩

/-- The canonical block at a height. -/
theorem Spine.canonicalBlock_isSome {i : ℕ} (hi : i ≤ head.header.height) :
    ∃ block, canonicalBlock chain i = some block ∧ chain.canonical.get i = some block.hash ∧
      chain.getBlock block.hash = some block ∧ block.header.height = i := by
  obtain ⟨hash, hc⟩ := (hspine.exists_canonical h i).2 hi
  obtain ⟨block, hb, hheight⟩ := hspine.block_of_canonical h hc
  have hkey := chain.keyed _ _ hb
  refine ⟨block, ?_, by rw [hc, hkey], by rw [hkey, hb], hheight⟩
  rw [canonicalBlock, ChainState.getCanonicalHashAtHeight, hc, Option.bind_some, hb]

/-- The block of an entry comes after that of the entry below. -/
theorem Spine.canonical_link {i : ℕ} {block : Block}
    (hb : canonicalBlock chain (i + 1) = some block) :
    chain.canonical.get i = some block.header.previousHash := by
  rw [canonicalBlock, ChainState.getCanonicalHashAtHeight, Option.bind_eq_some_iff] at hb
  obtain ⟨hash, hc, hb⟩ := hb
  obtain ⟨hanc, hheight⟩ := (hspine.canonical _ hash).1 hc
  have hheader := headerOf_eq_some.2 ⟨block, hb, rfl⟩
  rw [heightIn_eq hheader] at hheight
  have hparent := parentHash_eq hheader (by omega)
  refine (hspine.canonical i _).2 ⟨hanc.trans (.of_parent hparent), ?_⟩
  have := h.rootward.height_parent _ _ hparent
  rw [heightIn_eq hheader] at this
  omega

end Spine

section Adopt

variable {opts : NodeOptions} {H : Set BlockHeader} {chain chain' : ChainState}
  {headers : HeaderIndex}

/-- An ancestor has no more work. -/
theorem IndexedWell.work_le (hinj : Set.InjOn computeBlockHash H) (h : StoredWell opts H chain)
    (hi : IndexedWell opts H headers) {x y : Text} (hanc : Anc (parentHash chain.headerOf) x y)
    {ex ey : IndexedHeader} (hx : headers.get x = some ex) (hy : headers.get y = some ey) :
    ey.work ≤ ex.work := by
  obtain ⟨l, hl⟩ := hanc
  induction l generalizing x ex with
  | nil =>
    rw [show x = y from hl, hy] at hx
    cases hx
    exact Nat.le_refl _
  | cons a l ih =>
    obtain ⟨rfl, p, hp, hl⟩ := hl
    rw [parentHash, Option.bind_eq_some_iff] at hp
    obtain ⟨header, hheader, hp⟩ := hp
    split at hp
    · cases hp
    next h0 =>
    cases hp
    obtain ⟨block, hb, rfl⟩ := headerOf_eq_some.1 hheader
    obtain ⟨hhash, hmem⟩ := h.hashed _ _ hb
    have heq : ex.header = block.header := hi.header_eq hinj hmem (by rw [hhash, hx])
    rcases hi.linked _ _ hx with rfl | ⟨parent, added, hparent, -, -, hwork⟩
    · rw [h.genesis] at hb
      cases hb
      exact absurd (genesis_height opts) h0
    · rw [heq] at hparent
      rw [hwork]
      exact (ih hparent hl).trans (Nat.le_add_right _ _)

/-- Up to a common ancestor of the tip and the head, an adoption leaves the height
    index. -/
theorem Spine.canonical_eq (hinj : Set.InjOn computeBlockHash H) (h : StoredWell opts H chain)
    {previousHead head : Block} (hext : Extends H chain head) (hput : Puts chain head chain')
    (hold : Spine chain previousHead) (hnew : Spine chain' head) {hash : Text} {i j : ℕ}
    (hc : chain.canonical.get j = some hash) (hanc : Anc (parentHash chain'.headerOf) head.hash hash)
    (hi : i ≤ j) : chain'.canonical.get i = chain.canonical.get i := by
  have hsame : HeightIndex (parentHash chain'.headerOf) (heightIn chain'.headerOf) chain.canonical
      previousHead.hash :=
    hold.canonical.congr (fun y => h.anc_put hinj hext hput (y := y) hold.stored)
      fun y => h.heightIn_put hinj hext hput (y := y) hold.stored
  obtain ⟨holdanc, hheight⟩ := (hsame j hash).1 hc
  exact hsame.agree (h.put hinj hext hput).rootward.height_parent hnew.canonical holdanc hanc
    (by omega)

end Adopt

/-- The height index holds the ancestors of the tip by height, which are stored and
    linked, and nothing above the tip; undo records are those of its entries above
    genesis. -/
structure CanonicalChain (chain : ChainState) (tip : ChainTip) : Prop where
  tip_eq : chain.tip = some tip
  top : chain.canonical.get tip.height = some tip.hash
  stored : ∀ h ≤ tip.height, ∃ block, chain.canonical.get h = some block.hash ∧
    chain.getBlock block.hash = some block ∧ block.header.height = h
  linked : ∀ h hash block, chain.canonical.get (h + 1) = some hash →
    chain.getBlock hash = some block → chain.canonical.get h = some block.header.previousHash
  above : ∀ h, tip.height < h → chain.canonical.get h = none
  undo : ∀ hash, (chain.getUndo hash).isSome ↔ ∃ h ≥ 1, chain.canonical.get h = some hash

/-- The canonical chain of a node is well formed in every state that it reaches
    from an empty database, whatever blocks it is sent and mines, and whichever of
    its writes fail. -/
theorem canonical_chain {opts : NodeOptions} {H : Set BlockHeader}
    (hinj : Set.InjOn computeBlockHash H) {s : Session} (hr : Reachable opts H s) :
    ∃ tip, CanonicalChain s.chain tip := by
  have hs := hr.sound hinj
  obtain ⟨head, hspine, -⟩ := hs.spine
  refine ⟨⟨head.hash, head.header.height⟩, hspine.tip, ?_, ?_, ?_, ?_, ?_⟩
  · exact (hspine.canonical _ _).2
      ⟨.refl _, heightIn_eq (headerOf_eq_some.2 ⟨head, hspine.stored, rfl⟩)⟩
  · intro h hle
    obtain ⟨block, -, hblock⟩ := hspine.canonicalBlock_isSome hs.stored hle
    exact ⟨block, hblock⟩
  · intro h hash block hc hb
    refine hspine.canonical_link hs.stored ?_
    rw [canonicalBlock, ChainState.getCanonicalHashAtHeight, hc, Option.bind_some, hb]
  · intro h hlt
    refine Option.eq_none_iff_forall_not_mem.2 fun hash hc => ?_
    have := (hspine.exists_canonical hs.stored h).1 ⟨hash, hc⟩
    exact absurd this (by simpa using hlt)
  · intro hash
    rw [ChainState.getUndo, hspine.undo hash]
    constructor
    · rintro ⟨hanc, hpos⟩
      exact ⟨_, hpos, (hspine.canonical _ hash).2 ⟨hanc, rfl⟩⟩
    · rintro ⟨h, hpos, hc⟩
      obtain ⟨hanc, rfl⟩ := (hspine.canonical h hash).1 hc
      exact ⟨hanc, hpos⟩

/-- A node that adopted a first block. -/
theorem canonical_chain_sample : Reachable sampleOptions sampleHeaders sampleRun ∧
    sampleRun.chain.tip = some ⟨firstBlock.hash, 1⟩ ∧ ∃ tip, CanonicalChain sampleRun.chain tip :=
  ⟨reachable_sampleRun, tip_sampleRun, canonical_chain injOn_sampleHeaders reachable_sampleRun⟩

end Plainchain
