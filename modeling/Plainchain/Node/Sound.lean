import Plainchain.Node.Stage

/-!
# Sound nodes

What holds of the disk of a node between any two writes: stored blocks have their
ancestry stored down to genesis, indexed headers have theirs indexed, and the
height index and the undo records are those of the ancestors of the tip.

The handlers of a node make a few kinds of changes to it only (`Change`), and each
of them leaves a sound node sound (`Change.sound`). The headers that the node meets
are from a set `H` on which block hashes do not collide.
-/

namespace Plainchain

open Js Kv Ancestry Prog List

section Sound

variable (opts : NodeOptions) (H : Set BlockHeader)

/-- A header of a later time than the one it builds on. -/
def Later (header : BlockHeader) : Prop :=
  ∀ parent ∈ H, computeBlockHash parent = header.previousHash → parent.timestamp < header.timestamp

/-- Stored blocks are stored under the hash of their header, and so is their
    ancestry down to genesis. -/
structure StoredWell (chain : ChainState) : Prop where
  hashed : ∀ hash block, chain.getBlock hash = some block →
    computeBlockHash block.header = hash ∧ block.header ∈ H
  linked : Linked chain
  later : ∀ hash block, chain.getBlock hash = some block → block.header.height ≠ 0 →
    Later H block.header
  root : ∀ hash block, chain.getBlock hash = some block → block.header.height = 0 →
    hash = opts.genesis.hash
  genesis : chain.getBlock opts.genesis.hash = some opts.genesis

/-- Indexed headers are indexed under their hash, after their parent, with the
    work of their chain. -/
structure IndexedWell (headers : HeaderIndex) : Prop where
  hashed : ∀ hash entry, headers.get hash = some entry →
    computeBlockHash entry.header = hash ∧ entry.header ∈ H
  genesis : ∃ work, blockWork opts opts.genesis.header = .ok work ∧
    headers.get opts.genesis.hash = some ⟨opts.genesis.header, work⟩
  linked : ∀ hash entry, headers.get hash = some entry → hash = opts.genesis.hash ∨
    ∃ parent added, headers.get entry.header.previousHash = some parent ∧
      entry.header.height = parent.header.height + 1 ∧
      blockWork opts entry.header = .ok added ∧ entry.work = parent.work + added
  later : ∀ hash entry, headers.get hash = some entry → hash = opts.genesis.hash ∨
    Later H entry.header

/-- The ancestors of the block `head`, which is the tip, are what the height index
    lists, and all but genesis have an undo record. -/
structure Spine (chain : ChainState) (head : Block) : Prop where
  tip : chain.tip = some ⟨head.hash, head.header.height⟩
  stored : chain.getBlock head.hash = some head
  canonical : HeightIndex (parentHash chain.headerOf) (heightIn chain.headerOf) chain.canonical
    head.hash
  undo : Recorded (parentHash chain.headerOf) (heightIn chain.headerOf) chain.undo head.hash

/-- What holds between any two writes. -/
structure Sound (w : World) : Prop where
  stored : StoredWell opts H w.chain
  indexed : IndexedWell opts H w.headers
  spine : ∃ head, Spine w.chain head ∧ (w.headers.get head.hash).isSome
  idle : w.utxoSet.staging = none
  maturity : w.utxoSet.coinbaseMaturity = opts.coinbaseMaturity

end Sound

/-! ## Stored blocks -/

variable {hash : Text} {block head : Block} {header : BlockHeader}

section Stored

variable {opts : NodeOptions} {H : Set BlockHeader} {chain chain' : ChainState}

theorem genesis_hash (opts : NodeOptions) : computeBlockHash opts.genesis.header = opts.genesis.hash := by
  obtain ⟨_, -, -, -, -, h⟩ := createGenesisBlock_eq_ok opts.genesis_eq
  exact h.symm

theorem genesis_height (opts : NodeOptions) : opts.genesis.header.height = 0 := by
  obtain ⟨_, -, -, h, -⟩ := createGenesisBlock_eq_ok opts.genesis_eq
  exact h

theorem headerOf_eq_some :
    chain.headerOf hash = some header ↔
      ∃ block, chain.getBlock hash = some block ∧ block.header = header := by
  simp [ChainState.headerOf]

theorem StoredWell.rootward (h : StoredWell opts H chain) : Rootward chain.headerOf where
  linked := by
    intro hash header hheader h0
    obtain ⟨block, hb, rfl⟩ := headerOf_eq_some.1 hheader
    obtain ⟨parent, hp, hheight⟩ := h.linked hash block hb h0
    exact ⟨parent.header, headerOf_eq_some.2 ⟨parent, hp, rfl⟩, hheight⟩
  root := by
    intro x y hx hy hxh hyh hx0 hy0
    obtain ⟨bx, hbx, rfl⟩ := headerOf_eq_some.1 hxh
    obtain ⟨bY, hby, rfl⟩ := headerOf_eq_some.1 hyh
    rw [h.root x bx hbx hx0, h.root y bY hby hy0]

theorem ChainState.known (hb : chain.getBlock hash = some block) : Known chain.headerOf block := by
  rw [Known, chain.keyed hash block hb]
  exact headerOf_eq_some.2 ⟨block, hb, rfl⟩

variable {b : Block} {x y : Text}

/-- The ancestors of a stored block are stored. -/
theorem StoredWell.stored_of_anc (h : StoredWell opts H chain)
    (hanc : Anc (parentHash chain.headerOf) x y) (hx : chain.getBlock x = some b) :
    ∃ b', chain.getBlock y = some b' := by
  obtain ⟨l, hl⟩ := hanc
  induction l generalizing x b with
  | nil =>
    rw [← show x = y from hl]
    exact ⟨b, hx⟩
  | cons a l ih =>
    obtain ⟨rfl, p, hp, hl⟩ := hl
    have hheader := headerOf_eq_some.2 ⟨b, hx, rfl⟩
    rw [parentHash, hheader, Option.bind_some] at hp
    split at hp
    · cases hp
    · next h0 =>
      cases hp
      obtain ⟨parent, hparent, -⟩ := h.linked _ _ hx h0
      exact ih hparent hl

/-- A block that may be stored: its parent is. -/
structure Extends (H : Set BlockHeader) (chain : ChainState) (block : Block) : Prop where
  hash_eq : computeBlockHash block.header = block.hash
  mem : block.header ∈ H
  parent : ∃ parent, chain.getBlock block.header.previousHash = some parent ∧
    block.header.height = parent.header.height + 1
  later : ∀ parent, chain.getBlock block.header.previousHash = some parent →
    parent.header.timestamp < block.header.timestamp

theorem Extends.of_parent {parent : Block} (hhash : computeBlockHash block.header = block.hash)
    (hmem : block.header ∈ H) (hparent : chain.getBlock block.header.previousHash = some parent)
    (hheight : block.header.height = parent.header.height + 1)
    (hlater : parent.header.timestamp < block.header.timestamp) : Extends H chain block := by
  refine ⟨hhash, hmem, ⟨parent, hparent, hheight⟩, fun p hp => ?_⟩
  rw [hparent] at hp
  cases hp
  exact hlater

/-- A block that may be stored is of a later time than any header it could build on. -/
theorem Extends.isLater (hinj : Set.InjOn computeBlockHash H) (h : StoredWell opts H chain)
    (hext : Extends H chain block) : Later H block.header := by
  intro header hmem hhash
  obtain ⟨parent, hparent, -⟩ := hext.parent
  obtain ⟨hphash, hpmem⟩ := h.hashed _ _ hparent
  rw [hinj hmem hpmem (by rw [hhash, hphash])]
  exact hext.later parent hparent

/-- A chain with one more block, or with one written again. -/
def Puts (chain : ChainState) (block : Block) (chain' : ChainState) : Prop :=
  ∀ hash, chain'.getBlock hash = if hash = block.hash then some block else chain.getBlock hash

/-- A block of the chain is the one that was put, or was there. -/
theorem Puts.eq_or (h : Puts chain block chain') (hb : chain'.getBlock hash = some b) :
    (hash = block.hash ∧ b = block) ∨ chain.getBlock hash = some b := by
  rw [h hash] at hb
  split at hb
  · next heq => exact .inl ⟨heq, (Option.some.inj hb).symm⟩
  · exact .inr hb

/-- Every stored block is as `P` says. -/
def AllStored (P : Block → Prop) (chain : ChainState) : Prop :=
  ∀ hash block, chain.getBlock hash = some block → P block

theorem AllStored.put {P : Block → Prop} (h : AllStored P chain) (hput : Puts chain block chain')
    (hblock : P block) : AllStored P chain' := by
  intro hash b hb
  obtain ⟨-, rfl⟩ | hb := hput.eq_or hb
  · exact hblock
  · exact h hash b hb

section Put

variable {block : Block} (hinj : Set.InjOn computeBlockHash H) (h : StoredWell opts H chain)
  (hext : Extends H chain block) (hput : Puts chain block chain')

include hinj h hext hput

/-- A stored block that is written again keeps its header. -/
theorem StoredWell.getBlock_put (hb : chain.getBlock hash = some b) :
    ∃ b', chain'.getBlock hash = some b' ∧ b'.header = b.header := by
  rw [hput hash]
  split
  · next heq =>
    obtain ⟨hhash, hmem⟩ := h.hashed hash b hb
    refine ⟨block, rfl, hinj hext.mem hmem ?_⟩
    rw [hext.hash_eq, hhash, heq]
  · exact ⟨b, hb, rfl⟩

theorem Extends.put : Extends H chain' block := by
  obtain ⟨parent, hparent, hheight⟩ := hext.parent
  obtain ⟨parent', hparent', hheader⟩ := h.getBlock_put hinj hext hput hparent
  exact .of_parent hext.hash_eq hext.mem hparent' (by rw [hheight, hheader])
    (by rw [hheader]; exact hext.later parent hparent)

theorem StoredWell.headerOf_put (hheader : chain.headerOf hash = some header) :
    chain'.headerOf hash = some header := by
  obtain ⟨b, hb, rfl⟩ := headerOf_eq_some.1 hheader
  exact headerOf_eq_some.2 (h.getBlock_put hinj hext hput hb)

theorem StoredWell.put : StoredWell opts H chain' where
  hashed := by
    intro hash b hb
    obtain ⟨rfl, rfl⟩ | hb := hput.eq_or hb
    · exact ⟨hext.hash_eq, hext.mem⟩
    · exact h.hashed hash b hb
  linked := by
    intro hash b hb h0
    obtain ⟨parent, hp, hheight⟩ : ∃ parent, chain.getBlock b.header.previousHash = some parent ∧
        b.header.height = parent.header.height + 1 := by
      obtain ⟨-, rfl⟩ | hb := hput.eq_or hb
      · exact hext.parent
      · exact h.linked hash b hb h0
    obtain ⟨parent', hp', hheader⟩ := h.getBlock_put hinj hext hput hp
    exact ⟨parent', hp', by rw [hheight, hheader]⟩
  later := by
    intro hash b hb h0
    obtain ⟨-, rfl⟩ | hb := hput.eq_or hb
    · exact hext.isLater hinj h
    · exact h.later hash b hb h0
  root := by
    intro hash b hb h0
    obtain ⟨-, rfl⟩ | hb := hput.eq_or hb
    · obtain ⟨_, -, hheight⟩ := hext.parent
      omega
    · exact h.root hash b hb h0
  genesis := by
    rw [hput]
    split
    · next heq =>
      -- The block would have the header of genesis, but it has a parent.
      obtain ⟨_, -, hheight⟩ := hext.parent
      obtain ⟨hhash, hmem⟩ := h.hashed _ _ h.genesis
      have hheader := hinj hext.mem hmem (by rw [hext.hash_eq, hhash, heq])
      rw [hheader, genesis_height] at hheight
      omega
    · exact h.genesis

/-- The ancestors of a stored block stay what they were. -/
theorem StoredWell.anc_put (hx : chain.getBlock x = some b) :
    Anc (parentHash chain'.headerOf) x y ↔ Anc (parentHash chain.headerOf) x y := by
  refine Anc.congr fun z hz => ?_
  obtain ⟨bz, hbz⟩ := h.stored_of_anc hz hx
  rw [parentHash, parentHash, h.headerOf_put hinj hext hput (headerOf_eq_some.2 ⟨bz, hbz, rfl⟩),
    headerOf_eq_some.2 ⟨bz, hbz, rfl⟩]

/-- The heights of the ancestors of a stored block stay what they were. -/
theorem StoredWell.heightIn_put (hx : chain.getBlock x = some b)
    (hanc : Anc (parentHash chain.headerOf) x y) :
    heightIn chain'.headerOf y = heightIn chain.headerOf y := by
  obtain ⟨bY, hby⟩ := h.stored_of_anc hanc hx
  have hheader := headerOf_eq_some.2 ⟨bY, hby, rfl⟩
  rw [heightIn_eq hheader, heightIn_eq (h.headerOf_put hinj hext hput hheader)]

/-- Storing a block leaves the spine. -/
theorem Spine.put (hs : Spine chain head) (htip : chain'.tip = chain.tip)
    (hcanonical : chain'.canonical = chain.canonical) (hundo : chain'.undo = chain.undo) :
    ∃ head', Spine chain' head' ∧ head'.hash = head.hash ∧ head'.header = head.header := by
  obtain ⟨head', hb', hheader⟩ := h.getBlock_put hinj hext hput hs.stored
  have hhash := chain'.keyed _ _ hb'
  have hanc : ∀ y, _ := fun y => h.anc_put hinj hext hput (y := y) hs.stored
  have hheight : ∀ y, _ := fun y => h.heightIn_put hinj hext hput (y := y) hs.stored
  refine ⟨head', ⟨?_, ?_, ?_, ?_⟩, hhash, hheader⟩
  · rw [htip, hs.tip, hhash, hheader]
  · rw [hhash, hb']
  · rw [hhash, hcanonical]
    exact hs.canonical.congr hanc hheight
  · rw [hhash, hundo]
    exact hs.undo.congr hanc hheight

end Put

theorem puts_batch (chain : ChainState) (block : Block) :
    Puts chain block (chain.batch [putBlockOp block]) := by
  intro hash
  change (chain.blocks.batch [(block.hash, some block)]).get hash = _
  rw [Store.batch_cons, Store.batch_nil, Store.get_set]
  rfl

end Stored

/-! ## Indexed headers -/

/-- An index with more entries. -/
def Grows (headers headers' : HeaderIndex) : Prop :=
  ∀ hash entry, headers.get hash = some entry → headers'.get hash = some entry

theorem Grows.refl (headers : HeaderIndex) : Grows headers headers := fun _ _ h => h

theorem Grows.trans {a b c : HeaderIndex} (h : Grows a b) (h' : Grows b c) : Grows a c :=
  fun hash entry ha => h' hash entry (h hash entry ha)

/-- What a lookup may do to an index: add entries, each after its parent. -/
def Enriches (opts : NodeOptions) (H : Set BlockHeader) (headers headers' : HeaderIndex) : Prop :=
  IndexedWell opts H headers → IndexedWell opts H headers' ∧ Grows headers headers'

section Indexed

variable {opts : NodeOptions} {H : Set BlockHeader} {env : Env} {chain : ChainState}
  {headers headers' : HeaderIndex} (hinj : Set.InjOn computeBlockHash H)

instance : Std.Refl (Enriches opts H) := ⟨fun _ h => ⟨h, .refl _⟩⟩

instance : IsTrans HeaderIndex (Enriches opts H) :=
  ⟨fun _ _ _ h h' hw => ⟨(h' (h hw).1).1, (h hw).2.trans (h' (h hw).1).2⟩⟩

variable {work : ℕ}

/-- An entry is written, or the write fails. -/
theorem putHeader_along {R : HeaderIndex → HeaderIndex → Prop} [Std.Refl R]
    (h : R headers (headers.set hash (some ⟨header, work⟩))) :
    Along R (putHeader env hash header work) headers fun _ headers' =>
      headers' = headers.set hash (some ⟨header, work⟩) := by
  rw [Along, putHeader, wp_of]
  split_ifs
  · exact refl headers
  · exact ⟨h, rfl⟩

/-- Blocks each of which comes after the one before, the first after `hash`. -/
def Climbs (H : Set BlockHeader) : (hash : Text) → (height : ℕ) → List Block → Prop
  | _, _, [] => True
  | hash, height, block :: blocks =>
    (block.header.previousHash = hash ∧ block.header.height = height + 1 ∧
      computeBlockHash block.header = block.hash ∧ block.header ∈ H ∧ Later H block.header) ∧
    Climbs H block.hash (height + 1) blocks

theorem Climbs.append {blocks : List Block} {height : ℕ} (h : Climbs H hash height blocks)
    (hprev : block.header.previousHash = ((blocks.getLast?.map Block.hash).getD hash))
    (hheight : block.header.height = height + blocks.length + 1)
    (hhash : computeBlockHash block.header = block.hash) (hmem : block.header ∈ H)
    (hlater : Later H block.header) : Climbs H hash height (blocks ++ [block]) := by
  induction blocks generalizing hash height with
  | nil => exact ⟨⟨hprev, hheight, hhash, hmem, hlater⟩, trivial⟩
  | cons b blocks ih =>
    refine ⟨h.1, ih h.2 ?_ ?_⟩
    · cases blocks with
      | nil => exact hprev
      | cons c blocks =>
        rw [hprev, getLast?_cons_cons, getLast?_eq_some_getLast (by simp)]
        rfl
    · rw [hheight, length_cons]
      omega

include hinj

/-- A header and the entry of its hash agree. -/
theorem IndexedWell.header_eq (h : IndexedWell opts H headers) (hmem : header ∈ H)
    {entry : IndexedHeader} (he : headers.get (computeBlockHash header) = some entry) :
    entry.header = header :=
  hinj (h.hashed _ _ he).2 hmem (h.hashed _ _ he).1

/-- The entry of a header after one that is indexed, written once more or for the
    first time. -/
theorem IndexedWell.set (h : IndexedWell opts H headers) (hmem : header ∈ H)
    {parent : IndexedHeader} (hp : headers.get header.previousHash = some parent)
    (hheight : header.height = parent.header.height + 1) (hlater : Later H header) {added : ℕ}
    (hwork : blockWork opts header = .ok added) :
    IndexedWell opts H (headers.set (computeBlockHash header) (some ⟨header, parent.work + added⟩)) ∧
    Grows headers (headers.set (computeBlockHash header) (some ⟨header, parent.work + added⟩)) := by
  have hne : computeBlockHash header ≠ opts.genesis.hash := by
    intro heq
    obtain ⟨work, -, hg⟩ := h.genesis
    rw [← heq] at hg
    have := h.header_eq hinj hmem hg
    rw [← this, genesis_height] at hheight
    omega
  -- An entry that is there already is the same one.
  have hgrows : Grows headers
      (headers.set (computeBlockHash header) (some ⟨header, parent.work + added⟩)) := by
    intro hash entry he
    rw [Store.get_set]
    split
    · next heq =>
      subst heq
      have hheader := h.header_eq hinj hmem he
      rcases h.linked _ _ he with hgen | ⟨parent', added', hp', -, hwork', hsum⟩
      · exact absurd hgen hne
      · obtain ⟨header', work⟩ := entry
        subst hheader
        rw [hp] at hp'
        cases hp'
        rw [hwork] at hwork'
        cases hwork'
        rw [← hsum]
    · exact he
  refine ⟨⟨fun hash entry he => ?_, ?_, fun hash entry he => ?_, fun hash entry he => ?_⟩, hgrows⟩
  · obtain ⟨rfl, rfl⟩ | he := Store.get_set_some he
    · exact ⟨rfl, hmem⟩
    · exact h.hashed hash entry he
  · obtain ⟨work, hw, hg⟩ := h.genesis
    exact ⟨work, hw, hgrows _ _ hg⟩
  · obtain ⟨-, rfl⟩ | he := Store.get_set_some he
    · exact .inr ⟨parent, added, hgrows _ _ hp, hheight, hwork, rfl⟩
    · exact (h.linked hash entry he).imp_right fun ⟨p, a, hp', hrest⟩ =>
        ⟨p, a, hgrows _ _ hp', hrest⟩
  · obtain ⟨-, rfl⟩ | he := Store.get_set_some he
    · exact .inr hlater
    · exact h.later hash entry he

/-- The last of the blocks is indexed with the total, or the entry they climb from has it. -/
theorem backfill_sound {entry : IndexedHeader} {blocks : List Block}
    (h : IndexedWell opts H headers) (he : headers.get hash = some entry)
    (hclimbs : Climbs H hash entry.header.height blocks) (hwork : entry.work = work) :
    Along (Enriches opts H) (backfill opts env work blocks) headers fun total headers' =>
      ∀ block ∈ blocks.getLast?, headers'.get block.hash = some ⟨block.header, total⟩ := by
  induction blocks generalizing work hash entry headers with
  | nil => exact .pure (by simp)
  | cons block blocks ih =>
    obtain ⟨⟨hprev, hheight, hhash, hmem, hlater⟩, hclimbs⟩ := hclimbs
    refine .lifted fun added hadded => ?_
    rw [← hprev] at he
    obtain ⟨h', hgrows⟩ := h.set hinj hmem he hheight hlater hadded
    rw [hhash, hwork] at h' hgrows
    refine (putHeader_along fun _ => ⟨h', hgrows⟩).bind ?_
    rintro - _ - rfl
    have hget := Store.get_set_self headers block.hash (some ⟨block.header, work + added⟩)
    cases blocks with
    | nil =>
      refine .pure fun b hb => ?_
      cases hb
      exact hget
    | cons c blocks =>
      rw [getLast?_cons_cons]
      rw [← hheight] at hclimbs
      exact ih h' hget hclimbs rfl

/-- Between a stored block and its nearest indexed ancestor there are stored
    blocks that climb from it. -/
theorem unindexed_climbs (hs : StoredWell opts H chain) (h : IndexedWell opts H headers) {fuel : ℕ}
    {pending : List Block} (hrun : unindexed chain headers fuel hash = .ok (some (pending, work))) :
    ∃ base entry, headers.get base = some entry ∧ entry.work = work ∧
      Climbs H base entry.header.height pending.reverse ∧
      ((pending.head?.map Block.hash).getD base = hash) ∧
      ∀ block, chain.getBlock hash = some block →
        block.header.height = entry.header.height + pending.length := by
  induction fuel generalizing hash pending with
  | zero => cases hrun
  | succ fuel ih =>
    rw [unindexed] at hrun
    cases he : headers.get hash with
    | some entry =>
      rw [he] at hrun
      cases hrun
      refine ⟨hash, entry, he, rfl, trivial, rfl, fun block hb => ?_⟩
      obtain ⟨hhash, hmem⟩ := hs.hashed _ _ hb
      rw [← hhash] at he
      rw [h.header_eq hinj hmem he]
      rfl
    | none =>
      rw [he] at hrun
      dsimp only at hrun
      cases hb : chain.getBlock hash with
      | none =>
        rw [hb] at hrun
        cases hrun
      | some block =>
        rw [hb] at hrun
        dsimp only at hrun
        split at hrun
        · next h0 =>
          -- Only genesis has height `0`, and it is indexed.
          obtain ⟨_, -, hg⟩ := h.genesis
          rw [hs.root _ _ hb h0, hg] at he
          cases he
        · next h0 =>
          simp only [bind_eq_ok] at hrun
          obtain ⟨below, hbelow, hrun⟩ := hrun
          cases below with
          | none => cases hrun
          | some below =>
            obtain ⟨pending', work'⟩ := below
            cases hrun
            obtain ⟨base, entry, hbase, hwork, hclimbs, hhead, hheight⟩ := ih hbelow
            obtain ⟨parent, hparent, hph⟩ := hs.linked _ _ hb h0
            obtain ⟨hhash, hmem⟩ := hs.hashed _ _ hb
            have hkey := chain.keyed _ _ hb
            have hlen : block.header.height = entry.header.height + pending'.length + 1 := by
              rw [hph, hheight parent hparent]
            refine ⟨base, entry, hbase, hwork, ?_, ?_, ?_⟩
            · rw [reverse_cons]
              refine hclimbs.append ?_ ?_ (by rw [hhash, hkey]) hmem (hs.later _ _ hb h0)
              · rw [getLast?_reverse, hhead]
              · rw [length_reverse, hlen]
            · exact hkey
            · intro block' hb'
              cases hb'
              rw [hlen, length_cons]
              omega

/-- A lookup leaves the index sound and its entries in place, and finds the entry
    that it then holds. -/
theorem getIndexedHeader_sound (hs : StoredWell opts H chain) (h : IndexedWell opts H headers)
    (hash : Text) :
    Along (Enriches opts H) (getIndexedHeader opts env chain hash) headers fun found headers' =>
      ∀ entry, found = some entry → headers'.get hash = some entry := by
  refine .read ?_
  split
  · next entry he =>
    refine .pure fun _ heq => ?_
    cases heq
    exact he
  refine .lifted fun found hun => ?_
  rcases found with _ | ⟨pending, work⟩
  · exact .pure (by simp)
  obtain ⟨base, entry, hbase, hwork, hclimbs, hhead, -⟩ := unindexed_climbs hinj hs h hun
  refine (backfill_sound hinj h hbase hclimbs hwork).bind fun total filled _ hlast => .pure ?_
  intro entry' heq
  cases pending with
  | nil => cases heq
  | cons block pending =>
    cases heq
    rw [← hhead]
    exact hlast block (by simp)

omit hinj in
/-- The ancestry of a stored block is complete: a lookup does not miss it. -/
theorem getIndexedHeader_ne_none (hs : StoredWell opts H chain)
    (hb : chain.getBlock hash = some block) :
    ((getIndexedHeader opts env chain hash).exec headers).1 ≠ .ok none := by
  have hun : ∀ fuel hash block, chain.getBlock hash = some block →
      unindexed chain headers fuel hash ≠ .ok none := by
    intro fuel
    induction fuel with
    | zero => exact fun _ _ _ h => nomatch h
    | succ fuel ih =>
      intro hash block hb h
      rw [unindexed] at h
      split at h
      · cases h
      · rw [hb] at h
        dsimp only at h
        split at h
        · cases h
        · next h0 =>
          obtain ⟨parent, hp, -⟩ := hs.linked _ _ hb h0
          simp only [bind_eq_ok] at h
          obtain ⟨below, hbelow, h⟩ := h
          cases below with
          | none => exact ih _ _ hp hbelow
          | some below => cases h
  simp only [getIndexedHeader, exec_bind, exec_reads, id_eq]
  cases he : headers.get hash with
  | some entry => simp
  | none =>
    dsimp only
    simp only [exec_bind, exec_lift]
    cases hfound : unindexed chain headers (lookupFuel chain hash) hash with
    | error e => simp
    | ok found =>
      cases found with
      | none => exact absurd hfound (hun _ _ _ hb)
      | some found =>
        obtain ⟨pending, work⟩ := found
        obtain ⟨top, htop⟩ := unindexed_head he hfound
        simp only [exec_bind, htop]
        rcases (backfill opts env work pending.reverse).exec headers with ⟨e | total, filled⟩ <;>
          simp

/-- However it ends, the lookup for the entry of a head leaves the index sound. -/
theorem headerOps_index (hs : StoredWell opts H chain) (h : IndexedWell opts H headers)
    (head : Block) :
    Along (Enriches opts H) (headerOps opts env chain head) headers fun _ _ => True := by
  refine .read ?_
  split
  · exact .pure trivial
  have hparent : Along (Enriches opts H) (parentEntry opts env chain head) headers
      fun _ _ => True := by
    rw [parentEntry]
    split
    · exact .pure trivial
    · exact (getIndexedHeader_sound hinj hs h _).mono fun _ _ _ _ => trivial
  exact hparent.bind fun _ _ _ _ => .lifted fun _ _ => .pure trivial

/-- The entry that a batch holds for a head whose parent is stored. -/
theorem headerOps_sound (hs : StoredWell opts H chain) (h : IndexedWell opts H headers)
    (hext : Extends H chain head) {hops : List StateOp}
    (hrun : (headerOps opts env chain head).exec headers = (.ok hops, headers')) :
    Grows headers (headers'.batch (hops.filterMap StateOp.header?)) ∧
    IndexedWell opts H (headers'.batch (hops.filterMap StateOp.header?)) ∧
      ((headers'.batch (hops.filterMap StateOp.header?)).get head.hash).isSome := by
  obtain ⟨parent, hparent, hheight⟩ := hext.parent
  simp only [headerOps, bind_returns, exec_reads, Prod.mk.injEq, Except.ok.injEq, id_eq] at hrun
  obtain ⟨_, _, ⟨rfl, rfl⟩, hrun⟩ := hrun
  split at hrun
  · next entry he =>
    cases hrun
    exact ⟨Grows.refl _, h, by simp [he]⟩
  · next he =>
    have h0 : head.header.height ≠ 0 := by omega
    simp only [parentEntry, h0, if_false, bind_returns, exec_lift, exec_pure, Prod.mk.injEq,
      Except.ok.injEq] at hrun
    obtain ⟨found, filled, hlookup, added, _, ⟨hadded, rfl⟩, rfl, rfl⟩ := hrun
    obtain ⟨henriches, hentry⟩ := (wp_eq_ok hlookup).1 (getIndexedHeader_sound hinj hs h _)
    obtain ⟨h', hgrows⟩ := henriches h
    cases found with
    | none =>
      exact absurd (congrArg Prod.fst hlookup) (getIndexedHeader_ne_none hs hparent)
    | some entry =>
      have hp := hentry entry rfl
      obtain ⟨hphash, hpmem⟩ := hs.hashed _ _ hparent
      have hpheader : entry.header = parent.header := by
        rw [← hphash] at hp
        exact h'.header_eq hinj hpmem hp
      obtain ⟨h'', hgrows'⟩ := h'.set hinj hext.mem hp (by rw [hheight, hpheader])
        (hext.isLater hinj hs) hadded
      rw [hext.hash_eq] at h'' hgrows'
      refine ⟨hgrows.trans hgrows', h'', ?_⟩
      change ((filled.set head.hash (some _)).get head.hash).isSome
      rw [Store.get_set_self]
      rfl

end Indexed

/-! ## Adoption -/

section Adopt

variable {opts : NodeOptions} {H : Set BlockHeader} {env : Env} {w w₁ : World}
  {previousHead head : Block} {staged : Staged}

section Paths

variable {undos records : List (Block × BlockUndo)} {after : UtxoSet} {chain' : ChainState}
  (hinj : Set.InjOn computeBlockHash H) (h : StoredWell opts H w.chain)
  (hspine : Spine w.chain previousHead) (hext : Extends H w.chain head)
  (hput : Puts w.chain head chain')

include hinj h hspine hext hput

/-- The plan of an adoption, as paths by the headers that are stored with it. -/
theorem plan_path {plan : ReorgPlan} (hplan : planReorg w.chain previousHead head = .ok plan) :
    ∃ fork, Path (parentHash chain'.headerOf) previousHead.hash
        (plan.toDisconnect.map Block.hash) fork ∧
      Path (parentHash chain'.headerOf) head.hash (plan.toConnect.reverse.map Block.hash) fork ∧
      (∀ b ∈ plan.toDisconnect, w.chain.getBlock b.hash = some b) ∧
      ∀ b ∈ plan.toConnect, Known chain'.headerOf b ∧
        (b = head ∨ w.chain.getBlock b.hash = some b) := by
  have hknown : Known chain'.headerOf previousHead := by
    rw [Known]
    exact h.headerOf_put hinj hext hput (ChainState.known hspine.stored)
  have hhead : Known chain'.headerOf head := by
    rw [Known, headerOf_eq_some]
    exact ⟨head, by rw [hput, if_pos rfl], rfl⟩
  obtain ⟨fork, hd, hc, halld, hallc⟩ := planReorg_path
    (fun hash block hb => h.headerOf_put hinj hext hput (headerOf_eq_some.2 ⟨block, hb, rfl⟩))
    (h.put hinj hext hput).rootward hknown hhead hplan
  refine ⟨fork, hd, hc, fun b hb => ?_, hallc⟩
  obtain ⟨-, rfl | hsb⟩ := halld b hb
  · exact hspine.stored
  · exact hsb

/-- Every block that a plan disconnects has an undo record. -/
theorem plan_undo {plan : ReorgPlan} (hplan : planReorg w.chain previousHead head = .ok plan) :
    ∀ b ∈ plan.toDisconnect, (w.chain.getUndo b.hash).isSome := by
  obtain ⟨fork, hd, -, -, -⟩ := plan_path hinj h hspine hext hput hplan
  intro b hb
  have hrec := hspine.undo.congr (fun y => h.anc_put hinj hext hput (y := y) hspine.stored)
    fun y => h.heightIn_put hinj hext hput (y := y) hspine.stored
  have hmem : b.hash ∈ plan.toDisconnect.map Block.hash := mem_map_of_mem hb
  refine (hrec b.hash).2 ⟨hd.anc_of_mem hmem, ?_⟩
  exact Nat.zero_lt_of_lt (hd.height_lt (h.put hinj hext hput).rootward.height_parent hmem)

end Paths

/-- An adoption that is committed: what was staged, and what the batch did. -/
theorem commitAdoption_returns (hinj : Set.InjOn computeBlockHash H) (hs : Sound opts H w)
    (hspine : Spine w.chain previousHead) (hext : Extends H w.chain head)
    (h : (commitAdoption opts env head).exec w = (.ok staged, w₁)) :
    ∃ index hops undos records after,
      (headerOps opts env w.chain head).exec w.headers = (.ok hops, index) ∧
      Adoption opts w.chain w.utxoSet previousHead head staged undos records after ∧
      w₁ = (w.withHeaders index).apply (putBlockOp head :: hops ++ staged.ops) := by
  rw [exec_commitAdoption head hs.idle] at h
  rcases hrun : (headerOps opts env w.chain head).exec w.headers with ⟨e | hops, index⟩
  · rw [hrun] at h
    cases h
  rw [hrun] at h
  dsimp only at h
  cases hstage : ((stageOrDiscard opts w.chain head).exec w.utxoSet).1 with
  | error e =>
    rw [hstage] at h
    cases h
  | ok staged' =>
    rw [hstage] at h
    dsimp only at h
    split_ifs at h
    · cases h
    · cases h
      obtain ⟨undos, records, after, hadoption⟩ := stageOrDiscard_returns hs.idle hspine.tip
        hspine.stored
        (fun plan hplan => plan_undo hinj hs.stored hspine hext (puts_batch _ _) hplan) hstage
      exact ⟨index, hops, undos, records, after, rfl, hadoption, rfl⟩

/-- A batch that adopts `head` over the chain of `previousHead`, and a node after it: the
    head, its entry of the header index and what was staged are written. -/
inductive Batched (opts : NodeOptions) (w : World) (previousHead head : Block)
    (undos records : List (Block × BlockUndo)) (after : UtxoSet) (w' : World) : Prop
  | mk {env : Env} {index : HeaderIndex} {hops : List StateOp} {staged : Staged} {w₁ : World} :
      (headerOps opts env w.chain head).exec w.headers = (.ok hops, index) →
      Adoption opts w.chain w.utxoSet previousHead head staged undos records after →
      w₁ = (w.withHeaders index).apply (putBlockOp head :: hops ++ staged.ops) →
      w'.chain = w₁.chain → w'.headers = w₁.headers → w'.utxoSet = w₁.utxoSet →
      Batched opts w previousHead head undos records after w'

section Batch

variable {undos records : List (Block × BlockUndo)} {after : UtxoSet} {w' : World}

/-- A sublevel that has neither blocks nor headers is written by what was staged
    only. -/
theorem filterMap_batch {index : HeaderIndex} {hops : List StateOp}
    (hhops : (headerOps opts env w.chain head).exec w.headers = (.ok hops, index)) {α : Type}
    (f : StateOp → Option α) (hheader : ∀ hash entry, f (.header hash entry) = none)
    (hblock : ∀ block, f (.block block) = none) :
    (putBlockOp head :: hops ++ staged.ops).filterMap f = staged.ops.filterMap f := by
  rw [cons_append, filterMap_cons, putBlockOp, hblock, filterMap_append,
    headerOps_filterMap hhops f hheader, nil_append]

namespace Batched

variable (hb : Batched opts w previousHead head undos records after w')

include hb

theorem adoption : ∃ staged,
    Adoption opts w.chain w.utxoSet previousHead head staged undos records after := by
  obtain ⟨-, ha, -, -, -, -⟩ := hb
  exact ⟨_, ha⟩

/-- The batch stores the head and no other block. -/
theorem puts : Puts w.chain head w'.chain := by
  obtain ⟨hhops, ha, rfl, hchain, -, -⟩ := hb
  intro hash
  rw [hchain]
  change (w.chain.blocks.batch _).get hash = _
  rw [cons_append, filterMap_cons, filterMap_append,
    headerOps_filterMap hhops StateOp.block? fun _ _ => rfl, ha.blocks_eq]
  exact puts_batch w.chain head hash

theorem undo_eq : w'.chain.undo = w.chain.undo.batch
    ((undos.map fun p => (p.1.hash, none)) ++ records.map fun p => (p.1.hash, some p.2)) := by
  obtain ⟨hhops, ha, rfl, hchain, -, -⟩ := hb
  rw [hchain, ← ha.undo_ops_eq, ← filterMap_batch hhops StateOp.undo? (fun _ _ => rfl) fun _ => rfl]
  rfl

theorem canonical_eq : w'.chain.canonical = w.chain.canonical.batch
    ((records.map fun p => (p.1.header.height, some p.1.hash)) ++
      (clearedHeights w.chain head).map fun i => (i, none)) := by
  obtain ⟨hhops, ha, rfl, hchain, -, -⟩ := hb
  rw [hchain, ← ha.canonical_eq,
    ← filterMap_batch hhops StateOp.canonical? (fun _ _ => rfl) fun _ => rfl]
  rfl

theorem tip_eq : w'.chain.tip = some ⟨head.hash, head.header.height⟩ := by
  obtain ⟨hhops, ha, rfl, hchain, -, -⟩ := hb
  rw [hchain]
  change (List.filterMap StateOp.tip? _).getLast?.or _ = _
  rw [filterMap_batch hhops StateOp.tip? (fun _ _ => rfl) fun _ => rfl, ha.tip_eq]
  rfl

variable (hinj : Set.InjOn computeBlockHash H)

include hinj

/-- After the batch the height index and the undo records are those of the
    head. -/
theorem spine (h : StoredWell opts H w.chain) (hspine : Spine w.chain previousHead)
    (hext : Extends H w.chain head) : Spine w'.chain head := by
  have hput := hb.puts
  obtain ⟨staged, ha⟩ := hb.adoption
  have hroot := (h.put hinj hext hput).rootward
  obtain ⟨fork, hd, hc, -, hallc⟩ := plan_path hinj h hspine hext hput ha.plan
  have hanc : ∀ y, _ := fun y => h.anc_put hinj hext hput (y := y) hspine.stored
  have hsame : ∀ y, _ := fun y => h.heightIn_put hinj hext hput (y := y) hspine.stored
  have hhead : w'.chain.getBlock head.hash = some head := by rw [hput, if_pos rfl]
  have htip : heightIn w'.chain.headerOf previousHead.hash = previousHead.header.height :=
    heightIn_eq (h.headerOf_put hinj hext hput (ChainState.known hspine.stored))
  refine ⟨hb.tip_eq, hhead, ?_, ?_⟩
  · have hheights : (records.map fun p => (p.1.header.height, some p.1.hash)) =
        ((records.map Prod.fst).reverse.map Block.hash).reverse.map fun y =>
          (heightIn w'.chain.headerOf y, some y) := by
      rw [← map_reverse, reverse_reverse, map_map, map_map]
      refine map_congr_left fun p hp => ?_
      have hknown := (hallc p.1 (mem_map_of_mem hp)).1
      simp only [Function.comp_apply, heightIn_eq hknown]
    rw [hb.canonical_eq, hheights]
    refine (hspine.canonical.congr hanc hsame).reorg hroot.height_parent hd hc fun i => ?_
    rw [mem_clearedHeights hspine.tip, heightIn_eq (ChainState.known hhead), htip]
  · have hundone : (undos.map fun p => (p.1.hash, (none : Option BlockUndo))) =
        ((undos.map Prod.fst).map Block.hash).map fun y => (y, none) := by
      rw [map_map, map_map]
      rfl
    rw [hb.undo_eq, hundone]
    refine (hspine.undo.congr hanc hsame).reorg hroot.height_parent hd hc ?_ ?_
    · rw [← map_reverse, reverse_reverse, map_map, map_map]
      rfl
    · intro op hop
      obtain ⟨p, -, rfl⟩ := mem_map.1 hop
      rfl

/-- The header index has grown, and has the head. -/
theorem headers (hs : Sound opts H w) (hext : Extends H w.chain head) :
    Grows w.headers w'.headers ∧ IndexedWell opts H w'.headers ∧
      (w'.headers.get head.hash).isSome := by
  obtain ⟨hhops, ha, rfl, -, hheaders, -⟩ := hb
  change _ = Store.batch _ _ at hheaders
  rw [cons_append, filterMap_cons, filterMap_append, ha.headers_eq,
    append_nil] at hheaders
  rw [hheaders]
  exact headerOps_sound hinj hs.stored hs.indexed hext hhops

/-- A batch leaves a sound node, whose tip is the head. -/
theorem sound (hs : Sound opts H w) (hspine : Spine w.chain previousHead)
    (hext : Extends H w.chain head) : Sound opts H w' := by
  obtain ⟨-, hindexed, hentry⟩ := hb.headers hinj hs hext
  have hspine' := hb.spine hinj hs.stored hspine hext
  have hstored := hs.stored.put hinj hext hb.puts
  obtain ⟨-, -, rfl, -, -, hutxo⟩ := hb
  refine ⟨hstored, hindexed, ⟨head, hspine', hentry⟩, ?_, ?_⟩ <;> rw [hutxo]
  exacts [hs.idle, hs.maturity]

end Batched

end Batch

/-- What follows a commit is in memory only. -/
theorem exec_finishAdoption (head : Block) (staged : Staged) (w : World) :
    (finishAdoption opts head staged).exec w =
      let readmitted := (restorePending opts w.utxoSet (head.header.height + 1) (abandoned staged)).exec
        (purgeMempool staged.connected w.mempool)
      (readmitted.1, { w with
        cachedTipHeight := head.header.height
        verifiedCheckpointHeight :=
          if opts.checkpoints.size ≠ 0 then verifiedCheckpoint w.chain opts.checkpoints
          else w.verifiedCheckpointHeight
        mempool := readmitted.2 }) := by
  by_cases hcp : opts.checkpoints.size = 0
  · simp [finishAdoption, hcp, exec_bind, onMempool]
  · simp [finishAdoption, hcp, exec_bind, onMempool]

end Adopt

/-! ## Changes -/

/-- What a change is about. -/
inductive Label
  | note
  | index
  | store (block : Block)
  | adopt (head : Block)
  | mine (head : Block)
  | submit (tx : Transaction)
  | reopen

section Change

variable (opts : NodeOptions) (H : Set BlockHeader)

/-- A stored block of a chain that is heavier than that of the tip. -/
structure Heavier (w : World) (head : Block) : Prop where
  stored : w.chain.getBlock head.hash = some head
  unconflicted : ¬conflictsWithVerifiedCheckpoint w.chain w.verifiedCheckpointHeight
    head.header.height head.hash
  work : ∃ entry tip tipEntry, w.headers.get head.hash = some entry ∧ w.chain.tip = some tip ∧
    w.headers.get tip.hash = some tipEntry ∧ tipEntry.work < entry.work

/-- A block on top of the tip. -/
def OnTip (w : World) (head : Block) : Prop :=
  w.chain.tip.map (·.hash) = some head.header.previousHash

/-- A block is adopted: its batch is committed, and the memory follows. -/
def Adopts (w : World) (head : Block) (w' : World) : Prop :=
  ∃ env staged w₁, (commitAdoption opts env head).exec w = (.ok staged, w₁) ∧
    w' = ((finishAdoption opts head staged).exec w₁).2

/-- A change that a handler makes to a node. -/
inductive Change (w : World) : Label → World → Prop
  /-- Notes in memory: about blocks and peers. -/
  | note {w' : World} : w'.chain = w.chain → w'.headers = w.headers → w'.utxoSet = w.utxoSet →
      w'.mempool = w.mempool → w'.verifiedCheckpointHeight = w.verifiedCheckpointHeight →
      Change w .note w'
  /-- More entries of the header index. -/
  | index {headers : HeaderIndex} : IndexedWell opts H headers → Grows w.headers headers →
      Change w .index (w.withHeaders headers)
  /-- A valid block is stored. -/
  | store {env : Env} {w₀ : World} {block parent : Block} {ctx : BlockValidationContext} :
      w.chain.getBlock block.header.previousHash = some parent → block.header ∈ H →
      blockContext opts env w₀ block parent = .ok ctx →
      validateBlock opts.signatures block ctx = .ok () →
      Change w (.store block) { w with chain := w.chain.batch [putBlockOp block] }
  /-- The head of a heavier chain is adopted. -/
  | adopt {w' : World} {head : Block} : Extends H w.chain head → Heavier w head →
      Adopts opts w head w' → Change w (.adopt head) w'
  /-- A block of the miner is adopted. -/
  | mine {w' : World} {head : Block} : Extends H w.chain head → OnTip w head →
      Adopts opts w head w' → Change w (.mine head) w'
  /-- A transaction is admitted to the mempool, or refused. -/
  | submit (tx : Transaction) : Change w (.submit tx) ((admitTransaction opts tx).exec w).2
  /-- The process is started again. -/
  | reopen : Change w .reopen (restart opts w)

/-- Changes one after the other, each of which meets the condition `C`. -/
def Trace (C : World → Label → Prop) : World → World → Prop :=
  Relation.ReflTransGen fun w w' => ∃ label, C w label ∧ Change opts H w label w'

variable {opts H} {w w' : World}

theorem extends_of_valid {env : Env} {w₀ : World} {parent : Block} {ctx : BlockValidationContext}
    (hparent : w.chain.getBlock block.header.previousHash = some parent) (hmem : block.header ∈ H)
    (hctx : blockContext opts env w₀ block parent = .ok ctx)
    (hvalid : validateBlock opts.signatures block ctx = .ok ()) : Extends H w.chain block := by
  obtain ⟨_, _, hv⟩ := validateBlock_eq_ok.1 hvalid
  simp only [blockContext, bind_eq_ok] at hctx
  obtain ⟨target, -, reward, -, hctx⟩ := hctx
  cases hctx
  exact .of_parent hv.header.hash_eq hmem hparent hv.header.height_eq hv.header.timestamp_gt

/-- What admission changes is in the mempool. -/
theorem exec_admitTransaction (tx : Transaction) (w : World) :
    ((admitTransaction opts tx).exec w).2 = { w with mempool :=
      ((addTransaction opts.signatures opts.mempool w.utxoSet tx
        (nextSpendingHeight w.chain)).exec w.mempool).2 } := by
  simp only [admitTransaction, exec_of]
  rcases (addTransaction opts.signatures opts.mempool w.utxoSet tx
    (nextSpendingHeight w.chain)).exec w.mempool with ⟨(reason | message) | ids, pool⟩ <;> rfl

theorem Sound.of_eq (h : Sound opts H w) (hchain : w'.chain = w.chain)
    (hheaders : w'.headers = w.headers) (hutxo : w'.utxoSet = w.utxoSet) : Sound opts H w' := by
  obtain ⟨hstored, hindexed, hspine, hidle, hmaturity⟩ := h
  exact ⟨by rwa [hchain], by rwa [hheaders], by rwa [hchain, hheaders], by rwa [hutxo],
    by rwa [hutxo]⟩

variable (hinj : Set.InjOn computeBlockHash H)

include hinj

/-- An adoption is a batch, over the block at the tip. -/
theorem Adopts.batched (hs : Sound opts H w) (hext : Extends H w.chain head)
    (ha : Adopts opts w head w') : ∃ previousHead undos records after,
      Spine w.chain previousHead ∧ Batched opts w previousHead head undos records after w' := by
  obtain ⟨env, staged, w₁, hcommit, rfl⟩ := ha
  obtain ⟨previousHead, hspine, -⟩ := hs.spine
  obtain ⟨index, hops, undos, records, after, hhops, hadoption, rfl⟩ :=
    commitAdoption_returns hinj hs hspine hext hcommit
  rw [exec_finishAdoption]
  exact ⟨previousHead, undos, records, after, hspine, .mk hhops hadoption rfl rfl rfl rfl⟩

theorem Adopts.sound (h : Sound opts H w) (hext : Extends H w.chain head)
    (ha : Adopts opts w head w') : Sound opts H w' := by
  obtain ⟨_, _, _, _, hspine, hb⟩ := ha.batched hinj h hext
  exact hb.sound hinj h hspine hext

/-- Every change leaves a sound node sound. -/
theorem Change.sound {label : Label} (h : Sound opts H w) (hc : Change opts H w label w') :
    Sound opts H w' := by
  cases hc with
  | note hchain hheaders hutxo _ _ => exact h.of_eq hchain hheaders hutxo
  | index hindexed hgrows =>
    obtain ⟨hstored, -, ⟨head, hspine, hentry⟩, hidle, hmaturity⟩ := h
    obtain ⟨entry, hentry⟩ := Option.isSome_iff_exists.1 hentry
    exact ⟨hstored, hindexed, ⟨head, hspine, by simp [hgrows _ _ hentry]⟩, hidle, hmaturity⟩
  | @store _ _ block _ _ hparent hmem hctx hvalid =>
    have hext := extends_of_valid hparent hmem hctx hvalid
    have hput := puts_batch w.chain block
    obtain ⟨hstored, hindexed, ⟨head, hspine, hentry⟩, hidle, hmaturity⟩ := h
    obtain ⟨head', hspine', hhash, -⟩ := Spine.put hinj hstored hext hput hspine rfl rfl rfl
    exact ⟨hstored.put hinj hext hput, hindexed, ⟨head', hspine', hhash ▸ hentry⟩, hidle, hmaturity⟩
  | adopt hext _ ha => exact ha.sound hinj h hext
  | mine hext _ ha => exact ha.sound hinj h hext
  | submit tx =>
    rw [exec_admitTransaction]
    exact h.of_eq rfl rfl rfl
  | reopen =>
    obtain ⟨hstored, hindexed, hspine, -, -⟩ := h
    exact ⟨hstored, hindexed, hspine, rfl, rfl⟩

variable {C : World → Label → Prop}

theorem Trace.sound (h : Sound opts H w) (ht : Trace opts H C w w') : Sound opts H w' := by
  induction ht with
  | refl => exact h
  | tail _ hc ih =>
    obtain ⟨label, -, hc⟩ := hc
    exact hc.sound hinj ih

/-- What changes keep that meet the condition, a trace keeps. -/
theorem Trace.invariant {P : World → Prop}
    (hchange : ∀ {w w' label}, Sound opts H w → C w label → Change opts H w label w' → P w → P w')
    (hs : Sound opts H w) (ht : Trace opts H C w w') (h : P w) : P w' := by
  induction ht with
  | refl => exact h
  | tail ht hc ih =>
    obtain ⟨label, hC, hc⟩ := hc
    exact hchange (Trace.sound hinj hs ht) hC hc ih

end Change

end Plainchain
