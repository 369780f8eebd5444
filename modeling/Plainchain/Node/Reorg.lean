import Plainchain.Node.Canonical

/-!
# What an adoption does to the canonical chain

Up to the fork the canonical chain stays what it was. Above it the blocks of the
old branch are disconnected, each with the undo record that is stored for it, and
those of the new branch are connected, each with the one that is stored then
(`Adopts.reorg`).

A block that is written under a hash that is stored already is to be the one that
is stored (`SameBody`). Headers alone do not see to that.
-/

namespace Plainchain

open Js Kv Ancestry List

section Stretch

variable {chain : ChainState}

theorem canonicalBlockWithUndo_natCast (chain : ChainState) (i : ℕ) :
    canonicalBlockWithUndo chain i = (chain.canonical.get i).bind fun hash =>
      (chain.getBlock hash).map fun block => (block, (chain.getUndo block.hash).getD []) := by
  change (chain.canonical.get i).bind (fun hash => (chain.getBlock hash).bind fun block =>
    some (block, (chain.getUndo block.hash).getD [])) = _
  simp only [Option.map_eq_bind, Function.comp_def]

theorem canonicalBlockWithUndo_eq_some {i : ℕ} {p : Block × BlockUndo} :
    canonicalBlockWithUndo chain i = some p ↔ chain.canonical.get i = some p.1.hash ∧
      chain.getBlock p.1.hash = some p.1 ∧ (chain.getUndo p.1.hash).getD [] = p.2 := by
  rw [canonicalBlockWithUndo_natCast]
  simp only [Option.bind_eq_some_iff, Option.map_eq_some_iff]
  constructor
  · rintro ⟨hash, hc, block, hb, rfl⟩
    cases chain.keyed _ _ hb
    exact ⟨hc, hb, rfl⟩
  · rintro ⟨hc, hb, hundo⟩
    exact ⟨_, hc, _, hb, Prod.ext rfl hundo⟩

/-- Canonical blocks with their undo records, at the heights from `height` on. -/
def Stretch (chain : ChainState) : (height : ℕ) → List (Block × BlockUndo) → Prop
  | _, [] => True
  | height, p :: ps => (canonicalBlockWithUndo chain height = some p ∧ p.1.header.height = height) ∧
    Stretch chain (height + 1) ps

theorem stretch_append {height : ℕ} {ps qs : List (Block × BlockUndo)} :
    Stretch chain height (ps ++ qs) ↔
      Stretch chain height ps ∧ Stretch chain (height + ps.length) qs := by
  induction ps generalizing height with
  | nil => simp [Stretch]
  | cons p ps ih =>
    rw [cons_append, Stretch, Stretch, ih, length_cons, ← Nat.add_assoc,
      Nat.add_right_comm, ← and_assoc]

/-- The blocks of a path are a stretch, the lowest first. -/
theorem stretch_of_path {hdr : Text → Option BlockHeader} (hroot : Rootward hdr)
    {l : List (Block × BlockUndo)} {x y : Text}
    (hpath : Path (parentHash hdr) x (l.map fun p => p.1.hash) y)
    (hall : ∀ p ∈ l, heightIn hdr p.1.hash = p.1.header.height ∧
      canonicalBlockWithUndo chain p.1.header.height = some p) :
    Stretch chain (heightIn hdr y + 1) l.reverse := by
  induction l generalizing x with
  | nil => trivial
  | cons p l ih =>
    have hheight := hpath.height_eq hroot.height_parent
    obtain ⟨rfl, q, hq, hpath⟩ := hpath
    rw [forall_mem_cons] at hall
    rw [reverse_cons, stretch_append]
    refine ⟨ih hpath hall.2, ⟨?_, trivial⟩⟩
    rw [hall.1.1, length_map, length_cons] at hheight
    have hsum : heightIn hdr y + 1 + l.reverse.length = p.1.header.height := by
      rw [hheight, length_reverse]
      omega
    rw [hsum]
    exact ⟨hall.1.2, rfl⟩

end Stretch

/-- The last block of a stretch. -/
theorem Stretch.last {chain : ChainState} {height : ℕ} {ps : List (Block × BlockUndo)}
    (h : Stretch chain height ps) (hne : ps ≠ []) :
    ∃ p ∈ ps, ∃ top : ℕ, top + 1 = height + ps.length ∧ canonicalBlockWithUndo chain top = some p := by
  induction ps generalizing height with
  | nil => exact absurd rfl hne
  | cons p ps ih =>
    obtain ⟨⟨hcanonical, -⟩, hrest⟩ := h
    by_cases hnil : ps = []
    · subst hnil
      exact ⟨p, mem_singleton_self p, height, rfl, hcanonical⟩
    · obtain ⟨q, hq, top, htop, hcanonical⟩ := ih hrest hnil
      exact ⟨q, mem_cons_of_mem _ hq, top, by rw [htop, length_cons]; omega, hcanonical⟩

/-! ## Reorganisations -/

/-- The canonical chain of `chain'` leaves that of `chain` above the height `fork`:
    the blocks of `undos` go, the tip first, and those of `records` come. -/
structure Reorg (chain chain' : ChainState) (fork : ℕ) (undos records : List (Block × BlockUndo)) :
    Prop where
  below : ∀ i : ℕ, i ≤ fork → canonicalBlockWithUndo chain' i = canonicalBlockWithUndo chain i
  undone : Stretch chain (fork + 1) undos.reverse
  done : Stretch chain' (fork + 1) records
  tip : ∃ hash, chain.tip = some ⟨hash, fork + undos.length⟩
  tip' : ∃ hash, chain'.tip = some ⟨hash, fork + records.length⟩

/-- A block that may be written: under its hash there is no other block. -/
def SameBody (chain : ChainState) (block : Block) : Prop :=
  ∀ b, chain.getBlock block.hash = some b → b = block

section Put

variable {opts : NodeOptions} {H : Set BlockHeader} {chain chain' : ChainState} {block : Block}

/-- A body is the same if its transactions are. -/
theorem SameBody.of_transactions (hinj : Set.InjOn computeBlockHash H) (h : StoredWell opts H chain)
    (hext : Extends H chain block)
    (htxs : ∀ b, chain.getBlock block.hash = some b → b.transactions = block.transactions) :
    SameBody chain block := by
  intro b hb
  obtain ⟨hhash, hmem⟩ := h.hashed _ _ hb
  have hheader : b.header = block.header := hinj hmem hext.mem (by rw [hhash, hext.hash_eq])
  have hkey := chain.keyed _ _ hb
  have := htxs b hb
  cases b
  cases block
  simp_all

theorem SameBody.getBlock_put (h : SameBody chain block) (hput : Puts chain block chain')
    {hash : Text} {b : Block} (hb : chain.getBlock hash = some b) : chain'.getBlock hash = some b := by
  rw [hput hash]
  split
  · next heq => rw [h b (heq ▸ hb)]
  · exact hb

end Put

/-- A head that was not canonical is among the blocks that were connected. -/
theorem Reorg.mem_records {chain chain' : ChainState} {fork : ℕ} {head previousHead : Block}
    {undos records : List (Block × BlockUndo)} (r : Reorg chain chain' fork undos records)
    (hspine : Spine chain previousHead) (hspine' : Spine chain' head)
    (hlt : previousHead.header.height < head.header.height) : ∃ undo, (head, undo) ∈ records := by
  obtain ⟨_, htip⟩ := r.tip
  obtain ⟨_, htip'⟩ := r.tip'
  rw [hspine.tip, Option.some.injEq, ChainTip.mk.injEq] at htip
  rw [hspine'.tip, Option.some.injEq, ChainTip.mk.injEq] at htip'
  have hne : records ≠ [] := by
    rintro rfl
    rw [htip.2, htip'.2, length_nil] at hlt
    omega
  obtain ⟨p, hp, top, htop, hcanonical⟩ := r.done.last hne
  obtain ⟨hc, hb, -⟩ := canonicalBlockWithUndo_eq_some.1 hcanonical
  have htop : top = head.header.height := by omega
  -- The last of them is at the height of the head, as the head is.
  have hhead : chain'.canonical.get top = some head.hash := by
    rw [htop]
    exact (hspine'.canonical _ _).2 ⟨.refl _, heightIn_eq (ChainState.known hspine'.stored)⟩
  rw [hc, Option.some.injEq] at hhead
  rw [hhead, hspine'.stored, Option.some.injEq] at hb
  exact ⟨p.2, hb ▸ hp⟩

section Applied

variable {S : SignatureScheme}

theorem applyTransactions_structured {height : ℕ} {txs : List Transaction} {u : UtxoSet}
    {r : List TxUndo × UtxoSet} (h : applyTransactions S height u txs = .ok r) :
    ∀ tx ∈ txs, WellStructured tx := by
  induction txs generalizing u r with
  | nil => simp
  | cons tx txs ih =>
    simp only [applyTransactions, bind_eq_ok] at h
    obtain ⟨r₁, htx, r₂, htxs, -⟩ := h
    rw [forall_mem_cons]
    exact ⟨(applyTransaction_eq_ok.1 htx).1.structured, ih htxs⟩

/-- What is applied is well structured. -/
theorem Applied.structured {u u' : UtxoSet} {records : List (Block × BlockUndo)}
    (h : Applied S u records u') : ∀ p ∈ records, ∀ tx ∈ p.1.transactions, WellStructured tx := by
  induction records generalizing u with
  | nil => simp
  | cons p records ih =>
    obtain ⟨u₁, hblock, hrest⟩ := h
    rw [forall_mem_cons]
    exact ⟨applyTransactions_structured hblock, ih hrest⟩

end Applied

section Adopt

variable {opts : NodeOptions} {H : Set BlockHeader} {w w' : World} {previousHead head : Block}
  {undos records : List (Block × BlockUndo)} {after : UtxoSet}

/-- The head of a heavier chain is stored as it is. -/
theorem Heavier.sameBody (h : Heavier w head) : SameBody w.chain head := by
  intro b hb
  cases h.stored.symm.trans hb
  rfl

section Batch

variable (hb : Batched opts w previousHead head undos records after w')

include hb

/-- The undo records after an adoption. -/
theorem Batched.getUndo (hash : Text) : w'.chain.getUndo hash =
    (lastWrite ((undos.map fun p => (p.1.hash, none)) ++ records.map fun p => (p.1.hash, some p.2))
      hash).getD (w.chain.getUndo hash) := by
  rw [ChainState.getUndo, hb.undo_eq, Store.get_batch]
  rfl

theorem Batched.reorg (hinj : Set.InjOn computeBlockHash H) (h : StoredWell opts H w.chain)
    (hspine : Spine w.chain previousHead) (hext : Extends H w.chain head)
    (hsame : SameBody w.chain head) : ∃ fork, Reorg w.chain w'.chain fork undos records := by
  have hput := hb.puts
  have hspine' := hb.spine hinj h hspine hext
  have hundo := hb.getUndo
  obtain ⟨staged, ha⟩ := hb.adoption
  generalize w'.chain = chain' at *
  have hroot := (h.put hinj hext hput).rootward
  obtain ⟨fork, hd, hc, halld, hallc⟩ := plan_path hinj h hspine hext hput ha.plan
  dsimp only at hd hc halld hallc
  rw [map_map] at hd
  rw [← map_reverse, map_map] at hc
  have hold : HeightIndex (parentHash chain'.headerOf) (heightIn chain'.headerOf) w.chain.canonical
      previousHead.hash :=
    hspine.canonical.congr (fun y => h.anc_put hinj hext hput (y := y) hspine.stored)
      fun y => h.heightIn_put hinj hext hput (y := y) hspine.stored
  have hdknown : ∀ p ∈ undos, heightIn chain'.headerOf p.1.hash = p.1.header.height := fun p hp =>
    heightIn_eq (h.headerOf_put hinj hext hput (ChainState.known (halld _ (mem_map_of_mem hp))))
  have hcknown : ∀ p ∈ records, heightIn chain'.headerOf p.1.hash = p.1.header.height := fun p hp =>
    heightIn_eq (hallc _ (mem_map_of_mem hp)).1
  -- A block is not connected twice: its height is its own.
  have hnodup : ((records.map fun p => (p.1.hash, some p.2)).map Prod.fst).Nodup := by
    have hhashes := (hc.nodup_height hroot.height_parent).of_map
    rw [map_reverse, nodup_reverse] at hhashes
    rwa [map_map]
  refine ⟨heightIn chain'.headerOf fork, ?_, ?_, ?_, ?_, ?_⟩
  · intro i hi
    have hcanonical : chain'.canonical.get i = w.chain.canonical.get i :=
      hold.agree hroot.height_parent hspine'.canonical ⟨_, hd⟩ ⟨_, hc⟩ hi
    rw [canonicalBlockWithUndo_natCast, canonicalBlockWithUndo_natCast, hcanonical]
    cases hget : w.chain.canonical.get i with
    | none => rfl
    | some hash =>
      obtain ⟨block, hb, -⟩ := hspine.block_of_canonical h hget
      have hheight := ((hold i hash).1 hget).2
      have hkey := w.chain.keyed _ _ hb
      -- The blocks that go or come are above the fork.
      have habove : ∀ p : Block × BlockUndo,
          heightIn chain'.headerOf fork < heightIn chain'.headerOf p.1.hash → p.1.hash ≠ hash := by
        rintro p hlt rfl
        omega
      have hnone : lastWrite ((undos.map fun p => (p.1.hash, none)) ++
          records.map fun p => (p.1.hash, some p.2)) hash = none := by
        refine lastWrite_eq_none.2 fun op hop => ?_
        rcases mem_append.1 hop with hop | hop
        · obtain ⟨p, hp, rfl⟩ := mem_map.1 hop
          exact habove p (hd.height_lt hroot.height_parent (mem_map_of_mem hp))
        · obtain ⟨p, hp, rfl⟩ := mem_map.1 hop
          refine habove p (hc.height_lt hroot.height_parent ?_)
          exact mem_map.2 ⟨p, mem_reverse.2 hp, rfl⟩
      rw [Option.bind_some, Option.bind_some, hb, hsame.getBlock_put hput hb, Option.map_some,
        Option.map_some, hkey, hundo hash, hnone, Option.getD_none]
  · refine stretch_of_path hroot hd fun p hp => ⟨hdknown p hp, ?_⟩
    refine canonicalBlockWithUndo_eq_some.2 ⟨?_, halld _ (mem_map_of_mem hp), ?_⟩
    · exact (hold _ _).2 ⟨hd.anc_of_mem (mem_map_of_mem hp), hdknown p hp⟩
    · rw [ha.undo_eq p hp, Option.getD_some]
  · have hstretch : Stretch chain' (heightIn chain'.headerOf fork + 1) records.reverse.reverse := by
      refine stretch_of_path hroot hc fun p hp => ?_
      rw [mem_reverse] at hp
      refine ⟨hcknown p hp, canonicalBlockWithUndo_eq_some.2 ⟨?_, ?_, ?_⟩⟩
      · refine (hspine'.canonical _ _).2 ⟨hc.anc_of_mem ?_, hcknown p hp⟩
        exact mem_map.2 ⟨p, mem_reverse.2 hp, rfl⟩
      · rcases (hallc _ (mem_map_of_mem hp)).2 with heq | hstored
        · rw [heq, hput, if_pos rfl]
        · exact hsame.getBlock_put hput hstored
      · rw [hundo, lastWrite_append, lastWrite_of_mem hnodup (mem_map.2 ⟨p, hp, rfl⟩)]
        rfl
    rwa [reverse_reverse] at hstretch
  · refine ⟨previousHead.hash, ?_⟩
    have hheight := hd.height_eq hroot.height_parent
    rw [heightIn_eq (h.headerOf_put hinj hext hput (ChainState.known hspine.stored)),
      length_map] at hheight
    rw [hspine.tip, hheight]
  · refine ⟨head.hash, ?_⟩
    have hheight := hc.height_eq hroot.height_parent
    rw [heightIn_eq (ChainState.known hspine'.stored), length_map, length_reverse] at hheight
    rw [hspine'.tip, hheight]

end Batch

/-- An adoption, and the reorganisation that it is. -/
theorem Adopts.reorg (hinj : Set.InjOn computeBlockHash H) (hs : Sound opts H w)
    (hext : Extends H w.chain head) (hsame : SameBody w.chain head) (ha : Adopts opts w head w') :
    ∃ previousHead undos records after fork, Spine w.chain previousHead ∧
      Batched opts w previousHead head undos records after w' ∧
      Reorg w.chain w'.chain fork undos records := by
  obtain ⟨previousHead, undos, records, after, hspine, hb⟩ := ha.batched hinj hs hext
  obtain ⟨fork, r⟩ := hb.reorg hinj hs.stored hspine hext hsame
  exact ⟨previousHead, undos, records, after, fork, hspine, hb, r⟩

end Adopt

end Plainchain
