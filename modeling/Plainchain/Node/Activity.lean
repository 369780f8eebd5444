import Plainchain.Node.Reorg
import Plainchain.State.AddressIndex

/-!
# The address index follows the tip

A node with the address index keeps the entries of the last `addressIndexDepth`
canonical blocks, or of all of them. When a block is disconnected, the one that it
had pushed out of this window comes back, and when a block is connected, the one
that it pushes out goes. The blocks of a reorganisation are disconnected and
connected one after the other, so that the window slides down to the fork and up
to the new head (`Reorg.slides`).
-/

namespace Plainchain

open Js Kv Ancestry Prog List

/-- First height the address index covers at tip height `tipHeight`. -/
def addressIndexFloor (opts : NodeOptions) (tipHeight : ℕ) : ℕ :=
  if opts.addressIndexDepth = 0 then 0 else tipHeight + 1 - opts.addressIndexDepth

theorem window_iff {opts : NodeOptions} {t i : ℕ} :
    Window opts.addressIndexDepth t i ↔ addressIndexFloor opts t ≤ i ∧ i ≤ t := by
  unfold Window addressIndexFloor
  split <;> omega

/-! ## Pages -/

section Pages

variable {opts : NodeOptions} {H : Set BlockHeader} {chain chain' : ChainState} {head : Block}

/-- The entries of a block and its undo record, if there is one. -/
def pageOf (target : Option (Block × BlockUndo)) : List (List Char × AddressRecord) :=
  (target.map fun p => activityPage p.1 p.2).getD []

/-- The entries of the canonical block at a height. -/
def canonicalPage (chain : ChainState) (i : ℕ) : List (List Char × AddressRecord) :=
  pageOf (canonicalBlockWithUndo chain i)

theorem mem_canonicalPage {i : ℕ} {row : List Char × AddressRecord} :
    row ∈ canonicalPage chain i ↔ ∃ block undo, canonicalBlockWithUndo chain i = some (block, undo) ∧
      ∃ e ∈ activityEntries block undo, row = (e.dbKey, e.record) := by
  rw [canonicalPage, pageOf]
  cases canonicalBlockWithUndo chain i with
  | none => simp
  | some p =>
    obtain ⟨block, undo⟩ := p
    simp only [Option.map_some, Option.getD_some, activityPage, mem_map, Option.some.injEq,
      Prod.mk.injEq]
    constructor
    · rintro ⟨e, he, rfl⟩
      exact ⟨block, undo, ⟨rfl, rfl⟩, e, he, rfl⟩
    · rintro ⟨_, _, ⟨rfl, rfl⟩, e, he, rfl⟩
      exact ⟨e, he, rfl⟩

/-- Stored blocks have transactions with ids of their own. -/
abbrev StoredIdentified : ChainState → Prop := AllStored Block.Identified

theorem height_of_canonicalBlockWithUndo (h : StoredWell opts H chain) (hspine : Spine chain head)
    {i : ℕ} {block : Block} {undo : BlockUndo}
    (hp : canonicalBlockWithUndo chain i = some (block, undo)) : block.header.height = i := by
  obtain ⟨hc, hb, -⟩ := canonicalBlockWithUndo_eq_some.1 hp
  obtain ⟨block', hb', hheight⟩ := hspine.block_of_canonical h hc
  cases hb.symm.trans hb'
  exact hheight

/-- The height is in the key, and it is that of the block. -/
theorem paged_canonicalPage (h : StoredWell opts H chain) (hspine : Spine chain head)
    (hid : StoredIdentified chain) : Paged (canonicalPage chain) := by
  have hpage : ∀ i row, row ∈ canonicalPage chain i → ∃ e : ActivityEntry,
      row.1 = e.dbKey ∧ e.height = i ∧ hexOf 64 e.txId := by
    intro i row hrow
    obtain ⟨block, undo, hp, e, he, rfl⟩ := mem_canonicalPage.1 hrow
    have hheight := height_of_canonicalBlockWithUndo h hspine hp
    exact ⟨e, rfl, (mem_activityEntries he).1.trans hheight,
      (hid _ _ (canonicalBlockWithUndo_eq_some.1 hp).2.1).hex_entry he⟩
  intro i j row hrow row' hrow' heq
  obtain ⟨e, hkey, rfl, hhex⟩ := hpage i row hrow
  obtain ⟨e', hkey', rfl, hhex'⟩ := hpage j row' hrow'
  exact (ActivityEntry.dbKey_inj hhex hhex' (hkey.symm.trans (heq.trans hkey'))).2.1

/-! ## One block -/

theorem activity_target (target : Option (Block × BlockUndo)) (remove : Bool) :
    ((target.map fun (b, u) => addressIndexOps b u remove).getD []).filterMap StateOp.activity? =
      if remove then deleteAll (pageOf target) else putAll (pageOf target) := by
  cases target with
  | none => cases remove <;> rfl
  | some p => exact activity_addressIndexOps _ _ _

theorem toNat?_sub (h d : ℕ) : ((h : ℤ) - d).toNat? = if d ≤ h then some (h - d) else none := by
  split
  · next hle =>
    rw [← Nat.cast_sub hle]
    rfl
  · next hlt =>
    cases hs : (h : ℤ) - d with
    | ofNat n =>
      rw [Int.ofNat_eq_natCast] at hs
      omega
    | negSucc n => rfl

theorem canonicalBlockWithUndo_sub (chain : ChainState) (h d : ℕ) :
    canonicalBlockWithUndo chain ((h : ℤ) - d) =
      if d ≤ h then canonicalBlockWithUndo chain ((h - d : ℕ) : ℤ) else none := by
  rw [canonicalBlockWithUndo, toNat?_sub]
  split <;> rfl

variable (henabled : opts.addressIndexEnabled = true) {p : Block × BlockUndo} {t : ℕ}

include henabled

/-- A block is disconnected: its page goes, and the page below the window comes. -/
theorem activity_disconnect (hp : canonicalBlockWithUndo chain (t + 1 : ℕ) = some p)
    (hheight : p.1.header.height = t + 1) :
    (disconnectActivityOps opts chain p.1 p.2).filterMap StateOp.activity? =
      deleteAll (canonicalPage chain (t + 1)) ++
        if 0 < opts.addressIndexDepth ∧ opts.addressIndexDepth ≤ t + 1 then
          putAll (canonicalPage chain (t + 1 - opts.addressIndexDepth)) else [] := by
  have hpage : canonicalPage chain (t + 1) = activityPage p.1 p.2 := by
    rw [canonicalPage, hp]
    rfl
  rw [disconnectActivityOps, if_pos henabled, filterMap_append, activity_addressIndexOps,
    if_pos rfl, hpage, hheight, canonicalBlockWithUndo_sub]
  congr 1
  by_cases hd : 0 < opts.addressIndexDepth
  · rw [if_pos hd, activity_target, if_neg (by simp)]
    by_cases hle : opts.addressIndexDepth ≤ t + 1
    · rw [if_pos hle, if_pos (And.intro hd hle)]
      rfl
    · rw [if_neg hle, if_neg (not_and_of_not_right _ hle)]
      rfl
  · rw [if_neg hd, if_neg (not_and_of_not_left _ hd)]
    rfl

/-- A block is connected: its page comes, and the page that leaves the window
    goes. The blocks of the batch count as canonical. -/
theorem activity_connect {batch : ConnectedInBatch}
    (hbatch : ∀ i : ℕ, i ≤ t + 1 → (batch.lookup i).or (canonicalBlockWithUndo chain i) =
      canonicalBlockWithUndo chain' i)
    (hp : canonicalBlockWithUndo chain' (t + 1 : ℕ) = some p) (hheight : p.1.header.height = t + 1) :
    (connectActivityOps opts chain p.1 p.2 batch).filterMap StateOp.activity? =
      putAll (canonicalPage chain' (t + 1)) ++
        if 0 < opts.addressIndexDepth ∧ opts.addressIndexDepth ≤ t + 1 then
          deleteAll (canonicalPage chain' (t + 1 - opts.addressIndexDepth)) else [] := by
  have hpage : canonicalPage chain' (t + 1) = activityPage p.1 p.2 := by
    rw [canonicalPage, hp]
    rfl
  rw [connectActivityOps, if_pos henabled, filterMap_append, activity_addressIndexOps,
    if_neg (by simp), hpage, hheight]
  congr 1
  by_cases hd : 0 < opts.addressIndexDepth
  · rw [if_pos hd, activity_target, if_pos rfl, toNat?_sub, canonicalBlockWithUndo_sub]
    by_cases hle : opts.addressIndexDepth ≤ t + 1
    · rw [if_pos hle, if_pos hle, if_pos (And.intro hd hle), Option.bind_some,
        hbatch _ (Nat.sub_le _ _)]
      rfl
    · rw [if_neg hle, if_neg hle, if_neg (not_and_of_not_right _ hle)]
      rfl
  · rw [if_neg hd, if_neg (not_and_of_not_left _ hd)]
    rfl

end Pages

/-! ## One reorganisation -/

section Reorg

variable {R : (ℕ → List (List Char × AddressRecord)) → AddressIndex → (ℕ → Prop) → Prop}
  (hR : Paging R) {opts : NodeOptions} {chain chain' : ChainState} {s : AddressIndex}
  {fork : ℕ} {undos records : List (Block × BlockUndo)}
  (henabled : opts.addressIndexEnabled = true)

include hR henabled

/-- The blocks of the old branch are disconnected, the tip first. -/
theorem disconnect_slides (hp : Paged (canonicalPage chain))
    (hstretch : Stretch chain (fork + 1) undos.reverse)
    (h : R (canonicalPage chain) s (Window opts.addressIndexDepth (fork + undos.length))) :
    R (canonicalPage chain) (s.batch (undos.flatMap fun p =>
        (disconnectActivityOps opts chain p.1 p.2).filterMap StateOp.activity?))
      (Window opts.addressIndexDepth fork) := by
  induction undos generalizing s with
  | nil => exact h
  | cons p undos ih =>
    rw [reverse_cons, stretch_append, length_reverse, Nat.add_right_comm] at hstretch
    obtain ⟨hrest, ⟨hcanonical, hheight⟩, -⟩ := hstretch
    rw [flatMap_cons, Store.batch_append, activity_disconnect henabled hcanonical hheight]
    exact ih hrest (hR.slide_down hp h)

/-- The blocks of the new branch are connected, the lowest first. -/
theorem connect_slides (hp : Paged (canonicalPage chain')) {batch : ConnectedInBatch}
    (hbatch : ∀ i : ℕ, i ≤ fork → (batch.lookup i).or (canonicalBlockWithUndo chain i) =
      canonicalBlockWithUndo chain' i)
    (hstretch : Stretch chain' (fork + 1) records)
    (h : R (canonicalPage chain') s (Window opts.addressIndexDepth fork)) :
    R (canonicalPage chain')
      (s.batch ((connectedActivity opts chain batch records).filterMap StateOp.activity?))
      (Window opts.addressIndexDepth (fork + records.length)) := by
  induction records generalizing s batch fork with
  | nil => exact h
  | cons p records ih =>
    obtain ⟨⟨hcanonical, hheight⟩, hrest⟩ := hstretch
    have hbatch' : ∀ i : ℕ, i ≤ fork + 1 →
        ((List.lookup i ((p.1.header.height, p.1, p.2) :: batch)).or
          (canonicalBlockWithUndo chain i)) = canonicalBlockWithUndo chain' i := by
      intro i hi
      rw [lookup_cons, hheight]
      by_cases heq : i = fork + 1
      · rw [heq, beq_self_eq_true, hcanonical]
        rfl
      · rw [beq_false_of_ne heq]
        exact hbatch i (by omega)
    rw [connectedActivity, if_pos henabled, filterMap_append, Store.batch_append,
      activity_connect henabled hbatch' hcanonical hheight, length_cons, Nat.add_comm records.length,
      ← Nat.add_assoc]
    exact ih hbatch' hrest (hR.slide_up hp h)

/-- The window goes down to the fork on the old branch and up to the head on the
    new one. -/
theorem Reorg.slides (r : Reorg chain chain' fork undos records) (hp : Paged (canonicalPage chain))
    (hp' : Paged (canonicalPage chain'))
    (h : R (canonicalPage chain) s (Window opts.addressIndexDepth (fork + undos.length))) :
    R (canonicalPage chain') (s.batch ((undos.flatMap fun p =>
        (disconnectActivityOps opts chain p.1 p.2).filterMap StateOp.activity?) ++
        (connectedActivity opts chain [] records).filterMap StateOp.activity?))
      (Window opts.addressIndexDepth (fork + records.length)) := by
  rw [Store.batch_append]
  refine connect_slides hR henabled hp' (fun i hi => (r.below i hi).symm) r.done ?_
  refine hR.congr (disconnect_slides hR henabled hp r.undone h) (fun _ => Iff.rfl) fun i hi => ?_
  rw [canonicalPage, canonicalPage, r.below i hi.1]

end Reorg

/-! ## Runs -/

/-- A block that is written under a stored hash has the transactions that are
    stored, and a mined block has no transaction twice. -/
def KeepsBodies (w : World) : Label → Prop
  | .store block => ∀ b, w.chain.getBlock block.hash = some b → b.transactions = block.transactions
  | .mine head =>
    (∀ b, w.chain.getBlock head.hash = some b → b.transactions = head.transactions) ∧
      (head.transactions.map Transaction.id).Nodup
  | _ => True

/-- The index is to the canonical blocks in the window as `R` says. -/
structure ActivityIndexed
    (R : (ℕ → List (List Char × AddressRecord)) → AddressIndex → (ℕ → Prop) → Prop)
    (opts : NodeOptions) (chain : ChainState) : Prop where
  identified : StoredIdentified chain
  pages : ∀ tip, chain.tip = some tip →
    R (canonicalPage chain) chain.addrIndex (Window opts.addressIndexDepth tip.height)

/-- The index holds the entries of the canonical blocks in the window, and no
    others. -/
abbrev ActivityExact : NodeOptions → ChainState → Prop := ActivityIndexed Holds

section Run

variable {R : (ℕ → List (List Char × AddressRecord)) → AddressIndex → (ℕ → Prop) → Prop}
  (hR : Paging R) {opts : NodeOptions} {H : Set BlockHeader} {w w' : World} {head : Block}
  (hinj : Set.InjOn computeBlockHash H) (hs : Sound opts H w)

include hinj hs

omit hinj in
/-- Storing a block leaves the canonical blocks. -/
theorem canonicalBlockWithUndo_put {block : Block} (hsame : SameBody w.chain block) (i : ℕ) :
    canonicalBlockWithUndo (w.chain.batch [putBlockOp block]) i = canonicalBlockWithUndo w.chain i := by
  obtain ⟨head, hspine, -⟩ := hs.spine
  have hcanonical : (w.chain.batch [putBlockOp block]).canonical = w.chain.canonical := rfl
  rw [canonicalBlockWithUndo_natCast, canonicalBlockWithUndo_natCast, hcanonical]
  cases hget : w.chain.canonical.get i with
  | none => rfl
  | some hash =>
    obtain ⟨b, hb, -⟩ := hspine.block_of_canonical hs.stored hget
    rw [Option.bind_some, Option.bind_some, hb, hsame.getBlock_put (puts_batch w.chain block) hb]
    rfl

/-- A mined block that was adopted has transactions whose ids are digests. -/
theorem Adopts.hex (hext : Extends H w.chain head) (hsame : SameBody w.chain head)
    (htip : OnTip w head) (ha : Adopts opts w head w') : ∀ tx ∈ head.transactions, hexOf 64 tx.id := by
  obtain ⟨previousHead, undos, records, after, fork, hspine, hb, r⟩ := ha.reorg hinj hs hext hsame
  obtain ⟨staged, hadoption⟩ := hb.adoption
  have hlt : previousHead.header.height < head.header.height := by
    obtain ⟨parent, hparent, hheight⟩ := hext.parent
    rw [OnTip, hspine.tip, Option.map_some, Option.some.injEq] at htip
    rw [← htip, hspine.stored, Option.some.injEq] at hparent
    rw [hheight, hparent]
    exact Nat.lt_succ_self _
  obtain ⟨undo, hmem⟩ := r.mem_records hspine (hb.spine hinj hs.stored hspine hext) hlt
  exact fun tx htx => (hadoption.applied.structured _ hmem tx htx).hexOf_id

/-- Stored blocks stay identified. -/
theorem Change.storedIdentified {label : Label} (hC : KeepsBodies w label)
    (hc : Change opts H w label w') (h : StoredIdentified w.chain) : StoredIdentified w'.chain := by
  refine hc.allStored hinj hs (fun _ _ hvalid => ?_) (fun head hlabel hext htip ha => ?_) h
  · obtain ⟨_, _, hv⟩ := validateBlock_eq_ok.1 hvalid
    exact ⟨fun tx htx => (hv.structured tx htx).hexOf_id, hv.nodup_ids⟩
  · subst hlabel
    have hsame := SameBody.of_transactions hinj hs.stored hext hC.1
    exact ⟨ha.hex hinj hs hext hsame htip, hC.2⟩

omit hinj hs in
theorem connectedActivity_disabled (hdisabled : opts.addressIndexEnabled = false) (chain : ChainState)
    (batch : ConnectedInBatch) (records : List (Block × BlockUndo)) :
    connectedActivity opts chain batch records = [] := by
  induction records generalizing batch with
  | nil => rfl
  | cons p records ih =>
    have hops : connectActivityOps opts chain p.1 p.2 batch = [] := by
      simp [connectActivityOps, hdisabled]
    rw [connectedActivity, if_neg (by simp [hdisabled]), hops]
    exact ih _

omit hinj hs in
theorem Batched.addrIndex_eq {previousHead : Block} {undos records : List (Block × BlockUndo)}
    {after : UtxoSet} (hb : Batched opts w previousHead head undos records after w') :
    w'.chain.addrIndex = w.chain.addrIndex.batch ((undos.flatMap fun p =>
      (disconnectActivityOps opts w.chain p.1 p.2).filterMap StateOp.activity?) ++
      (connectedActivity opts w.chain [] records).filterMap StateOp.activity?) := by
  obtain ⟨hhops, ha, rfl, hchain, -, -⟩ := hb
  rw [hchain, ← ha.activity,
    ← filterMap_batch hhops StateOp.activity? (fun _ _ => rfl) fun _ => rfl]
  rfl

/-- A node without the index leaves it alone. -/
theorem Change.addrIndex_eq (hdisabled : opts.addressIndexEnabled = false) {label : Label}
    (hc : Change opts H w label w') : w'.chain.addrIndex = w.chain.addrIndex := by
  have hadopts : ∀ {head : Block}, Extends H w.chain head → Adopts opts w head w' →
      w'.chain.addrIndex = w.chain.addrIndex := by
    intro head hext ha
    obtain ⟨_, undos, records, _, -, hb⟩ := ha.batched hinj hs hext
    have hdisconnect : (undos.flatMap fun p =>
        (disconnectActivityOps opts w.chain p.1 p.2).filterMap StateOp.activity?) = [] := by
      simp [disconnectActivityOps, hdisabled]
    rw [hb.addrIndex_eq, hdisconnect, connectedActivity_disabled hdisabled]
    rfl
  cases hc with
  | note hchain _ _ _ _ => rw [hchain]
  | index _ _ => rfl
  | store _ _ _ _ => rfl
  | adopt hext _ ha => exact hadopts hext ha
  | mine hext _ ha => exact hadopts hext ha
  | submit tx => rw [exec_admitTransaction]
  | reopen => rfl

include hR

theorem Adopts.activityIndexed (henabled : opts.addressIndexEnabled = true)
    (hext : Extends H w.chain head) (hsame : SameBody w.chain head)
    (h : ActivityIndexed R opts w.chain) (ha : Adopts opts w head w')
    (hid' : StoredIdentified w'.chain) : ActivityIndexed R opts w'.chain := by
  have hspine' := (ha.puts hinj hs hext).2.1
  have hs' := ha.sound hinj hs hext
  obtain ⟨_, _, _, _, fork, hspine, hb, r⟩ := ha.reorg hinj hs hext hsame
  obtain ⟨hash, htip⟩ := r.tip
  obtain ⟨hash', htip'⟩ := r.tip'
  have hpages := r.slides hR henabled (paged_canonicalPage hs.stored hspine h.identified)
    (paged_canonicalPage hs'.stored hspine' hid') (h.pages _ htip)
  rw [← hb.addrIndex_eq] at hpages
  refine ⟨hid', fun tip ht => ?_⟩
  cases htip'.symm.trans ht
  exact hpages

theorem Change.activityIndexed (henabled : opts.addressIndexEnabled = true) {label : Label}
    (hC : KeepsBodies w label) (hc : Change opts H w label w') (h : ActivityIndexed R opts w.chain) :
    ActivityIndexed R opts w'.chain := by
  have hid' := hc.storedIdentified hinj hs hC h.identified
  cases hc with
  | note hchain _ _ _ _ => rwa [hchain]
  | index _ _ => exact h
  | @store _ _ block _ _ hparent hmem hctx hvalid =>
    have hext := extends_of_valid hparent hmem hctx hvalid
    have hsame := SameBody.of_transactions hinj hs.stored hext hC
    refine ⟨hid', fun tip ht => ?_⟩
    have hpages : canonicalPage (w.chain.batch [putBlockOp block]) = canonicalPage w.chain :=
      funext fun i => by rw [canonicalPage, canonicalPage, canonicalBlockWithUndo_put hs hsame]
    change R (canonicalPage (w.chain.batch [putBlockOp block])) _ _
    rw [hpages]
    exact h.pages tip ht
  | adopt hext hheavier ha =>
    exact ha.activityIndexed hR hinj hs henabled hext hheavier.sameBody h hid'
  | mine hext htip ha =>
    have hsame := SameBody.of_transactions hinj hs.stored hext hC.1
    exact ha.activityIndexed hR hinj hs henabled hext hsame h hid'
  | submit tx =>
    rw [exec_admitTransaction]
    exact h
  | reopen => exact h

theorem Trace.activityIndexed (henabled : opts.addressIndexEnabled = true)
    (ht : Trace opts H KeepsBodies w w') (h : ActivityIndexed R opts w.chain) :
    ActivityIndexed R opts w'.chain :=
  ht.invariant (P := fun w => ActivityIndexed R opts w.chain) hinj
    (fun hs hC hc h => hc.activityIndexed hR hinj hs henabled hC h) hs h

end Run

section Start

variable {opts : NodeOptions} {H : Set BlockHeader} {w : World}

theorem genesis_identified (opts : NodeOptions) : opts.genesis.Identified := by
  obtain ⟨allocations, -, htxs, -⟩ := createGenesisBlock_eq_ok opts.genesis_eq
  refine ⟨fun tx htx => ?_, by rw [htxs]; exact nodup_singleton _⟩
  rw [htxs] at htx
  exact mem_singleton.1 htx ▸ hexOf_sha256 _

theorem activity_genesisOps (opts : NodeOptions) : (genesisOps opts).filterMap StateOp.activity? =
    if opts.addressIndexEnabled then putAll (activityPage opts.genesis []) else [] := by
  have hlocations : (opts.genesis.transactions.map fun tx =>
      putTxLocationOp tx.id opts.genesis.hash).filterMap StateOp.activity? = [] := by
    rw [filterMap_map, filterMap_eq_nil_iff]
    exact fun _ _ => rfl
  rw [genesisOps, filterMap_append, filterMap_append, hlocations]
  split
  · exact activity_addressIndexOps _ _ _
  · rfl

theorem getUndo_genesisOps (opts : NodeOptions) (hash : Text) :
    (emptyChain.batch (genesisOps opts)).getUndo hash = none := by
  change (Store.empty.batch ((genesisOps opts).filterMap StateOp.undo?)).get _ = none
  rw [genesisOps_filterMap (fun _ _ => rfl) fun _ _ => rfl]
  rfl

theorem canonicalBlockWithUndo_genesisOps (opts : NodeOptions) :
    canonicalBlockWithUndo (emptyChain.batch (genesisOps opts)) (0 : ℕ) = some (opts.genesis, []) := by
  have hspine : Spine (emptyChain.batch (genesisOps opts)) opts.genesis := spine_genesisOps
  refine canonicalBlockWithUndo_eq_some.2 ⟨?_, hspine.stored, ?_⟩
  · exact (hspine.canonical 0 _).2 ⟨.refl _,
      (heightIn_eq (ChainState.known hspine.stored)).trans (genesis_height opts)⟩
  · rw [getUndo_genesisOps, Option.getD_none]

/-- The index of a fresh database has the entries of genesis. -/
theorem start_activityExact (henabled : opts.addressIndexEnabled = true)
    (hmem : opts.genesis.header ∈ H) (h : start opts = .ok w) : ActivityExact opts w.chain := by
  have hstored := storedWell_genesisOps hmem
  have hcanonical := canonicalBlockWithUndo_genesisOps opts
  obtain ⟨_, _, _, _, -, -, -, rfl⟩ := start_eq_ok h
  change ActivityExact opts (emptyChain.batch (genesisOps opts))
  have hid := allStored_genesisOps (genesis_identified opts)
  have hactivity := activity_genesisOps opts
  rw [if_pos henabled] at hactivity
  set chain := emptyChain.batch (genesisOps opts)
  have hpage : canonicalPage chain 0 = activityPage opts.genesis [] := by
    rw [canonicalPage, hcanonical]
    rfl
  refine ⟨hid, fun tip ht => ?_⟩
  cases spine_genesisOps.tip.symm.trans ht
  change Holds _ (Store.empty.batch ((genesisOps opts).filterMap StateOp.activity?)) _
  rw [hactivity, ← hpage, genesis_height]
  have hempty : Holds (canonicalPage chain) Store.empty fun _ => False := fun k v => by simp
  refine paging_holds.congr (paging_holds.put (paged_canonicalPage hstored spine_genesisOps hid)
    hempty 0) (fun i => ?_) fun _ _ => rfl
  simp only [Window, false_or]
  omega

end Start

/-! ## What the index is worth -/

/-- The entries of the canonical blocks from the floor of the window to the tip. -/
def IndexedActivity (opts : NodeOptions) (chain : ChainState) (tipHeight : ℕ) (e : ActivityEntry) :
    Prop :=
  ∃ height : ℕ, addressIndexFloor opts tipHeight ≤ height ∧ height ≤ tipHeight ∧
    ∃ block undo, canonicalBlockWithUndo chain height = some (block, undo) ∧
      e ∈ activityEntries block undo

section Exact

variable {opts : NodeOptions} {H : Set BlockHeader} {w : World} {tip : ChainTip}

theorem ActivityExact.keeps (h : ActivityExact opts w.chain) (hs : Sound opts H w)
    (htip : w.chain.tip = some tip) :
    KeepsEntries w.chain.addrIndex (IndexedActivity opts w.chain tip.height) := by
  obtain ⟨head, hspine, -⟩ := hs.spine
  have hpaged := paged_canonicalPage hs.stored hspine h.identified
  have hex : ∀ e, IndexedActivity opts w.chain tip.height e → hexOf 64 e.txId := by
    rintro e ⟨height, -, -, block, undo, hp, he⟩
    exact (h.identified _ _ (canonicalBlockWithUndo_eq_some.1 hp).2.1).hex_entry he
  refine ⟨fun key record hget => ?_, fun e he => ?_, hex, fun e e' he he' ha hheight htxId => ?_⟩
  · obtain ⟨height, hwindow, hrow⟩ := (h.pages tip htip key record).1 hget
    obtain ⟨hfloor, htop⟩ := window_iff.1 hwindow
    obtain ⟨block, undo, hp, e, he, heq⟩ := mem_canonicalPage.1 (mem_of_onPage hrow)
    cases heq
    exact ⟨e, ⟨height, hfloor, htop, block, undo, hp, he⟩, rfl, rfl⟩
  · obtain ⟨height, hfloor, htop, block, undo, hp, he⟩ := he
    have hrow := mem_canonicalPage.2 ⟨block, undo, hp, e, he, rfl⟩
    cases hpage : onPage (canonicalPage w.chain height) e.dbKey with
    | none => exact absurd (mem_map.2 ⟨_, hrow, rfl⟩) (onPage_eq_none.1 hpage)
    | some record =>
      exact ⟨record, (h.pages tip htip _ _).2 ⟨height, window_iff.2 ⟨hfloor, htop⟩, hpage⟩⟩
  · -- The key tells the page, and a page has one entry for an address and a transaction.
    have hkey : e.dbKey = e'.dbKey := by
      rw [ActivityEntry.dbKey, ActivityEntry.dbKey, ActivityEntry.key, ActivityEntry.key, ha, hheight,
        htxId]
    obtain ⟨height, -, -, block, undo, hp, he⟩ := he
    obtain ⟨height', -, -, block', undo', hp', he'⟩ := he'
    cases hpaged height height' _ (mem_canonicalPage.2 ⟨_, _, hp, e, he, rfl⟩) _
      (mem_canonicalPage.2 ⟨_, _, hp', e', he', rfl⟩) hkey
    cases hp.symm.trans hp'
    exact (h.identified _ _ (canonicalBlockWithUndo_eq_some.1 hp).2.1).entry_eq he he' ha htxId

variable (hinj : Set.InjOn computeBlockHash H) (henabled : opts.addressIndexEnabled = true)
  (hgenesis : opts.genesis.header ∈ H) {w₀ : World} (hstart : start opts = .ok w₀)
  (hrun : Trace opts H KeepsBodies w₀ w) (htip : w.chain.tip = some tip)

include hinj henabled hgenesis hstart hrun htip

theorem keeps_of_run : KeepsEntries w.chain.addrIndex (IndexedActivity opts w.chain tip.height) := by
  have hs := (start_good hgenesis hstart).sound
  have hexact : ActivityExact opts w.chain := hrun.activityIndexed paging_holds hinj hs henabled
    (start_activityExact henabled hgenesis hstart)
  exact hexact.keeps (Trace.sound hinj hs hrun) htip

/-- In every state that a node with the address index reaches from an empty
    database by writing no block over another one, the index has exactly the entries of
    the canonical blocks from the floor of its window up to the tip, if and only if no
    address of theirs has an unpaired surrogate. -/
theorem address_index_exact :
    w.chain.addrIndex.Exact (IndexedActivity opts w.chain tip.height) ↔
      ∀ e, IndexedActivity opts w.chain tip.height e → WellFormed e.address :=
  (keeps_of_run hinj henabled hgenesis hstart hrun htip).exact_iff

/-- In those states, listing a hex address gives its history exactly when no indexed
    address begins with it and a colon, and the keys of its entries are in the order of
    their heights. They are while heights fit their padding. -/
theorem address_history_iff {address : Text} (haddress : hexOf 64 address) :
    (ListsHistory w.chain.addrIndex (IndexedActivity opts w.chain tip.height) address ↔
      (∀ e, IndexedActivity opts w.chain tip.height e → ¬Intrudes address e.address) ∧
      ∀ e e', IndexedActivity opts w.chain tip.height e → IndexedActivity opts w.chain tip.height e' →
        e.address = address → e'.address = address → e.height < e'.height → ¬e'.dbKey ≤ e.dbKey) ∧
    (tip.height < 10 ^ HEIGHT_WIDTH →
      (ListsHistory w.chain.addrIndex (IndexedActivity opts w.chain tip.height) address ↔
        ∀ e, IndexedActivity opts w.chain tip.height e → ¬Intrudes address e.address)) := by
  have hk := keeps_of_run hinj henabled hgenesis hstart hrun htip
  refine ⟨listsHistory_iff hk haddress, fun hfits => listsHistory_iff_of_fits hk haddress ?_⟩
  rintro e ⟨height, -, hle, block, undo, hp, he⟩
  have hs := Trace.sound hinj (start_good hgenesis hstart).sound hrun
  obtain ⟨head, hspine, -⟩ := hs.spine
  rw [(mem_activityEntries he).1, height_of_canonicalBlockWithUndo hs.stored hspine hp]
  exact hle.trans_lt hfits

end Exact

/-! ## A node with the index -/

/-- The sample node, with the address index and a window of one block. -/
def indexedOptions : NodeOptions :=
  { sampleOptions with addressIndexEnabled := true, addressIndexDepth := 1 }

theorem start_indexed : start indexedOptions = .ok (started indexedOptions) :=
  start_eq_started (by decide +kernel)

/-- A block on top of genesis whose coinbase has the given outputs. -/
def payTo (outputs : List TxOutput) : Block :=
  sampleBlock sampleGenesis (UnsignedTransactionBody.identified
    { inputs := [], outputs, timestamp := .ofNat 2, fee := 0, data := none })

/-- A block that pays to an address of the usual form. -/
def plainBlock : Block := payTo [⟨ZERO_HASH, 1⟩]

def plainHeaders : Set BlockHeader := {sampleGenesis.header, plainBlock.header}

/-- The node after its miner found that block. -/
def minedPlain : World := ((adoptBlock indexedOptions sampleEnv plainBlock).exec (started indexedOptions)).2

/-- The block is new, it is adopted, and the entries of its page are of one address. -/
theorem reads_minedPlain :
    computeBlockHash sampleGenesis.header ≠ computeBlockHash plainBlock.header ∧
    ((started indexedOptions).chain.getBlock plainBlock.hash = none ∧
      (started indexedOptions).chain.getBlock plainBlock.header.previousHash = some sampleGenesis ∧
      (started indexedOptions).chain.tip.map (·.hash) = some plainBlock.header.previousHash ∧
      ((adoptBlock indexedOptions sampleEnv plainBlock).exec (started indexedOptions)).1.isOk = true) ∧
    minedPlain.chain.tip = some ⟨plainBlock.hash, 1⟩ ∧
    canonicalBlockWithUndo minedPlain.chain (1 : ℕ) =
      some (plainBlock, (minedPlain.chain.getUndo plainBlock.hash).getD []) ∧
    ∀ e ∈ activityEntries plainBlock ((minedPlain.chain.getUndo plainBlock.hash).getD []),
      e.address = ZERO_HASH ∧ e.height = 1 := by
  decide +kernel

theorem injOn_plainHeaders : Set.InjOn computeBlockHash plainHeaders :=
  Set.injOn_pair.2 fun h => absurd h reads_minedPlain.1

theorem trace_minedPlain : Trace indexedOptions plainHeaders KeepsBodies (started indexedOptions)
    minedPlain := by
  have hgood : Session.Good indexedOptions plainHeaders ⟨started indexedOptions, []⟩ :=
    start_good (.inl rfl) start_indexed
  obtain ⟨hnew, hparent, htip, hok⟩ := reads_minedPlain.2.1
  rcases adoptBlock_outcome sampleEnv injOn_plainHeaders hgood.sound plainBlock with
    ⟨e, index, hexec, -⟩ | ha
  · rw [hexec] at hok
    cases hok
  · have hC : KeepsBodies (started indexedOptions) (.mine plainBlock) :=
      ⟨fun b hb => (nomatch hnew.symm.trans hb), nodup_singleton _⟩
    exact .single ⟨_, hC, .mine (.of_parent rfl (.inr rfl) hparent rfl (by decide)) htip ha⟩

theorem tip_minedPlain : minedPlain.chain.tip = some ⟨plainBlock.hash, 1⟩ :=
  reads_minedPlain.2.2.1

theorem entries_minedPlain {e : ActivityEntry}
    (he : IndexedActivity indexedOptions minedPlain.chain 1 e) : e.address = ZERO_HASH ∧ e.height = 1 := by
  have hpage := reads_minedPlain.2.2.2
  obtain ⟨height, hfloor, htop, block, undo, hp, he⟩ := he
  obtain rfl : height = 1 := Nat.le_antisymm htop hfloor
  cases hpage.1.symm.trans hp
  exact hpage.2 e he

/-- The index has what the block paid, and genesis has left its window. -/
theorem address_index_exact_plain :
    minedPlain.chain.tip = some ⟨plainBlock.hash, 1⟩ ∧
    minedPlain.chain.addrIndex.Exact (IndexedActivity indexedOptions minedPlain.chain 1) := by
  refine ⟨tip_minedPlain, (address_index_exact injOn_plainHeaders rfl (.inl rfl) start_indexed
    trace_minedPlain tip_minedPlain).2 fun e he => ?_⟩
  rw [(entries_minedPlain he).1]
  decide

/-- The history of the address is the one entry. -/
theorem address_history_plain : ListsHistory minedPlain.chain.addrIndex
    (IndexedActivity indexedOptions minedPlain.chain 1) ZERO_HASH := by
  refine ((address_history_iff injOn_plainHeaders rfl (.inl rfl) start_indexed trace_minedPlain
    tip_minedPlain (by decide)).2 (by decide)).2 fun e he => ?_
  rintro ⟨r, heq, -⟩
  rw [(entries_minedPlain he).1] at heq
  exact absurd (congrArg List.length heq) (by simp)

/-- A block that pays to one address. -/
def oneOutput : Block := payTo [⟨lit "a:1,b", 2⟩]

/-- The block with another body, which pays to two. The text of the outputs is the
    same, and so is the id of the coinbase. -/
def twoOutputs : Block :=
  { oneOutput with transactions := oneOutput.transactions.map fun tx =>
      { tx with outputs := [⟨lit "a", 1⟩, ⟨lit "b", 2⟩] } }

/-- The node adopts the first of them and is started again. -/
def reopened : Session :=
  step indexedOptions (step indexedOptions ⟨started indexedOptions, []⟩ sampleEnv
    (.message (.NEW_BLOCK oneOutput) (lit "p"))) sampleEnv .restart

/-- Then it is sent the other one. -/
def overwritten : Session :=
  step indexedOptions reopened sampleEnv (.message (.NEW_BLOCK twoOutputs) (lit "p"))

theorem reachable_overwritten :
    Reachable indexedOptions {sampleGenesis.header, oneOutput.header} overwritten := by
  have hstart : Reachable indexedOptions {sampleGenesis.header, oneOutput.header}
      ⟨started indexedOptions, []⟩ := .initial (.inl rfl) start_indexed
  have hreopened : Reachable indexedOptions {sampleGenesis.header, oneOutput.header} reopened :=
    .next sampleEnv (.next sampleEnv hstart trivial fun header h => .inr (mem_singleton.1 h))
      trivial (by simp [Event.headers])
  exact .next sampleEnv hreopened trivial fun header h => .inr (mem_singleton.1 h)

/-- The canonical block is then the second one, and the index has none of its
    entries. -/
theorem address_index_stale :
    Reachable indexedOptions {sampleGenesis.header, oneOutput.header} overwritten ∧
    overwritten.chain.tip = some ⟨twoOutputs.hash, 1⟩ ∧
    ∃ undo, canonicalBlockWithUndo overwritten.chain (1 : ℕ) = some (twoOutputs, undo) ∧
      activityEntries twoOutputs undo ≠ [] ∧
      ∀ e ∈ activityEntries twoOutputs undo, overwritten.chain.addrIndex.get e.dbKey = none := by
  have hreads : overwritten.chain.tip = some ⟨twoOutputs.hash, 1⟩ ∧
      canonicalBlockWithUndo overwritten.chain (1 : ℕ) =
        some (twoOutputs, (overwritten.chain.getUndo twoOutputs.hash).getD []) ∧
      activityEntries twoOutputs ((overwritten.chain.getUndo twoOutputs.hash).getD []) ≠ [] ∧
      ∀ e ∈ activityEntries twoOutputs ((overwritten.chain.getUndo twoOutputs.hash).getD []),
        overwritten.chain.addrIndex.get e.dbKey = none := by decide +kernel
  exact ⟨reachable_overwritten, hreads.1, _, hreads.2⟩

/-- A block that pays to an address that begins with another one. -/
def intruder : Block := payTo [⟨ZERO_HASH ++ lit ":0000000005:ff", 1⟩]

/-- The node that adopted it. -/
def intruded : Session :=
  step indexedOptions ⟨started indexedOptions, []⟩ sampleEnv (.message (.NEW_BLOCK intruder) (lit "p"))

/-- The history of the other address has an entry of a transaction that does not
    exist, while the address has no part in the indexed block. -/
theorem address_history_forged :
    Reachable indexedOptions {sampleGenesis.header, intruder.header} intruded ∧
    intruded.chain.tip = some ⟨intruder.hash, 1⟩ ∧
    (∃ undo, canonicalBlockWithUndo intruded.chain (1 : ℕ) = some (intruder, undo) ∧
      ∀ e ∈ activityEntries intruder undo, e.address ≠ ZERO_HASH) ∧
    listAddressActivity intruded.chain.addrIndex ZERO_HASH 50 =
      [{ blockHash := intruder.hash, timestamp := .ofNat 2, received := 1, sent := 0,
         txId := lit "ff", height := some 5 }] := by
  have hreachable : Reachable indexedOptions {sampleGenesis.header, intruder.header} intruded :=
    .next sampleEnv (.initial (.inl rfl) start_indexed) trivial fun header h =>
      .inr (mem_singleton.1 h)
  have hreads : intruded.chain.tip = some ⟨intruder.hash, 1⟩ ∧
      canonicalBlockWithUndo intruded.chain (1 : ℕ) =
        some (intruder, (intruded.chain.getUndo intruder.hash).getD []) ∧
      (∀ e ∈ activityEntries intruder ((intruded.chain.getUndo intruder.hash).getD []),
        e.address ≠ ZERO_HASH) ∧
      ∃ tx ∈ intruder.transactions.head?, intruded.chain.addrIndex.keys =
        {scalars (addressActivityKey (ZERO_HASH ++ lit ":0000000005:ff") 1 tx.id)} ∧
        (([scalars (addressActivityKey (ZERO_HASH ++ lit ":0000000005:ff") 1 tx.id)].filter fun key =>
          scalars (ZERO_HASH ++ [unit ':']) ≤ key ∧
            ¬scalars (ZERO_HASH ++ [unit ':'] ++ [0xFF]) ≤ key).take 50).filterMap
          (fun key => (intruded.chain.addrIndex.get key).map (readActivity (utf16 key))) =
        [{ blockHash := intruder.hash, timestamp := .ofNat 2, received := 1, sent := 0,
           txId := lit "ff", height := some 5 }] := by decide +kernel
  obtain ⟨htip, hcanonical, haddresses, tx, -, hkeys, hlist⟩ := hreads
  refine ⟨hreachable, htip, ⟨_, hcanonical, haddresses⟩, ?_⟩
  rw [listAddressActivity, activityKeys, sortedKeys, hkeys, Finset.sort_singleton,
    reverse_singleton]
  exact hlist

end Plainchain
