import Plainchain.Node.Sound

/-!
# What handlers do

Whatever a node is sent, what it does is a sequence of changes (`Leads`), so that
every state it reaches from an empty database is sound (`Reachable.sound`). A
handler that throws has made some of its changes.

The changes may be asked to meet a condition `C`, which only blocks of the miner
have to be checked for (`Lenient`), and to keep an invariant `I` of the memory of
the node (`Kept`). What marks a block as processed, `decideFork`, is asked to keep
it as a whole (`Decides`). An invariant that does not hold between the two writes
for a block is kept by the storing of a block and the decision on it together
(`Abides`, `Settles`).
-/

namespace Plainchain

open Js Kv Ancestry Prog List

/-- A condition on changes that all of them meet but those of the miner. -/
def Lenient (C : World → Label → Prop) : Prop :=
  ∀ w label, (∀ head, label ≠ .mine head) → C w label

/-- The blocks that wait for their parent have headers of `H`. -/
def Pooled (H : Set BlockHeader) (w : World) : Prop :=
  ∀ parent waiting, w.orphansByMissingParent.get parent = some waiting →
    ∀ o ∈ waiting, o.block.header ∈ H

/-- What is noted in memory: no block becomes one that was decided on, that is,
    processed and not found invalid. -/
structure Notes (w w' : World) : Prop where
  chain : w'.chain = w.chain
  headers : w'.headers = w.headers
  utxoSet : w'.utxoSet = w.utxoSet
  mempool : w'.mempool = w.mempool
  verified : w'.verifiedCheckpointHeight = w.verifiedCheckpointHeight
  decided : ∀ hash ∈ w'.processedBlockHashes, hash ∉ w'.invalidBlockHashes →
    hash ∈ w.processedBlockHashes ∧ hash ∉ w.invalidBlockHashes

/-- Notes about orphans and peers. -/
theorem Notes.of_eq {w w' : World}
    (h : w' = { w with
      orphansByMissingParent := w'.orphansByMissingParent
      orphanHashes := w'.orphanHashes
      actions := w'.actions }) : Notes w w' := by
  rw [h]
  exact ⟨rfl, rfl, rfl, rfl, rfl, fun _ h h' => ⟨h, h'⟩⟩

theorem Notes.refl (w : World) : Notes w w := .of_eq rfl

theorem Notes.trans {w w' w'' : World} (h : Notes w w') (h' : Notes w' w'') : Notes w w'' where
  chain := h'.chain.trans h.chain
  headers := h'.headers.trans h.headers
  utxoSet := h'.utxoSet.trans h.utxoSet
  mempool := h'.mempool.trans h.mempool
  verified := h'.verified.trans h.verified
  decided := by
    intro hash hp hi
    obtain ⟨hp', hi'⟩ := h'.decided hash hp hi
    exact h.decided hash hp' hi'

theorem Notes.markInvalid (block : Block) (fromNodeId reason : Text) (blame : Bool) (w : World) :
    Notes w (markInvalid block fromNodeId reason blame w) := by
  refine ⟨rfl, rfl, rfl, rfl, rfl, fun hash hp hi => ?_⟩
  simp only [Plainchain.markInvalid, Finset.mem_insert, not_or] at hp hi
  exact ⟨hp.resolve_left hi.1, hi.2⟩

section Leads

variable (opts : NodeOptions) (H : Set BlockHeader) (C : World → Label → Prop) (I : World → Prop)

/-- An invariant that notes and all other changes keep, where they meet a
    condition. -/
structure Kept : Prop where
  lenient : Lenient C
  notes : ∀ {w w' : World}, Notes w w' → I w → I w'
  change : ∀ {w w' : World} {label : Label}, Sound opts H w → C w label →
    Change opts H w label w' → label ≠ .note → I w → I w'

/-- An invariant that notes and all other changes keep but the storing of blocks. -/
structure Abides : Prop where
  lenient : Lenient C
  notes : ∀ {w w' : World}, Notes w w' → I w → I w'
  change : ∀ {w w' : World} {label : Label}, Sound opts H w → C w label →
    Change opts H w label w' → (label ≠ .note ∧ ∀ block, label ≠ .store block) → I w → I w'

/-- The state that a handler leaves. -/
structure Leads (w w' : World) : Prop where
  trace : Trace opts H C w w'
  pooled : Pooled H w → Pooled H w'
  kept : I w → I w'

/-- The program makes changes only, and returns with `Q`. -/
abbrev Goes {α : Type} (m : NodeM α) (w : World) (Q : α → World → Prop) : Prop :=
  Along (Leads opts H C I) m w Q

/-- Fork choice may be decided for a block that is stored after an indexed one. -/
def Decides (env : Env) : Prop :=
  ∀ {w : World} {block : Block} {entry : IndexedHeader}, Sound opts H w →
    Extends H w.chain block → w.chain.getBlock block.hash = some block →
    ¬conflictsWithVerifiedCheckpoint w.chain w.verifiedCheckpointHeight block.header.height
      block.hash →
    w.headers.get block.header.previousHash = some entry →
    block.header.height = entry.header.height + 1 →
    ∀ fromNodeId, Goes opts H C I (decideFork opts env block fromNodeId entry.work) w fun _ _ => True

/-- A valid block may be stored after an indexed one, and fork choice decided for
    it. -/
def Settles (env : Env) : Prop :=
  ∀ {w₀ w : World} {block parent : Block} {ctx : BlockValidationContext} {entry : IndexedHeader},
    Sound opts H w → block.header ∈ H →
    w.chain.getBlock block.header.previousHash = some parent →
    blockContext opts env w₀ block parent = .ok ctx →
    validateBlock opts.signatures block ctx = .ok () →
    ¬conflictsWithVerifiedCheckpoint w.chain w.verifiedCheckpointHeight block.header.height
      block.hash →
    w.headers.get block.header.previousHash = some entry →
    block.header.height = entry.header.height + 1 →
    ∀ fromNodeId, Goes opts H C I (do
      putBlock env block
      decideFork opts env block fromNodeId entry.work) w fun _ _ => True

variable {opts H C I} {env : Env} {w w' w'' : World} {α β : Type}

theorem Kept.abides (hK : Kept opts H C I) : Abides opts H C I where
  lenient := hK.lenient
  notes := hK.notes
  change := fun hs hC hc hne => hK.change hs hC hc hne.1

theorem Leads.refl (w : World) : Leads opts H C I w w := ⟨.refl, id, id⟩

theorem Leads.trans (h : Leads opts H C I w w') (h' : Leads opts H C I w' w'') :
    Leads opts H C I w w'' :=
  ⟨h.trace.trans h'.trace, fun hp => h'.pooled (h.pooled hp), fun hI => h'.kept (h.kept hI)⟩

instance : Std.Refl (Leads opts H C I) := ⟨.refl⟩

instance : IsTrans World (Leads opts H C I) := ⟨fun _ _ _ => .trans⟩

/-! ## Rejection and orphans -/

section Reject

variable {R : World → World → Prop} (hrefl : ∀ w, R w w) (htrans : ∀ {a b c}, R a b → R b c → R a c)
  (hmark : ∀ w block fromNodeId reason blame, R w (markInvalid block fromNodeId reason blame w))
  (hdelete : ∀ (w : World) hash,
    R w { w with orphansByMissingParent := w.orphansByMissingParent.delete hash })
  (herase : ∀ (w : World) hash, R w { w with orphanHashes := w.orphanHashes.erase hash })

include hrefl htrans hdelete herase

/-- What a rejection does after it has marked the block. -/
theorem rejectBlockFrom_succ_rel {fuel : ℕ} {blame : Bool}
    (hreject : ∀ block fromNodeId reason w, R w (rejectBlockFrom fuel block fromNodeId reason blame w))
    (block : Block) (fromNodeId reason : Text) (w : World) :
    R (markInvalid block fromNodeId reason blame w)
      (rejectBlockFrom (fuel + 1) block fromNodeId reason blame w) := by
  have hfold : ∀ (dependents : List Orphan) (w : World),
      R w (dependents.foldl (rejectDependent fuel blame) w) := by
    intro dependents
    induction dependents with
    | nil => exact hrefl
    | cons o dependents ih =>
      exact fun w => htrans (htrans (herase w o.block.hash) (hreject _ _ _ _)) (ih _)
  rw [rejectBlockFrom]
  exact htrans (hdelete _ block.hash) (hfold _ _)

include hmark

/-- A rejection is made of few kinds of steps. -/
theorem rejectBlockFrom_rel (fuel : ℕ) (block : Block) (fromNodeId reason : Text) (blame : Bool)
    (w : World) : R w (rejectBlockFrom fuel block fromNodeId reason blame w) := by
  induction fuel generalizing block fromNodeId reason w with
  | zero => exact hrefl w
  | succ fuel ih =>
    exact htrans (hmark w block fromNodeId reason blame)
      (rejectBlockFrom_succ_rel hrefl htrans hdelete herase ih block fromNodeId reason w)

end Reject

theorem rejectBlockFrom_notes (fuel : ℕ) (block : Block) (fromNodeId reason : Text) (blame : Bool)
    (w : World) : Notes w (rejectBlockFrom fuel block fromNodeId reason blame w) :=
  rejectBlockFrom_rel Notes.refl Notes.trans (fun _ _ _ _ _ => .markInvalid ..)
    (fun _ _ => .of_eq rfl) (fun _ _ => .of_eq rfl) fuel block fromNodeId reason blame w

section Abides

variable (hK : Abides opts H C I)

include hK

theorem Leads.change (hs : Sound opts H w) {label : Label} (hC : C w label)
    (hc : Change opts H w label w') (hne : label ≠ .note ∧ ∀ block, label ≠ .store block)
    (hp : Pooled H w → Pooled H w') : Leads opts H C I w w' :=
  ⟨.single ⟨label, hC, hc⟩, hp, hK.change hs hC hc hne⟩

theorem Leads.note (hn : Notes w w') (hp : Pooled H w → Pooled H w') :
    Leads opts H C I w w' :=
  ⟨.single ⟨.note, hK.lenient _ _ (by simp),
    .note hn.chain hn.headers hn.utxoSet hn.mempool hn.verified⟩, hp, hK.notes hn⟩

theorem Leads.index (hs : Sound opts H w) {headers : HeaderIndex}
    (h : IndexedWell opts H headers) (hgrows : Grows w.headers headers) :
    Leads opts H C I w (w.withHeaders headers) :=
  .change hK hs (hK.lenient _ _ (by simp)) (.index h hgrows) (by simp) id

/-- What is sent to peers. -/
theorem Goes.act (action : Action) :
    Goes opts H C I (Plainchain.act action) w fun _ _ => True :=
  ⟨.note hK (.of_eq rfl) id, trivial⟩

/-- What is done to the header index. -/
theorem Goes.onHeaders {m : Prog HeaderIndex NodeError α} {Q : α → HeaderIndex → Prop}
    (hs : Sound opts H w) (h : Along (Enriches opts H) m w.headers Q) :
    Goes opts H C I (Plainchain.onHeaders m) w fun a w' =>
      ∃ index, w' = w.withHeaders index ∧ IndexedWell opts H index ∧ Q a index := by
  refine Along.mono (m := Plainchain.onHeaders m) (Along.zoom h fun index henriches => ?_) ?_
  · obtain ⟨hindex, hgrows⟩ := henriches hs.indexed
    exact .index hK hs hindex hgrows
  · rintro a _ - ⟨index, rfl, henriches, hQ⟩
    exact ⟨index, rfl, (henriches hs.indexed).1, hQ⟩

theorem requestHeadersFrom_goes (peerId : Text) (fromHash : Option Text) :
    Goes opts H C I (requestHeadersFrom opts peerId fromHash) w fun _ _ => True :=
  .read (Goes.act hK _)

theorem requestBlocksFrom_goes (peerId : Text) :
    Goes opts H C I (requestBlocksFrom opts peerId) w fun _ _ => True :=
  .read (Goes.act hK _)

/-- A pool with blocks taken out of it. -/
theorem Leads.delete (w : World) (hash : Text) {hashes : Finset Text} :
    Leads opts H C I w { w with
      orphansByMissingParent := w.orphansByMissingParent.delete hash, orphanHashes := hashes } := by
  refine .note hK (.of_eq rfl) fun hp parent waiting hget => ?_
  rw [OrdMap.get_delete] at hget
  split_ifs at hget
  exact hp parent waiting hget

theorem rejectBlock_leads (fuel : ℕ) (block : Block) (fromNodeId reason : Text)
    (blame : Bool) (w : World) :
    Leads opts H C I w (rejectBlockFrom fuel block fromNodeId reason blame w) := by
  refine rejectBlockFrom_rel Leads.refl Leads.trans ?_ ?_ ?_ fuel block fromNodeId reason blame w
  · exact fun w _ _ _ _ => .note hK (.markInvalid ..) id
  · exact fun w hash => .delete hK w hash
  · exact fun w _ => .note hK (.of_eq rfl) id

theorem rejectBlock_goes (block : Block) (fromNodeId reason : Text) (blame : Bool) :
    Goes opts H C I (rejectBlock block fromNodeId reason blame) w fun _ _ => True :=
  ⟨rejectBlock_leads hK _ _ _ _ _ _, trivial⟩

theorem dropOldest_leads (w : World) : Leads opts H C I w (dropOldest w) := by
  unfold dropOldest
  split
  · exact .refl w
  · exact .delete hK w _

theorem queueOrphan_goes {block : Block} (hmem : block.header ∈ H)
    (fromNodeId : Text) : Goes opts H C I (queueOrphan block fromNodeId) w fun _ _ => True := by
  refine ⟨?_, trivial⟩
  by_cases hknown : block.hash ∈ w.orphanHashes
  · simp only [hknown, if_true]
    exact .refl w
  simp only [hknown, if_false]
  let w' : World := { w with
    orphansByMissingParent := w.orphansByMissingParent.set block.header.previousHash
      ((w.orphansByMissingParent.get block.header.previousHash).getD [] ++ [⟨block, fromNodeId⟩])
    orphanHashes := insert block.hash w.orphanHashes }
  refine Leads.trans (show Leads opts H C I w w' from ?_) ?_
  · refine .note hK (.of_eq rfl) fun hp parent waiting hget o ho => ?_
    rw [OrdMap.get_set] at hget
    split_ifs at hget with heq
    · cases hget
      rcases mem_append.1 ho with ho | ho
      · cases hw : w.orphansByMissingParent.get block.header.previousHash with
        | none => simp [hw] at ho
        | some waiting =>
          rw [hw] at ho
          exact hp _ _ hw o ho
      · cases mem_singleton.1 ho
        exact hmem
    · exact hp _ _ hget o ho
  · split
    · exact dropOldest_leads hK _
    · exact .refl _

end Abides

/-! ## Adoption -/

section Adopt

variable {head : Block}

/-- An adoption leaves what the node remembers of blocks and peers. -/
theorem Adopts.frame (hidle : w.utxoSet.staging = none) (ha : Adopts opts w head w') :
    w' = { w with
      chain := w'.chain, headers := w'.headers, utxoSet := w'.utxoSet, mempool := w'.mempool
      cachedTipHeight := w'.cachedTipHeight
      verifiedCheckpointHeight := w'.verifiedCheckpointHeight } := by
  obtain ⟨env, staged, w₁, hcommit, rfl⟩ := ha
  rw [exec_commitAdoption head hidle] at hcommit
  rw [exec_finishAdoption]
  split at hcommit
  · cases hcommit
  · split at hcommit
    · cases hcommit
    · split_ifs at hcommit
      · cases hcommit
      · cases hcommit
        rfl

theorem Adopts.pooled (hidle : w.utxoSet.staging = none) (ha : Adopts opts w head w') :
    Pooled H w → Pooled H w' := by
  rw [ha.frame hidle]
  exact id

/-- Either the header index grows and nothing else happens, or the head is
    adopted. -/
theorem adoptBlock_outcome (env : Env) (hinj : Set.InjOn computeBlockHash H)
    (hs : Sound opts H w) (head : Block) :
    (∃ e index, (adoptBlock opts env head).exec w = (.error e, w.withHeaders index) ∧
      IndexedWell opts H index ∧ Grows w.headers index) ∨
    Adopts opts w head ((adoptBlock opts env head).exec w).2 := by
  rcases hcommit : (commitAdoption opts env head).exec w with ⟨e | staged, w₁⟩
  · refine .inl ?_
    have hexec : (adoptBlock opts env head).exec w = (.error e, w₁) := by
      rw [adoptBlock, exec_bind, hcommit]
    rw [hexec]
    rw [exec_commitAdoption head hs.idle] at hcommit
    have hindex := Along.exec (m := headerOps opts env w.chain head)
      (headerOps_index hinj hs.stored hs.indexed head) hs.indexed
    rcases hops : (headerOps opts env w.chain head).exec w.headers with ⟨r, index⟩
    rw [hops] at hcommit hindex
    refine ⟨e, index, ?_, hindex⟩
    cases r with
    | error e' =>
      cases hcommit
      rfl
    | ok ops =>
      dsimp only at hcommit
      split at hcommit
      · cases hcommit
        rfl
      · split_ifs at hcommit
        · cases hcommit
          rfl
        · cases hcommit
  · refine .inr ⟨env, staged, w₁, hcommit, ?_⟩
    rw [adoptBlock, exec_bind, hcommit]

theorem adoptBlock_goes (hinj : Set.InjOn computeBlockHash H) (hK : Abides opts H C I)
    (hs : Sound opts H w)
    (hchange : ∀ w', Adopts opts w head w' →
      ∃ label, C w label ∧ Change opts H w label w' ∧
        (label ≠ .note ∧ ∀ block, label ≠ .store block)) :
    Goes opts H C I (adoptBlock opts env head) w fun _ w' => Adopts opts w head w' := by
  rcases adoptBlock_outcome env hinj hs head with ⟨e, index, hexec, hindex, hgrows⟩ | ha
  · exact .of_exec hexec (.index hK hs hindex hgrows) nofun
  · obtain ⟨label, hlabel, hc, hne⟩ := hchange _ ha
    have hleads := Leads.change hK hs hlabel hc hne (ha.pooled hs.idle)
    exact .of_exec rfl hleads fun _ _ => ha

end Adopt

/-! ## Incoming blocks -/

variable {header : BlockHeader} {event : Event} {hash : Text}

section Evaluate

variable {block parent : Block}

theorem exec_getIndexedHeader {chain : ChainState} {headers : HeaderIndex} {entry : IndexedHeader}
    (he : headers.get hash = some entry) :
    (getIndexedHeader opts env chain hash).exec headers = (.ok (some entry), headers) := by
  simp only [getIndexedHeader, exec_bind, exec_reads, id_eq, he, exec_pure]

/-- The tip is indexed, so that its work is read and nothing is written. -/
theorem exec_currentWork (env : Env) (hs : Sound opts H w) :
    ∃ tip entry, w.chain.tip = some tip ∧ w.headers.get tip.hash = some entry ∧
      (currentWork opts env).exec w = (.ok entry.work, w) := by
  obtain ⟨head, hspine, hentry⟩ := hs.spine
  obtain ⟨entry, hentry⟩ := Option.isSome_iff_exists.1 hentry
  refine ⟨_, entry, hspine.tip, hentry, ?_⟩
  simp only [currentWork, exec_bind, exec_reads, hspine.tip, onHeaders, exec_zoom,
    exec_getIndexedHeader hentry, exec_pure, Option.map_some, Option.getD_some]

/-- The entry of a block after an indexed one is there, or is written, or the
    write fails. -/
theorem indexBlock_outcome (env : Env) (hinj : Set.InjOn computeBlockHash H)
    (h : IndexedWell opts H w.headers) (hhash : computeBlockHash block.header = block.hash)
    (hmem : block.header ∈ H) {entry : IndexedHeader}
    (hp : w.headers.get block.header.previousHash = some entry)
    (hheight : block.header.height = entry.header.height + 1) (hlater : Later H block.header)
    {added : ℕ} (hwork : blockWork opts block.header = .ok added) :
    (∃ index, (indexBlock env block (entry.work + added)).exec w = (.ok (), w.withHeaders index) ∧
      IndexedWell opts H index ∧ Grows w.headers index ∧
      index.get block.hash = some ⟨block.header, entry.work + added⟩) ∨
    (env.fails (.header block.hash) ∧
      (indexBlock env block (entry.work + added)).exec w = (.error .storage, w)) := by
  obtain ⟨hset, hgrows⟩ := h.set hinj hmem hp hheight hlater hwork
  rw [hhash] at hset hgrows
  have hget := Store.get_set_self w.headers block.hash (some ⟨block.header, entry.work + added⟩)
  simp only [indexBlock, exec_bind, exec_reads]
  cases he : w.headers.get block.hash with
  | some known =>
    have : known = ⟨block.header, entry.work + added⟩ := by
      have := hgrows _ _ he
      rw [hget] at this
      cases this
      rfl
    exact .inl ⟨w.headers, rfl, h, Grows.refl _, by rw [he, this]⟩
  | none =>
    dsimp only
    simp only [onHeaders, exec_zoom, putHeader, exec_of]
    by_cases hfails : env.fails (.header block.hash)
    · rw [if_pos hfails]
      exact .inr ⟨hfails, rfl⟩
    · rw [if_neg hfails]
      exact .inl ⟨_, rfl, hset, hgrows, hget⟩

variable (hinj : Set.InjOn computeBlockHash H) (hK : Abides opts H C I)

include hinj hK

theorem getIndexedHeader_goes (hs : Sound opts H w) (hash : Text) :
    Goes opts H C I (onHeaders (getIndexedHeader opts env w.chain hash)) w fun found w' =>
      ∃ index, w' = w.withHeaders index ∧ IndexedWell opts H index ∧
        ∀ entry, found = some entry → index.get hash = some entry :=
  Goes.onHeaders hK hs (getIndexedHeader_sound hinj hs.stored hs.indexed hash)

theorem adoptOrReject_goes (hs : Sound opts H w) (hext : Extends H w.chain block)
    (hheavier : Heavier w block) (fromNodeId : Text) :
    Goes opts H C I (adoptOrReject opts env block fromNodeId) w fun _ _ => True := by
  refine Along.bind (Q := fun _ _ => True) ?_ fun adopted w' _ _ => ?_
  · rw [Along, wp_tryCatch, wp_bind]
    refine Wp.mono (adoptBlock_goes hinj hK hs fun w' ha => ⟨.adopt block, hK.lenient _ _ (by simp),
      .adopt hext hheavier ha, by simp⟩) (fun _ w' h => ⟨h.1, trivial⟩) fun e w' hleads => ?_
    cases e with
    | replay blockHash detail =>
      rw [wp_bind]
      exact Wp.mono (rejectBlock_goes hK _ _ _ _) (fun _ w'' h => ⟨hleads.trans h.1, trivial⟩)
        fun _ w'' h => hleads.trans h
    | _ =>
      rw [wp_bind, wp_writes, wp_throw]
      refine hleads.trans (.note hK ⟨rfl, rfl, rfl, rfl, rfl, fun hash hp hi => ?_⟩ id)
      exact ⟨Finset.mem_of_mem_erase hp, hi⟩
  · split_ifs
    · exact (Goes.act hK _).done
    · exact .pure trivial

omit hK in
/-- What fork choice and the storing of a block keep one by one they keep
    together. -/
theorem Kept.settles (hK : Kept opts H C I) (hD : Decides opts H C I env) :
    Settles opts H C I env := by
  intro w₀ w block parent ctx entry hs hmem hparent hctx hvalid hconflict hentry hheight fromNodeId
  have hext := extends_of_valid hparent hmem hctx hvalid
  have hput : Goes opts H C I (putBlock env block) w fun _ w' =>
      w' = { w with chain := w.chain.batch [putBlockOp block] } := by
    rw [Goes, Along, putBlock, wp_of]
    split_ifs
    · exact .refl w
    · have hc := Change.store hparent hmem hctx hvalid
      have hC := hK.lenient w (.store block) (by simp)
      exact ⟨⟨.single ⟨_, hC, hc⟩, id, hK.change hs hC hc (by simp)⟩, rfl⟩
  refine hput.bind ?_
  rintro - _ hput rfl
  refine hD (hput.trace.sound hinj hs) (Extends.put hinj hs.stored hext (puts_batch _ _)) ?_
    hconflict hentry hheight fromNodeId
  exact (puts_batch w.chain block block.hash).trans (if_pos rfl)

variable (hS : Settles opts H C I env)

include hS

/-- A valid block whose parent is stored is stored, and adopted if its chain is
    heavier. -/
theorem acceptBlock_goes {w₀ : World} {ctx : BlockValidationContext} (hs : Sound opts H w)
    (hmem : block.header ∈ H) (hparent : w.chain.getBlock block.header.previousHash = some parent)
    (hctx : blockContext opts env w₀ block parent = .ok ctx)
    (hvalid : validateBlock opts.signatures block ctx = .ok ())
    (hconflict : ¬conflictsWithVerifiedCheckpoint w.chain w.verifiedCheckpointHeight
      block.header.height block.hash) (fromNodeId : Text) :
    Goes opts H C I (acceptBlock opts env block fromNodeId parent) w fun _ _ => True := by
  have hext := extends_of_valid hparent hmem hctx hvalid
  have hkey := w.chain.keyed _ _ hparent
  refine .read ?_
  refine (getIndexedHeader_goes hinj hK hs parent.hash).bind ?_
  rintro found _ hlookup ⟨index, rfl, hindex, hfound⟩
  cases found with
  | none => exact (queueOrphan_goes hK hmem fromNodeId).done
  | some parentIndexed =>
    have hentry := hfound _ rfl
    rw [hkey] at hentry
    -- The entry of the parent is that of its header, as hashes do not collide.
    obtain ⟨hhashp, hmemp⟩ := hs.stored.hashed _ _ hparent
    have hheaderp : parentIndexed.header = parent.header :=
      hindex.header_eq hinj hmemp (by rw [hhashp, hentry])
    obtain ⟨parent', hparent', hheight⟩ := hext.parent
    rw [hparent] at hparent'
    cases hparent'
    rw [← hheaderp] at hheight
    exact hS (hlookup.trace.sound hinj hs) hmem hparent hctx hvalid hconflict hentry hheight
      fromNodeId

theorem evaluateBlock_goes (hs : Sound opts H w) (hmem : block.header ∈ H) (fromNodeId : Text) :
    Goes opts H C I (evaluateBlock opts env block fromNodeId) w fun _ _ => True := by
  refine .read ?_
  split
  · exact .pure trivial
  split
  · exact (rejectBlock_goes hK _ _ _ _).done
  split
  · refine (queueOrphan_goes hK hmem fromNodeId).bind fun _ _ _ _ => ?_
    exact (requestHeadersFrom_goes hK _ _).done
  next parent hparent =>
  split
  · exact (rejectBlock_goes hK _ _ _ _).done
  next hconflict =>
  refine .read (.lifted fun ctx hctx => ?_)
  split
  · next hvalid => exact acceptBlock_goes hinj hK hS hs hmem hparent hctx hvalid hconflict fromNodeId
  · exact (rejectBlock_goes hK _ _ _ _).done
  · exact .throw

omit hS in
/-- What waits for a block is handled one by one, each when the chain is sound
    again. -/
theorem resolveOrphansOf_goes {handle : Block → Text → NodeM Unit} (hs : Sound opts H w)
    (hp : Pooled H w) (hhandle : ∀ {w' : World} {block : Block} (fromNodeId : Text),
      Sound opts H w' → Pooled H w' → block.header ∈ H →
      Goes opts H C I (handle block fromNodeId) w' fun _ _ => True) (parentHash : Text) :
    Goes opts H C I (resolveOrphansOf handle parentHash) w fun _ _ => True := by
  refine .read ?_
  split
  · exact .pure trivial
  next waiting hwaiting =>
  refine Along.bind (Q := fun _ _ => True) ⟨.delete hK _ _, trivial⟩ fun _ w₂ hdeleted _ => ?_
  -- Each round starts where the one before has led.
  have hloop := wp_forM (E := fun _ w' => Leads opts H C I w₂ w')
    (P := fun w' => Leads opts H C I w₂ w')
    (f := fun o => do
      Prog.writes fun w => { w with orphanHashes := w.orphanHashes.erase o.block.hash }
      handle o.block o.fromNodeId) waiting ?_ (.refl w₂)
  · exact hloop.mono (fun _ _ h => ⟨h, trivial⟩) fun _ _ h => h
  intro o ho w₃ h₃
  rw [wp_bind, wp_writes]
  have hnote : Leads opts H C I w₃
      { w₃ with orphanHashes := w₃.orphanHashes.erase o.block.hash } :=
    .note hK (.of_eq rfl) id
  have h₄ := hdeleted.trans (h₃.trans hnote)
  exact Wp.mono (hhandle _ (h₄.trace.sound hinj hs) (h₄.pooled hp) (hp _ _ hwaiting o ho))
    (fun _ _ h => (h₃.trans hnote).trans h.1) fun _ _ h => (h₃.trans hnote).trans h

/-- A block and its orphans. -/
theorem handleBlockFrom_goes (fuel : ℕ) (hs : Sound opts H w) (hp : Pooled H w)
    (hmem : block.header ∈ H) (fromNodeId : Text) :
    Goes opts H C I (handleBlockFrom opts env fuel block fromNodeId) w fun _ _ => True := by
  induction fuel generalizing block fromNodeId w with
  | zero => exact .throw
  | succ fuel ih =>
    rw [handleBlockFrom]
    refine (evaluateBlock_goes hinj hK hS hs hmem fromNodeId).bind fun connect w₁ hleads _ => ?_
    split_ifs
    · exact resolveOrphansOf_goes hinj hK (hleads.trace.sound hinj hs) (hleads.pooled hp)
        (fun fromNodeId hs hp hmem => ih hs hp hmem fromNodeId) block.hash
    · exact .pure trivial

theorem handleIncomingBlock_goes (hs : Sound opts H w) (hp : Pooled H w) (hmem : block.header ∈ H)
    (fromNodeId : Text) :
    Goes opts H C I (handleIncomingBlock opts env block fromNodeId) w fun _ _ => True := by
  exact .read (handleBlockFrom_goes hinj hK hS _ hs hp hmem fromNodeId)

end Evaluate

section Lenient

variable (hinj : Set.InjOn computeBlockHash H) (hC : Lenient C)

include hC

theorem Lenient.kept : Kept opts H C fun _ => True where
  lenient := hC
  notes := fun _ _ => trivial
  change := fun _ _ _ _ _ => trivial

include hinj

/-- Where no invariant is asked for, fork choice may be decided. -/
theorem Lenient.decides : Decides opts H C (fun _ => True) env := by
  intro w block entry hs hext hstored hconflict hentry hheight fromNodeId
  have hK : Abides opts H C fun _ => True := hC.kept.abides
  refine Along.bind (Q := fun _ w' => w' = _) ⟨⟨.single ⟨.note, hC _ _ (by simp),
    .note rfl rfl rfl rfl rfl⟩, id, id⟩, rfl⟩ ?_
  rintro - _ hprocessed rfl
  refine .lifted fun added hadded => ?_
  have hs₁ := hprocessed.trace.sound hinj hs
  rcases indexBlock_outcome env hinj hs₁.indexed hext.hash_eq hext.mem hentry hheight
    (hext.isLater hinj hs.stored) hadded with ⟨index, hexec, hindex, hgrows, hget⟩ | ⟨-, hexec⟩
  · refine Along.bind (Q := fun _ w' => w' = _)
      ((wp_eq_ok hexec).2 ⟨.index hK hs₁ hindex hgrows, rfl⟩) ?_
    rintro - _ hindexed rfl
    have hs₂ := hindexed.trace.sound hinj hs₁
    obtain ⟨tip, tipEntry, htip, htipEntry, hcurrent⟩ := exec_currentWork env hs₂
    rw [Along, wp_bind, wp_eq_ok hcurrent]
    split_ifs with hbetter
    · exact adoptOrReject_goes hinj hK hs₂ hext ⟨hstored, hconflict, _, tip, tipEntry, hget, htip,
        htipEntry, of_decide_eq_true hbetter⟩ fromNodeId
    · exact Along.pure trivial
  · rw [Along, wp_bind, wp_eq_error hexec]
    exact .refl _

end Lenient

theorem abides_true : Abides opts H (fun _ _ => True) fun _ => True :=
  (Lenient.kept fun _ _ _ => trivial).abides

theorem settles_true (hinj : Set.InjOn computeBlockHash H) :
    Settles opts H (fun _ _ => True) (fun _ => True) env :=
  (Lenient.kept fun _ _ _ => trivial).settles hinj (Lenient.decides hinj fun _ _ _ => trivial)

/-! ## Headers -/

section Headers

variable {fromNodeId : Text}

/-- The header that a loop has come to is indexed, with its work. -/
def ChainEnd.Indexed (prev : ChainEnd) (headers : HeaderIndex) : Prop :=
  headers.get prev.hash = some ⟨prev.header, prev.work⟩

variable (hinj : Set.InjOn computeBlockHash H) (hK : Abides opts H C I)

include hinj hK

variable {batch : OrdMap Text BlockHeader} {headers : List BlockHeader} {prev : ChainEnd}

/-- An entry after that of an indexed header. -/
theorem putHeader_goes {added : ℕ} (hs : Sound opts H w) (hprev : prev.Indexed w.headers)
    (hmem : header ∈ H) (hlink : header.previousHash = prev.hash)
    (hheight : header.height = prev.header.height + 1)
    (hlater : prev.header.timestamp < header.timestamp) (hadded : blockWork opts header = .ok added)
    :
    Goes opts H C I (onHeaders (putHeader env (computeBlockHash header) header (prev.work + added))) w
      fun _ w' => ChainEnd.Indexed ⟨⟨computeBlockHash header, header⟩, prev.work + added⟩ w'.headers := by
  rw [ChainEnd.Indexed, ← hlink] at hprev
  have hisLater : Later H header := by
    intro parent hpmem hphash
    rw [← hphash] at hprev
    rwa [← hs.indexed.header_eq hinj hpmem hprev]
  obtain ⟨hset, hgrows⟩ := hs.indexed.set hinj hmem hprev hheight hisLater hadded
  refine (Goes.onHeaders hK hs (putHeader_along fun _ => ⟨hset, hgrows⟩)).mono ?_
  rintro - _ - ⟨_, rfl, -, rfl⟩
  exact Store.get_set_self _ _ _

theorem indexNewHeader_goes (hs : Sound opts H w) (hprev : prev.Indexed w.headers)
    (hmem : header ∈ H) :
    Goes opts H C I (indexNewHeader opts env fromNodeId batch prev header) w fun found w' =>
      ∀ last batch', found = some (last, batch') → last.Indexed w'.headers := by
  refine .read ?_
  refine .lifted fun ctx hctx => ?_
  split
  · next hvalid =>
    have hv := validateHeader_eq_ok.1 hvalid
    simp only [headerRules, bind_eq_ok] at hctx
    obtain ⟨target, -, hctx⟩ := hctx
    cases hctx
    refine .lifted fun added hadded => ?_
    refine (putHeader_goes hinj hK hs hprev hmem hv.previousHash_eq hv.height_eq
      hv.timestamp_gt hadded).bind
      fun _ w' _ hput => .pure fun last batch' heq => ?_
    cases heq
    exact hput
  · split_ifs
    · exact (Goes.act hK _).bind fun _ _ _ _ => .pure (by simp)
    · exact Along.pure (by simp)
  · exact .throw

theorem indexHeader_goes (hs : Sound opts H w) (hprev : prev.Indexed w.headers) (hmem : header ∈ H)
    :
    Goes opts H C I (indexHeader opts env fromNodeId batch prev header) w fun found w' =>
      ∀ last batch', found = some (last, batch') → last.Indexed w'.headers := by
  refine .read ?_
  split
  · next known hknown =>
    refine .pure fun last batch' heq => ?_
    cases heq
    exact hknown
  split
  · exact (Goes.act hK _).bind fun _ _ _ _ => .pure (by simp)
  split
  · exact (Goes.act hK _).bind fun _ _ _ _ => .pure (by simp)
  · exact indexNewHeader_goes hinj hK hs hprev hmem

/-- The loop over the headers of a message, by what each of its rounds leaves. -/
theorem indexHeaders_goes (hs : Sound opts H w) (prev : ChainEnd) (hprev : prev.Indexed w.headers)
    (hmem : ∀ header ∈ headers, header ∈ H) :
    Goes opts H C I (indexHeaders opts env fromNodeId batch prev headers) w fun found w' =>
      ∀ last, found = some last → last.Indexed w'.headers := by
  induction headers generalizing batch prev w with
  | nil =>
    refine .pure fun last heq => ?_
    cases heq
    exact hprev
  | cons header headers ih =>
    refine (indexHeader_goes hinj hK hs hprev (hmem header mem_cons_self)).bind ?_
    intro found w' hleads hfound
    cases found with
    | none => exact .pure (by simp)
    | some found =>
      obtain ⟨last, batch'⟩ := found
      exact ih (hleads.trace.sound hinj hs) last (hfound last batch' rfl)
        fun header hheader => hmem header (mem_cons_of_mem _ hheader)

omit hinj in
theorem requestIfBetter_goes (hs : Sound opts H w) (last : ChainEnd) :
    Goes opts H C I (requestIfBetter opts env fromNodeId last) w fun _ _ => True := by
  obtain ⟨tip, tipEntry, -, -, hcurrent⟩ := exec_currentWork env hs
  refine Along.bind (Q := fun _ _ => True) ((wp_eq_ok hcurrent).2 ⟨.refl w, trivial⟩) ?_
  intro current w' _ _
  refine .read ?_
  split_ifs
  · exact requestBlocksFrom_goes hK _
  · exact .pure trivial

theorem acceptHeaders_goes (hs : Sound opts H w) (hmem : ∀ header ∈ headers, header ∈ H) :
    Goes opts H C I (acceptHeaders opts env fromNodeId headers) w fun found w' =>
      ∀ last, found = some last → last.Indexed w'.headers := by
  cases headers with
  | nil => exact .pure (by simp)
  | cons first rest =>
    refine .read ?_
    refine (getIndexedHeader_goes hinj hK hs first.previousHash).bind ?_
    rintro found w₁ hlookup ⟨index, rfl, -, hfound⟩
    have hs₁ := hlookup.trace.sound hinj hs
    cases found with
    | none => exact .pure (by simp)
    | some entry =>
      exact indexHeaders_goes hinj hK hs₁ ⟨⟨first.previousHash, entry.header⟩, entry.work⟩
        (hfound entry rfl) hmem

theorem handleHeaders_goes (hs : Sound opts H w) (hmem : ∀ header ∈ headers, header ∈ H) :
    Goes opts H C I (handleHeaders opts env fromNodeId headers) w fun _ _ => True := by
  refine (acceptHeaders_goes hinj hK hs hmem).bind fun found w₁ haccepted _ => ?_
  cases found with
  | none => exact .pure trivial
  | some last =>
    refine (requestIfBetter_goes hK (haccepted.trace.sound hinj hs) last).bind fun _ w₂ _ _ => ?_
    split_ifs
    · exact requestHeadersFrom_goes hK _ _
    · exact .pure trivial

end Headers

/-! ## Messages -/

section Messages

section Transactions

variable (hK : Abides opts H C I)

include hK

theorem admitTransaction_goes (hs : Sound opts H w) (tx : Transaction) :
    Goes opts H C I (admitTransaction opts tx) w fun _ _ => True := by
  have hleads : Leads opts H C I w ((admitTransaction opts tx).exec w).2 := by
    refine .change hK hs (hK.lenient _ _ (by simp)) (.submit tx) (by simp) ?_
    rw [exec_admitTransaction]
    exact id
  exact .of_exec rfl hleads fun _ _ => trivial

theorem submitTransaction_goes (hs : Sound opts H w) (tx : Transaction) :
    Goes opts H C I (submitTransaction opts tx) w fun _ _ => True := by
  refine (admitTransaction_goes hK hs tx).bind fun verdict w' _ _ => ?_
  split_ifs
  · exact (Goes.act hK _).done
  · exact Along.pure trivial

theorem handleTransaction_goes (hs : Sound opts H w) (tx : Transaction) (fromNodeId : Text) :
    Goes opts H C I (handleTransaction opts tx fromNodeId) w fun _ _ => True := by
  refine .read ?_
  split_ifs
  · exact Along.pure trivial
  split
  · refine (admitTransaction_goes hK hs tx).bind fun verdict w' _ _ => ?_
    split_ifs
    · exact Goes.act hK _
    · exact Along.pure trivial
  · exact Goes.act hK _
  · exact .throw

end Transactions

variable (hinj : Set.InjOn computeBlockHash H) (hK : Abides opts H C I) (hS : Settles opts H C I env)

include hinj hK hS

theorem handleMessage_goes (hs : Sound opts H w) (hp : Pooled H w) (message : Message)
    (fromNodeId : Text)
    (hmem : ∀ header ∈ (Event.message message fromNodeId).headers opts, header ∈ H) :
    Goes opts H C I (handleMessage opts env message fromNodeId) w fun _ _ => True := by
  cases message with
  | NEW_TX tx => exact handleTransaction_goes hK hs tx fromNodeId
  | NEW_BLOCK block =>
    exact handleIncomingBlock_goes hinj hK hS hs hp (hmem _ (mem_singleton_self _)) fromNodeId
  | GET_BLOCKS fromHeight locator =>
    exact .read ⟨.note hK (.of_eq rfl) id, trivial⟩
  | GET_HEADERS locator =>
    exact .read ⟨.note hK (.of_eq rfl) id, trivial⟩
  | HEADERS headers =>
    exact handleHeaders_goes hinj hK hs fun header hheader => hmem _ (mem_of_mem_take hheader)
  | INV_BLOCKS hashes =>
    refine .read ?_
    split_ifs
    · exact requestBlocksFrom_goes hK _
    · exact .pure trivial

end Messages

/-! ## Mining -/

theorem adoptMined_goes {block : Block} (hinj : Set.InjOn computeBlockHash H)
    (hK : Abides opts H C I) (hs : Sound opts H w) (hext : Extends H w.chain block) (hmine : C w (.mine block)) :
    Goes opts H C I (adoptMined opts env block) w fun _ _ => True := by
  refine .read ?_
  split
  · refine .read ?_
    split_ifs with htip
    · refine (adoptBlock_goes hinj hK hs fun w' ha => ⟨.mine block, hmine, .mine hext htip ha,
        by simp⟩).bind fun _ _ _ _ => Goes.act hK _
    · exact .pure trivial
  · exact .throw
  · exact .throw

/-! ## Runs -/

section Run

variable (hinj : Set.InjOn computeBlockHash H) (hs : Sound opts H w)

include hinj hs

section Adopts

variable {head : Block} (hext : Extends H w.chain head) (ha : Adopts opts w head w')

include hext ha

/-- An adoption stores the head and no other block, and the head is the tip. -/
theorem Adopts.puts :
    Puts w.chain head w'.chain ∧ Spine w'.chain head ∧ Grows w.headers w'.headers := by
  obtain ⟨_, _, _, _, hspine, hb⟩ := ha.batched hinj hs hext
  exact ⟨hb.puts, hb.spine hinj hs.stored hspine hext, (hb.headers hinj hs hext).1⟩

end Adopts

/-- What stored blocks are, if valid ones are and those of the miner. -/
theorem Change.allStored {P : Block → Prop} {label : Label} (hc : Change opts H w label w')
    (hstore : ∀ {env w₀ block parent ctx}, w.chain.getBlock block.header.previousHash = some parent →
      blockContext opts env w₀ block parent = .ok ctx →
      validateBlock opts.signatures block ctx = .ok () → P block)
    (hmine : ∀ head, label = .mine head → Extends H w.chain head → OnTip w head →
      Adopts opts w head w' → P head)
    (h : AllStored P w.chain) : AllStored P w'.chain := by
  cases hc with
  | note hchain _ _ _ _ => rwa [hchain]
  | index _ _ => exact h
  | store hparent _ hctx hvalid => exact h.put (puts_batch w.chain _) (hstore hparent hctx hvalid)
  | adopt hext hheavier ha => exact h.put (ha.puts hinj hs hext).1 (h _ _ hheavier.stored)
  | mine hext htip ha => exact h.put (ha.puts hinj hs hext).1 (hmine _ rfl hext htip ha)
  | submit tx =>
    rw [exec_admitTransaction]
    exact h
  | reopen => exact h

/-- The header of a stored block stays what it is. -/
theorem Change.headerOf {label : Label} (hc : Change opts H w label w')
    (h : w.chain.headerOf hash = some header) : w'.chain.headerOf hash = some header := by
  cases hc with
  | note hchain _ _ _ _ => rwa [hchain]
  | index _ _ => exact h
  | store hparent hmem hctx hvalid =>
    exact hs.stored.headerOf_put hinj (extends_of_valid hparent hmem hctx hvalid) (puts_batch _ _) h
  | adopt hext _ ha => exact hs.stored.headerOf_put hinj hext (ha.puts hinj hs hext).1 h
  | mine hext _ ha => exact hs.stored.headerOf_put hinj hext (ha.puts hinj hs hext).1 h
  | submit tx =>
    rw [exec_admitTransaction]
    exact h
  | reopen => exact h

theorem Trace.headerOf (ht : Trace opts H C w w') (h : w.chain.headerOf hash = some header) :
    w'.chain.headerOf hash = some header :=
  ht.invariant hinj (fun hs _ hc h => hc.headerOf hinj hs h) hs h

end Run

/-- A template on top of a stored block. -/
def Template.OnStored (w : World) (template : Template) : Prop :=
  ∃ parent, w.chain.headerOf template.header.previousHash = some parent ∧
    template.header.height = parent.height + 1 ∧ parent.timestamp < template.header.timestamp

/-- What holds of a node between any two events. -/
structure Session.Good (opts : NodeOptions) (H : Set BlockHeader) (s : Session) : Prop where
  sound : Sound opts H s.toWorld
  pooled : Pooled H s.toWorld
  templates : ∀ template ∈ s.templates, template.OnStored s.toWorld

/-- A mined block meets the condition. -/
def Event.Meets (opts : NodeOptions) (C : World → Label → Prop) (s : Session) : Event → Prop
  | .mined template nonce key =>
    ∀ header, sealHeader opts.signatures opts.engine nonce key template.header = some header →
      C s.toWorld (.mine (template.block header))
  | _ => True

theorem buildBlockTemplate_onStored {template : Template}
    (h : buildBlockTemplate opts env w = .ok template) : template.OnStored w := by
  obtain ⟨tip, parent, target, -, hparent, -, hfill⟩ := buildBlockTemplate_eq_ok h
  obtain ⟨reward, bytes, -, -, -, hheader⟩ := fillTemplate_eq_ok hfill
  obtain ⟨-, hheader⟩ := headerFor_eq_ok hheader
  have hkey := w.chain.keyed _ _ hparent
  refine ⟨parent.header, headerOf_eq_some.2 ⟨parent, ?_, rfl⟩, ?_, ?_⟩
  · rw [hheader, hkey, hparent]
  · rw [hheader]
  · rw [hheader]
    exact lt_of_lt_of_le (Nat.lt_succ_self _) (le_max_right _ _)

theorem Template.OnStored.extends {template : Template} (h : template.OnStored w) {nonce : ℕ}
    {key : KeyPair}
    (hseal : sealHeader opts.signatures opts.engine nonce key template.header = some header)
    (hmem : header ∈ H) : Extends H w.chain (template.block header) := by
  obtain ⟨parent, hparent, hheight, hlater⟩ := h
  obtain ⟨block, hblock, rfl⟩ := headerOf_eq_some.1 hparent
  have hstored : w.chain.getBlock (template.block header).header.previousHash = some block := by
    change w.chain.getBlock header.previousHash = _
    rw [sealHeader_eq_some hseal, hblock]
  refine .of_parent rfl hmem hstored ?_ ?_
  · change header.height = _
    rw [sealHeader_eq_some hseal, hheight]
  · change _ < header.timestamp
    rw [sealHeader_eq_some hseal]
    exact hlater

section Step

variable (hinj : Set.InjOn computeBlockHash H) {s : Session}

include hinj

theorem Session.Good.leads {s' : Session} (hg : s.Good opts H)
    (hl : Leads opts H C I s.toWorld s'.toWorld)
    (ht : ∀ template ∈ s'.templates, template ∈ s.templates) : s'.Good opts H := by
  refine ⟨hl.trace.sound hinj hg.sound, hl.pooled hg.pooled, fun template hmem => ?_⟩
  obtain ⟨parent, hparent, hrest⟩ := hg.templates template (ht template hmem)
  exact ⟨parent, hl.trace.headerOf hinj hg.sound hparent, hrest⟩

/-- What an event does is a sequence of changes. -/
theorem step_kept (hK : Abides opts H C I) (hS : Settles opts H C I env) (hg : s.Good opts H)
    (hpossible : event.Possible s) (hmem : ∀ header ∈ event.headers opts, header ∈ H)
    (hmeets : event.Meets opts C s) :
    Leads opts H C I s.toWorld (step opts s env event).toWorld := by
  cases event with
  | message message fromNodeId =>
    exact (handleMessage_goes hinj hK hS hg.sound hg.pooled message fromNodeId hmem).exec
  | peerConnected peerId => exact (requestHeadersFrom_goes hK peerId none).exec
  | submitTransaction tx => exact (submitTransaction_goes hK hg.sound tx).exec
  | buildBlockTemplate =>
    rw [step]
    split <;> exact .refl _
  | mined template nonce key =>
    rw [step]
    split
    · next header hseal =>
      have hheader : header ∈ H := hmem header (by simp [Event.headers, hseal])
      exact (adoptMined_goes hinj hK hg.sound ((hg.templates template hpossible).extends hseal hheader)
        (hmeets header hseal)).exec
    · exact .refl _
  | restart =>
    refine .change hK hg.sound (hK.lenient _ _ (by simp)) .reopen (by simp) fun _ _ _ h => ?_
    cases h

theorem step_leads (hC : Lenient C) (hg : s.Good opts H) (env : Env) (hpossible : event.Possible s)
    (hmem : ∀ header ∈ event.headers opts, header ∈ H) (hmeets : event.Meets opts C s) :
    Leads opts H C (fun _ => True) s.toWorld (step opts s env event).toWorld :=
  step_kept hinj hC.kept.abides (hC.kept.settles hinj (hC.decides hinj)) hg hpossible hmem hmeets

theorem step_good (hC : Lenient C) (hg : s.Good opts H) (hpossible : event.Possible s)
    (hmem : ∀ header ∈ event.headers opts, header ∈ H) (hmeets : event.Meets opts C s) :
    (step opts s env event).Good opts H := by
  have hl := step_leads hinj hC hg env hpossible hmem hmeets
  cases event with
  | buildBlockTemplate =>
    rw [step]
    split
    · next template hbuild =>
      refine ⟨hg.sound, hg.pooled, fun t ht => ?_⟩
      rcases mem_cons.1 ht with rfl | ht
      · exact buildBlockTemplate_onStored hbuild
      · exact hg.templates t ht
    · exact hg
  | restart => exact hg.leads hinj hl (by simp [step])
  | mined template nonce key =>
    refine hg.leads hinj hl fun t ht => ?_
    rw [step] at ht
    split at ht <;> exact ht
  | _ => exact hg.leads hinj hl fun t ht => ht

end Step

/-! ## The start -/

/-- The state that `start` leaves. -/
theorem start_eq_ok (h : start opts = .ok w) :
    ∃ coinbase undo u work, opts.genesis.transactions.head? = some coinbase ∧
      applyTransaction opts.signatures (UtxoSet.new .empty opts.coinbaseMaturity) coinbase 0 =
        .ok (undo, u) ∧
      blockWork opts opts.genesis.header = .ok work ∧
      w = openNode opts (emptyChain.batch (genesisOps opts))
        (Store.empty.set opts.genesis.hash (some ⟨opts.genesis.header, work⟩)) u.store := by
  rw [start] at h
  split at h
  · cases h
  · next coinbase hcoinbase =>
    simp only [bind_eq_ok, mapError_eq_ok] at h
    obtain ⟨⟨undo, u⟩, happly, work, hwork, h⟩ := h
    cases h
    exact ⟨coinbase, undo, u, work, hcoinbase, happly, hwork, rfl⟩

/-- The part of the writes of genesis that is on a sublevel without indexes. -/
theorem genesisOps_filterMap {f : StateOp → Option α} (hact : NoActivity f)
    (htx : ∀ txId hash, f (.txLocation txId hash) = none) :
    (genesisOps opts).filterMap f = [putBlockOp opts.genesis,
      setCanonicalHashAtHeightOp 0 opts.genesis.hash, .tip ⟨opts.genesis.hash, 0⟩].filterMap f := by
  have hlocations : (opts.genesis.transactions.map fun tx =>
      putTxLocationOp tx.id opts.genesis.hash).filterMap f = [] := by
    rw [filterMap_eq_nil_iff]
    intro op hop
    obtain ⟨tx, -, rfl⟩ := mem_map.1 hop
    exact htx _ _
  have haddr : (if opts.addressIndexEnabled then addressIndexOps opts.genesis [] false
      else []).filterMap f = [] := by
    split
    · exact hact.addressIndexOps _ _ _
    · rfl
  rw [genesisOps, filterMap_append, filterMap_append, hlocations, haddr]
  simp only [append_nil, setTipOps, cons_append, nil_append]

theorem getBlock_genesisOps (hash : Text) :
    (emptyChain.batch (genesisOps opts)).getBlock hash =
      if hash = opts.genesis.hash then some opts.genesis else none := by
  change (Store.empty.batch ((genesisOps opts).filterMap StateOp.block?)).get hash = _
  rw [genesisOps_filterMap (fun _ _ => rfl) fun _ _ => rfl]
  change (Store.empty.set opts.genesis.hash (some opts.genesis)).get hash = _
  rw [Store.get_set]
  rfl

/-- Genesis is the block that a fresh database has. -/
theorem getBlock_genesisOps_eq_some {hash : Text} {block : Block}
    (h : (emptyChain.batch (genesisOps opts)).getBlock hash = some block) :
    hash = opts.genesis.hash ∧ block = opts.genesis := by
  rw [getBlock_genesisOps, Option.ite_none_right_eq_some] at h
  exact ⟨h.1, (Option.some.inj h.2).symm⟩

theorem allStored_genesisOps {P : Block → Prop} (h : P opts.genesis) :
    AllStored P (emptyChain.batch (genesisOps opts)) :=
  fun _ _ hb => (getBlock_genesisOps_eq_some hb).2 ▸ h

/-- Genesis has no parent, and nothing is stored but it. -/
theorem anc_genesisOps {x y : Text} :
    Anc (parentHash (emptyChain.batch (genesisOps opts)).headerOf) x y ↔ x = y := by
  refine ⟨fun h => ?_, fun h => h ▸ .refl _⟩
  rcases h.eq_or_parent with h | ⟨p, hp, -⟩
  · exact h
  · exfalso
    rw [parentHash, ChainState.headerOf, getBlock_genesisOps] at hp
    split at hp
    · simp [genesis_height] at hp
    · simp at hp

theorem spine_genesisOps : Spine (emptyChain.batch (genesisOps opts)) opts.genesis := by
  have hheight : heightIn (emptyChain.batch (genesisOps opts)).headerOf opts.genesis.hash = 0 := by
    rw [heightIn_eq (headerOf_eq_some.2 ⟨opts.genesis, by rw [getBlock_genesisOps, if_pos rfl], rfl⟩),
      genesis_height]
  refine ⟨?_, by rw [getBlock_genesisOps, if_pos rfl], fun i y => ?_, fun y => ?_⟩
  · change ((genesisOps opts).filterMap StateOp.tip?).getLast?.or none = _
    rw [genesisOps_filterMap (fun _ _ => rfl) fun _ _ => rfl, genesis_height]
    rfl
  · change (Store.empty.batch ((genesisOps opts).filterMap StateOp.canonical?)).get i = _ ↔ _
    rw [genesisOps_filterMap (fun _ _ => rfl) fun _ _ => rfl, anc_genesisOps]
    change (Store.empty.set 0 (some opts.genesis.hash)).get i = _ ↔ _
    rw [Store.get_set]
    constructor
    · intro h
      split at h
      · next hi =>
        cases h
        exact ⟨rfl, by rw [hheight, hi]⟩
      · simp at h
    · rintro ⟨rfl, rfl⟩
      rw [hheight, if_pos rfl]
  · change ((Store.empty.batch ((genesisOps opts).filterMap StateOp.undo?)).get y).isSome ↔ _
    rw [genesisOps_filterMap (fun _ _ => rfl) fun _ _ => rfl, anc_genesisOps]
    constructor
    · intro h
      cases h
    · rintro ⟨rfl, hpos⟩
      rw [hheight] at hpos
      omega

theorem storedWell_genesisOps (hmem : opts.genesis.header ∈ H) :
    StoredWell opts H (emptyChain.batch (genesisOps opts)) where
  hashed := by
    intro hash block hb
    obtain ⟨rfl, rfl⟩ := getBlock_genesisOps_eq_some hb
    exact ⟨genesis_hash opts, hmem⟩
  linked := by
    intro hash block hb h0
    cases (getBlock_genesisOps_eq_some hb).2
    exact absurd (genesis_height opts) h0
  later := by
    intro hash block hb h0
    cases (getBlock_genesisOps_eq_some hb).2
    exact absurd (genesis_height opts) h0
  root := fun _ _ hb _ => (getBlock_genesisOps_eq_some hb).1
  genesis := (getBlock_genesisOps _).trans (if_pos rfl)

/-- A node with an empty database starts sound. -/
theorem start_good (hmem : opts.genesis.header ∈ H) (h : start opts = .ok w) :
    Session.Good opts H { toWorld := w, templates := [] } := by
  obtain ⟨coinbase, undo, u, work, -, -, hwork, rfl⟩ := start_eq_ok h
  have hgenesis : (Store.empty.set opts.genesis.hash (some ⟨opts.genesis.header, work⟩) :
      HeaderIndex).get opts.genesis.hash = some ⟨opts.genesis.header, work⟩ := Store.get_set_self _ _ _
  have hentry : ∀ hash entry, (Store.empty.set opts.genesis.hash (some ⟨opts.genesis.header, work⟩) :
      HeaderIndex).get hash = some entry →
      hash = opts.genesis.hash ∧ entry = ⟨opts.genesis.header, work⟩ := by
    intro hash entry he
    obtain h | h := Store.get_set_some he
    · exact h
    · simp at h
  refine ⟨⟨storedWell_genesisOps hmem, ⟨?_, ⟨work, hwork, hgenesis⟩, ?_, ?_⟩,
    ⟨opts.genesis, spine_genesisOps, ?_⟩, rfl, rfl⟩, (fun _ _ h => nomatch h), by simp⟩
  · intro hash entry he
    obtain ⟨rfl, rfl⟩ := hentry hash entry he
    exact ⟨genesis_hash opts, hmem⟩
  · exact fun hash entry he => .inl (hentry hash entry he).1
  · exact fun hash entry he => .inl (hentry hash entry he).1
  · exact Option.isSome_of_eq_some hgenesis

/-! ## Reachable states -/

variable {s : Session} (hinj : Set.InjOn computeBlockHash H)

include hinj

theorem Reachable.good (h : Reachable opts H s) :
    s.Good opts H := by
  refine h.invariant (fun w hg hw => start_good hg hw) fun s env event hg hp hmem => ?_
  refine step_good hinj (C := fun _ _ => True) (fun _ _ _ => trivial) hg hp hmem ?_
  cases event <;> simp [Event.Meets]

/-- Every node that began with an empty database is sound. -/
theorem Reachable.sound (h : Reachable opts H s) : Sound opts H s.toWorld := (h.good hinj).sound

/-- What an event does to a node is a trace. -/
theorem Reachable.trace (h : Reachable opts H s) (env : Env) (hpossible : event.Possible s)
    (hmem : ∀ header ∈ event.headers opts, header ∈ H) :
    Trace opts H (fun _ _ => True) s.toWorld (step opts s env event).toWorld := by
  refine (step_leads hinj (fun _ _ _ => trivial) (h.good hinj) env hpossible hmem ?_).trace
  cases event <;> simp [Event.Meets]

/-- What holds of a node that is started, and what every change keeps, holds always. -/
theorem Reachable.of_change {P : World → Prop}
    (hstart : ∀ w, start opts = .ok w → P w)
    (hchange : ∀ w w' label, Sound opts H w → Change opts H w label w' → P w → P w')
    (h : Reachable opts H s) : P s.toWorld := by
  induction h with
  | initial _ hw => exact hstart _ hw
  | next env hr hp hH ih =>
    exact (hr.trace hinj env hp hH).invariant hinj (fun hs _ hc => hchange _ _ _ hs hc)
      (hr.sound hinj) ih

end Leads

end Plainchain
