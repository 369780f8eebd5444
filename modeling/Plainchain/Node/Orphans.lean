import Plainchain.Node.Handlers

/-!
# The pool of orphans

The pool is kept twice: as a map from missing parents to the blocks that wait for
them, and as the set of the hashes of those blocks. Queueing, dropping and
rejecting write both (`Books`). Resolving takes a whole group out of the map and
then the hashes one by one, each before its block is handled: a handler that
throws leaves the hashes of the rest of the group behind, and a block with such a
hash is never queued again (`orphans_left_behind`).

* `Books`: the two agree, but for blocks that are on their way (`flight`);
* `evaluateBlock_accounts`: what is done for one block;
* `orphan_books`: between the events of a run in which no two blocks that wait
  for an arriving block, or for one another behind it, wait for the same parent,
  the two agree.
-/

/-! ## What is reached from a point

A search takes the edges that leave a point out of a graph before it follows
them. What it reaches in the rest of the graph, and what it has reached before,
is what is reached in the whole graph. -/

namespace Reach

open Relation

variable {α : Type*} {r : α → α → Prop} {s : Set α} {a b : α}

/-- The edges that do not start in a set. -/
def Outside (r : α → α → Prop) (s : Set α) (a b : α) : Prop := r a b ∧ a ∉ s

theorem of_outside (h : ReflTransGen (Outside r s) a b) : ReflTransGen r a b :=
  ReflTransGen.mono (fun _ _ (h : Outside r s _ _) => h.1) _ _ h

/-- A point is reached from `a` if it is `a` or reached from a successor of `a`
    along edges that do not start in `a`. -/
theorem reaches_iff :
    ReflTransGen r a b ↔ b = a ∨ ∃ c, r a c ∧ ReflTransGen (Outside r {a}) c b := by
  constructor
  · intro h
    induction h with
    | refl => exact .inl rfl
    | @tail b c _ hbc ih =>
      refine .inr ?_
      -- A path that comes back to `a` may as well start there.
      by_cases hb : b = a
      · exact ⟨c, hb ▸ hbc, .refl⟩
      · obtain ⟨d, had, hdb⟩ := ih.resolve_left hb
        exact ⟨d, had, hdb.tail ⟨hbc, hb⟩⟩
  · rintro (rfl | ⟨c, hac, hcb⟩)
    · exact .refl
    · exact .head hac (of_outside hcb)

/-- A path that enters a set that no edge leaves ends there. -/
theorem reaches_or (hs : ∀ a ∈ s, ∀ b, r a b → b ∈ s) (h : ReflTransGen r a b) :
    b ∈ s ∨ ReflTransGen (Outside r s) a b := by
  induction h with
  | refl => exact .inr .refl
  | @tail b c _ hbc ih =>
    by_cases hb : b ∈ s
    · exact .inl (hs b hb c hbc)
    · exact .inr ((ih.resolve_left hb).tail ⟨hbc, hb⟩)

/-- What is reached from `a`, and what is reached from `b` past that. -/
theorem reaches_past {c : α} : ReflTransGen r a c ∨ ReflTransGen r b c ↔
    ReflTransGen r a c ∨ ReflTransGen (Outside r {c | ReflTransGen r a c}) b c := by
  constructor
  · rintro (h | h)
    · exact .inl h
    · exact reaches_or (s := {c | ReflTransGen r a c}) (fun _ hx _ hxy => hx.tail hxy) h
  · rintro (h | h)
    · exact .inl h
    · exact .inr (of_outside h)

end Reach

namespace Plainchain

open Js Kv Prog List

/-- The blocks that wait in the pool. -/
def listed (w : World) : List Orphan := w.orphansByMissingParent.values.flatten

theorem length_listed (w : World) : (listed w).length = listedOrphans w :=
  length_flatten

def Orphan.hash (o : Orphan) : Text := o.block.hash

/-- The set of hashes is that of the blocks listed, each of which is listed once,
    under its parent; and the pool is not too large. -/
structure OrphanBooks (w : World) : Prop where
  hashes : w.orphanHashes = ((listed w).map Orphan.hash).toFinset
  once : ((listed w).map Orphan.hash).Nodup
  under : ∀ parent waiting, w.orphansByMissingParent.get parent = some waiting →
    ∀ o ∈ waiting, o.block.header.previousHash = parent
  room : (listed w).length ≤ MAX_ORPHANS

/-! ## Books with blocks on their way -/

/-- The books of a pool of which the blocks `flight` have been taken out of the
    map and are still in the set. -/
structure Books (room : ℕ) (flight : List Orphan) (w : World) : Prop where
  hashes : w.orphanHashes = ((flight ++ listed w).map Orphan.hash).toFinset
  once : ((flight ++ listed w).map Orphan.hash).Nodup
  under : ∀ parent waiting, w.orphansByMissingParent.get parent = some waiting →
    ∀ o ∈ waiting, o.block.header.previousHash = parent
  nonempty : ∀ parent waiting, w.orphansByMissingParent.get parent = some waiting → waiting ≠ []
  room : w.orphanHashes.card ≤ room

/-- The pool is the same. -/
structure SamePool (w w' : World) : Prop where
  orphans : w'.orphansByMissingParent = w.orphansByMissingParent
  hashes : w'.orphanHashes = w.orphanHashes

instance : Std.Refl SamePool := ⟨fun _ => ⟨rfl, rfl⟩⟩

instance : IsTrans World SamePool :=
  ⟨fun _ _ _ h h' => ⟨h'.orphans.trans h.orphans, h'.hashes.trans h.hashes⟩⟩

/-- The pool is the same, and no block becomes invalid. -/
structure Untouched (w w' : World) : Prop extends SamePool w w' where
  invalid : w'.invalidBlockHashes = w.invalidBlockHashes

instance : Std.Refl Untouched := ⟨fun _ => ⟨⟨rfl, rfl⟩, rfl⟩⟩

instance : IsTrans World Untouched :=
  ⟨fun _ _ _ h h' => ⟨IsTrans.trans _ _ _ h.toSamePool h'.toSamePool,
    h'.invalid.trans h.invalid⟩⟩

theorem SamePool.listed {w w' : World} (h : SamePool w w') : listed w' = listed w := by
  rw [Plainchain.listed, h.orphans, Plainchain.listed]

/-- The blocks listed, those of a group first. -/
theorem perm_listed (w : World) (parent : Text) :
    (listed w).Perm ((w.orphansByMissingParent.get parent).getD [] ++
      (w.orphansByMissingParent.delete parent).values.flatten) := by
  cases h : w.orphansByMissingParent.get parent with
  | some waiting => exact ((OrdMap.perm_delete h).map Prod.snd).flatten
  | none =>
    rw [OrdMap.delete_of_get h]
    exact List.Perm.refl _

/-- A block put into both. -/
def World.enqueue (w : World) (block : Block) (fromNodeId : Text) : World :=
  { w with
    orphansByMissingParent := w.orphansByMissingParent.set block.header.previousHash
      ((w.orphansByMissingParent.get block.header.previousHash).getD [] ++ [⟨block, fromNodeId⟩])
    orphanHashes := insert block.hash w.orphanHashes }

theorem perm_listed_enqueue (w : World) (block : Block) (fromNodeId : Text) :
    (listed (w.enqueue block fromNodeId)).Perm (⟨block, fromNodeId⟩ :: listed w) := by
  have h := perm_listed (w.enqueue block fromNodeId) block.header.previousHash
  simp only [World.enqueue, OrdMap.delete_set, OrdMap.get_set, if_true, Option.getD_some,
    append_assoc] at h
  exact h.trans (perm_middle.trans ((perm_listed w block.header.previousHash).symm.cons _))

namespace Books

variable {room : ℕ} {flight : List Orphan} {w w' : World}

theorem same (hb : Books room flight w) (h : SamePool w w') : Books room flight w' where
  hashes := by rw [h.hashes, h.listed, hb.hashes]
  once := by rw [h.listed]; exact hb.once
  under := by rw [h.orphans]; exact hb.under
  nonempty := by rw [h.orphans]; exact hb.nonempty
  room := by rw [h.hashes]; exact hb.room

theorem card_eq (hb : Books room flight w) :
    w.orphanHashes.card = (flight ++ listed w).length := by
  rw [hb.hashes, toFinset_card_of_nodup hb.once, length_map]

/-- A group taken out of the map is on its way. -/
theorem take (hb : Books room flight w) {parent : Text} {waiting : List Orphan}
    (h : w.orphansByMissingParent.get parent = some waiting) :
    Books room (waiting ++ flight)
      { w with orphansByMissingParent := w.orphansByMissingParent.delete parent } := by
  have hperm : (flight ++ listed w).Perm (waiting ++ flight ++ listed
      { w with orphansByMissingParent := w.orphansByMissingParent.delete parent }) := by
    have hlisted := perm_listed w parent
    rw [h, Option.getD_some] at hlisted
    refine (hlisted.append_left flight).trans ?_
    rw [← append_assoc]
    exact perm_append_comm.append_right _
  have hget : ∀ {parent' waiting'},
      (w.orphansByMissingParent.delete parent).get parent' = some waiting' →
      w.orphansByMissingParent.get parent' = some waiting' := by
    intro parent' waiting' hget
    rw [OrdMap.get_delete] at hget
    split_ifs at hget
    exact hget
  exact
    { hashes := hb.hashes.trans (toFinset_eq_of_perm _ _ (hperm.map _))
      once := (hperm.map _).nodup_iff.1 hb.once
      under := fun parent' waiting' h' => hb.under _ _ (hget h')
      nonempty := fun parent' waiting' h' => hb.nonempty _ _ (hget h')
      room := hb.room }

/-- A block that has arrived is struck off. -/
theorem arrive {o : Orphan} (hb : Books room (o :: flight) w) :
    Books room flight { w with orphanHashes := w.orphanHashes.erase o.hash } where
  hashes := by
    have honce := hb.once
    rw [cons_append, map_cons, nodup_cons, ← mem_toFinset] at honce
    rw [hb.hashes, cons_append, map_cons, toFinset_cons]
    exact Finset.erase_insert honce.1
  once := (nodup_cons.1 hb.once).2
  under := hb.under
  nonempty := hb.nonempty
  room := (Finset.card_erase_le).trans hb.room

/-- The blocks of a group are struck off one by one. -/
theorem arrive_all {dropped : List Orphan} (hb : Books room (dropped ++ flight) w) :
    Books room flight { w with
      orphanHashes := dropped.foldl (fun hashes o => hashes.erase o.block.hash) w.orphanHashes } := by
  induction dropped generalizing w with
  | nil => exact hb
  | cons o dropped ih => exact ih hb.arrive

/-! ## Rejection and queueing -/

theorem reject (fuel : ℕ) (block : Block) (fromNodeId reason : Text) (blame : Bool)
    (hb : Books room flight w) :
    Books room flight (rejectBlockFrom fuel block fromNodeId reason blame w) := by
  induction fuel generalizing block fromNodeId reason flight w with
  | zero => exact hb
  | succ fuel ih =>
    -- What waits for the block is on its way until it is rejected in turn.
    have hfold : ∀ (dependents : List Orphan) {w : World}, Books room (dependents ++ flight) w →
        Books room flight (dependents.foldl (rejectDependent fuel blame) w) := by
      intro dependents
      induction dependents with
      | nil => exact fun h => h
      | cons o dependents ihd => exact fun h => ihd (ih _ _ _ h.arrive)
    have hmark : Books room flight (markInvalid block fromNodeId reason blame w) :=
      hb.same ⟨rfl, rfl⟩
    rw [rejectBlockFrom]
    refine hfold _ ?_
    cases hget : (markInvalid block fromNodeId reason blame w).orphansByMissingParent.get
        block.hash with
    | some dependents => exact hmark.take hget
    | none =>
      rw [OrdMap.delete_of_get hget]
      exact hmark

/-- The group that has waited longest has at least one block. -/
theorem dropOldest (hb : Books (room + 1) [] w) (hfull : room < w.orphanHashes.card) :
    Books room [] (dropOldest w) := by
  unfold Plainchain.dropOldest
  split
  · next hentries =>
    have hempty : w.orphanHashes = ∅ := by
      rw [hb.hashes, listed, OrdMap.values, head?_eq_none_iff.1 hentries]
      rfl
    rw [hempty, Finset.card_empty] at hfull
    exact absurd hfull (Nat.not_lt_zero _)
  · next parent dropped hentries =>
    have hget : w.orphansByMissingParent.get parent = some dropped :=
      OrdMap.get_eq_some.2 (mem_of_mem_head? hentries)
    have htaken := hb.take hget
    have hafter := htaken.arrive_all
    have hcard := htaken.card_eq
    have hcard' := hafter.card_eq
    have hpos := length_pos_iff.2 (hb.nonempty _ _ hget)
    have hroom := hb.room
    refine { hafter with room := ?_ }
    rw [append_nil, length_append] at hcard
    rw [nil_append] at hcard'
    change _ = (listed { w with
      orphansByMissingParent := w.orphansByMissingParent.delete parent }).length at hcard'
    dsimp only at hcard hcard' ⊢
    omega

theorem enqueue (hb : Books room [] w) {block : Block} (hnew : block.hash ∉ w.orphanHashes)
    (fromNodeId : Text) : Books (room + 1) [] (w.enqueue block fromNodeId) := by
  have hperm := (perm_listed_enqueue w block fromNodeId).map Orphan.hash
  have hset : (w.enqueue block fromNodeId).orphanHashes = insert block.hash w.orphanHashes := rfl
  have hgroup : ∀ parent waiting,
      (w.enqueue block fromNodeId).orphansByMissingParent.get parent = some waiting →
      (parent = block.header.previousHash ∧
        waiting = (w.orphansByMissingParent.get parent).getD [] ++ [⟨block, fromNodeId⟩]) ∨
      w.orphansByMissingParent.get parent = some waiting := by
    intro parent waiting hget
    simp only [World.enqueue, OrdMap.get_set] at hget
    split_ifs at hget with heq
    · cases hget
      exact .inl ⟨heq, by rw [heq]⟩
    · exact .inr hget
  have hhashes := hb.hashes
  rw [nil_append] at hhashes
  refine ⟨?_, ?_, fun parent waiting hget o ho => ?_, fun parent waiting hget => ?_, ?_⟩
  · rw [hset, hhashes, nil_append, toFinset_eq_of_perm _ _ hperm, map_cons,
      toFinset_cons]
    rfl
  · rw [hhashes, mem_toFinset] at hnew
    exact hperm.nodup_iff.2 (nodup_cons.2 ⟨hnew, hb.once⟩)
  · rcases hgroup parent waiting hget with ⟨hparent, rfl⟩ | hold
    · rcases mem_append.1 ho with ho | ho
      · obtain ⟨waiting, hold⟩ : ∃ waiting, w.orphansByMissingParent.get parent = some waiting := by
          rw [← Option.isSome_iff_exists]
          by_contra hnone
          rw [Option.not_isSome_iff_eq_none.1 hnone] at ho
          cases ho
        rw [hold] at ho
        exact hb.under _ _ hold o ho
      · cases mem_singleton.1 ho
        exact hparent.symm
    · exact hb.under _ _ hold o ho
  · rcases hgroup parent waiting hget with ⟨-, rfl⟩ | hold
    · simp
    · exact hb.nonempty _ _ hold
  · rw [hset]
    exact (Finset.card_insert_le _ _).trans (Nat.succ_le_succ hb.room)

/-- A block is queued under its parent, unless its hash is known. -/
theorem queue (hb : Books MAX_ORPHANS [] w) (block : Block) (fromNodeId : Text) :
    Books MAX_ORPHANS [] ((queueOrphan block fromNodeId).exec w).2 := by
  change Books MAX_ORPHANS [] (if block.hash ∈ w.orphanHashes then w else
    if MAX_ORPHANS < (w.enqueue block fromNodeId).orphanHashes.card then
      Plainchain.dropOldest (w.enqueue block fromNodeId)
    else w.enqueue block fromNodeId)
  split_ifs with hknown hfull
  · exact hb
  · exact (hb.enqueue hknown fromNodeId).dropOldest hfull
  · exact { hb.enqueue hknown fromNodeId with room := not_lt.1 hfull }

theorem orphanBooks (hb : Books MAX_ORPHANS [] w) : OrphanBooks w where
  hashes := hb.hashes
  once := hb.once
  under := hb.under
  room := hb.card_eq ▸ hb.room

end Books

/-! ## What leaves the records of blocks alone -/

namespace Untouched

variable {opts : NodeOptions} {env : Env} {fromNodeId : Text}

theorem onHeaders {α : Type} (m : Prog HeaderIndex NodeError α) :
    Keeps Untouched (Plainchain.onHeaders m) := fun _ => ⟨⟨rfl, rfl⟩, rfl⟩

theorem act (action : Action) : Keeps Untouched (Plainchain.act action) := fun _ => ⟨⟨rfl, rfl⟩, rfl⟩

theorem requestHeadersFrom (peerId : Text) (fromHash : Option Text) :
    Keeps Untouched (requestHeadersFrom opts peerId fromHash) :=
  .bind (.reads _) fun _ => act _

theorem requestBlocksFrom (peerId : Text) : Keeps Untouched (requestBlocksFrom opts peerId) :=
  .bind (.reads _) fun _ => act _

theorem commitAdoption (head : Block) : Keeps Untouched (commitAdoption opts env head) := by
  refine .bind (.reads _) fun chain => .bind (onHeaders _) fun ops =>
    .bind (fun _ => ⟨⟨rfl, rfl⟩, rfl⟩) fun staged => .bind (fun w => ?_) fun _ => .pure _
  rw [commitAtomic, exec_of]
  split_ifs <;> exact ⟨⟨rfl, rfl⟩, rfl⟩

theorem finishAdoption (head : Block) (staged : Staged) :
    Keeps Untouched (finishAdoption opts head staged) := by
  intro w
  rw [exec_finishAdoption]
  exact ⟨⟨rfl, rfl⟩, rfl⟩

theorem adoptBlock (head : Block) : Keeps Untouched (adoptBlock opts env head) :=
  .bind (commitAdoption head) fun staged => finishAdoption head staged

theorem putBlock (block : Block) : Keeps Untouched (putBlock env block) := by
  intro w
  rw [Plainchain.putBlock, exec_of]
  split_ifs <;> exact ⟨⟨rfl, rfl⟩, rfl⟩

theorem indexBlock (block : Block) (work : ℕ) : Keeps Untouched (indexBlock env block work) := by
  refine .bind (.reads _) fun headers => ?_
  split
  · exact .pure _
  · exact onHeaders _

theorem currentWork : Keeps Untouched (currentWork opts env) := by
  refine .bind (.reads _) fun chain => ?_
  split
  · exact .pure _
  · exact .bind (onHeaders _) fun _ => .pure _

theorem handleHeaders (headers : List BlockHeader) :
    Keeps Untouched (handleHeaders opts env fromNodeId headers) := by
  refine .bind (keeps_acceptHeaders onHeaders (fun _ => act _) headers) fun found => ?_
  cases found with
  | none => exact .pure _
  | some last =>
    refine .bind (.bind currentWork fun current => .bind (.reads _) fun stored => ?_) fun _ => ?_
    · split_ifs
      · exact requestBlocksFrom _
      · exact .pure _
    · split_ifs
      · exact requestHeadersFrom _ _
      · exact .pure _

theorem admitTransaction (tx : Transaction) : Keeps Untouched (admitTransaction opts tx) := by
  intro w
  rw [Plainchain.admitTransaction, exec_of]
  split <;> exact ⟨⟨rfl, rfl⟩, rfl⟩

theorem submitTransaction (tx : Transaction) : Keeps Untouched (submitTransaction opts tx) := by
  refine .bind (admitTransaction tx) fun result => ?_
  split_ifs
  · exact .bind (act _) fun _ => .pure _
  · exact .pure _

theorem handleTransaction (tx : Transaction) :
    Keeps Untouched (handleTransaction opts tx fromNodeId) := by
  refine .bind (.reads _) fun pool => ?_
  split
  · exact .pure _
  split
  · refine .bind (admitTransaction tx) fun result => ?_
    split_ifs
    · exact act _
    · exact .pure _
  · exact act _
  · exact .throw _

theorem handleInvBlocks (hashes : List Text) :
    Keeps Untouched (handleInvBlocks opts hashes fromNodeId) := by
  refine .bind (.reads _) fun w => ?_
  split_ifs
  · exact requestBlocksFrom _
  · exact .pure _

theorem adoptMined (block : Block) : Keeps Untouched (adoptMined opts env block) := by
  refine .bind (.reads _) fun w => ?_
  split
  · refine .bind (.reads _) fun tip => ?_
    split_ifs
    · exact .bind (adoptBlock block) fun _ => act _
    · exact .pure _
  · exact .throw _
  · exact .throw _

end Untouched

/-! ## Incoming blocks -/

/-- Evaluates a block: the books stay right, and the pool is as it was where the
    orphans of the block are to be resolved. -/
def Accounts (m : NodeM Bool) : Prop :=
  ∀ {w : World}, Books MAX_ORPHANS [] w →
    Wp m w (fun connect w' => Books MAX_ORPHANS [] w' ∧ (connect = true → SamePool w w'))
      fun _ w' => Books MAX_ORPHANS [] w'

namespace Accounts

variable {opts : NodeOptions} {env : Env} {block : Block} {fromNodeId : Text}

theorem pure (connect : Bool) : Accounts (Pure.pure connect) := fun hb => ⟨hb, fun _ => refl _⟩

theorem throw (e : NodeError) : Accounts (MonadExcept.throw e) := fun hb => hb

theorem bind {α : Type} {m : NodeM α} {f : α → NodeM Bool} (hm : Keeps Untouched m)
    (hf : ∀ a, Accounts (f a)) : Accounts (m >>= f) := by
  intro w hb
  rw [wp_bind]
  refine (hm.wp w).mono (fun a w' hsame => ?_) fun _ w' hsame => hb.same hsame.toSamePool
  exact (hf a (hb.same hsame.toSamePool)).mono
    (fun _ _ h => ⟨h.1, fun hc => IsTrans.trans _ _ _ hsame.toSamePool (h.2 hc)⟩) fun _ _ h => h

theorem rejectBlock (reason : Text) (blame : Bool) :
    Accounts (do rejectBlock block fromNodeId reason blame; Pure.pure false) :=
  fun hb => ⟨hb.reject _ _ _ _ _, by simp⟩

theorem queueOrphan {m : NodeM Unit} (hm : Keeps Untouched m) :
    Accounts (do queueOrphan block fromNodeId; m; Pure.pure false) := by
  intro w hb
  refine ((wp_bind _ _).2 ((hm.wp _).mono (fun _ w' hsame => ?_) fun _ w' hsame => ?_) :
    Wp (do m; Pure.pure false) ((Plainchain.queueOrphan block fromNodeId).exec w).2 _ _)
  · exact ⟨(hb.queue block fromNodeId).same hsame.toSamePool, by simp⟩
  · exact (hb.queue block fromNodeId).same hsame.toSamePool

theorem adoptOrReject : Accounts (adoptOrReject opts env block fromNodeId) := by
  intro w hb
  rw [Plainchain.adoptOrReject, wp_bind, wp_tryCatch, wp_bind]
  refine ((Untouched.adoptBlock block).wp w).mono (fun _ w' hsame => ?_) fun e w' hsame => ?_
  · exact ⟨hb.same ⟨hsame.orphans, hsame.hashes⟩, fun _ => ⟨hsame.orphans, hsame.hashes⟩⟩
  · cases e with
    | replay blockHash detail => exact ⟨(hb.same hsame.toSamePool).reject _ _ _ _ _, by simp⟩
    | _ => exact (hb.same hsame.toSamePool).same ⟨rfl, rfl⟩

theorem decideFork (parentWork : ℕ) : Accounts (decideFork opts env block fromNodeId parentWork) := by
  refine bind (fun _ => ⟨⟨rfl, rfl⟩, rfl⟩) fun _ => bind (.lift _) fun added =>
    bind (Untouched.indexBlock _ _) fun _ => bind Untouched.currentWork fun current => ?_
  split_ifs
  · exact adoptOrReject
  · exact pure _

theorem acceptBlock (parent : Block) : Accounts (acceptBlock opts env block fromNodeId parent) := by
  refine bind (.reads _) fun chain => bind (Untouched.onHeaders _) fun found => ?_
  cases found with
  | none => exact fun hb => ⟨hb.queue _ _, by simp⟩
  | some parentIndexed => exact bind (Untouched.putBlock _) fun _ => decideFork _

theorem evaluateBlock : Accounts (evaluateBlock opts env block fromNodeId) := by
  refine bind (.reads _) fun w => ?_
  split
  · exact pure _
  split
  · exact rejectBlock _ _
  split
  · exact queueOrphan (Untouched.requestHeadersFrom _ _)
  split
  · exact rejectBlock _ _
  refine bind (.reads _) fun w => bind (.lift _) fun ctx => ?_
  split
  · exact acceptBlock _
  · exact rejectBlock _ _
  · exact throw _

end Accounts

/-! ## What waits behind a block -/

/-- A block with the hash waits for the parent. -/
def Waits (w : World) (parent hash : Text) : Prop :=
  ∃ o ∈ (w.orphansByMissingParent.get parent).getD [], o.hash = hash

/-- The hash of a block, and those of what waits for it or for one of these. -/
def Behind (w : World) : Text → Text → Prop := Relation.ReflTransGen (Waits w)

/-- No two of the blocks that wait behind a block wait for the same parent. -/
def SingleFile (w : World) (hash : Text) : Prop :=
  ∀ parent, Behind w hash parent →
    ∀ waiting, w.orphansByMissingParent.get parent = some waiting → waiting.length ≤ 1

section SingleFile

variable {w w' : World} {hash hash' : Text}

theorem waits_of_get {parent : Text} {waiting : List Orphan} {o : Orphan}
    (h : w.orphansByMissingParent.get parent = some waiting) (ho : o ∈ waiting) :
    Waits w parent o.hash :=
  ⟨o, by rwa [h], rfl⟩

/-- What waits behind a block of the file, in a pool with no other groups. -/
theorem SingleFile.mono (hf : SingleFile w hash) (hsub : ∀ parent waiting,
      w'.orphansByMissingParent.get parent = some waiting →
      w.orphansByMissingParent.get parent = some waiting)
    (hbehind : Behind w hash hash') : SingleFile w' hash' := by
  have hwaits : ∀ parent hash, Waits w' parent hash → Waits w parent hash := by
    rintro parent _ ⟨o, ho, rfl⟩
    cases hget : w'.orphansByMissingParent.get parent with
    | none => simp [hget] at ho
    | some waiting =>
      rw [hget] at ho
      exact waits_of_get (hsub _ _ hget) ho
  intro parent hparent waiting hget
  exact hf parent (hbehind.trans (Relation.ReflTransGen.mono hwaits _ _ hparent)) waiting (hsub _ _ hget)

variable {opts : NodeOptions} {env : Env}

/-- The one block that waits is struck off before it is handled. -/
theorem resolveOrphansOf_books {handle : Block → Text → NodeM Unit}
    (hhandle : ∀ {w : World} {o : Orphan}, Books MAX_ORPHANS [] w → SingleFile w o.hash →
      Wp (handle o.block o.fromNodeId) w (fun _ w' => Books MAX_ORPHANS [] w')
        fun _ w' => Books MAX_ORPHANS [] w')
    (hb : Books MAX_ORPHANS [] w) (hf : SingleFile w hash) :
    Wp (resolveOrphansOf handle hash) w (fun _ w' => Books MAX_ORPHANS [] w')
      fun _ w' => Books MAX_ORPHANS [] w' := by
  rw [resolveOrphansOf, wp_bind, wp_reads]
  split
  · exact hb
  next waiting hget =>
  rw [wp_bind, wp_writes]
  have htaken := hb.take hget
  rw [append_nil] at htaken
  match waiting, hf hash .refl waiting hget, hget, htaken with
  | [], _, _, htaken => exact htaken
  | [o], _, hget, htaken =>
    rw [forM_cons, wp_bind, wp_bind, wp_writes]
    refine (hhandle htaken.arrive (hf.mono (fun parent waiting hget' => ?_)
      (.single (waits_of_get hget (mem_singleton_self o))))).mono (fun _ _ h => h) fun _ _ h => h
    simp only [OrdMap.get_delete] at hget'
    split_ifs at hget'
    exact hget'
  | _ :: _ :: _, hlength, _, _ => simp at hlength

theorem handleBlockFrom_books (fuel : ℕ) (block : Block) (fromNodeId : Text)
    (hb : Books MAX_ORPHANS [] w) (hf : SingleFile w block.hash) :
    Wp (handleBlockFrom opts env fuel block fromNodeId) w (fun _ w' => Books MAX_ORPHANS [] w')
      fun _ w' => Books MAX_ORPHANS [] w' := by
  induction fuel generalizing block fromNodeId w with
  | zero => exact hb
  | succ fuel ih =>
    rw [handleBlockFrom, wp_bind]
    refine (Accounts.evaluateBlock hb).mono ?_ fun _ _ h => h
    rintro connect w' ⟨hb', hsame⟩
    split_ifs with hconnect
    · refine resolveOrphansOf_books (fun hb hf => ih _ _ hb hf) hb' (hf.mono ?_ .refl)
      intro parent waiting hget
      rwa [(hsame hconnect).orphans] at hget
    · exact hb'

end SingleFile

/-! ## Runs -/

/-- No two blocks that wait behind an arriving block wait for the same parent. -/
def Event.SingleFile (s : Session) : Event → Prop
  | .message (.NEW_BLOCK block) _ => Plainchain.SingleFile s.toWorld block.hash
  | _ => True

section Run

variable {opts : NodeOptions} {H : Set BlockHeader} {env : Env} {s : Session}

theorem books_openNode (chain : ChainState) (headers : HeaderIndex) (store : Store Text UtxoEntry) :
    Books MAX_ORPHANS [] (openNode opts chain headers store) where
  hashes := rfl
  once := nodup_nil
  under := fun _ _ h => by cases h
  nonempty := fun _ _ h => by cases h
  room := Nat.zero_le _

theorem start_books {w : World} (hw : start opts = .ok w) : Books MAX_ORPHANS [] w := by
  obtain ⟨coinbase, undo, u, work, -, -, -, rfl⟩ := start_eq_ok hw
  exact books_openNode _ _ _

theorem handleMessage_books {message : Message} {fromNodeId : Text}
    (hb : Books MAX_ORPHANS [] s.toWorld)
    (hf : (Event.message message fromNodeId).SingleFile s) :
    Books MAX_ORPHANS [] ((handleMessage opts env message fromNodeId).exec s.toWorld).2 := by
  cases message with
  | NEW_BLOCK block => exact (handleBlockFrom_books _ block fromNodeId hb hf).exec
  | NEW_TX tx => exact hb.same (Untouched.handleTransaction tx _).toSamePool
  | GET_BLOCKS fromHeight locator => exact hb.same ⟨rfl, rfl⟩
  | GET_HEADERS locator => exact hb.same ⟨rfl, rfl⟩
  | HEADERS headers => exact hb.same (Untouched.handleHeaders _ _).toSamePool
  | INV_BLOCKS hashes => exact hb.same (Untouched.handleInvBlocks hashes _).toSamePool

theorem step_books {event : Event} (hb : Books MAX_ORPHANS [] s.toWorld)
    (hf : event.SingleFile s) : Books MAX_ORPHANS [] (step opts s env event).toWorld := by
  cases event with
  | message message fromNodeId => exact handleMessage_books hb hf
  | peerConnected peerId => exact hb.same (Untouched.requestHeadersFrom peerId none _).toSamePool
  | submitTransaction tx => exact hb.same (Untouched.submitTransaction tx _).toSamePool
  | buildBlockTemplate =>
    dsimp only [step]
    split <;> exact hb
  | mined template nonce key =>
    dsimp only [step]
    split
    · exact hb.same (Untouched.adoptMined _ _).toSamePool
    · exact hb
  | restart => exact books_openNode _ _ _

/-- The books of the pool are right between events, whatever the handlers throw. -/
theorem orphan_books (hr : ReachableWhere opts H (fun s _ event => event.SingleFile s) s) :
    OrphanBooks s.toWorld := by
  refine Books.orphanBooks ?_
  induction hr with
  | initial _ hw => exact start_books hw
  | next _ _ _ hf ih => exact step_books ih hf

end Run

/-! ## Blocks left behind -/

/-- A block after the first one that claims to be genesis: its reward cannot be
    computed. -/
def strayBlock (nonce : ℕ) : Block :=
  let header := { firstBlock.header with height := 0, previousHash := firstBlock.hash, nonce }
  { header, transactions := firstBlock.transactions, hash := computeBlockHash header }

/-- The sample node after blocks from a peer. -/
def receivedRun (blocks : List Block) : Session :=
  blocks.foldl (fun s block => step sampleOptions s sampleEnv (.message (.NEW_BLOCK block) (lit "p")))
    { toWorld := started sampleOptions, templates := [] }

theorem receivedRun_concat (blocks : List Block) (block : Block) :
    receivedRun (blocks ++ [block]) =
      step sampleOptions (receivedRun blocks) sampleEnv (.message (.NEW_BLOCK block) (lit "p")) :=
  foldl_concat _ _ _ _

theorem reachable_receivedRun (blocks : List Block) :
    Reachable sampleOptions Set.univ (receivedRun blocks) := by
  induction blocks using List.reverseRecOn with
  | nil => exact .initial (Set.mem_univ _) start_sample
  | append_singleton blocks block ih =>
    rw [receivedRun_concat]
    exact .next sampleEnv ih trivial fun _ _ => Set.mem_univ _

/-- A stray block waits for the first one, which arrives. -/
theorem orphan_books_sample :
    listed (receivedRun [strayBlock 0]).toWorld = [⟨strayBlock 0, lit "p"⟩] ∧
    (receivedRun [strayBlock 0, firstBlock]).chain.tip = some ⟨firstBlock.hash, 1⟩ ∧
    OrphanBooks (receivedRun [strayBlock 0, firstBlock]).toWorld := by
  have hreads : (started sampleOptions).orphansByMissingParent.entries = [] ∧
      (receivedRun [strayBlock 0]).orphansByMissingParent.entries =
        [(firstBlock.hash, [⟨strayBlock 0, lit "p"⟩])] ∧
      (receivedRun [strayBlock 0, firstBlock]).chain.tip = some ⟨firstBlock.hash, 1⟩ := by
    decide +kernel
  obtain ⟨hnone, hentries, htip⟩ := hreads
  have hempty : ∀ hash, SingleFile (started sampleOptions) hash := by
    intro hash parent _ waiting hget
    rw [OrdMap.get_eq_some, hnone] at hget
    cases hget
  have hone : ∀ hash, SingleFile (receivedRun [strayBlock 0]).toWorld hash := by
    intro hash parent _ waiting hget
    rw [OrdMap.get_eq_some, hentries] at hget
    cases mem_singleton.1 hget
    exact Nat.le_refl 1
  have hqueued : ReachableWhere sampleOptions Set.univ (fun s _ event => event.SingleFile s)
      (receivedRun ([] ++ [strayBlock 0])) := by
    rw [receivedRun_concat]
    exact .next (.initial (Set.mem_univ _) start_sample) trivial (fun _ _ => Set.mem_univ _) (hempty _)
  have hr : ReachableWhere sampleOptions Set.univ (fun s _ event => event.SingleFile s)
      (receivedRun ([strayBlock 0] ++ [firstBlock])) := by
    rw [receivedRun_concat]
    exact .next hqueued trivial (fun _ _ => Set.mem_univ _) (hone _)
  refine ⟨?_, htip, orphan_books hr⟩
  rw [listed, OrdMap.values, hentries]
  rfl

/-- Two stray blocks wait for the first one. When it arrives, the handling of one
    throws, and the hash of the other stays. -/
theorem orphans_left_behind :
    Reachable sampleOptions Set.univ (receivedRun [strayBlock 0, strayBlock 1, firstBlock]) ∧
    (strayBlock 1).hash ∈ (receivedRun [strayBlock 0, strayBlock 1, firstBlock]).orphanHashes ∧
    listed (receivedRun [strayBlock 0, strayBlock 1, firstBlock]).toWorld = [] ∧
    ¬OrphanBooks (receivedRun [strayBlock 0, strayBlock 1, firstBlock]).toWorld := by
  obtain ⟨hmem, hlisted⟩ : (strayBlock 1).hash ∈
      (receivedRun [strayBlock 0, strayBlock 1, firstBlock]).orphanHashes ∧
      listed (receivedRun [strayBlock 0, strayBlock 1, firstBlock]).toWorld = [] := by decide +kernel
  refine ⟨reachable_receivedRun _, hmem, hlisted, fun h => ?_⟩
  rw [h.hashes, hlisted] at hmem
  cases hmem

end Plainchain
