import Plainchain.Lib.Ancestry
import Plainchain.Node.Atomic
import Plainchain.State.Staging

/-!
# What an adoption writes

The plan of a reorganisation is two paths to a common ancestor
(`planReorg_path`), and what is staged for it is read off the operations of the
batch, sublevel by sublevel (`connectBlocks_ops`, `exec_disconnectBlocks`).

Ancestry is a matter of headers. They are looked up by `hdr`, which knows those
of the stored blocks and possibly of a block that is about to be stored.
-/

namespace Plainchain

open Js Kv Ancestry List

/-! ## Ancestry by headers -/

section Headers

/-- The hash of the parent; genesis has none. -/
def parentHash (hdr : Text → Option BlockHeader) (hash : Text) : Option Text :=
  (hdr hash).bind fun header => if header.height = 0 then none else some header.previousHash

/-- The height of a known header. -/
def heightIn (hdr : Text → Option BlockHeader) (hash : Text) : ℕ :=
  ((hdr hash).map (·.height)).getD 0

/-- The headers of stored blocks. -/
def ChainState.headerOf (chain : ChainState) (hash : Text) : Option BlockHeader :=
  (chain.getBlock hash).map (·.header)

/-- Headers whose ancestry is complete down to the one root. -/
structure Rootward (hdr : Text → Option BlockHeader) : Prop where
  linked : ∀ hash header, hdr hash = some header → header.height ≠ 0 →
    ∃ parent, hdr header.previousHash = some parent ∧ header.height = parent.height + 1
  root : ∀ x y hx hy, hdr x = some hx → hdr y = some hy → hx.height = 0 → hy.height = 0 → x = y

variable {hdr : Text → Option BlockHeader}

theorem heightIn_eq {hash : Text} {header : BlockHeader} (h : hdr hash = some header) :
    heightIn hdr hash = header.height := by
  simp [heightIn, h]

theorem parentHash_eq {hash : Text} {header : BlockHeader} (h : hdr hash = some header)
    (h0 : header.height ≠ 0) : parentHash hdr hash = some header.previousHash := by
  simp [parentHash, h, h0]

theorem Rootward.height_parent (hroot : Rootward hdr) (x p : Text)
    (h : parentHash hdr x = some p) : heightIn hdr x = heightIn hdr p + 1 := by
  unfold parentHash at h
  cases hx : hdr x with
  | none => simp [hx] at h
  | some header =>
    rw [hx, Option.bind_some] at h
    split at h
    · cases h
    · next h0 =>
      cases h
      obtain ⟨parent, hp, hheight⟩ := hroot.linked x header hx h0
      rw [heightIn_eq hx, heightIn_eq hp, hheight]

end Headers

/-! ## The plan -/

variable {block : Block} {blocks : List Block} {u' u : UtxoSet} {α : Type}

section Plan

variable {chain : ChainState} {hdr : Text → Option BlockHeader}
  (hstored : ∀ hash block, chain.getBlock hash = some block → hdr hash = some block.header)

/-- A block whose header is known. -/
def Known (hdr : Text → Option BlockHeader) (block : Block) : Prop :=
  hdr block.hash = some block.header

theorem parentOf_eq_ok {parent : Block} :
    parentOf chain block = .ok parent ↔ chain.getBlock block.header.previousHash = some parent := by
  unfold parentOf
  cases chain.getBlock block.header.previousHash <;> simp

include hstored

/-- The step from a block to its parent. -/
theorem parentOf_known {parent : Block} (hb : Known hdr block) (h0 : block.header.height ≠ 0)
    (h : parentOf chain block = .ok parent) :
    Known hdr parent ∧ chain.getBlock parent.hash = some parent ∧
      parentHash hdr block.hash = some parent.hash := by
  rw [parentOf_eq_ok] at h
  have hhash := chain.keyed _ _ h
  rw [hhash]
  refine ⟨?_, h, parentHash_eq hb h0⟩
  rw [Known, hhash]
  exact hstored _ _ h

/-- The blocks that a walk passes are stored, but maybe for the first. -/
theorem walkDown_path (hroot : Rootward hdr) {height fuel : ℕ} {last : Block} {above : List Block}
    (hb : Known hdr block) (h : walkDown chain height fuel block = .ok (above, last)) :
    Path (parentHash hdr) block.hash (above.map Block.hash) last.hash ∧ Known hdr last ∧
      last.header.height = min block.header.height height ∧
      (last = block ∨ chain.getBlock last.hash = some last) ∧
      ∀ b ∈ above, Known hdr b ∧ (b = block ∨ chain.getBlock b.hash = some b) := by
  induction fuel generalizing block above with
  | zero => cases h
  | succ fuel ih =>
    rw [walkDown] at h
    split at h
    · next hlt =>
      simp only [bind_eq_ok] at h
      obtain ⟨parent, hparent, ⟨above', last'⟩, hwalk, h⟩ := h
      cases h
      obtain ⟨hp, hpstored, hstep⟩ := parentOf_known hstored hb (by omega) hparent
      obtain ⟨hpath, hlast, hmin, hl, hall⟩ := ih hp hwalk
      have hheight := hroot.height_parent _ _ hstep
      rw [heightIn_eq hb, heightIn_eq hp] at hheight
      refine ⟨⟨rfl, _, hstep, hpath⟩, hlast, by omega, ?_, ?_⟩
      · rcases hl with rfl | hl
        · exact .inr hpstored
        · exact .inr hl
      · rw [forall_mem_cons]
        refine ⟨⟨hb, .inl rfl⟩, fun b hmem => ?_⟩
        obtain ⟨hkb, rfl | hsb⟩ := hall b hmem
        · exact ⟨hkb, .inr hpstored⟩
        · exact ⟨hkb, .inr hsb⟩
    · next hle =>
      cases h
      exact ⟨rfl, hb, by omega, .inl rfl, by simp⟩

theorem walkBoth_path (hroot : Rootward hdr) {fuel : ℕ} {a b : Block} {as bs : List Block}
    (ha : Known hdr a) (hb : Known hdr b) (hheight : a.header.height = b.header.height)
    (h : walkBoth chain fuel a b = .ok (as, bs)) :
    ∃ fork, Path (parentHash hdr) a.hash (as.map Block.hash) fork ∧
      Path (parentHash hdr) b.hash (bs.map Block.hash) fork ∧
      (∀ x ∈ as, Known hdr x ∧ (x = a ∨ chain.getBlock x.hash = some x)) ∧
      ∀ x ∈ bs, Known hdr x ∧ (x = b ∨ chain.getBlock x.hash = some x) := by
  induction fuel generalizing a b as bs with
  | zero => cases h
  | succ fuel ih =>
    rw [walkBoth] at h
    split at h
    · next heq =>
      cases h
      exact ⟨a.hash, rfl, heq.symm, by simp, by simp⟩
    · next hne =>
      simp only [bind_eq_ok] at h
      obtain ⟨a', ha', b', hb', ⟨as', bs'⟩, hwalk, h⟩ := h
      cases h
      -- At height `0` both are the root, and the walk has ended.
      have h0 : a.header.height ≠ 0 := fun h0 =>
        hne (hroot.root _ _ _ _ ha hb h0 (hheight ▸ h0))
      obtain ⟨hka, hsa, hstepa⟩ := parentOf_known hstored ha h0 ha'
      obtain ⟨hkb, hsb, hstepb⟩ := parentOf_known hstored hb (hheight ▸ h0) hb'
      have hha := hroot.height_parent _ _ hstepa
      have hhb := hroot.height_parent _ _ hstepb
      rw [heightIn_eq ha, heightIn_eq hka] at hha
      rw [heightIn_eq hb, heightIn_eq hkb] at hhb
      obtain ⟨fork, hpa, hpb, halla, hallb⟩ := ih hka hkb (by omega) hwalk
      refine ⟨fork, ⟨rfl, _, hstepa, hpa⟩, ⟨rfl, _, hstepb, hpb⟩, ?_, ?_⟩
      · rw [forall_mem_cons]
        refine ⟨⟨ha, .inl rfl⟩, fun x hx => ?_⟩
        obtain ⟨hkx, rfl | hsx⟩ := halla x hx
        · exact ⟨hkx, .inr hsa⟩
        · exact ⟨hkx, .inr hsx⟩
      · rw [forall_mem_cons]
        refine ⟨⟨hb, .inl rfl⟩, fun x hx => ?_⟩
        obtain ⟨hkx, rfl | hsx⟩ := hallb x hx
        · exact ⟨hkx, .inr hsb⟩
        · exact ⟨hkx, .inr hsx⟩

/-- A plan is a path from the old head and one from the new head, to a common
    ancestor. -/
theorem planReorg_path (hroot : Rootward hdr) {start goal : Block} {plan : ReorgPlan}
    (hs : Known hdr start) (hg : Known hdr goal) (h : planReorg chain start goal = .ok plan) :
    ∃ fork, Path (parentHash hdr) start.hash (plan.toDisconnect.map Block.hash) fork ∧
      Path (parentHash hdr) goal.hash (plan.toConnect.reverse.map Block.hash) fork ∧
      (∀ b ∈ plan.toDisconnect, Known hdr b ∧ (b = start ∨ chain.getBlock b.hash = some b)) ∧
      ∀ b ∈ plan.toConnect, Known hdr b ∧ (b = goal ∨ chain.getBlock b.hash = some b) := by
  simp only [planReorg, bind_eq_ok] at h
  obtain ⟨⟨above, a⟩, ha, ⟨below, b⟩, hb, ⟨as, bs⟩, hboth, h⟩ := h
  cases h
  dsimp only at hb hboth
  obtain ⟨hpa, hka, hmina, hla, halla⟩ := walkDown_path hstored hroot hg ha
  obtain ⟨hpb, hkb, hminb, hlb, hallb⟩ := walkDown_path hstored hroot hs hb
  obtain ⟨fork, hfa, hfb, hallas, hallbs⟩ :=
    walkBoth_path hstored hroot hka hkb (by omega) hboth
  refine ⟨fork, ?_, ?_, ?_, ?_⟩
  · rw [map_append]
    exact hpb.append hfb
  · rw [reverse_reverse, map_append]
    exact hpa.append hfa
  · intro x hx
    rcases mem_append.1 hx with hx | hx
    · exact hallb x hx
    · obtain ⟨hkx, rfl | hsx⟩ := hallbs x hx
      · exact ⟨hkx, hlb⟩
      · exact ⟨hkx, .inr hsx⟩
  · intro x hx
    rw [mem_reverse] at hx
    rcases mem_append.1 hx with hx | hx
    · exact halla x hx
    · obtain ⟨hkx, rfl | hsx⟩ := hallas x hx
      · exact ⟨hkx, hla⟩
      · exact ⟨hkx, .inr hsx⟩

end Plan

/-! ## The operations -/

/-- What the batch holds for a connected block, but for the address index. -/
def connectOps (block : Block) (undo : BlockUndo) : List StateOp :=
  putUndoOp block.hash undo ::
    (indexOps block ++ [setCanonicalHashAtHeightOp block.header.height block.hash])

/-- What the batch holds for a disconnected block, but for the address index. -/
def disconnectOps (block : Block) : List StateOp := deleteUndoOp block.hash :: unindexOps block

/-- A part of the operations that has none on the address index. -/
def NoActivity {α : Type} (f : StateOp → Option α) : Prop := ∀ key record, f (.activity key record) = none

theorem NoActivity.addressIndexOps {f : StateOp → Option α} (hf : NoActivity f) (block : Block)
    (undo : BlockUndo) (remove : Bool) : (addressIndexOps block undo remove).filterMap f = [] := by
  rw [filterMap_eq_nil_iff]
  intro op hop
  simp only [Plainchain.addressIndexOps, mem_flatMap, mem_map] at hop
  obtain ⟨⟨tx, i⟩, -, ⟨address, totals⟩, -, rfl⟩ := hop
  cases remove <;> exact hf _ _

theorem NoActivity.connect {f : StateOp → Option α} (hf : NoActivity f) (opts : NodeOptions)
    (chain : ChainState) (block : Block) (undo : BlockUndo) (batch : ConnectedInBatch) :
    (connectActivityOps opts chain block undo batch).filterMap f = [] := by
  unfold connectActivityOps
  split
  · rw [filterMap_append, hf.addressIndexOps, nil_append]
    split
    · rw [Option.map_eq_bind]
      cases ((_ : Option (Block × BlockUndo)).or _) with
      | none => rfl
      | some p => exact hf.addressIndexOps _ _ _
    · rfl
  · rfl

theorem NoActivity.disconnect {f : StateOp → Option α} (hf : NoActivity f) (opts : NodeOptions)
    (chain : ChainState) (block : Block) (undo : BlockUndo) :
    (disconnectActivityOps opts chain block undo).filterMap f = [] := by
  unfold disconnectActivityOps
  split
  · rw [filterMap_append, hf.addressIndexOps, nil_append]
    split
    · cases canonicalBlockWithUndo chain _ with
      | none => rfl
      | some p => exact hf.addressIndexOps _ _ _
    · rfl
  · rfl

/-- The writes to the address index for blocks that are connected one after the
    other. -/
def connectedActivity (opts : NodeOptions) (chain : ChainState) :
    ConnectedInBatch → List (Block × BlockUndo) → List StateOp
  | _, [] => []
  | batch, (block, undo) :: records =>
    let batch := if opts.addressIndexEnabled then (block.header.height, block, undo) :: batch
      else batch
    connectActivityOps opts chain block undo batch ++ connectedActivity opts chain batch records

/-- What is left of the operations for the transactions of a block, those on anchors
    apart. -/
theorem filterMap_transactionOps {f : StateOp → Option α} {location : Transaction → StateOp}
    {anchor : Transaction → Text → StateOp} (hanchor : ∀ tx data, f (anchor tx data) = none) :
    (transactionOps block location anchor).filterMap f =
      block.transactions.filterMap fun tx => f (location tx) := by
  rw [transactionOps, filterMap_flatMap, filterMap_eq_flatMap_toList]
  refine flatMap_congr fun tx _ => ?_
  have hanchors : (tx.data.toList.map (anchor tx)).filterMap f = [] := by
    rw [filterMap_map, filterMap_eq_nil_iff]
    exact fun data _ => hanchor tx data
  rw [filterMap_cons, hanchors]
  cases f (location tx) <;> rfl

/-- A part of the operations that has none on the indexes of transactions and
    anchors. -/
def NoIndex {α : Type} (f : StateOp → Option α) : Prop :=
  (∀ txId hash, f (.txLocation txId hash) = none) ∧ ∀ key record, f (.anchor key record) = none

namespace NoIndex

variable {α : Type} {f : StateOp → Option α} (hf : NoIndex f) (block : Block)

include hf

theorem indexOps : (indexOps block).filterMap f = [] :=
  (filterMap_transactionOps fun _ _ => hf.2 _ _).trans
    (filterMap_eq_nil_iff.2 fun _ _ => hf.1 _ _)

theorem unindexOps : (unindexOps block).filterMap f = [] :=
  (filterMap_transactionOps fun _ _ => hf.2 _ _).trans
    (filterMap_eq_nil_iff.2 fun _ _ => hf.1 _ _)

end NoIndex

theorem noIndex_activity : NoIndex StateOp.activity? := ⟨fun _ _ => rfl, fun _ _ => rfl⟩

/-- Blocks applied one after the other, each with its undo record. -/
def Applied (S : SignatureScheme) : UtxoSet → List (Block × BlockUndo) → UtxoSet → Prop
  | u, [], u' => u = u'
  | u, (block, undo) :: records, u' => ∃ u₁,
    applyTransactions S block.header.height u block.transactions = .ok (undo, u₁) ∧
      Applied S u₁ records u'

section Ops

open Prog

variable {opts : NodeOptions} {chain : ChainState}

theorem applyBlock_returns {txs : List Transaction} {undo : BlockUndo} :
    (applyBlock opts block txs).exec u = (.ok undo, u') ↔
      applyTransactions opts.signatures block.header.height u txs = .ok (undo, u') := by
  induction txs generalizing u undo with
  | nil => simp [applyBlock, applyTransactions]
  | cons tx txs ih =>
    simp only [applyBlock, applyTransactions, bind_returns, bind_eq_ok, exec_of, exec_pure,
      Prod.exists]
    constructor
    · rintro ⟨undo₁, u₁, htx, undos, u₂, htxs, h⟩
      cases happly : applyTransaction opts.signatures u tx block.header.height with
      | error detail => simp [happly] at htx
      | ok r =>
        obtain ⟨undo', u'⟩ := r
        rw [happly] at htx
        cases htx
        cases h
        exact ⟨_, _, rfl, _, _, ih.1 htxs, rfl⟩
    · rintro ⟨undo₁, u₁, htx, undos, u₂, htxs, h⟩
      cases h
      exact ⟨undo₁, u₁, by rw [htx], undos, u', ih.2 htxs, rfl⟩

/-- Connecting blocks: they are applied, and the batch holds their records. -/
theorem connectBlocks_ops {batch : ConnectedInBatch} {ops : List StateOp}
    (h : (connectBlocks opts chain blocks batch).exec u = (.ok ops, u')) :
    ∃ records : List (Block × BlockUndo), records.map Prod.fst = blocks ∧
      Applied opts.signatures u records u' ∧
      (∀ {α : Type} (f : StateOp → Option α), NoActivity f →
        ops.filterMap f = records.flatMap fun p => (connectOps p.1 p.2).filterMap f) ∧
      ops.filterMap StateOp.activity? =
        (connectedActivity opts chain batch records).filterMap StateOp.activity? := by
  induction blocks generalizing batch u ops with
  | nil =>
    cases h
    exact ⟨[], rfl, rfl, fun _ _ => rfl, rfl⟩
  | cons block blocks ih =>
    simp only [connectBlocks, connectBlock, bind_returns, exec_pure, bind_assoc, pure_bind] at h
    obtain ⟨undo, u₁, hblock, rest, u₂, hrest, h⟩ := h
    cases h
    obtain ⟨records, hblocks, happlied, hops, hactivity⟩ := ih hrest
    refine ⟨(block, undo) :: records, by rw [map_cons, hblocks],
      ⟨u₁, applyBlock_returns.1 hblock, happlied⟩, fun f hf => ?_, ?_⟩
    · rw [filterMap_append, hops f hf, flatMap_cons]
      congr 1
      simp only [connectOps, filterMap_cons, filterMap_append, hf.connect,
        append_nil]
    · rw [filterMap_append, hactivity, connectedActivity, filterMap_append]
      congr 1
      rw [filterMap_cons, filterMap_append, filterMap_append,
        noIndex_activity.indexOps, nil_append]
      exact append_nil _

theorem exec_disconnectBlocks (undos : List (Block × BlockUndo)) (u : UtxoSet) :
    (disconnectBlocks opts chain undos).exec u =
      (.ok (undos.flatMap fun p => disconnectOps p.1 ++ disconnectActivityOps opts chain p.1 p.2),
        undos.foldl (fun u p => undoTransactions u p.2) u) := by
  induction undos generalizing u with
  | nil => rfl
  | cons p undos ih =>
    obtain ⟨block, undo⟩ := p
    simp only [disconnectBlocks, disconnectBlock, exec_bind, exec_writes, exec_pure, ih,
      flatMap_cons, foldl_cons, disconnectOps, cons_append]

end Ops

/-! ## The staged set -/

/-- A set at the beginning of staging. -/
def UtxoSet.staged (u : UtxoSet) : UtxoSet := { u with staging := some ⟨.empty, false⟩ }

namespace Overlaid

variable {base u : UtxoSet} {clearBase : Bool}

theorem staged (base : UtxoSet) : Overlaid base false base.staged := ⟨rfl, rfl, _, rfl⟩

theorem undoTransactions (h : Overlaid base clearBase u) (undos : BlockUndo) :
    Overlaid base clearBase (undoTransactions u undos) := by
  induction undos with
  | nil => exact h
  | cons undo undos ih => exact ih.write _

theorem applyTransactions {S : SignatureScheme} {height : ℕ} {txs : List Transaction}
    {undo : BlockUndo} (h : Overlaid base clearBase u)
    (happly : applyTransactions S height u txs = .ok (undo, u')) : Overlaid base clearBase u' := by
  induction txs generalizing u undo with
  | nil =>
    cases happly
    exact h
  | cons tx txs ih =>
    obtain ⟨undo₁, u₁, undos, htx, htxs, rfl⟩ := applyTransactions_cons_eq_ok happly
    obtain ⟨-, heq⟩ := applyTransaction_eq_ok.1 htx
    cases heq
    exact ih (h.write _) htxs

theorem applied {S : SignatureScheme} {records : List (Block × BlockUndo)}
    (h : Overlaid base clearBase u) (happlied : Applied S u records u') :
    Overlaid base clearBase u' := by
  induction records generalizing u with
  | nil =>
    cases happlied
    exact h
  | cons p records ih =>
    obtain ⟨u₁, hblock, hrest⟩ := happlied
    exact ih (h.applyTransactions hblock) hrest

theorem disconnected (h : Overlaid base clearBase u) (undos : List (Block × BlockUndo)) :
    Overlaid base clearBase (undos.foldl (fun u p => Plainchain.undoTransactions u p.2) u) := by
  induction undos generalizing u with
  | nil => exact h
  | cons p undos ih => exact ih (h.undoTransactions p.2)

end Overlaid

/-! ## The whole -/

/-- The heights above a head that is lower than the tip, as a list. -/
def clearedHeights (chain : ChainState) (head : Block) : List ℕ :=
  match chain.tip with
  | none => []
  | some tip => List.range' (head.header.height + 1) (tip.height - head.header.height)

theorem mem_clearedHeights {chain : ChainState} {head : Block} {tip : ChainTip}
    (htip : chain.tip = some tip) (i : ℕ) :
    i ∈ clearedHeights chain head ↔ head.header.height < i ∧ i ≤ tip.height := by
  simp only [clearedHeights, htip, mem_range'_1]
  omega

theorem clearOps_eq (chain : ChainState) (head : Block) :
    clearOps chain head = (clearedHeights chain head).map fun h => .canonical h none := by
  unfold clearOps clearedHeights
  cases chain.tip with
  | none => rfl
  | some tip =>
    dsimp only
    split
    · rfl
    · next h =>
      rw [Nat.sub_eq_zero_of_le (by omega)]
      rfl

/-- What staging a head over the chain of `previousHead` comes to: the blocks of
    `undos` are disconnected with their undo records, those of `records` are
    connected with theirs, and the set then is `after`. -/
structure Adoption (opts : NodeOptions) (chain : ChainState) (u : UtxoSet) (previousHead head : Block)
    (staged : Staged) (undos records : List (Block × BlockUndo)) (after : UtxoSet) : Prop where
  plan : planReorg chain previousHead head = .ok ⟨undos.map Prod.fst, records.map Prod.fst⟩
  undo_eq : ∀ p ∈ undos, chain.getUndo p.1.hash = some p.2
  disconnected : staged.disconnected = undos.map Prod.fst
  connected : staged.connected = records.map Prod.fst
  applied : Applied opts.signatures (undos.foldl (fun u p => undoTransactions u p.2) u.staged)
    records after
  ops : ∃ writes, (∀ key, (u.store.batch writes).get key = after.readRaw key) ∧
    ∀ {α : Type} (f : StateOp → Option α), NoActivity f → staged.ops.filterMap f =
      (undos.flatMap fun p => (disconnectOps p.1).filterMap f)
        ++ (records.flatMap fun p => (connectOps p.1 p.2).filterMap f)
        ++ (clearOps chain head).filterMap f
        ++ (setTipOps head.hash head.header.height).filterMap f
        ++ (writes.map StateOp.utxo).filterMap f
  activity : staged.ops.filterMap StateOp.activity? =
    (undos.flatMap fun p =>
      (disconnectActivityOps opts chain p.1 p.2).filterMap StateOp.activity?)
      ++ (connectedActivity opts chain [] records).filterMap StateOp.activity?

section Whole

open Prog

variable {opts : NodeOptions} {chain : ChainState}

theorem undosOf_eq_some {undos : List (Block × BlockUndo)} (h : undosOf chain blocks = some undos) :
    undos.map Prod.fst = blocks ∧ ∀ p ∈ undos, chain.getUndo p.1.hash = some p.2 := by
  induction blocks generalizing undos with
  | nil =>
    cases h
    simp
  | cons block blocks ih =>
    simp only [undosOf, mapM_cons, Option.bind_eq_bind, Option.bind_eq_some_iff,
      Option.map_eq_some_iff, Option.pure_def, Option.some.injEq] at h
    obtain ⟨_, ⟨undo, hundo, rfl⟩, rest, hrest, rfl⟩ := h
    obtain ⟨hblocks, hall⟩ := ih hrest
    rw [map_cons, hblocks, forall_mem_cons]
    exact ⟨rfl, hundo, hall⟩

theorem undosOf_isSome (h : ∀ b ∈ blocks, (chain.getUndo b.hash).isSome) :
    (undosOf chain blocks).isSome := by
  induction blocks with
  | nil => rfl
  | cons block blocks ih =>
    rw [forall_mem_cons] at h
    obtain ⟨undo, hundo⟩ := Option.isSome_iff_exists.1 h.1
    obtain ⟨rest, hrest⟩ := Option.isSome_iff_exists.1 (ih h.2)
    rw [undosOf] at hrest ⊢
    simp [mapM_cons, hundo, hrest]

/-- Staging that returns is an adoption, where there is a tip and every block to
    disconnect has an undo record. -/
theorem stageOrDiscard_returns (hidle : u.staging = none) {tip : ChainTip}
    {previousHead head : Block} (htip : chain.tip = some tip)
    (hprev : chain.getBlock tip.hash = some previousHead)
    (hundo : ∀ plan, planReorg chain previousHead head = .ok plan →
      ∀ b ∈ plan.toDisconnect, (chain.getUndo b.hash).isSome)
    {staged : Staged} (h : ((stageOrDiscard opts chain head).exec u).1 = .ok staged) :
    ∃ undos records after, Adoption opts chain u previousHead head staged undos records after := by
  obtain ⟨u', hrun⟩ : ∃ u', (stageOrDiscard opts chain head).exec u = (.ok staged, u') :=
    ⟨_, Prod.ext h rfl⟩
  have hstaged : u.beginStaging false = .ok u.staged := by
    simp [UtxoSet.beginStaging, hidle, UtxoSet.staged]
  simp only [stageOrDiscard, beginStaging, exec_bind, exec_of, hstaged, exec_tryCatch] at hrun
  -- The `try` returned: its body did.
  rcases hstage : (stage opts chain head).exec u.staged with ⟨e | staged', u''⟩
  · rw [hstage] at hrun
    simp at hrun
  rw [hstage] at hrun
  cases hrun
  simp only [stage, stageBlocks, htip, Option.bind_some, hprev, bind_returns, exec_lift,
    Prod.mk.injEq] at hstage
  obtain ⟨blocks, u₁, ⟨plan, _, ⟨hplan, rfl⟩, hblocks⟩, utxoOps, u₂, htake, h⟩ := hstage
  obtain ⟨undos, hundos⟩ := Option.isSome_iff_exists.1 (undosOf_isSome (hundo plan hplan))
  obtain ⟨hdisc, hall⟩ := undosOf_eq_some hundos
  simp only [hundos, bind_returns, exec_disconnectBlocks, exec_pure, Prod.mk.injEq,
    Except.ok.injEq] at hblocks
  obtain ⟨dops, _, ⟨rfl, rfl⟩, cops, u₃, hconnect, hblocks, rfl⟩ := hblocks
  obtain ⟨records, hconn, happlied, hops, hactivity⟩ := connectBlocks_ops hconnect
  have hover : Overlaid u false u₃ := ((Overlaid.staged u).disconnected undos).applied happlied
  obtain ⟨writes, hwrites, hstore⟩ := hover.takeStagedOps hidle
  simp only [takeStagedOps, exec_of, hwrites] at htake
  cases htake
  cases h
  subst hblocks
  refine ⟨undos, records, u₃, ?_, hall, hdisc.symm, hconn.symm, happlied, ⟨writes, hstore, ?_⟩, ?_⟩
  · rw [hplan, hdisc, hconn]
  · intro α f hf
    simp only [filterMap_append, filterMap_flatMap, hf.disconnect, append_nil,
      hops f hf]
  · have hclear : (clearOps chain head).filterMap StateOp.activity? = [] := by
      rw [clearOps_eq, filterMap_map, filterMap_eq_nil_iff]
      exact fun _ _ => rfl
    have hutxo : (writes.map StateOp.utxo).filterMap StateOp.activity? = [] := by
      rw [filterMap_map, filterMap_eq_nil_iff]
      exact fun _ _ => rfl
    simp only [filterMap_append, filterMap_flatMap, disconnectOps, filterMap_cons,
      noIndex_activity.unindexOps, hactivity, hclear, hutxo, setTipOps, append_nil, filterMap_nil,
      deleteUndoOp, StateOp.activity?, nil_append]

end Whole

/-! ## Sublevel by sublevel -/

namespace Adoption

variable {opts : NodeOptions} {chain : ChainState} {u : UtxoSet} {previousHead head : Block}
  {staged : Staged} {undos records : List (Block × BlockUndo)} {after : UtxoSet}
  (h : Adoption opts chain u previousHead head staged undos records after)

include h

/-- The part of the batch that is on a sublevel with one write per block. -/
theorem filterMap_eq (f : StateOp → Option α) (hact : NoActivity f) (hidx : NoIndex f)
    (hutxo : ∀ write, f (.utxo write) = none) :
    staged.ops.filterMap f = (undos.filterMap fun p => f (deleteUndoOp p.1.hash))
      ++ (records.flatMap fun p => [putUndoOp p.1.hash p.2,
        setCanonicalHashAtHeightOp p.1.header.height p.1.hash].filterMap f)
      ++ (clearedHeights chain head).filterMap (fun i => f (.canonical i none))
      ++ (f (.tip ⟨head.hash, head.header.height⟩)).toList := by
  obtain ⟨writes, -, hops⟩ := h.ops
  have hw : (writes.map StateOp.utxo).filterMap f = [] := by
    rw [filterMap_eq_nil_iff]
    intro op hop
    obtain ⟨write, -, rfl⟩ := mem_map.1 hop
    exact hutxo write
  have hd : ∀ p : Block × BlockUndo,
      (disconnectOps p.1).filterMap f = (f (deleteUndoOp p.1.hash)).toList := by
    intro p
    rw [disconnectOps, filterMap_cons, hidx.unindexOps]
    cases f (deleteUndoOp p.1.hash) <;> rfl
  have hc : ∀ p : Block × BlockUndo, (connectOps p.1 p.2).filterMap f =
      [putUndoOp p.1.hash p.2,
        setCanonicalHashAtHeightOp p.1.header.height p.1.hash].filterMap f := by
    intro p
    simp only [connectOps, filterMap_cons, filterMap_append, hidx.indexOps,
      nil_append]
  have ht : (setTipOps head.hash head.header.height).filterMap f =
      (f (.tip ⟨head.hash, head.header.height⟩)).toList := by
    rw [setTipOps, filterMap_cons]
    cases f (.tip ⟨head.hash, head.header.height⟩) <;> rfl
  rw [hops f hact, hw, append_nil, ht, clearOps_eq, filterMap_map]
  simp only [hd, hc, filterMap_eq_flatMap_toList]
  rfl

theorem blocks_eq : staged.ops.filterMap StateOp.block? = [] := by
  rw [h.filterMap_eq StateOp.block? (fun _ _ => rfl) ⟨fun _ _ => rfl, fun _ _ => rfl⟩ fun _ => rfl]
  simp [StateOp.block?, deleteUndoOp, putUndoOp, setCanonicalHashAtHeightOp]

theorem headers_eq : staged.ops.filterMap StateOp.header? = [] := by
  rw [h.filterMap_eq StateOp.header? (fun _ _ => rfl) ⟨fun _ _ => rfl, fun _ _ => rfl⟩ fun _ => rfl]
  simp [StateOp.header?, deleteUndoOp, putUndoOp, setCanonicalHashAtHeightOp]

theorem tip_eq : staged.ops.filterMap StateOp.tip? = [⟨head.hash, head.header.height⟩] := by
  rw [h.filterMap_eq StateOp.tip? (fun _ _ => rfl) ⟨fun _ _ => rfl, fun _ _ => rfl⟩ fun _ => rfl]
  simp [StateOp.tip?, deleteUndoOp, putUndoOp, setCanonicalHashAtHeightOp]

theorem canonical_eq : staged.ops.filterMap StateOp.canonical? =
    (records.map fun p => (p.1.header.height, some p.1.hash))
      ++ (clearedHeights chain head).map fun i => (i, none) := by
  rw [h.filterMap_eq StateOp.canonical? (fun _ _ => rfl) ⟨fun _ _ => rfl, fun _ _ => rfl⟩
    fun _ => rfl]
  have hput : (records.flatMap fun p => [putUndoOp p.1.hash p.2,
      setCanonicalHashAtHeightOp p.1.header.height p.1.hash].filterMap StateOp.canonical?) =
      records.map fun p => (p.1.header.height, some p.1.hash) := map_eq_flatMap.symm
  rw [hput]
  simp [StateOp.canonical?, deleteUndoOp]

theorem undo_ops_eq : staged.ops.filterMap StateOp.undo? =
    (undos.map fun p => (p.1.hash, none)) ++ records.map fun p => (p.1.hash, some p.2) := by
  rw [h.filterMap_eq StateOp.undo? (fun _ _ => rfl) ⟨fun _ _ => rfl, fun _ _ => rfl⟩ fun _ => rfl]
  have hput : (records.flatMap fun p => [putUndoOp p.1.hash p.2,
      setCanonicalHashAtHeightOp p.1.header.height p.1.hash].filterMap StateOp.undo?) =
      records.map fun p => (p.1.hash, some p.2) := map_eq_flatMap.symm
  rw [hput]
  simp [StateOp.undo?, deleteUndoOp]

end Adoption

end Plainchain
