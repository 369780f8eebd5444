import Plainchain.Node.Activity

/-!
# Indexes by block

The transaction index and the anchor index of `src/state/chainState.ts` are kept in one
way: what a block has in an index is a page, which is put when the block is connected and
deleted when it is disconnected (`BlockIndex`). An index is exact when it holds the pages
of the canonical blocks and nothing else (`BlockIndex.Exact`). It is exact at the start
(`BlockIndex.start_exact`), and stays so when a block is stored or adopted, as long as no
key is on two pages of the chain that is adopted (`BlockIndex.adopts_exact`).
-/

namespace Plainchain

open Js Kv Ancestry Prog List

def Block.ids (block : Block) : List Text := block.transactions.map Transaction.id

/-- A canonical block that has a transaction. -/
structure Confirms (chain : ChainState) (block : Block) (txId : Text) : Prop where
  canonical : chain.canonical.get block.header.height = some block.hash
  stored : chain.getBlock block.hash = some block
  mem : txId ∈ block.ids

/-- A part of the chain state that follows the blocks: the page of a block, and how the
    operations write it. -/
structure BlockIndex (K V : Type) [DecidableEq K] where
  page : Block → List (K × V)
  read : ChainState → Store K V
  op? : StateOp → Option (K × Option V)
  read_batch : ∀ chain ops, read (chain.batch ops) = (read chain).batch (ops.filterMap op?)
  indexed : ∀ block, (indexOps block).filterMap op? = putAll (page block)
  unindexed : ∀ block, (unindexOps block).filterMap op? = deleteAll (page block)
  others : ∀ op, (∀ txId hash, op ≠ .txLocation txId hash) → (∀ key record, op ≠ .anchor key record) →
    op? op = none
  genesis : ∀ opts, (genesisOps opts).filterMap op? = putAll (page opts.genesis)

namespace BlockIndex

variable {K V : Type} [DecidableEq K] (I : BlockIndex K V)

/-- The page of the canonical block at a height. -/
def pages (chain : ChainState) (i : ℕ) : List (K × V) :=
  ((canonicalBlockWithUndo chain i).map fun p => I.page p.1).getD []

/-- The index holds the pages of the canonical blocks, on which no key is twice. -/
structure Exact (chain : ChainState) : Prop where
  paged : PagedOnce (I.pages chain)
  holds : ∀ tip, chain.tip = some tip → Holds (I.pages chain) (I.read chain) (Window 0 tip.height)

variable {I}

theorem pages_eq {chain : ChainState} {i : ℕ} {p : Block × BlockUndo}
    (h : canonicalBlockWithUndo chain i = some p) : I.pages chain i = I.page p.1 := by
  rw [pages, h]
  rfl

theorem mem_pages {chain : ChainState} {i : ℕ} {e : K × V} :
    e ∈ I.pages chain i ↔ ∃ p, canonicalBlockWithUndo chain i = some p ∧ e ∈ I.page p.1 := by
  rw [pages]
  cases canonicalBlockWithUndo chain i with
  | none => simp
  | some p => simp

/-! ## One reorganisation -/

section Reorg

variable {chain chain' : ChainState} {s : Store K V} {fork : ℕ}
  {undos records : List (Block × BlockUndo)}

/-- What an adoption does to the index. -/
theorem read_batched {opts : NodeOptions} {w w' : World} {previousHead head : Block} {after : UtxoSet}
    (h : Batched opts w previousHead head undos records after w') :
    I.read w'.chain = (I.read w.chain).batch ((undos.flatMap fun p => deleteAll (I.page p.1)) ++
      records.flatMap fun p => putAll (I.page p.1)) := by
  obtain ⟨hhops, ha, rfl, hchain, -, -⟩ := h
  obtain ⟨writes, -, hops⟩ := ha.ops
  have hnone : ∀ ops : List StateOp, (∀ op ∈ ops, I.op? op = none) → ops.filterMap I.op? = [] :=
    fun ops hall => filterMap_eq_nil_iff.2 hall
  have hdisconnect : ∀ block, (disconnectOps block).filterMap I.op? = deleteAll (I.page block) := by
    intro block
    rw [disconnectOps, filterMap_cons, I.unindexed,
      I.others (deleteUndoOp block.hash) (by simp [deleteUndoOp]) (by simp [deleteUndoOp])]
  have hconnect : ∀ block undo,
      (connectOps block undo).filterMap I.op? = putAll (I.page block) := by
    intro block undo
    rw [connectOps, filterMap_cons, filterMap_append, I.indexed,
      I.others (putUndoOp block.hash undo) (by simp [putUndoOp]) (by simp [putUndoOp]),
      hnone [_] fun op hop => ?_, append_nil]
    rw [mem_singleton.1 hop]
    exact I.others _ (by simp [setCanonicalHashAtHeightOp]) (by simp [setCanonicalHashAtHeightOp])
  have hclear : (clearOps w.chain head).filterMap I.op? = [] := by
    refine hnone _ fun op hop => ?_
    rw [clearOps_eq] at hop
    obtain ⟨i, -, rfl⟩ := mem_map.1 hop
    exact I.others _ (by simp) (by simp)
  have htip : (setTipOps head.hash head.header.height).filterMap I.op? = [] := by
    refine hnone _ fun op hop => ?_
    rw [mem_singleton.1 hop]
    exact I.others _ (by simp) (by simp)
  have hwrites : (writes.map StateOp.utxo).filterMap I.op? = [] := by
    refine hnone _ fun op hop => ?_
    obtain ⟨write, -, rfl⟩ := mem_map.1 hop
    exact I.others _ (by simp) (by simp)
  have hactivity : NoActivity I.op? := fun key record => I.others _ (by simp) (by simp)
  rw [hchain]
  change I.read (w.chain.batch _) = _
  rw [I.read_batch, filterMap_batch hhops I.op? (fun _ _ => I.others _ (by simp) (by simp))
    fun _ => I.others _ (by simp) (by simp), hops I.op? hactivity, hclear, htip, hwrites]
  simp only [hdisconnect, hconnect, append_nil]

theorem disconnect_holds (hp : Paged (I.pages chain)) (hstretch : Stretch chain (fork + 1) undos.reverse)
    (h : Holds (I.pages chain) s (Window 0 (fork + undos.length))) :
    Holds (I.pages chain) (s.batch (undos.flatMap fun p => deleteAll (I.page p.1)))
      (Window 0 fork) := by
  induction undos generalizing s with
  | nil => exact h
  | cons p undos ih =>
    rw [reverse_cons, stretch_append, length_reverse, Nat.add_right_comm] at hstretch
    obtain ⟨hrest, ⟨hcanonical, -⟩, -⟩ := hstretch
    have htop : Holds (I.pages chain) s (Window 0 (fork + undos.length + 1)) := h
    have hdown := paging_holds.slide_down hp htop
    rw [if_neg (by omega), append_nil, pages_eq hcanonical] at hdown
    rw [flatMap_cons, Store.batch_append]
    exact ih hrest hdown

theorem connect_holds (hp : Paged (I.pages chain')) (hstretch : Stretch chain' (fork + 1) records)
    (h : Holds (I.pages chain') s (Window 0 fork)) :
    Holds (I.pages chain') (s.batch (records.flatMap fun p => putAll (I.page p.1)))
      (Window 0 (fork + records.length)) := by
  induction records generalizing s fork with
  | nil => exact h
  | cons p records ih =>
    obtain ⟨⟨hcanonical, -⟩, hrest⟩ := hstretch
    have hup := paging_holds.slide_up hp h
    rw [if_neg (by omega), append_nil, pages_eq hcanonical] at hup
    rw [flatMap_cons, Store.batch_append, length_cons, Nat.add_comm records.length,
      ← Nat.add_assoc]
    exact ih hrest hup

/-- The pages of the old branch go, and those of the new one come. -/
theorem reorg_holds (r : Reorg chain chain' fork undos records) (hp : Paged (I.pages chain))
    (hp' : Paged (I.pages chain')) (h : Holds (I.pages chain) s (Window 0 (fork + undos.length))) :
    Holds (I.pages chain') (s.batch ((undos.flatMap fun p => deleteAll (I.page p.1)) ++
      records.flatMap fun p => putAll (I.page p.1))) (Window 0 (fork + records.length)) := by
  rw [Store.batch_append]
  refine connect_holds hp' r.done (paging_holds.congr (disconnect_holds hp r.undone h)
    (fun _ => Iff.rfl) fun i hi => ?_)
  rw [pages, pages, r.below i hi.1]

end Reorg

/-! ## Changes of a node -/

section Node

variable {opts : NodeOptions} {H : Set BlockHeader} {w w' : World} {head block : Block}

theorem adopts_exact (hinj : Set.InjOn computeBlockHash H) (hs : Sound opts H w)
    (hext : Extends H w.chain head) (hsame : SameBody w.chain head) (ha : Adopts opts w head w')
    (hpaged : PagedOnce (I.pages w'.chain)) (h : I.Exact w.chain) : I.Exact w'.chain := by
  refine ⟨hpaged, ?_⟩
  obtain ⟨_, _, _, _, fork, -, hb, r⟩ := ha.reorg hinj hs hext hsame
  obtain ⟨hash, htip⟩ := r.tip
  obtain ⟨hash', htip'⟩ := r.tip'
  have hholds := reorg_holds r h.paged.paged hpaged.paged (h.holds _ htip)
  rw [← read_batched hb] at hholds
  intro tip ht
  cases htip'.symm.trans ht
  exact hholds

/-- Storing a block under the hash of one with the same page leaves the pages. -/
theorem pages_put (hs : Sound opts H w)
    (hpage : ∀ b, w.chain.getBlock block.hash = some b → I.page b = I.page block) :
    I.pages (w.chain.batch [putBlockOp block]) = I.pages w.chain := by
  obtain ⟨head, hspine, -⟩ := hs.spine
  have hput := puts_batch w.chain block
  have hcanonical : (w.chain.batch [putBlockOp block]).canonical = w.chain.canonical := rfl
  funext i
  rw [pages, pages, canonicalBlockWithUndo_natCast, canonicalBlockWithUndo_natCast, hcanonical]
  cases hget : w.chain.canonical.get i with
  | none => rfl
  | some hash =>
    obtain ⟨b, hb, -⟩ := hspine.block_of_canonical hs.stored hget
    rw [Option.bind_some, Option.bind_some, hb, hput hash]
    split
    · next heq => exact (hpage b (heq ▸ hb)).symm
    · rw [hb]
      rfl

theorem store_exact (hs : Sound opts H w)
    (hpage : ∀ b, w.chain.getBlock block.hash = some b → I.page b = I.page block)
    (h : I.Exact w.chain) : I.Exact (w.chain.batch [putBlockOp block]) := by
  have hread : I.read (w.chain.batch [putBlockOp block]) = I.read w.chain := by
    rw [I.read_batch, filterMap_cons, I.others (putBlockOp block) (by simp [putBlockOp])
      (by simp [putBlockOp])]
    rfl
  refine ⟨?_, fun tip ht => ?_⟩
  · rw [pages_put hs hpage]
    exact h.paged
  · rw [pages_put hs hpage, hread]
    exact h.holds tip ht

/-- The index of a fresh database has the page of genesis. -/
theorem start_exact (hread : I.read emptyChain = .empty)
    (hnodup : ((I.page opts.genesis).map Prod.fst).Nodup) (hmem : opts.genesis.header ∈ H)
    (h : start opts = .ok w) : I.Exact w.chain := by
  have hstored := storedWell_genesisOps hmem
  have hgenesis := canonicalBlockWithUndo_genesisOps opts
  obtain ⟨_, _, _, _, -, -, -, rfl⟩ := start_eq_ok h
  change I.Exact (emptyChain.batch (genesisOps opts))
  have hbatch := I.read_batch emptyChain (genesisOps opts)
  rw [hread, I.genesis] at hbatch
  set chain := emptyChain.batch (genesisOps opts)
  have hpage : I.pages chain 0 = I.page opts.genesis := pages_eq hgenesis
  -- There is no canonical block above genesis, hence no page.
  have habove : ∀ i, i ≠ 0 → I.pages chain i = [] := by
    intro i hi
    rw [pages, canonicalBlockWithUndo_natCast]
    cases hget : chain.canonical.get i with
    | none => rfl
    | some hash =>
      have hle := (spine_genesisOps.exists_canonical hstored i).1 ⟨hash, hget⟩
      rw [genesis_height] at hle
      exact absurd (Nat.le_zero.1 hle) hi
  have hpaged : PagedOnce (I.pages chain) := by
    refine ⟨fun i => ?_, fun i j e he e' he' _ => ?_⟩
    · by_cases hi : i = 0
      · rwa [hi, hpage]
      · rw [habove i hi]
        exact nodup_nil
    · by_contra hne
      rcases Nat.eq_zero_or_pos i with rfl | hi
      · rw [habove j (Ne.symm hne)] at he'
        cases he'
      · rw [habove i hi.ne'] at he
        cases he
  refine ⟨hpaged, fun tip ht => ?_⟩
  cases spine_genesisOps.tip.symm.trans ht
  rw [hbatch, ← hpage, genesis_height]
  have hempty : Holds (I.pages chain) Store.empty fun _ => False := fun k v => by simp
  refine paging_holds.congr (paging_holds.put hpaged.paged hempty 0) (fun i => ?_) fun _ _ => rfl
  simp [Window]

end Node

end BlockIndex

end Plainchain
