import Plainchain.Node.Activity

/-!
# The address index when a node starts

`reconcileAddressIndex` of `src/node/node.ts` brings the address index in line with
the settings of a node before it runs: it builds the index, sweeps what a tighter
depth does not keep, rebuilds what a looser one wants, or drops all of it. It goes by
two marks in the database, that the index is built and the depth it was built with,
and it makes its writes one after the other, so that a crash leaves the first few of
them.

* `Life`: the states of a database over starts with any settings, some of which
  crash, and over what the node does between them;
* `Life.maintained`: in all of them the index has no entry but those the marks allow;
* `Life.exact_iff`: a start makes the index exact if and only if the entries that the
  marks and the new settings both ask for are there;
* `reconcile_exact`: if they always are, the index is exact after every start that
  was not cut.
-/

namespace Plainchain

open Js Kv Ancestry Prog List

/-! ## Writes -/

/-- The marks that the database has about its address index. -/
structure IndexMarks where
  built : Bool
  depth : Option ℕ
  deriving DecidableEq

structure IndexDisk extends IndexMarks where
  index : AddressIndex

/-- A write to the index or to its marks. -/
inductive IndexWrite
  /-- All entries are deleted. -/
  | clear
  /-- Both marks are deleted. -/
  | unmark
  /-- A batch: writes of entries, the depth, and the mark that the index is built. -/
  | commit (ops : List (List Char × Option AddressRecord)) (depth : Option ℕ) (built : Bool)

def IndexDisk.write (disk : IndexDisk) : IndexWrite → IndexDisk
  | .clear => { disk with index := .empty }
  | .unmark => { disk with built := false, depth := none }
  | .commit ops depth built =>
    { built := built || disk.built, depth := depth.or disk.depth, index := disk.index.batch ops }

def IndexDisk.writes (disk : IndexDisk) (writes : List IndexWrite) : IndexDisk :=
  writes.foldl IndexDisk.write disk

theorem IndexDisk.writes_append (disk : IndexDisk) (ws ws' : List IndexWrite) :
    disk.writes (ws ++ ws') = (disk.writes ws).writes ws' := foldl_append

/-! ## Starting -/

/-- Forgets the address index entirely. -/
def dropAddressIndex : List IndexWrite := [.clear, .unmark]

/-- An element of an array, by a number. -/
def elementAt {α : Type} (l : List α) : Number → Option α
  | .int z => z.toNat?.bind (l[·]?)
  | .other _ _ => none

/-- The outputs that a transaction spent, which are looked up through the
    transaction index. -/
def spentOutputs (chain : ChainState) (tx : Transaction) : List TxOutput :=
  tx.inputs.filterMap fun input => do
    let location ← chain.txIndex.get input.txId
    let sourceBlock ← chain.getBlock location
    let source ← sourceBlock.transactions.find? (·.id = input.txId)
    elementAt source.outputs input.outputIndex

/-- `addressActivityOf`, from what was spent. -/
def activityTotals (tx : Transaction) (spent : List TxOutput) : OrdMap Text (ℤ × ℤ) :=
  spent.foldl (bumpActivity true) (tx.outputs.foldl (bumpActivity false) .empty)

/-- The entries of the canonical block at a height, from the transaction index. -/
def backfillPage (chain : ChainState) (h : ℕ) : List (List Char × AddressRecord) :=
  match (chain.getCanonicalHashAtHeight h).bind chain.getBlock with
  | none => []
  | some block => block.transactions.flatMap fun tx =>
      (activityTotals tx (spentOutputs chain tx)).entries.map fun (address, totals) =>
        (scalars (addressActivityKey address h tx.id),
          { blockHash := block.hash, timestamp := tx.timestamp, received := totals.1,
            sent := totals.2 })

/-- Writes the entries of the heights from `first` to before `stop`, with the marks. -/
def backfillAddressIndex (chain : ChainState) (first stop : ℕ) (depth : Option ℕ) (built : Bool) :
    List IndexWrite :=
  [.commit (putAll ((List.range' first (stop - first)).flatMap (backfillPage chain))) depth built]

/-- `Number` of the second piece of a key, as it is read. -/
def keyHeight (key : List Char) : Option ℕ := (((utf16 key).splitOn (unit ':'))[1]?).bind numberOf

/-- The keys of entries below a height, which is read from the keys. -/
def addressActivityKeysBelow (index : AddressIndex) (height : ℕ) : List (List Char) :=
  (sortedKeys index).filter fun key => (keyHeight key).any (· < height)

/-- Keys in the order they come, in batches of `limit`; the last one may be shorter. -/
def sweepBatches (limit : ℕ) : List (List Char) → List (List Char) → List (List (List Char))
  | ops, [] => if ops = [] then [] else [ops]
  | ops, key :: keys =>
    if limit ≤ (ops ++ [key]).length then (ops ++ [key]) :: sweepBatches limit [] keys
    else sweepBatches limit (ops ++ [key]) keys

/-- Deletes every entry below `floor`, in bounded batches. -/
def sweepAddressIndexBelow (index : AddressIndex) (floor : ℕ) : List IndexWrite :=
  (sweepBatches 10000 [] (addressActivityKeysBelow index floor)).map fun keys =>
    .commit (deleteKeys keys) none false

/-- The writes that bring the index in line with the settings, in their order. -/
def reconcileAddressIndex (opts : NodeOptions) (chain : ChainState) (marks : IndexMarks) :
    List IndexWrite :=
  if opts.addressIndexEnabled then
    let tipHeight := (chain.tip.map (·.height)).getD 0
    let floor := addressIndexFloor opts tipHeight
    if marks.built then
      let stored := marks.depth.getD 0
      if stored = opts.addressIndexDepth then []
      else if opts.addressIndexDepth ≠ 0 ∧ (stored = 0 ∨ opts.addressIndexDepth < stored) then
        sweepAddressIndexBelow chain.addrIndex floor
          ++ [.commit [] (some opts.addressIndexDepth) false]
      else
        let storedFloor := if stored = 0 then 0 else tipHeight + 1 - stored
        backfillAddressIndex chain floor storedFloor (some opts.addressIndexDepth) false
    else backfillAddressIndex chain floor (tipHeight + 1) (some opts.addressIndexDepth) true
  else if marks.built then dropAddressIndex else []

/-- What a start leaves of the index and its marks. It makes all of its writes, or,
    when it is cut, the first few of them. -/
def reconciled (opts : NodeOptions) (chain : ChainState) (marks : IndexMarks) (cut : Option ℕ) :
    IndexDisk :=
  let writes := reconcileAddressIndex opts chain marks
  IndexDisk.writes { marks with index := chain.addrIndex }
    (match cut with
      | none => writes
      | some n => writes.take n)

/-! ## Sweeping -/

section Sweep

variable {index : AddressIndex} {pages : ℕ → List (List Char × AddressRecord)} {W : ℕ → Prop}

theorem flatten_sweepBatches (limit : ℕ) (ops keys : List (List Char)) :
    (sweepBatches limit ops keys).flatten = ops ++ keys := by
  fun_induction sweepBatches limit ops keys with
  | case1 => rfl
  | case2 ops h => simp
  | case3 ops key keys h ih => rw [flatten_cons, ih, append_assoc]; rfl
  | case4 ops key keys h ih => rw [ih, append_assoc]; rfl

/-- Batches of deletions are one deletion. -/
theorem IndexDisk.writes_deleteKeys (disk : IndexDisk) (batches : List (List (List Char))) :
    disk.writes (batches.map fun keys => .commit (deleteKeys keys) none false) =
      { disk with index := disk.index.batch (deleteKeys batches.flatten) } := by
  induction batches generalizing disk with
  | nil => rfl
  | cons keys batches ih =>
    rw [map_cons, IndexDisk.writes, foldl_cons]
    refine (ih _).trans ?_
    rw [flatten_cons, deleteKeys, deleteKeys, deleteKeys, map_append, Store.batch_append]
    rfl

/-- The height is read from the keys of an index whose entries are of pages that
    can be read so. -/
theorem mem_addressActivityKeysBelow (hread : ∀ i, ∀ row ∈ pages i, keyHeight row.1 = some i)
    {floor i : ℕ} {row : List Char × AddressRecord} (hrow : row ∈ pages i) :
    row.1 ∈ addressActivityKeysBelow index floor ↔ row.1 ∈ index.keys ∧ i < floor := by
  rw [addressActivityKeysBelow, mem_filter, sortedKeys, Finset.mem_sort, hread i row hrow, Option.any_some,
    decide_eq_true_iff]

/-- A sweep leaves what is not below the floor. -/
theorem within_sweep (hread : ∀ i, ∀ row ∈ pages i, keyHeight row.1 = some i)
    (h : Within pages index W) (floor : ℕ) :
    Within pages (index.batch (deleteKeys (addressActivityKeysBelow index floor)))
      fun i => W i ∧ floor ≤ i := by
  intro k v hget
  rw [get_batch_deleteKeys] at hget
  split at hget
  · cases hget
  · next hkey =>
    obtain ⟨i, hi, hpage⟩ := h k v hget
    refine ⟨i, ⟨hi, Nat.not_lt.1 fun hlt => hkey ?_⟩, hpage⟩
    exact (mem_addressActivityKeysBelow hread (mem_of_onPage hpage)).2
      ⟨Store.mem_keys.2 (by simp [hget]), hlt⟩

/-- Pages from the floor up are out of reach of a sweep. -/
theorem get_sweep (hread : ∀ i, ∀ row ∈ pages i, keyHeight row.1 = some i) {floor i : ℕ}
    (hle : floor ≤ i) {k : List Char} {v : AddressRecord} (hpage : onPage (pages i) k = some v) :
    (index.batch (deleteKeys (addressActivityKeysBelow index floor))).get k = index.get k := by
  rw [get_batch_deleteKeys, if_neg]
  intro hmem
  exact absurd ((mem_addressActivityKeysBelow hread (mem_of_onPage hpage)).1 hmem).2 (Nat.not_lt.2 hle)

end Sweep

/-! ## Chains that can be read back -/

/-- The outputs that canonical transactions spent are found through the transaction
    index, and no address that they pay or spend from has a colon. -/
structure Traceable (chain : ChainState) : Prop where
  sources : ∀ (i : ℕ) block undo, canonicalBlockWithUndo chain i = some (block, undo) →
    ∀ p ∈ block.transactions.zipIdx, spentOutputs chain p.1 =
      ((undo[p.2]?.map (·.spent)).getD []).map fun s => s.entry.toTxOutput
  plain : ∀ (i : ℕ) block undo, canonicalBlockWithUndo chain i = some (block, undo) →
    ∀ e ∈ activityEntries block undo, unit ':' ∉ e.address

section Traceable

variable {opts : NodeOptions} {H : Set BlockHeader} {chain : ChainState} {head : Block}
  (hstored : StoredWell opts H chain) (hspine : Spine chain head) (ht : Traceable chain)

include hstored hspine

include ht

/-- What is put back is what connecting the block had put. -/
theorem Traceable.backfillPage_eq (i : ℕ) : backfillPage chain i = canonicalPage chain i := by
  rw [backfillPage, canonicalPage, pageOf]
  cases hp : canonicalBlockWithUndo chain i with
  | none =>
    have hnone : (chain.getCanonicalHashAtHeight i).bind chain.getBlock = none := by
      simp only [canonicalBlockWithUndo_natCast, Option.bind_eq_none_iff, Option.map_eq_none_iff] at hp
      exact Option.bind_eq_none_iff.2 hp
    rw [hnone]
    rfl
  | some p =>
    obtain ⟨block, undo⟩ := p
    have hheight := height_of_canonicalBlockWithUndo hstored hspine hp
    obtain ⟨hc, hb, -⟩ := canonicalBlockWithUndo_eq_some.1 hp
    have hblock : (chain.getCanonicalHashAtHeight i).bind chain.getBlock = some block := by
      change (chain.canonical.get i).bind chain.getBlock = some block
      rw [hc]
      exact hb
    rw [hblock, Option.map_some, Option.getD_some, activityPage, activityEntries, map_flatMap]
    change block.transactions.flatMap _ = _
    conv_lhs => rw [← zipIdx_map_fst 0 block.transactions]
    rw [flatMap_map]
    refine flatMap_congr fun p hpmem => ?_
    rw [ht.sources i block undo hp p hpmem, map_map, hheight]
    rfl

theorem Traceable.keyHeight_eq (hid : StoredIdentified chain) (i : ℕ) :
    ∀ row ∈ canonicalPage chain i, keyHeight row.1 = some i := by
  intro row hrow
  obtain ⟨block, undo, hp, e, he, rfl⟩ := mem_canonicalPage.1 hrow
  obtain ⟨-, hb, -⟩ := canonicalBlockWithUndo_eq_some.1 hp
  have hheight := height_of_canonicalBlockWithUndo hstored hspine hp
  -- The address as it is read has no colon either.
  have hcolon : unit ':' ∉ utf16 (scalars e.address) := fun hmem =>
    ht.plain i block undo hp e he (mem_of_mem_utf16_scalars (by decide) hmem)
  have hhex := (hid _ _ hb).hex_entry he
  have hsplit : (addressActivityKey (utf16 (scalars e.address)) e.height e.txId).splitOn (unit ':') =
      [utf16 (scalars e.address), paddedHeight e.height, e.txId] :=
    splitOn_key (e := { e with address := utf16 (scalars e.address) }) hcolon hhex
  rw [keyHeight, ActivityEntry.utf16_dbKey hhex, hsplit, (mem_activityEntries he).1, hheight]
  exact numberOf_paddedHeight i

/-- A chain whose entries are rebuilt as they were, and whose keys tell their height. -/
structure Readable (chain : ChainState) : Prop where
  paged : Paged (canonicalPage chain)
  rebuilt : ∀ i, backfillPage chain i = canonicalPage chain i
  height : ∀ i, ∀ row ∈ canonicalPage chain i, keyHeight row.1 = some i

theorem Traceable.readable (hid : StoredIdentified chain) : Readable chain where
  paged := paged_canonicalPage hstored hspine hid
  rebuilt := ht.backfillPage_eq hstored hspine
  height := ht.keyHeight_eq hstored hspine hid

end Traceable

/-! ## One start -/

/-- What is in the index is of the window of the stored depth. There is nothing in
    one that is not built. -/
structure Tended (pages : ℕ → List (List Char × AddressRecord)) (t : ℕ) (disk : IndexDisk) : Prop where
  within : disk.built = true → Within pages disk.index (Window (disk.depth.getD 0) t)
  empty : disk.built = false → disk.index = .empty

/-- The window that the marks tell of. -/
def MarkedWindow (marks : IndexMarks) (t i : ℕ) : Prop :=
  marks.built = true ∧ Window (marks.depth.getD 0) t i

/-- What the writes of a start can be. -/
inductive Plan (opts : NodeOptions) (chain : ChainState) (marks : IndexMarks) (t : ℕ) :
    List IndexWrite → Prop
  /-- The index is as it is to be. -/
  | keep : marks.built = opts.addressIndexEnabled →
      (marks.built = true → marks.depth.getD 0 = opts.addressIndexDepth) →
      Plan opts chain marks t []
  | drop : opts.addressIndexEnabled = false → marks.built = true →
      Plan opts chain marks t [.clear, .unmark]
  /-- Heights that the marks do not tell of are put. -/
  | fill {heights : List ℕ} : opts.addressIndexEnabled = true →
      (∀ i, Window opts.addressIndexDepth t i ↔ MarkedWindow marks t i ∨ i ∈ heights) →
      (∀ i, MarkedWindow marks t i → i ∉ heights) →
      Plan opts chain marks t [.commit (putAll (heights.flatMap (canonicalPage chain)))
        (some opts.addressIndexDepth) (!marks.built)]
  /-- Heights below the floor are deleted. -/
  | sweep {floor : ℕ} {batches : List (List (List Char))} : opts.addressIndexEnabled = true →
      marks.built = true →
      (∀ i, Window opts.addressIndexDepth t i ↔ Window (marks.depth.getD 0) t i ∧ floor ≤ i) →
      batches.flatten = addressActivityKeysBelow chain.addrIndex floor →
      Plan opts chain marks t ((batches.map fun keys => .commit (deleteKeys keys) none false)
        ++ [.commit [] (some opts.addressIndexDepth) false])

section Start

variable {opts : NodeOptions} {chain : ChainState} {marks : IndexMarks} {t : ℕ}

/-- The index of a chain and its marks, after some writes. -/
abbrev written (chain : ChainState) (marks : IndexMarks) (ws : List IndexWrite) : IndexDisk :=
  IndexDisk.writes { marks with index := chain.addrIndex } ws

theorem plan_reconcileAddressIndex (hr : opts.addressIndexEnabled = true → Readable chain)
    (ht : (chain.tip.map (·.height)).getD 0 = t) :
    Plan opts chain marks t (reconcileAddressIndex opts chain marks) := by
  unfold reconcileAddressIndex backfillAddressIndex
  by_cases henabled : opts.addressIndexEnabled = true
  · have hrebuilt : backfillPage chain = canonicalPage chain := funext (hr henabled).rebuilt
    rw [if_pos henabled, ht, hrebuilt]
    by_cases hbuilt : marks.built = true
    · rw [if_pos hbuilt]
      by_cases hsame : marks.depth.getD 0 = opts.addressIndexDepth
      · rw [if_pos hsame]
        exact .keep (hbuilt.trans henabled.symm) fun _ => hsame
      · rw [if_neg hsame]
        split
        · next htighter =>
          refine .sweep henabled hbuilt (fun i => ?_) (flatten_sweepBatches _ [] _)
          unfold Window addressIndexFloor
          rw [if_neg htighter.1]
          omega
        · next hlooser =>
          have hflag : (!marks.built) = false := by rw [hbuilt]; rfl
          rw [← hflag]
          refine .fill henabled (fun i => ?_) fun i => ?_ <;>
          · simp only [MarkedWindow, hbuilt, true_and, mem_range'_1, Window, addressIndexFloor]
            split <;> split <;> omega
    · have hflag : (!marks.built) = true := by simpa using hbuilt
      rw [if_neg hbuilt, ← hflag]
      refine .fill henabled (fun i => ?_) fun i hi => absurd hi.1 hbuilt
      have hnone : ¬MarkedWindow marks t i := fun hi => hbuilt hi.1
      rw [or_iff_right hnone, window_iff, mem_range'_1]
      unfold addressIndexFloor
      split <;> omega
  · rw [if_neg henabled]
    split
    · next hbuilt => exact .drop (by simpa using henabled) hbuilt
    · next hbuilt =>
      refine .keep ?_ fun h => absurd h hbuilt
      rw [Bool.eq_false_iff.2 hbuilt, Bool.eq_false_iff.2 henabled]

section Plan

variable {ws : List IndexWrite} (h : Plan opts chain marks t ws)
  (ht : Tended (canonicalPage chain) t { marks with index := chain.addrIndex })
  (hr : opts.addressIndexEnabled = true → Readable chain)

include ht in
theorem Tended.within_marked : Within (canonicalPage chain) chain.addrIndex (MarkedWindow marks t) := by
  intro k v hget
  cases hbuilt : marks.built with
  | true =>
    obtain ⟨i, hi, hmem⟩ := ht.within hbuilt k v hget
    exact ⟨i, ⟨hbuilt, hi⟩, hmem⟩
  | false =>
    have hempty : chain.addrIndex = .empty := ht.empty hbuilt
    rw [hempty, Store.get_empty] at hget
    cases hget

include h hr ht

/-- However many of its writes a start makes, what is in the index is what the marks
    allow. -/
theorem Plan.tended (n : ℕ) :
    Tended (canonicalPage chain) t (written chain marks (ws.take n)) := by
  cases h with
  | keep _ _ => rwa [take_nil]
  | drop _ hbuilt =>
    -- The crash between the two writes leaves an empty index with its marks.
    match n with
    | 0 => exact ht
    | 1 =>
      exact ⟨fun _ k v hget => (nomatch (Store.get_empty k).symm.trans hget),
        fun h => nomatch hbuilt.symm.trans h⟩
    | n + 2 =>
      rw [take_succ_cons, take_succ_cons, take_nil]
      exact ⟨fun h => (nomatch (show false = true from h)), fun _ => rfl⟩
  | @fill heights henabled hwindow _ =>
    match n with
    | 0 => exact ht
    | n + 1 =>
      rw [take_succ_cons, take_nil]
      refine ⟨fun _ => ?_, fun hbuilt => ?_⟩
      · exact paging_within.congr (paging_within.puts (hr henabled).paged ht.within_marked heights)
          hwindow fun _ _ => rfl
      · change (!marks.built || marks.built) = false at hbuilt
        rw [Bool.not_or_self] at hbuilt
        cases hbuilt
  | @sweep floor batches henabled hbuilt hwindow hflatten =>
    rw [take_append, length_map, ← map_take]
    rcases Nat.lt_or_ge batches.length n with hlt | hge
    · obtain ⟨m, hm⟩ := Nat.exists_eq_succ_of_ne_zero (Nat.sub_ne_zero_of_lt hlt)
      rw [take_of_length_le hlt.le, hm, take_succ_cons, take_nil,
        written, IndexDisk.writes_append, IndexDisk.writes_deleteKeys, hflatten]
      exact ⟨fun _ => paging_within.congr (within_sweep (hr henabled).height (ht.within hbuilt) floor)
        hwindow fun _ _ => rfl, fun h => nomatch hbuilt.symm.trans h⟩
    · rw [Nat.sub_eq_zero_of_le hge, take_zero, append_nil, written,
        IndexDisk.writes_deleteKeys]
      exact ⟨fun _ => (ht.within hbuilt).deleteKeys _, fun h => nomatch hbuilt.symm.trans h⟩

omit ht hr in
/-- The marks after all writes. -/
theorem Plan.marks_eq : (written chain marks ws).built = opts.addressIndexEnabled ∧
    (opts.addressIndexEnabled = true →
      (written chain marks ws).depth.getD 0 = opts.addressIndexDepth) := by
  cases h with
  | keep hbuilt hdepth => exact ⟨hbuilt, fun henabled => hdepth (hbuilt.trans henabled)⟩
  | drop hdisabled _ => exact ⟨hdisabled.symm, fun henabled => nomatch hdisabled.symm.trans henabled⟩
  | fill henabled _ _ => exact ⟨(Bool.not_or_self _).trans henabled.symm, fun _ => rfl⟩
  | sweep henabled hbuilt _ _ =>
    rw [written, IndexDisk.writes_append, IndexDisk.writes_deleteKeys]
    exact ⟨hbuilt.trans henabled.symm, fun _ => rfl⟩

/-- All writes make the index exact, if what the marks tell of and the settings ask
    for is there. -/
theorem Plan.holds_iff (henabled : opts.addressIndexEnabled = true) :
    Holds (canonicalPage chain) (written chain marks ws).index (Window opts.addressIndexDepth t) ↔
      Covers (canonicalPage chain) chain.addrIndex
        fun i => MarkedWindow marks t i ∧ Window opts.addressIndexDepth t i := by
  have hwithin := ht.within_marked
  cases h with
  | keep hbuilt hdepth =>
    have hmarked : ∀ i, MarkedWindow marks t i ↔ Window opts.addressIndexDepth t i := fun i => by
      rw [MarkedWindow, hbuilt.trans henabled, hdepth (hbuilt.trans henabled)]
      simp
    simp only [hmarked, and_self]
    rw [Kv.holds_iff, and_iff_right]
    · rfl
    · exact paging_within.congr hwithin (fun i => (hmarked i).symm) fun _ _ => rfl
  | drop hdisabled _ => exact nomatch hdisabled.symm.trans henabled
  | @fill heights _ hwindow hnew =>
    change Holds _ (chain.addrIndex.batch (putAll (heights.flatMap (canonicalPage chain)))) _ ↔ _
    constructor
    · intro hholds i hi k v hpage
      rw [← (hr henabled).paged.get_batch_putAll chain.addrIndex (hnew i hi.1) hpage]
      exact (Kv.holds_iff.1 hholds).2 i hi.2 k v hpage
    · intro hcovers
      have hmarked : Holds (canonicalPage chain) chain.addrIndex (MarkedWindow marks t) :=
        Kv.holds_iff.2 ⟨hwithin, fun i hi => hcovers i ⟨hi, (hwindow i).2 (.inl hi)⟩⟩
      exact paging_holds.congr (paging_holds.puts (hr henabled).paged hmarked heights) hwindow
        fun _ _ => rfl
  | @sweep floor batches _ hbuilt hwindow hflatten =>
    have hboth : ∀ i, MarkedWindow marks t i ∧ Window opts.addressIndexDepth t i ↔
        Window opts.addressIndexDepth t i := fun i => by
      rw [MarkedWindow, and_iff_right hbuilt, hwindow i]
      tauto
    have hcovers : Covers (canonicalPage chain) (chain.addrIndex.batch (deleteKeys
          (addressActivityKeysBelow chain.addrIndex floor))) (Window opts.addressIndexDepth t) ↔
        Covers (canonicalPage chain) chain.addrIndex (Window opts.addressIndexDepth t) := by
      refine forall₂_congr fun i hi => forall₂_congr fun k v => forall_congr' fun hpage => ?_
      rw [get_sweep (hr henabled).height ((hwindow i).1 hi).2 hpage]
    simp only [hboth]
    rw [written, IndexDisk.writes_append, IndexDisk.writes_deleteKeys, hflatten]
    change Holds _ (chain.addrIndex.batch (deleteKeys
      (addressActivityKeysBelow chain.addrIndex floor))) _ ↔ _
    rw [Kv.holds_iff, and_iff_right, hcovers]
    exact paging_within.congr (within_sweep (hr henabled).height (ht.within hbuilt) floor) hwindow
      fun _ _ => rfl

end Plan

end Start

/-! ## The life of a database -/

/-- The settings that a node is started with. -/
structure IndexSettings where
  enabled : Bool
  depth : ℕ
  deriving DecidableEq

def NodeOptions.withIndex (opts : NodeOptions) (s : IndexSettings) : NodeOptions :=
  { opts with addressIndexEnabled := s.enabled, addressIndexDepth := s.depth }

def World.withAddrIndex (w : World) (index : AddressIndex) : World :=
  { w with chain := { w.chain with addrIndex := index } }

/-- The states of a database, with the marks of its address index, where every start
    that is not cut meets a condition. If the last start was not cut, a node runs on it
    with the settings of that start. -/
inductive Life (opts : NodeOptions) (H : Set BlockHeader)
    (C : World → IndexMarks → IndexSettings → Prop) :
    World → IndexMarks → Option IndexSettings → Prop
  /-- Genesis is written, and the index is not. -/
  | created {w : World} : opts.genesis.header ∈ H → start (opts.withIndex ⟨false, 0⟩) = .ok w →
      Life opts H C w ⟨false, none⟩ none
  /-- A start, which is cut or not. -/
  | started {w : World} {marks : IndexMarks} {last : Option IndexSettings} (s : IndexSettings)
      (cut : Option ℕ) : Life opts H C w marks last → (s.enabled = true → Traceable w.chain) →
      (cut = none → C w marks s) →
      Life opts H C
        (restart (opts.withIndex s)
          (w.withAddrIndex (reconciled (opts.withIndex s) w.chain marks cut).index))
        (reconciled (opts.withIndex s) w.chain marks cut).toIndexMarks
        (if cut.isSome then none else some s)
  /-- What the node does between two starts. -/
  | ran {w w' : World} {marks : IndexMarks} {s : IndexSettings} : Life opts H C w marks (some s) →
      Trace (opts.withIndex s) H KeepsBodies w w' → Life opts H C w' marks (some s)

/-- The entries of the heights that the marks tell of and the settings ask for are in
    the index. -/
def Intact (w : World) (marks : IndexMarks) (s : IndexSettings) : Prop :=
  s.enabled = true → ∀ tip, w.chain.tip = some tip → Covers (canonicalPage w.chain) w.chain.addrIndex
    fun height => MarkedWindow marks tip.height height ∧ Window s.depth tip.height height

/-- What holds over the life of a database. -/
structure Maintained (opts : NodeOptions) (H : Set BlockHeader) (w : World) (marks : IndexMarks)
    (last : Option IndexSettings) : Prop where
  sound : Sound opts H w
  identified : StoredIdentified w.chain
  tended : ∀ tip, w.chain.tip = some tip →
    Tended (canonicalPage w.chain) tip.height { marks with index := w.chain.addrIndex }
  settled : ∀ s, last = some s → marks.built = s.enabled ∧
    (s.enabled = true → marks.depth.getD 0 = s.depth)

section Life

variable {opts : NodeOptions} {H : Set BlockHeader} {w w' : World} {marks : IndexMarks}
  {last : Option IndexSettings}

theorem Sound.withIndex (h : Sound opts H w) (s : IndexSettings) : Sound (opts.withIndex s) H w :=
  ⟨{ h.stored with }, { h.indexed with }, h.spine, h.idle, h.maturity⟩

/-- What is stored does not depend on the settings of the index. -/
theorem sound_withIndex {s : IndexSettings} : Sound (opts.withIndex s) H w ↔ Sound opts H w :=
  ⟨fun h => h.withIndex ⟨opts.addressIndexEnabled, opts.addressIndexDepth⟩, (·.withIndex s)⟩

theorem Sound.withAddrIndex (h : Sound opts H w) (index : AddressIndex) :
    Sound opts H (w.withAddrIndex index) := by
  obtain ⟨head, hspine, hentry⟩ := h.spine
  exact ⟨{ h.stored with }, h.indexed, ⟨head, { hspine with }, hentry⟩, h.idle, h.maturity⟩

theorem Maintained.readable (h : Maintained opts H w marks last) (ht : Traceable w.chain) :
    Readable w.chain := by
  obtain ⟨head, hspine, -⟩ := h.sound.spine
  exact ht.readable h.sound.stored hspine h.identified

/-- The writes of a start on a database that was maintained. -/
theorem Maintained.plan (h : Maintained opts H w marks last) {s : IndexSettings}
    (ht : s.enabled = true → Traceable w.chain) {tip : ChainTip} (htip : w.chain.tip = some tip) :
    Plan (opts.withIndex s) w.chain marks tip.height
      (reconcileAddressIndex (opts.withIndex s) w.chain marks) :=
  plan_reconcileAddressIndex (fun henabled => h.readable (ht henabled)) (by rw [htip]; rfl)

theorem maintained_created (hmem : opts.genesis.header ∈ H)
    (h : start (opts.withIndex ⟨false, 0⟩) = .ok w) :
    Maintained opts H w ⟨false, none⟩ none := by
  have hmem' : (opts.withIndex ⟨false, 0⟩).genesis.header ∈ H := hmem
  have hsound := (start_good hmem' h).sound
  obtain ⟨_, _, _, _, -, -, -, rfl⟩ := start_eq_ok h
  refine ⟨sound_withIndex.1 hsound, allStored_genesisOps (genesis_identified _), fun tip _ => ?_,
    fun s hs => nomatch hs⟩
  refine ⟨fun hbuilt => (nomatch hbuilt), fun _ => ?_⟩
  change Store.empty.batch ((genesisOps (opts.withIndex ⟨false, 0⟩)).filterMap StateOp.activity?) = _
  rw [activity_genesisOps, if_neg (by simp [NodeOptions.withIndex])]
  rfl

theorem Maintained.started (h : Maintained opts H w marks last) (s : IndexSettings) (cut : Option ℕ)
    (ht : s.enabled = true → Traceable w.chain) :
    Maintained opts H
      (restart (opts.withIndex s)
        (w.withAddrIndex (reconciled (opts.withIndex s) w.chain marks cut).index))
      (reconciled (opts.withIndex s) w.chain marks cut).toIndexMarks
      (if cut.isSome then none else some s) := by
  have hsound := h.sound.withAddrIndex (reconciled (opts.withIndex s) w.chain marks cut).index
  refine ⟨⟨hsound.stored, hsound.indexed, hsound.spine, rfl, rfl⟩, h.identified, fun tip htip => ?_,
    fun s' hs' => ?_⟩
  · change w.chain.tip = some tip at htip
    have hplan := h.plan ht htip
    have htended := hplan.tended (h.tended tip htip) fun henabled => h.readable (ht henabled)
    cases cut with
    | none =>
      have hall := htended (reconcileAddressIndex (opts.withIndex s) w.chain marks).length
      rw [take_length] at hall
      exact hall
    | some n => exact htended n
  · cases cut with
    | some n => cases hs'
    | none =>
      cases hs'
      obtain ⟨head, hspine, -⟩ := h.sound.spine
      exact (h.plan ht hspine.tip).marks_eq

variable (hinj : Set.InjOn computeBlockHash H)

include hinj

theorem Maintained.change {s : IndexSettings} {label : Label} (h : Maintained opts H w marks (some s))
    (hC : KeepsBodies w label) (hc : Change (opts.withIndex s) H w label w') :
    Maintained opts H w' marks (some s) := by
  have hs : Sound (opts.withIndex s) H w := sound_withIndex.2 h.sound
  have hs' := sound_withIndex.1 (hc.sound hinj hs)
  have hid' := hc.storedIdentified hinj hs hC h.identified
  obtain ⟨hbuilt, hdepth⟩ := h.settled s rfl
  refine ⟨hs', hid', fun tip htip => ?_, h.settled⟩
  cases henabled : s.enabled with
  | true =>
    -- The window of the stored depth is the one that the node keeps.
    have hwithin : ActivityIndexed Within (opts.withIndex s) w.chain := by
      refine ⟨h.identified, fun tip htip => ?_⟩
      have hwithin := (h.tended tip htip).within (hbuilt.trans henabled)
      change Within _ _ (Window (marks.depth.getD 0) tip.height) at hwithin
      rwa [hdepth henabled] at hwithin
    have hwithin' := (hc.activityIndexed paging_within hinj hs henabled hC hwithin).pages tip htip
    refine ⟨fun _ => ?_, fun hfalse => nomatch (hbuilt.trans henabled).symm.trans hfalse⟩
    change Within _ _ (Window (marks.depth.getD 0) tip.height)
    rwa [hdepth henabled]
  | false =>
    obtain ⟨head, hspine, -⟩ := h.sound.spine
    have hempty := (h.tended _ hspine.tip).empty (hbuilt.trans henabled)
    refine ⟨fun htrue => (nomatch (hbuilt.trans henabled).symm.trans htrue), fun _ => ?_⟩
    exact (hc.addrIndex_eq hinj hs henabled).trans hempty

variable {C : World → IndexMarks → IndexSettings → Prop}

/-- Over the life of a database, what is in the address index is what its marks
    allow. -/
theorem Life.maintained (h : Life opts H C w marks last) : Maintained opts H w marks last := by
  induction h with
  | created hmem hstart => exact maintained_created hmem hstart
  | started s cut _ ht _ ih => exact ih.started s cut ht
  | ran _ hrun ih =>
    induction hrun with
    | refl => exact ih
    | tail _ hc ih =>
      obtain ⟨label, hC, hc⟩ := hc
      exact ih.change hinj hC hc

/-- At any time, a start that is not cut makes the index exact if and only if what it
    takes for granted is there. -/
theorem Life.exact_iff (h : Life opts H C w marks last) {s : IndexSettings} (henabled : s.enabled = true)
    (ht : Traceable w.chain) {tip : ChainTip} (htip : w.chain.tip = some tip) :
    Holds (canonicalPage w.chain) (reconciled (opts.withIndex s) w.chain marks none).index
      (Window s.depth tip.height) ↔ Intact w marks s := by
  have hm := h.maintained hinj
  have hiff := (hm.plan (fun _ => ht) htip).holds_iff (hm.tended tip htip) (fun _ => hm.readable ht)
    henabled
  refine hiff.trans ⟨fun hcovers _ tip' htip' => ?_, fun hintact => hintact henabled tip htip⟩
  cases htip.symm.trans htip'
  exact hcovers

/-- Where no start misses what it takes for granted, the index is exact while a node
    runs with it. -/
theorem Life.activityExact {s : IndexSettings} (h : Life opts H Intact w marks (some s))
    (henabled : s.enabled = true) : ActivityExact (opts.withIndex s) w.chain := by
  have hm := h.maintained hinj
  generalize hlast : some s = last at h
  induction h with
  | created _ _ => cases hlast
  | @started w₀ marks₀ last₀ s' cut hlife ht hC _ =>
    cases cut with
    | some n => cases hlast
    | none =>
      cases hlast
      refine ⟨hm.identified, fun tip htip => ?_⟩
      exact (hlife.exact_iff hinj henabled (ht henabled) htip).2 (hC rfl)
  | ran hlife hrun ih =>
    cases hlast
    have hm₀ := hlife.maintained hinj
    exact hrun.activityIndexed paging_holds hinj (sound_withIndex.2 hm₀.sound) henabled (ih hm₀ rfl)

end Life

/-- In every life of a database in which each start that is not cut finds the entries
    that its marks and the new settings both ask for, whatever starts were cut and
    where: after a start with the index enabled that is not cut, the index has exactly
    the entries of the canonical blocks from the floor of the window to the tip, if and
    only if no address of theirs has an unpaired surrogate; after one with the index
    disabled it holds none. -/
theorem reconcile_exact {opts : NodeOptions} {H : Set BlockHeader}
    (hinj : Set.InjOn computeBlockHash H) {w : World} {marks : IndexMarks} {s : IndexSettings}
    (hlife : Life opts H Intact w marks (some s)) {tip : ChainTip} (htip : w.chain.tip = some tip) :
    (s.enabled = true →
      (w.chain.addrIndex.Exact (IndexedActivity (opts.withIndex s) w.chain tip.height) ↔
        ∀ e, IndexedActivity (opts.withIndex s) w.chain tip.height e → WellFormed e.address)) ∧
    (s.enabled = false → ∀ key, w.chain.addrIndex.get key = none) := by
  have hm := hlife.maintained hinj
  refine ⟨fun henabled => ?_, fun hdisabled key => ?_⟩
  · exact ((hlife.activityExact hinj henabled).keeps (sound_withIndex.2 hm.sound) htip).exact_iff
  · have hempty := (hm.tended tip htip).empty ((hm.settled s rfl).1.trans hdisabled)
    change w.chain.addrIndex = .empty at hempty
    rw [hempty, Store.get_empty]

/-! ## A database that is started three times -/

/-- Genesis spends nothing. -/
theorem traceable_genesisOps {opts : NodeOptions}
    (hplain : ∀ e ∈ activityEntries opts.genesis [], unit ':' ∉ e.address) :
    Traceable (emptyChain.batch (genesisOps opts)) := by
  have hgenesis : ∀ (i : ℕ) block undo,
      canonicalBlockWithUndo (emptyChain.batch (genesisOps opts)) i = some (block, undo) →
      block = opts.genesis ∧ undo = [] := by
    intro i block undo hp
    obtain ⟨-, hb, hundo⟩ := canonicalBlockWithUndo_eq_some.1 hp
    rw [getUndo_genesisOps, Option.getD_none] at hundo
    exact ⟨(getBlock_genesisOps_eq_some hb).2, hundo.symm⟩
  constructor
  · intro i block undo hp p hmem
    obtain ⟨rfl, rfl⟩ := hgenesis i block undo hp
    obtain ⟨allocations, -, htxs, -⟩ := createGenesisBlock_eq_ok opts.genesis_eq
    have htx := fst_mem_of_mem_zipIdx hmem
    rw [htxs, mem_singleton] at htx
    rw [htx]
    rfl
  · intro i block undo hp
    obtain ⟨rfl, rfl⟩ := hgenesis i block undo hp
    exact hplain

theorem Traceable.withAddrIndex {chain : ChainState} (h : Traceable chain)
    (index : AddressIndex) : Traceable { chain with addrIndex := index } :=
  ⟨h.sources, h.plain⟩

theorem start_created : start (sampleOptions.withIndex ⟨false, 0⟩) =
    .ok (started (sampleOptions.withIndex ⟨false, 0⟩)) :=
  start_eq_started (by decide +kernel)

theorem life_created (C : World → IndexMarks → IndexSettings → Prop) :
    Life sampleOptions {sampleGenesis.header} C
      (started (sampleOptions.withIndex ⟨false, 0⟩)) ⟨false, none⟩ none :=
  .created rfl start_created

theorem traceable_created : Traceable (started (sampleOptions.withIndex ⟨false, 0⟩)).chain := by
  have hplain : ∀ e ∈ activityEntries (sampleOptions.withIndex ⟨false, 0⟩).genesis [],
      unit ':' ∉ e.address := by decide +kernel
  obtain ⟨_, _, _, _, -, -, -, heq⟩ := start_eq_ok start_created
  rw [heq]
  exact traceable_genesisOps hplain

/-- The node that the first start leaves. -/
def firstStarted : World :=
  restart (sampleOptions.withIndex ⟨true, 1⟩) ((started (sampleOptions.withIndex ⟨false, 0⟩)).withAddrIndex
    (reconciled (sampleOptions.withIndex ⟨true, 1⟩)
      (started (sampleOptions.withIndex ⟨false, 0⟩)).chain ⟨false, none⟩ none).index)

/-- The first start builds the index. -/
theorem reconcile_exact_first :
    firstStarted.chain.tip = some ⟨sampleGenesis.hash, 0⟩ ∧
    firstStarted.chain.addrIndex.Exact
      (IndexedActivity (sampleOptions.withIndex ⟨true, 1⟩) firstStarted.chain 0) := by
  have hinj : Set.InjOn computeBlockHash {sampleGenesis.header} := Set.injOn_singleton _ _
  have hreads : firstStarted.chain.tip = some ⟨sampleGenesis.hash, 0⟩ ∧
      canonicalBlockWithUndo firstStarted.chain (0 : ℕ) = some (sampleGenesis, []) ∧
      ∀ e ∈ activityEntries sampleGenesis [], WellFormed e.address := by decide +kernel
  obtain ⟨htip, hcanonical, hformed⟩ := hreads
  -- There are no marks to go by.
  have hintact : Intact (started (sampleOptions.withIndex ⟨false, 0⟩)) ⟨false, none⟩ ⟨true, 1⟩ := by
    rintro - tip - height ⟨⟨hbuilt, -⟩, -⟩
    cases hbuilt
  refine ⟨htip, ((reconcile_exact hinj (.started ⟨true, 1⟩ none (life_created Intact)
    (fun _ => traceable_created) fun _ => hintact) htip).1 rfl).2 ?_⟩
  rintro e ⟨height, -, hle, block, undo, hp, he⟩
  rw [Nat.le_zero.1 hle] at hp
  cases hcanonical.symm.trans hp
  exact hformed e he

/-- A start with the index completes, one without it crashes after the index was
    cleared, and one with the index completes. The index is empty then. -/
theorem reconcile_cleared : ∃ w marks,
    Life sampleOptions {sampleGenesis.header} (fun _ _ _ => True) w marks (some ⟨true, 0⟩) ∧
    w.chain.tip = some ⟨sampleGenesis.hash, 0⟩ ∧
    canonicalBlockWithUndo w.chain (0 : ℕ) = some (sampleGenesis, []) ∧
    activityEntries sampleGenesis [] ≠ [] ∧ ∀ key, w.chain.addrIndex.get key = none := by
  refine ⟨_, _, .started ⟨true, 0⟩ none (.started ⟨false, 0⟩ (some 1) (.started ⟨true, 0⟩ none
    (life_created _) (fun _ => traceable_created) fun _ => trivial) (fun h => by cases h)
    fun _ => trivial) (fun _ => (traceable_created.withAddrIndex _).withAddrIndex _) fun _ => trivial,
    by decide +kernel, by decide +kernel, by decide +kernel, fun key => ?_⟩
  rw [← Store.get_empty key]
  congr 1

end Plainchain
