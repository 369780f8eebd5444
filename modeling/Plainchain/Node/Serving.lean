import Plainchain.Lib.Reads
import Plainchain.Node.Canonical

/-!
# Serving headers

The replies to `GET_HEADERS`, and `getHeaders` of `src/node/node.ts`, as the reads
of the database that they are made of: the tip, the entries of the locator, and
then height by height the canonical hash and the header that it is the hash of.
The chain lock is not taken, so that blocks may be adopted between any two of
these reads.

* `eval_serveHeaders`: read from one state, this is the reply of the model;
* `served_link_iff`: the headers that are served link, exactly when no adoption
  between the reads of two heights replaced the hash read last.
-/

namespace Plainchain

open Js Kv Ancestry Shared List

/-- A header that is served, with its hash and the state the hash was read in. -/
structure Served where
  seen : World
  hash : Text
  header : BlockHeader

section Serve

def readTip : Reads World (Option ChainTip) := .of fun w => w.chain.tip

/-- `lookupHeader` without headers that are not stored: the index is read, and then
    the blocks. -/
def readHeader (hash : Text) : Reads World (Option BlockHeader) := do
  match ← Reads.of fun w => w.headers.get hash with
  | some entry => pure (some entry.header)
  | none => .of fun w => w.chain.headerOf hash

/-- `highestSharedHeight` on the entries of a locator that are left. -/
def readSharedHeight : List Text → Reads World ℕ
  | [] => pure 0
  | hash :: locator => do
    match ← Reads.of fun w => w.chain.getBlock hash with
    | none => readSharedHeight locator
    | some block => do
      let canonical ← Reads.of fun w => w.chain.getCanonicalHashAtHeight block.header.height
      if canonical = some hash then pure block.header.height else readSharedHeight locator

/-- The loop over the heights, up to the first that is missing. -/
def serveFrom : (count h : ℕ) → Reads World (List Served)
  | 0, _ => pure []
  | count + 1, h => do
    match ← Reads.of fun w => (w, w.chain.getCanonicalHashAtHeight h) with
    | (_, none) => pure []
    | (seen, some hash) => do
      match ← readHeader hash with
      | none => pure []
      | some header => do
        let rest ← serveFrom count (h + 1)
        pure (⟨seen, hash, header⟩ :: rest)

inductive HeadersRequest
  /-- The message `GET_HEADERS`. -/
  | message (locator : List Text)
  /-- A call of `getHeaders`. -/
  | call (fromHeight count : ℕ)

/-- What is read for a request. A reply to a message has the headers only. -/
def serveHeaders (opts : NodeOptions) (request : HeadersRequest) : Reads World (List Served) := do
  match ← readTip with
  | none => pure []
  | some tip =>
    match request with
    | .message locator => do
      let start ← readSharedHeight (locator.take MAX_LOCATOR_ENTRIES)
      let last := min tip.height (start + opts.maxHeadersPerResponse)
      serveFrom (last - start) (start + 1)
    | .call fromHeight count => serveFrom (min count (tip.height + 1 - fromHeight)) fromHeight

end Serve

/-! ## Reads from one state -/

section Eval

variable (w : World)

theorem eval_readHeader (hash : Text) :
    (readHeader hash).eval w = lookupHeader w.chain w.headers .empty hash := by
  simp only [readHeader, Reads.eval_bind, Reads.eval_of, lookupHeader, OrdMap.get_empty,
    Option.none_or]
  cases w.headers.get hash with
  | some entry => rfl
  | none => rfl

theorem eval_readSharedHeight (locator : List Text) :
    (readSharedHeight locator).eval w = (locator.findSome? (sharedHeight w.chain)).getD 0 := by
  induction locator with
  | nil => rfl
  | cons hash locator ih =>
    simp only [readSharedHeight, Reads.eval_bind, Reads.eval_of, findSome?_cons, sharedHeight]
    cases w.chain.getBlock hash with
    | none => exact ih
    | some block =>
      by_cases hcanonical : w.chain.getCanonicalHashAtHeight block.header.height = some hash
      · simp [hcanonical]
      · simp [hcanonical, ih]

theorem eval_serveFrom (count h : ℕ) :
    ((serveFrom count h).eval w).map Served.header = headersFrom w.chain w.headers count h := by
  induction count generalizing h with
  | zero => rfl
  | succ count ih =>
    simp only [serveFrom, Reads.eval_bind, Reads.eval_of, headersFrom]
    cases w.chain.getCanonicalHashAtHeight h with
    | none => rfl
    | some hash =>
      simp only [Reads.eval_bind, eval_readHeader, Option.bind_some]
      cases lookupHeader w.chain w.headers .empty hash with
      | none => rfl
      | some header =>
        simp only [Reads.eval_bind, Reads.eval_pure, map_cons, ih]

/-- Where nothing is written meanwhile, the reply is that of `handleMessage`. -/
theorem eval_serveHeaders {opts : NodeOptions} {tip : ChainTip} (htip : w.chain.tip = some tip)
    (locator : List Text) : headersReply opts w.chain w.headers locator =
      [.HEADERS (((serveHeaders opts (.message locator)).eval w).map Served.header)] := by
  simp only [serveHeaders, readTip, Reads.eval_bind, Reads.eval_of, htip, eval_serveFrom,
    eval_readSharedHeight, headersReply, highestSharedHeight]

end Eval

/-! ## Reads from many states -/

/-- Headers each of which comes after the one before. -/
def InLine (headers : List BlockHeader) : Prop :=
  headers.IsChain fun a b => b.previousHash = computeBlockHash a ∧ b.height = a.height + 1

/-- Between the reads of two heights the canonical hash of the lower one was not
    replaced. -/
def Undisturbed (served : List Served) : Prop :=
  served.IsChain fun a b =>
    b.seen.chain.canonical.get a.header.height = a.seen.chain.canonical.get a.header.height

section Runs

variable {opts : NodeOptions} {H : Set BlockHeader} {C : World → Label → Prop} {w w' : World}

theorem trace_trans (s t u : World) (h : Trace opts H C s t) (h' : Trace opts H C t u) :
    Trace opts H C s u := Relation.ReflTransGen.trans h h'

/-- A run in which blocks may be adopted between any two reads. -/
abbrev RunsAmid (opts : NodeOptions) (H : Set BlockHeader) (C : World → Label → Prop) {α : Type}
    (p : Reads World α) (w : World) (result : α) (w' : World) : Prop :=
  p.Runs (Trace opts H C) w result w'

variable (hinj : Set.InjOn computeBlockHash H)

include hinj

theorem RunsAmid.sound {α : Type} {p : Reads World α} {result : α} (hs : Sound opts H w)
    (h : RunsAmid opts H C p w result w') : Sound opts H w' :=
  Trace.sound hinj hs (h.steps (fun _ => .refl) trace_trans)

/-- A header is found under its own hash. -/
theorem hash_of_readHeader {hash : Text} {header : BlockHeader} (hs : Sound opts H w)
    (h : RunsAmid opts H C (readHeader hash) w (some header) w') :
    computeBlockHash header = hash ∧ header ∈ H := by
  obtain ⟨found, t, hread, h⟩ := Reads.runs_bind.1 h
  obtain ⟨htrace, rfl⟩ := Reads.runs_of.1 hread
  have hst := Trace.sound hinj hs htrace
  cases hentry : t.headers.get hash with
  | some entry =>
    rw [hentry] at h
    obtain ⟨heq, -⟩ := Reads.runs_pure.1 h
    cases heq
    exact hst.indexed.hashed hash entry hentry
  | none =>
    rw [hentry] at h
    obtain ⟨htrace', heq⟩ := Reads.runs_of.1 h
    obtain ⟨block, hblock, rfl⟩ := headerOf_eq_some.1 heq.symm
    exact (Trace.sound hinj hst htrace').stored.hashed hash block hblock

/-- What is known of a served header: it is canonical where its height was read,
    and there it comes after the canonical header below. -/
structure Served.Canonical (h : ℕ) (served : Served) : Prop where
  height_eq : served.header.height = h
  hash_eq : computeBlockHash served.header = served.hash
  canonical : served.seen.chain.canonical.get h = some served.hash
  below : ∀ i, h = i + 1 → served.seen.chain.canonical.get i = some served.header.previousHash

theorem canonical_of_read {h : ℕ} {hash : Text} {header : BlockHeader} (hs : Sound opts H w)
    (hhash : w.chain.getCanonicalHashAtHeight h = some hash)
    (hrun : RunsAmid opts H C (readHeader hash) w (some header) w') :
    Served.Canonical h ⟨w, hash, header⟩ := by
  obtain ⟨heq, hmem⟩ := hash_of_readHeader hinj hs hrun
  obtain ⟨head, hspine, -⟩ := hs.spine
  obtain ⟨block, hblock, hheight⟩ := hspine.block_of_canonical hs.stored hhash
  -- The canonical block has the header that was found: they have one hash.
  obtain ⟨hbhash, hbmem⟩ := hs.stored.hashed hash block hblock
  obtain rfl : header = block.header := hinj hmem hbmem (heq.trans hbhash.symm)
  refine ⟨hheight, heq, hhash, ?_⟩
  rintro i rfl
  refine hspine.canonical_link hs.stored ?_
  rw [canonicalBlock, hhash, Option.bind_some, hblock]

/-- The headers of a loop are canonical where they were read, at one height after
    the other. -/
theorem serveFrom_canonical {count h : ℕ} {served : List Served} (hs : Sound opts H w)
    (hrun : RunsAmid opts H C (serveFrom count h) w served w') :
    ∀ i (hi : i < served.length), Served.Canonical (h + i) served[i] := by
  induction count generalizing h w served with
  | zero =>
    obtain ⟨rfl, -⟩ := hrun
    exact fun i hi => nomatch hi
  | succ count ih =>
    obtain ⟨_, t, hread, hrun⟩ := Reads.runs_bind.1 hrun
    obtain ⟨htrace, rfl⟩ := Reads.runs_of.1 hread
    have hst := Trace.sound hinj hs htrace
    cases hhash : t.chain.getCanonicalHashAtHeight h with
    | none =>
      rw [hhash] at hrun
      obtain ⟨rfl, -⟩ := Reads.runs_pure.1 hrun
      exact fun i hi => nomatch hi
    | some hash =>
      rw [hhash] at hrun
      obtain ⟨header?, u, hheader, hrun⟩ := Reads.runs_bind.1 hrun
      cases header? with
      | none =>
        obtain ⟨rfl, -⟩ := Reads.runs_pure.1 hrun
        exact fun i hi => nomatch hi
      | some header =>
        obtain ⟨rest, v, hrest, hrun⟩ := Reads.runs_bind.1 hrun
        obtain ⟨rfl, rfl⟩ := Reads.runs_pure.1 hrun
        have hsu := RunsAmid.sound hinj hst hheader
        intro i hi
        cases i with
        | zero => exact canonical_of_read hinj hst hhash hheader
        | succ i =>
          have := ih hsu hrest i (by simpa using hi)
          rwa [Nat.add_right_comm] at this

theorem serveHeaders_canonical {request : HeadersRequest} {served : List Served}
    (hs : Sound opts H w) (hrun : RunsAmid opts H C (serveHeaders opts request) w served w') :
    ∃ h, ∀ i (hi : i < served.length), Served.Canonical (h + i) served[i] := by
  obtain ⟨_, t, hread, hrun⟩ := Reads.runs_bind.1 hrun
  obtain ⟨htrace, rfl⟩ := Reads.runs_of.1 hread
  have hst := Trace.sound hinj hs htrace
  cases htip : t.chain.tip with
  | none =>
    rw [htip] at hrun
    obtain ⟨rfl, -⟩ := Reads.runs_pure.1 hrun
    exact ⟨0, fun i hi => nomatch hi⟩
  | some tip =>
    rw [htip] at hrun
    cases request with
    | message locator =>
      obtain ⟨start, u, hshared, hrun⟩ := Reads.runs_bind.1 hrun
      exact ⟨start + 1, serveFrom_canonical hinj (RunsAmid.sound hinj hst hshared) hrun⟩
    | call fromHeight count => exact ⟨fromHeight, serveFrom_canonical hinj hst hrun⟩

end Runs

/-- Of two headers that are served one after the other, the second comes after the
    first exactly when the hash of the first was still canonical where the second
    was read. -/
theorem Served.Canonical.link_iff {h : ℕ} {a b : Served} (ha : a.Canonical h)
    (hb : b.Canonical (h + 1)) :
    (b.header.previousHash = computeBlockHash a.header ∧ b.header.height = a.header.height + 1) ↔
      b.seen.chain.canonical.get a.header.height = a.seen.chain.canonical.get a.header.height := by
  rw [ha.height_eq, hb.height_eq, ha.hash_eq, ha.canonical, hb.below h rfl, Option.some.injEq]
  simp

/-- The headers that a node serves link, whatever it adopts between its reads,
    exactly when no adoption between the reads of two heights in a row replaced the
    canonical hash of the lower one. -/
theorem served_link_iff {opts : NodeOptions} {H : Set BlockHeader} {C : World → Label → Prop}
    (hinj : Set.InjOn computeBlockHash H) {s : Session} (hr : Reachable opts H s)
    {request : HeadersRequest} {served : List Served} {w' : World}
    (hrun : RunsAmid opts H C (serveHeaders opts request) s.toWorld served w') :
    InLine (served.map Served.header) ↔ Undisturbed served := by
  obtain ⟨h, hall⟩ := serveHeaders_canonical hinj (hr.sound hinj) hrun
  rw [InLine, isChain_map, Undisturbed, isChain_iff_getElem, isChain_iff_getElem]
  exact forall₂_congr fun i hi => (hall i (by omega)).link_iff (hall (i + 1) hi)

/-- A call that is answered from one state. -/
theorem served_link_quiet :
    (((serveHeaders sampleOptions (.call 0 2)).eval sampleRun.toWorld).map Served.hash =
      [sampleGenesis.hash, firstBlock.hash]) ∧
    (InLine (((serveHeaders sampleOptions (.call 0 2)).eval sampleRun.toWorld).map Served.header) ↔
      Undisturbed ((serveHeaders sampleOptions (.call 0 2)).eval sampleRun.toWorld)) :=
  ⟨by decide +kernel, served_link_iff (C := fun _ _ => True) injOn_sampleHeaders reachable_sampleRun
    (Reads.runs_eval (fun _ => .refl) _)⟩

/-! ## A reorganisation between two reads -/

/-- A second block after the first one. -/
def secondBlock : Block := sampleBlock firstBlock (sampleCoinbase 49 0)

/-- The blocks of another branch, by height. -/
def branch : ℕ → Block
  | 0 => sampleGenesis
  | n + 1 => sampleBlock (branch n) (sampleCoinbase (48 - n) 0)

def forkBlocks : List Block := [sampleGenesis, firstBlock, secondBlock, branch 1, branch 2, branch 3]

def forkHeaders : Set BlockHeader := {header | header ∈ forkBlocks.map Block.header}

/-- A peer sends a block. -/
def deliver (s : Session) (block : Block) : Session :=
  step sampleOptions s sampleEnv (.message (.NEW_BLOCK block) (lit "p"))

theorem Reachable.deliver {H : Set BlockHeader} {s : Session} (hr : Reachable sampleOptions H s)
    {block : Block} (hmem : block.header ∈ H) : Reachable sampleOptions H (deliver s block) :=
  .next sampleEnv hr trivial fun _ h => by rwa [mem_singleton.1 h]

/-- The node has both branches, and its tip is the second block. -/
def beforeReorg : Session :=
  [firstBlock, secondBlock, branch 1, branch 2].foldl deliver ⟨started sampleOptions, []⟩

/-- The other branch has become the heavier one. -/
def afterReorg : Session := deliver beforeReorg (branch 3)

/-- The hashes of the blocks, what the reads before and after the reorganisation
    see, and what comes of headers of both branches. -/
theorem reads_reorg : ((forkBlocks.map Block.header).map computeBlockHash).Nodup ∧
    (branch 2).header.previousHash ≠ computeBlockHash firstBlock.header ∧
    (beforeReorg.chain.tip = some ⟨secondBlock.hash, 2⟩ ∧
      beforeReorg.chain.canonical.get 1 = some firstBlock.hash ∧
      (beforeReorg.headers.get firstBlock.hash).map (·.header) = some firstBlock.header ∧
      afterReorg.chain.canonical.get 2 = some (branch 2).hash ∧
      (afterReorg.headers.get (branch 2).hash).map (·.header) = some (branch 2).header) ∧
    (step sampleOptions ⟨started sampleOptions, []⟩ sampleEnv
      (.message (.HEADERS [firstBlock.header, (branch 2).header]) (lit "p"))).penalties =
      [(lit "p", PENALTY_INVALID_BLOCK, lit "invalid header " ++ (branch 2).hash
        ++ lit ": previousHash does not match parent")] := by
  decide +kernel

theorem injOn_forkHeaders : Set.InjOn computeBlockHash forkHeaders :=
  fun _ ha _ hb h => inj_on_of_nodup_map reads_reorg.1 ha hb h

theorem reachable_beforeReorg : Reachable sampleOptions forkHeaders beforeReorg := by
  have hmem : ∀ block ∈ forkBlocks, block.header ∈ forkHeaders := fun _ h => mem_map_of_mem h
  have hstart : Reachable sampleOptions forkHeaders ⟨started sampleOptions, []⟩ :=
    .initial (hmem _ (by simp [forkBlocks, sampleOptions])) start_sample
  exact (((hstart.deliver (hmem _ (by simp [forkBlocks]))).deliver (hmem _ (by simp [forkBlocks]))).deliver
    (hmem _ (by simp [forkBlocks]))).deliver (hmem _ (by simp [forkBlocks]))

theorem trace_reorg : Trace sampleOptions forkHeaders (fun _ _ => True) beforeReorg.toWorld
    afterReorg.toWorld := by
  refine reachable_beforeReorg.trace injOn_forkHeaders sampleEnv trivial fun header h => ?_
  rw [mem_singleton.1 h]
  exact mem_map_of_mem (by simp [forkBlocks])

section Build

variable {opts : NodeOptions} {H : Set BlockHeader} {C : World → Label → Prop} {w t u w' : World}
  {hash : Text}

theorem readHeader_indexed {header : BlockHeader}
    (h : (w.headers.get hash).map (·.header) = some header) :
    RunsAmid opts H C (readHeader hash) w (some header) w := by
  obtain ⟨entry, hentry, rfl⟩ := Option.map_eq_some_iff.1 h
  refine Reads.runs_bind.2 ⟨_, w, Reads.runs_of.2 ⟨.refl, rfl⟩, ?_⟩
  rw [hentry]
  exact ⟨rfl, rfl⟩

theorem serveFrom_cons {count h : ℕ} {header : BlockHeader} {rest : List Served}
    (htrace : Trace opts H C w t) (hhash : t.chain.canonical.get h = some hash)
    (hheader : RunsAmid opts H C (readHeader hash) t (some header) u)
    (hrest : RunsAmid opts H C (serveFrom count (h + 1)) u rest w') :
    RunsAmid opts H C (serveFrom (count + 1) h) w (⟨t, hash, header⟩ :: rest) w' := by
  refine Reads.runs_bind.2 ⟨_, t, Reads.runs_of.2 ⟨htrace, rfl⟩, ?_⟩
  rw [ChainState.getCanonicalHashAtHeight, hhash]
  exact Reads.runs_bind.2 ⟨_, u, hheader, Reads.runs_bind.2 ⟨_, w', hrest, rfl, rfl⟩⟩

end Build

/-- The branch is adopted between the reads of the heights one and two. What is
    served is the first block of one branch and the second of the other, and a node
    that is sent it penalizes the sender. -/
theorem served_torn :
    Reachable sampleOptions forkHeaders beforeReorg ∧
    (∃ served, RunsAmid sampleOptions forkHeaders (fun _ _ => True)
        (serveHeaders sampleOptions (.message [])) beforeReorg.toWorld served afterReorg.toWorld ∧
      served.map Served.header = [firstBlock.header, (branch 2).header] ∧
      ¬InLine (served.map Served.header)) ∧
    (step sampleOptions ⟨started sampleOptions, []⟩ sampleEnv
      (.message (.HEADERS [firstBlock.header, (branch 2).header]) (lit "p"))).penalties =
      [(lit "p", PENALTY_INVALID_BLOCK, lit "invalid header " ++ (branch 2).hash
        ++ lit ": previousHash does not match parent")] := by
  obtain ⟨-, hne, ⟨htip, hfirst, hfirst', hsecond, hsecond'⟩, hpenalties⟩ := reads_reorg
  refine ⟨reachable_beforeReorg, ⟨[⟨beforeReorg.toWorld, firstBlock.hash, firstBlock.header⟩,
    ⟨afterReorg.toWorld, (branch 2).hash, (branch 2).header⟩], ?_, rfl, ?_⟩, hpenalties⟩
  · refine Reads.runs_bind.2 ⟨_, beforeReorg.toWorld, Reads.runs_of.2 ⟨.refl, rfl⟩, ?_⟩
    rw [htip]
    refine Reads.runs_bind.2 ⟨0, beforeReorg.toWorld, ⟨rfl, rfl⟩, ?_⟩
    exact serveFrom_cons .refl hfirst (readHeader_indexed hfirst')
      (serveFrom_cons trace_reorg hsecond (readHeader_indexed hsecond') ⟨rfl, rfl⟩)
  · intro h
    simp only [InLine, map_cons, map_nil, isChain_cons_cons] at h
    exact hne h.1.1

end Plainchain
