import Plainchain.Node.State

/-!
# The header index

`getIndexedHeader` of `src/node/node.ts`: the cumulative work of the chain that
ends at a header. Databases written before the index existed are backfilled
lazily from stored blocks: a lookup walks back to the nearest indexed ancestor,
and indexes what it passed on the way forward.

* `workOf`: what a lookup answers, computed without writing;
* `getIndexedHeader_fst`: a lookup whose writes do not fail answers that;
* `Backfilled`: an index that lookups have extended, and answers the same
  (`Backfilled.workOf_eq`).
-/

namespace Plainchain

open Js Kv Prog

section HeaderIndex

variable (opts : NodeOptions) (env : Env) (chain : ChainState)

/-- The entry of a header is written, or the write fails. -/
def putHeader (hash : Text) (header : BlockHeader) (work : ℕ) :
    Prog HeaderIndex NodeError Unit :=
  .of fun headers =>
    if env.fails (.header hash) then (.error .storage, headers)
    else (.ok (), headers.set hash (some ⟨header, work⟩))

def blockWork (header : BlockHeader) : Except NodeError ℕ :=
  (opts.engine.blockWork header).mapError .error

/-- The stored blocks from `hash` down to the first indexed one, which they
    exclude, and the work there: none where the ancestry is incomplete. -/
def unindexed (headers : HeaderIndex) :
    (fuel : ℕ) → (hash : Text) → Except NodeError (Option (List Block × ℕ))
  | 0, _ => .error .unfinished
  | fuel + 1, hash =>
    match headers.get hash with
    | some entry => .ok (some ([], entry.work))
    | none =>
      match chain.getBlock hash with
      | none => .ok none
      | some block =>
        if block.header.height = 0 then .ok (some ([block], 0))
        else do
          match ← unindexed headers fuel block.header.previousHash with
          | none => pure none
          | some (pending, work) => pure (some (block :: pending, work))

/-- Indexes blocks, the lowest first, on top of a work. -/
def backfill : (work : ℕ) → (pending : List Block) → Prog HeaderIndex NodeError ℕ
  | work, [] => pure work
  | work, block :: pending => do
    let added ← Prog.lift (blockWork opts block.header)
    putHeader env block.hash block.header (work + added)
    backfill (work + added) pending

/-- More steps than a lookup can take. -/
def lookupFuel (hash : Text) : ℕ := ((chain.getBlock hash).map (walkFuel chain)).getD 1

/-- The entry of a hash. Stored blocks that are not indexed are, on the way; none
    where the ancestry is incomplete. -/
def getIndexedHeader (hash : Text) : Prog HeaderIndex NodeError (Option IndexedHeader) := do
  let headers ← Prog.reads id
  match headers.get hash with
  | some entry => pure (some entry)
  | none =>
    match ← Prog.lift (unindexed chain headers (lookupFuel chain hash) hash) with
    | none => pure none
    | some (pending, work) => do
      let total ← backfill opts env work pending.reverse
      pure (pending.head?.map fun block => ⟨block.header, total⟩)

end HeaderIndex

/-! ## What a lookup answers -/

section WorkOf

variable (opts : NodeOptions) (chain : ChainState)

/-- The work a lookup answers: that of the nearest indexed ancestor, and of the
    stored blocks above it. -/
def workOf (headers : HeaderIndex) : (fuel : ℕ) → (hash : Text) → Except NodeError (Option ℕ)
  | 0, _ => .error .unfinished
  | fuel + 1, hash =>
    match headers.get hash with
    | some entry => .ok (some entry.work)
    | none =>
      match chain.getBlock hash with
      | none => .ok none
      | some block =>
        if block.header.height = 0 then do pure (some (← blockWork opts block.header))
        else do
          match ← workOf headers fuel block.header.previousHash with
          | none => pure none
          | some work => pure (some (work + (← blockWork opts block.header)))

/-- Stored blocks have their parent stored, one lower, down to height `0`. -/
def Linked : Prop :=
  ∀ hash block, chain.getBlock hash = some block → block.header.height ≠ 0 →
    ∃ parent, chain.getBlock block.header.previousHash = some parent ∧
      block.header.height = parent.header.height + 1

end WorkOf

section Lookup

variable {opts : NodeOptions} {env : Env} {chain : ChainState} {headers : HeaderIndex}

variable {hash : Text} {fuel work : ℕ}

/-- More steps than the height of the block change nothing. -/
theorem workOf_fuel (hlinked : Linked chain) {block : Block} (hb : chain.getBlock hash = some block)
    {m n : ℕ} (hm : block.header.height < m) (hn : block.header.height < n) :
    workOf opts chain headers m hash = workOf opts chain headers n hash := by
  induction m generalizing n hash block with
  | zero => omega
  | succ m ih =>
    obtain ⟨n, rfl⟩ : ∃ n', n = n' + 1 := ⟨n - 1, by omega⟩
    simp only [workOf, hb]
    by_cases h0 : block.header.height = 0
    · simp only [h0, if_true]
    · obtain ⟨parent, hparent, hheight⟩ := hlinked hash block hb h0
      rw [ih (n := n) hparent (by omega) (by omega)]

theorem backfill_append (work : ℕ) (pending : List Block) (block : Block) :
    backfill opts env work (pending ++ [block]) =
      (backfill opts env work pending >>= fun w => backfill opts env w [block]) := by
  induction pending generalizing work with
  | nil => rw [List.nil_append, backfill, pure_bind]
  | cons b pending ih => simp only [List.cons_append, backfill, bind_assoc, ih]

/-- An index extended by lookups: a new entry is one of a stored block, with the
    work a lookup answers. -/
def Backfilled (opts : NodeOptions) (chain : ChainState) (headers headers' : HeaderIndex) : Prop :=
  ∀ hash, headers'.get hash = headers.get hash ∨
    (headers.get hash = none ∧ ∃ block work, chain.getBlock hash = some block ∧
      workOf opts chain headers (block.header.height + 1) hash = .ok (some work) ∧
      headers'.get hash = some ⟨block.header, work⟩)

theorem Backfilled.refl : Backfilled opts chain headers headers := fun _ => .inl rfl

/-- One more entry. -/
theorem Backfilled.set {headers' : HeaderIndex} (h : Backfilled opts chain headers headers')
    {block : Block} (hnone : headers.get hash = none) (hb : chain.getBlock hash = some block)
    (hwork : workOf opts chain headers (block.header.height + 1) hash = .ok (some work)) :
    Backfilled opts chain headers (headers'.set hash (some ⟨block.header, work⟩)) := by
  intro k
  rw [Store.get_set]
  split
  · next hk =>
    subst hk
    exact .inr ⟨hnone, block, work, hb, hwork, rfl⟩
  · exact h k

/-- What a block adds to the work below it. -/
theorem workOf_block {block : Block} (hnone : headers.get hash = none)
    (hb : chain.getBlock hash = some block) (h0 : block.header.height ≠ 0)
    (hwork : workOf opts chain headers fuel block.header.previousHash = .ok (some work)) :
    workOf opts chain headers (fuel + 1) hash =
      (blockWork opts block.header).map fun added => some (work + added) := by
  simp only [workOf, hnone, hb, h0, if_false, hwork]
  cases blockWork opts block.header <;> rfl

/-- Indexing one block: its work is computed, and the entry written. -/
theorem exec_backfill_singleton (work : ℕ) (block : Block) (index : HeaderIndex) :
    (backfill opts env work [block]).exec index =
      match blockWork opts block.header with
      | .error e => (.error e, index)
      | .ok added =>
        if env.fails (.header block.hash) then (.error .storage, index)
        else (.ok (work + added),
          index.set block.hash (some ⟨block.header, work + added⟩)) := by
  simp only [backfill, exec_bind, exec_lift]
  cases blockWork opts block.header with
  | error e => rfl
  | ok added =>
    cases hfail : env.fails (.header block.hash) <;> simp [putHeader, hfail]

/-- What a lookup does: the result of the walk is the one of `workOf`, and the
    blocks it passed are indexed with theirs. -/
structure Answers (opts : NodeOptions) (env : Env) (chain : ChainState)
    (headers : HeaderIndex) (answer : Except NodeError (Option ℕ))
    (outcome : Except NodeError ℕ × HeaderIndex) : Prop where
  backfilled : Backfilled opts chain headers outcome.2
  of_ok : ∀ work, outcome.1 = .ok work → answer = .ok (some work)
  eq : (∀ hash, env.fails (.header hash) = false) → answer = outcome.1.map some

/-- Indexing one block on top of a work that is known. -/
theorem answers_singleton {block : Block} {index : HeaderIndex}
    (hlinked : Linked chain) (hnone : headers.get hash = none)
    (hb : chain.getBlock hash = some block) (hfuel : block.header.height < fuel)
    (hindex : Backfilled opts chain headers index)
    (hwork : workOf opts chain headers fuel hash =
      (blockWork opts block.header).map fun added => some (work + added)) :
    Answers opts env chain headers (workOf opts chain headers fuel hash)
      ((backfill opts env work [block]).exec index) := by
  rw [exec_backfill_singleton, chain.keyed hash block hb, hwork]
  cases hadd : blockWork opts block.header with
  | error e => exact ⟨hindex, fun w hw => (nomatch hw), fun _ => rfl⟩
  | ok added =>
    dsimp only
    by_cases hfail : env.fails (.header hash)
    · rw [if_pos hfail]
      exact ⟨hindex, fun w hw => (nomatch hw), fun hf => by simp [hf] at hfail⟩
    · rw [if_neg hfail]
      refine ⟨hindex.set hnone hb ?_, fun w hw => ?_, fun _ => rfl⟩
      · rw [workOf_fuel hlinked hb (Nat.lt_succ_self _) hfuel, hwork, hadd]
        rfl
      · cases hw
        rfl

/-- Indexing the block on top of the ones below it. -/
theorem Answers.block {block : Block} (hlinked : Linked chain)
    (hnone : headers.get hash = none) (hb : chain.getBlock hash = some block)
    (h0 : block.header.height ≠ 0) (hfuel : block.header.height ≤ fuel)
    {m : Prog HeaderIndex NodeError ℕ}
    (h : Answers opts env chain headers
      (workOf opts chain headers fuel block.header.previousHash) (m.exec headers)) :
    Answers opts env chain headers (workOf opts chain headers (fuel + 1) hash)
      ((m >>= fun w => backfill opts env w [block]).exec headers) := by
  obtain ⟨parent, hparent, hheight⟩ := hlinked hash block hb h0
  rw [exec_bind]
  rcases hm : m.exec headers with ⟨e | work, index⟩
  · -- The blocks below failed: so does everything above.
    rw [hm] at h
    refine ⟨h.backfilled, fun work hw => (nomatch hw), fun hf => ?_⟩
    have hbelow := h.eq hf
    simp only [workOf, hnone, hb, h0, if_false, hbelow]
    rfl
  · rw [hm] at h
    exact answers_singleton hlinked hnone hb (by omega) h.backfilled
      (workOf_block hnone hb h0 (h.of_ok work rfl))

/-- The walk and the backfill together answer what `workOf` says. -/
theorem answers_of_unindexed (hlinked : Linked chain)
    (hfuel : ∀ block, chain.getBlock hash = some block → block.header.height < fuel)
    {pending : List Block} (h : unindexed chain headers fuel hash = .ok (some (pending, work))) :
    Answers opts env chain headers (workOf opts chain headers fuel hash)
      ((backfill opts env work pending.reverse).exec headers) := by
  induction fuel generalizing hash pending work with
  | zero => cases h
  | succ fuel ih =>
    rw [unindexed] at h
    cases hentry : headers.get hash with
    | some entry =>
      simp only [hentry] at h
      cases h
      refine ⟨Backfilled.refl, fun w hw => ?_, fun _ => ?_⟩
      · cases hw
        simp [workOf, hentry]
      · simp [workOf, hentry, backfill, Except.map]
    | none =>
      simp only [hentry] at h
      cases hb : chain.getBlock hash with
      | none => simp [hb] at h
      | some block =>
        simp only [hb] at h
        have hlt := hfuel block hb
        by_cases h0 : block.header.height = 0
        · simp only [h0, if_true] at h
          cases h
          refine answers_singleton hlinked hentry hb hlt Backfilled.refl ?_
          simp only [workOf, hentry, hb, h0, if_true]
          cases blockWork opts block.header <;> simp [Except.map, bind, Except.bind, pure, Except.pure]
        · simp only [h0, if_false, bind_eq_ok] at h
          obtain ⟨below, hbelow, h⟩ := h
          cases below with
          | none => cases h
          | some found =>
            obtain ⟨below, w⟩ := found
            cases h
            rw [List.reverse_cons, backfill_append]
            obtain ⟨parent, hparent, hheight⟩ := hlinked hash block hb h0
            refine (ih ?_ hbelow).block hlinked hentry hb h0 (by omega)
            intro parent' hparent'
            cases hparent.symm.trans hparent'
            omega

/-- A walk that finds no indexed ancestor answers so too. -/
theorem workOf_of_unindexed :
    (unindexed chain headers fuel hash = .ok none → workOf opts chain headers fuel hash = .ok none) ∧
    ∀ e, unindexed chain headers fuel hash = .error e →
      workOf opts chain headers fuel hash = .error e := by
  induction fuel generalizing hash with
  | zero => exact ⟨fun h => (nomatch h), fun e h => by cases h; rfl⟩
  | succ fuel ih =>
    rw [unindexed, workOf]
    cases headers.get hash with
    | some entry => exact ⟨fun h => (nomatch h), fun e h => (nomatch h)⟩
    | none =>
      cases chain.getBlock hash with
      | none => exact ⟨fun _ => rfl, fun e h => (nomatch h)⟩
      | some block =>
        dsimp only
        split
        · exact ⟨fun h => (nomatch h), fun e h => (nomatch h)⟩
        · obtain ⟨hnone, herror⟩ := @ih block.header.previousHash
          cases hbelow : unindexed chain headers fuel block.header.previousHash with
          | error e =>
            rw [herror e hbelow]
            exact ⟨fun h => (nomatch h), fun e' h => by cases h; rfl⟩
          | ok below =>
            cases below with
            | none =>
              rw [hnone hbelow]
              exact ⟨fun _ => rfl, fun e h => (nomatch h)⟩
            | some found => exact ⟨fun h => (nomatch h), fun e h => (nomatch h)⟩

/-- A walk from a hash that is not indexed starts with its block. -/
theorem unindexed_head {pending : List Block} (hnone : headers.get hash = none)
    (h : unindexed chain headers fuel hash = .ok (some (pending, work))) :
    ∃ block, pending.head? = some block := by
  cases fuel with
  | zero => cases h
  | succ fuel =>
    simp only [unindexed, hnone] at h
    cases hb : chain.getBlock hash with
    | none => simp [hb] at h
    | some block =>
      simp only [hb] at h
      split at h
      · cases h
        exact ⟨block, rfl⟩
      · rw [bind_eq_ok] at h
        obtain ⟨below, -, h⟩ := h
        cases below with
        | none => cases h
        | some found =>
          cases h
          exact ⟨block, rfl⟩

theorem lt_lookupFuel {block : Block} (hb : chain.getBlock hash = some block) :
    block.header.height < lookupFuel chain hash := by
  simp only [lookupFuel, hb, Option.map_some, Option.getD_some, walkFuel]
  omega

/-- A lookup only adds entries it can answer for, and answers what `workOf`
    says when no write fails. -/
theorem getIndexedHeader_spec (hlinked : Linked chain) (hash : Text) :
    Backfilled opts chain headers ((getIndexedHeader opts env chain hash).exec headers).2 ∧
    ((∀ k, env.fails (.header k) = false) →
      ((getIndexedHeader opts env chain hash).exec headers).1.map (·.map (·.work)) =
        workOf opts chain headers (lookupFuel chain hash) hash) := by
  have hfuel : ∀ block, chain.getBlock hash = some block →
      block.header.height < lookupFuel chain hash := fun _ hb => lt_lookupFuel hb
  simp only [getIndexedHeader, exec_bind, exec_reads, id_eq]
  cases hentry : headers.get hash with
  | some entry =>
    refine ⟨Backfilled.refl, fun _ => ?_⟩
    obtain ⟨n, hn⟩ : ∃ n, lookupFuel chain hash = n + 1 := by
      unfold lookupFuel
      cases chain.getBlock hash with
      | none => exact ⟨0, rfl⟩
      | some block => exact ⟨_, rfl⟩
    rw [hn]
    simp [workOf, hentry, Except.map]
  | none =>
    simp only [exec_bind, exec_lift]
    cases hwalk : unindexed chain headers (lookupFuel chain hash) hash with
    | error e => exact ⟨Backfilled.refl, fun _ => (workOf_of_unindexed.2 e hwalk).symm⟩
    | ok found =>
      cases found with
      | none => exact ⟨Backfilled.refl, fun _ => (workOf_of_unindexed.1 hwalk).symm⟩
      | some found =>
        obtain ⟨pending, work⟩ := found
        have h : Answers opts env chain headers _ _ := answers_of_unindexed hlinked hfuel hwalk
        obtain ⟨block, hhead⟩ := unindexed_head hentry hwalk
        simp only [exec_bind]
        rcases hfill : (backfill opts env work pending.reverse).exec headers with ⟨e | total, index⟩
        · rw [hfill] at h
          exact ⟨h.backfilled, fun hf => (h.eq hf).symm⟩
        · rw [hfill] at h
          refine ⟨h.backfilled, fun hf => ?_⟩
          rw [h.eq hf]
          simp [hhead, Except.map]

/-- An index that lookups have extended answers as before. -/
theorem Backfilled.workOf_eq {headers' : HeaderIndex} (hlinked : Linked chain)
    (h : Backfilled opts chain headers headers')
    (hfuel : ∀ block, chain.getBlock hash = some block → block.header.height < fuel) :
    workOf opts chain headers' fuel hash = workOf opts chain headers fuel hash := by
  induction fuel generalizing hash with
  | zero => rfl
  | succ fuel ih =>
    rcases h hash with hsame | ⟨hnone, block, work, hb, hwork, hnew⟩
    · simp only [workOf, hsame]
      cases headers.get hash with
      | some entry => rfl
      | none =>
        cases hb : chain.getBlock hash with
        | none => rfl
        | some block =>
          by_cases h0 : block.header.height = 0
          · simp only [h0, if_true]
          · obtain ⟨parent, hparent, hheight⟩ := hlinked hash block hb h0
            have hlt := hfuel block hb
            dsimp only
            rw [ih]
            intro parent' hparent'
            cases hparent.symm.trans hparent'
            omega
    · -- The walk stops at the new entry, which holds what lies below it.
      have hold : workOf opts chain headers (fuel + 1) hash = .ok (some work) := by
        rw [← hwork]
        exact workOf_fuel hlinked hb (hfuel block hb) (Nat.lt_succ_self _)
      rw [hold]
      simp only [workOf, hnew]

end Lookup

end Plainchain
