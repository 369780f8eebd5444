import Plainchain.Node.Adopt

/-!
# What the next block must be

The part of `src/node/node.ts` that says what a block after a given parent is
judged by: its target, the signers before it, and the checkpoints. All of it is
read from the ancestry of the parent, which for a fork is not the canonical one.

Headers of a batch that is being validated are not stored yet (`unstored`).
-/

namespace Plainchain

open Js Kv List

section Rules

variable (opts : NodeOptions) (chain : ChainState) (headers : HeaderIndex)
  (unstored : OrdMap Text BlockHeader)

/-- A header by hash: of a batch not stored yet, of the header index, or of a
    stored block. -/
def lookupHeader (hash : Text) : Option BlockHeader :=
  ((unstored.get hash).or ((headers.get hash).map (·.header))).or
    ((chain.getBlock hash).map (·.header))

/-- The ancestor some steps behind a header. -/
def ancestorHeader : (steps : ℕ) → BlockHeader → Option BlockHeader
  | 0, header => some header
  | steps + 1, header => do
    let parent ← lookupHeader chain headers unstored header.previousHash
    ancestorHeader steps parent

/-- The target of the block after `parent`. -/
def expectedTargetFor (parent : ChainHeader) : Except NodeError Text :=
  let nextHeight := parent.header.height + 1
  let interval := opts.retarget.difficultyRetargetInterval
  if ¬opts.engine.retargets ∨ nextHeight % interval ≠ 0 then .ok parent.header.difficultyTarget
  else
    let gaps := nextHeight - 1 - retargetWindow nextHeight interval
    match ancestorHeader chain headers unstored gaps parent.header with
    | none =>
      .error (.error (lit "cannot compute retarget: missing ancestor of " ++ parent.hash))
    | some periodStart => (nextTarget parent.header periodStart opts.retarget).mapError .error

/-- The signers of the headers from `cursor` back, as far as `window` reaches. -/
def signersFrom : (window : ℕ) → (cursor : Option BlockHeader) → List Text
  | 0, _ => []
  | _, none => []
  | window + 1, some header =>
    header.signer.toList ++ signersFrom window
      (if header.height = 0 then none
      else lookupHeader chain headers unstored header.previousHash)

/-- The signers of the headers that end at `parentHash`, that one first. -/
def recentSignersFor (parentHash : Text) : List Text :=
  signersFrom chain headers unstored opts.engine.recentSignerWindow
    (lookupHeader chain headers unstored parentHash)

end Rules

section Checkpoints

variable (opts : NodeOptions)

def checkpointFor (height : ℕ) : Option Text := opts.checkpoints.get height

/-- A block at or below a verified checkpoint that is not the canonical one. -/
def conflictsWithVerifiedCheckpoint (chain : ChainState) (verifiedCheckpointHeight : ℤ)
    (height : ℕ) (hash : Text) : Prop :=
  (height : ℤ) ≤ verifiedCheckpointHeight ∧
    ∃ canonical ∈ chain.getCanonicalHashAtHeight height, canonical ≠ hash

instance (chain : ChainState) (verified : ℤ) (height : ℕ) (hash : Text) :
    Decidable (conflictsWithVerifiedCheckpoint chain verified height hash) :=
  inferInstanceAs (Decidable (_ ∧ _))

end Checkpoints

/-! ## Lookups along an ancestry

Where the headers behind one are those of a list, so are the ancestors and the signers
that it finds. -/

/-- The headers of a list are at the heights of their positions, and from each the one
    before it is found. -/
structure Resolves (chain : ChainState) (headers : HeaderIndex) (batch : OrdMap Text BlockHeader)
    (list : List ChainHeader) : Prop where
  heights : ∀ (i : ℕ) (c : ChainHeader), list[i]? = some c → c.header.height = i
  previous : ∀ (i : ℕ) (c : ChainHeader), list[i + 1]? = some c → ∃ p, list[i]? = some p ∧
    lookupHeader chain headers batch c.header.previousHash = some p.header

namespace Resolves

variable {chain : ChainState} {headers : HeaderIndex} {batch : OrdMap Text BlockHeader}
  {list : List ChainHeader} (h : Resolves chain headers batch list)

include h

/-- Steps back along the ancestry are steps back in the list. -/
theorem ancestorHeader_eq {steps i : ℕ} {c : ChainHeader} (hc : list[i + steps]? = some c) :
    ∃ a, list[i]? = some a ∧ ancestorHeader chain headers batch steps c.header = some a.header := by
  induction steps generalizing c with
  | zero => exact ⟨c, hc, rfl⟩
  | succ steps ih =>
    obtain ⟨p, hp, hlookup⟩ := h.previous _ c hc
    obtain ⟨a, ha, hancestor⟩ := ih hp
    refine ⟨a, ha, ?_⟩
    rw [ancestorHeader, hlookup]
    exact hancestor

/-- The signers behind a header, along the ancestry and in the list. -/
theorem signersFrom_eq {window i : ℕ} {c : ChainHeader} (hc : list[i]? = some c) :
    signersFrom chain headers batch window (some c.header) =
      ((list.take (i + 1)).drop (i + 1 - window)).reverse.filterMap (·.header.signer) := by
  induction window generalizing i c with
  | zero =>
    have hlen : (list.take (i + 1)).drop (i + 1 - 0) = [] :=
      drop_eq_nil_of_le (by rw [length_take]; omega)
    rw [hlen]
    rfl
  | succ window ih =>
    have hlt : i < list.length := (List.getElem?_eq_some_iff.1 hc).1
    -- The last of the headers is `c`; those before it are one window shorter.
    have hsplit : (list.take (i + 1)).drop (i + 1 - (window + 1)) =
        (list.take i).drop (i - window) ++ [c] := by
      rw [take_add_one, hc, Option.toList_some, drop_append_of_le_length]
      · congr 2
        omega
      · rw [length_take]
        omega
    rw [hsplit, reverse_append, reverse_singleton, singleton_append,
      filterMap_cons, signersFrom, h.heights i c hc]
    have hrest : signersFrom chain headers batch window (if i = 0 then none
        else lookupHeader chain headers batch c.header.previousHash) =
        ((list.take i).drop (i - window)).reverse.filterMap (·.header.signer) := by
      cases i with
      | zero =>
        rw [if_pos rfl]
        cases window <;> simp [signersFrom]
      | succ i =>
        obtain ⟨p, hp, hlookup⟩ := h.previous _ c hc
        rw [if_neg (Nat.succ_ne_zero i), hlookup, ih hp]
    rw [hrest]
    cases c.header.signer <;> rfl

end Resolves

end Plainchain
