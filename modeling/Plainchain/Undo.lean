import Plainchain.Supply

/-!
# Disconnecting a block

Undoing the records of a block, last transaction first, after its transactions
were applied. The record of a transaction lists the entries it spent and the
outpoints it created, but not what stood at those outpoints before:

* a key that the block never created without having spent it reads as before;
* a key it did is deleted by the undo, whatever was there (`readRaw_undo`).

So a disconnect restores the set exactly when nothing unspent was created over
(`undo_restores_iff`). A coinbase has no inputs that would make its id new: a
miner who repeats the body of an unspent coinbase creates over it.
-/

namespace Plainchain

open Js Kv List

/-- The transactions create an output at `key` that no transaction up to then
    has spent. -/
def CreatesUnspent : List Transaction → Text → Prop
  | [], _ => False
  | tx :: txs, key => key ∉ tx.inputs.map TxInput.key ∧
      (key ∈ (createdOutpoints tx).map TxOutpoint.key ∨ CreatesUnspent txs key)

instance (txs : List Transaction) (key : Text) : Decidable (CreatesUnspent txs key) := by
  induction txs with
  | nil => exact inferInstanceAs (Decidable False)
  | cons tx txs ih => exact inferInstanceAs (Decidable (_ ∧ (_ ∨ _)))

section

variable {S : SignatureScheme} {u v : UtxoSet} {height : ℕ}

/-- The entries a valid transaction spends are all in its record. -/
theorem undoRecord_spent {tx : Transaction} (h : ValidTransaction S u tx height) :
    ((undoRecord u tx).spent.map fun s => (s.key, some s.entry)) =
      (tx.inputs.map TxInput.key).map fun key => (key, u.readRaw key) := by
  have hfound : ∀ input ∈ tx.inputs, ∃ entry, u.readRaw input.key = some entry :=
    fun input hinput => (h.spends input hinput).imp fun _ he => he.1
  simp only [undoRecord]
  generalize tx.inputs = inputs at hfound
  induction inputs with
  | nil => rfl
  | cons input inputs ih =>
    rw [forall_mem_cons] at hfound
    obtain ⟨⟨entry, he⟩, hrest⟩ := hfound
    rw [filterMap_cons, he]
    simp only [Option.map_some, map_cons, ih hrest, he]
    rfl

/-- What a key reads as once a transaction is undone. -/
theorem readRaw_undoTransaction {tx : Transaction} (h : ValidTransaction S u tx height)
    (key : Text) :
    (undoTransaction v (undoRecord u tx)).readRaw key =
      if key ∈ tx.inputs.map TxInput.key then u.readRaw key
      else if key ∈ (createdOutpoints tx).map TxOutpoint.key then none else v.readRaw key := by
  have hcreated : ((undoRecord u tx).created.map fun o => (o.key, (none : Option UtxoEntry))) =
      ((createdOutpoints tx).map TxOutpoint.key).map fun key => (key, none) := by
    rw [map_map]
    rfl
  rw [undoTransaction, UtxoSet.readRaw_write, undoOps, undoRecord_spent h, hcreated,
    lastWrite_append, lastWrite_map, lastWrite_map]
  split
  · rfl
  · split <;> rfl

/-- What a key reads as once a block is applied and undone again. -/
theorem readRaw_undo {txs : List Transaction} {undos : List TxUndo} {u' : UtxoSet}
    (h : applyTransactions S height u txs = .ok (undos, u')) (key : Text) :
    (undoTransactions u' undos).readRaw key =
      if CreatesUnspent txs key then none else u.readRaw key := by
  induction txs generalizing u undos with
  | nil =>
    cases h
    rfl
  | cons tx txs ih =>
    obtain ⟨undo, u₁, undos₂, h₁, h₂, rfl⟩ := applyTransactions_cons_eq_ok h
    obtain ⟨hv, heq⟩ := applyTransaction_eq_ok.1 h₁
    obtain ⟨rfl, rfl⟩ := Prod.mk.inj heq
    rw [undoTransactions, foldr_cons, ← undoTransactions, readRaw_undoTransaction hv, ih h₂]
    -- The record of the first transaction comes last: it restores what that
    -- transaction spent and deletes what it created.
    by_cases hspent : key ∈ tx.inputs.map TxInput.key
    · rw [if_pos hspent, if_neg fun hc => hc.1 hspent]
    · rw [if_neg hspent]
      by_cases hcreated : key ∈ (createdOutpoints tx).map TxOutpoint.key
      · rw [if_pos hcreated, if_pos ⟨hspent, .inl hcreated⟩]
      · rw [if_neg hcreated, readRaw_apply_of_notMem hspent hcreated]
        have hiff : CreatesUnspent (tx :: txs) key ↔ CreatesUnspent txs key :=
          ⟨fun hc => hc.2.resolve_left hcreated, fun hc => ⟨hspent, .inr hc⟩⟩
        simp only [hiff]

/-- Applying the transactions of a block and undoing them restores the set
    exactly when every key they create, without having spent it, was not
    unspent before. -/
theorem undo_restores_iff {txs : List Transaction} {undos : List TxUndo} {u' : UtxoSet}
    (h : applyTransactions S height u txs = .ok (undos, u')) :
    (∀ key, (undoTransactions u' undos).readRaw key = u.readRaw key) ↔
      ∀ key, CreatesUnspent txs key → u.readRaw key = none := by
  refine forall_congr' fun key => ?_
  rw [readRaw_undo h]
  split
  · next hc => exact ⟨fun h _ => h.symm, fun h => (h hc).symm⟩
  · next hc => exact ⟨fun _ h => absurd h hc, fun _ => rfl⟩

end

/-! ## A repeated coinbase -/

/-- The set of a chain with coins at the address of `k`. -/
def paidSet : UtxoSet :=
  ((applyTransactions anySignatures 0 (.new .empty 0) [paidCoinbase]).toOption.map
    Prod.snd).getD (.new .empty 0)

/-- The transactions of a block that spends these coins. -/
def spendingTransactions : List Transaction :=
  [sampleCoinbase 51 0, payment paidCoinbase.id (lit "n")]

/-- A block that spends is undone: the coins that it spent are back, and its own are gone. -/
theorem undo_restores_sample : ∃ undos u',
    applyTransactions anySignatures 1 paidSet spendingTransactions = .ok (undos, u') ∧
    (paidSet.readRaw (utxoKey paidCoinbase.id (.ofNat 0))).isSome ∧
    u'.readRaw (utxoKey paidCoinbase.id (.ofNat 0)) = none ∧
    ∀ key, (undoTransactions u' undos).readRaw key = paidSet.readRaw key := by
  have hreads : ((applyTransactions anySignatures 1 paidSet spendingTransactions).toOption.map
        fun r => r.2.readRaw (utxoKey paidCoinbase.id (.ofNat 0))) = some none ∧
      (paidSet.readRaw (utxoKey paidCoinbase.id (.ofNat 0))).isSome ∧
      ∀ tx ∈ spendingTransactions, ∀ key ∈ (createdOutpoints tx).map TxOutpoint.key,
        paidSet.readRaw key = none := by decide +kernel
  obtain ⟨hspent, hheld, hnew⟩ := hreads
  cases happly : applyTransactions anySignatures 1 paidSet spendingTransactions with
  | error e => simp [happly, Except.toOption] at hspent
  | ok r =>
    rw [happly] at hspent
    refine ⟨r.1, r.2, rfl, hheld, Option.some.inj hspent, (undo_restores_iff happly).2 ?_⟩
    rintro key ⟨-, hkey | ⟨-, hkey | hkey⟩⟩
    · exact hnew _ mem_cons_self key hkey
    · exact hnew _ (mem_cons_of_mem _ mem_cons_self) key hkey
    · exact hkey.elim

/-- Two blocks with the same coinbase are connected; disconnecting the second
    deletes the output of the first. -/
theorem undo_deletes_repeated_coinbase : ∃ chain u ctx undos u' key,
    Connected noSignatures sampleConfig samplePolicy 0 chain u ∧ ctx.parent ∈ chain.head? ∧
    validateBlock noSignatures (sampleBlock ctx.parent (sampleCoinbase 50 0)) ctx = .ok () ∧
    blockRewardAt 2 samplePolicy = .ok ctx.blockReward ∧
    applyTransactions noSignatures 2 u [sampleCoinbase 50 0] = .ok (undos, u') ∧
    (u.readRaw key).isSome ∧ (undoTransactions u' undos).readRaw key = none := by
  have hrun : (do
      let r₀ ← applyTransactions noSignatures 0 (.new .empty 0) sampleGenesis.transactions
      let r₁ ← applyTransactions noSignatures 1 r₀.2 [sampleCoinbase 50 0]
      let r₂ ← applyTransactions noSignatures 2 r₁.2 [sampleCoinbase 50 0]
      let key := utxoKey (sampleCoinbase 50 0).id (.ofNat 0)
      pure ((r₁.2.readRaw key).isSome, (undoTransactions r₂.2 r₂.1).readRaw key))
      = (.ok (true, none) : Except Text (Bool × Option UtxoEntry)) := by decide +kernel
  simp only [bind_eq_ok] at hrun
  obtain ⟨⟨_, _⟩, h₀, ⟨_, u⟩, h₁, ⟨undos, u'⟩, h₂, h⟩ := hrun
  obtain ⟨hsome, hnone⟩ := Prod.mk.inj (Except.ok.inj h)
  exact ⟨_, u, sampleContext (sampleBlock sampleGenesis (sampleCoinbase 50 0)), undos, u', _,
    connected_sampleBlock validateBlock_sample h₀ h₁, rfl, by decide +kernel, by decide +kernel, h₂,
    hsome, hnone⟩

end Plainchain
