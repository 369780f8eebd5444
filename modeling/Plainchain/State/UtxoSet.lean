import Plainchain.Ledger.Transaction
import Plainchain.Lib.Store

/-!
# The UTXO set

`src/state/utxoSet.ts`: the unspent outputs, what it takes to spend them, and the
record that undoes a transaction. Writes go to the store, or, while staging, to
an overlay that reads see first.

* `UtxoSet.readRaw_write`: in both modes a read sees the last write to its key;
* `ValidTransaction`: what `validateTransaction` accepts;
* `applyTransaction_eq_ok`: what applying a transaction returns and writes.
-/

namespace Plainchain

open Js Kv List

/-- An unspent output. -/
structure UtxoEntry extends TxOutput where
  /-- The height of the block that created it. -/
  blockHeight : ℕ
  isCoinbase : Bool
  deriving DecidableEq

structure TxOutpoint where
  txId : Text
  outputIndex : Number
  deriving DecidableEq

structure SpentOutput extends TxOutpoint where
  entry : UtxoEntry
  deriving DecidableEq

/-- What applying a transaction did, sufficient to reverse it. -/
structure TxUndo where
  spent : List SpentOutput
  created : List TxOutpoint
  deriving DecidableEq

def TxOutpoint.key (o : TxOutpoint) : Text := utxoKey o.txId o.outputIndex

/-- A write to the set; `none` deletes. -/
abbrev UtxoWrite := Text × Option UtxoEntry

/-- Pending writes not yet persisted. -/
structure Staging where
  writes : OrdMap Text (Option UtxoEntry)
  /-- The persisted store counts as empty. -/
  clearBase : Bool

structure UtxoSet where
  store : Store Text UtxoEntry
  staging : Option Staging
  /-- The number of blocks a coinbase output is buried under before it can be
      spent. -/
  coinbaseMaturity : ℕ

namespace UtxoSet

/-- A set over a store, as it is constructed. -/
def new (store : Store Text UtxoEntry) (coinbaseMaturity : ℕ) : UtxoSet :=
  { store, staging := none, coinbaseMaturity }

def beginStaging (u : UtxoSet) (clearBase : Bool) : Except Text UtxoSet :=
  match u.staging with
  | some _ => .error (lit "UtxoSet: staging already in progress")
  | none => .ok { u with staging := some { writes := .empty, clearBase } }

def discardStaging (u : UtxoSet) : UtxoSet := { u with staging := none }

/-- The deletions of a replay from scratch: every persisted key that was not
    written again. -/
def clearingOps (store : Store Text UtxoEntry) (writes : OrdMap Text (Option UtxoEntry)) :
    List UtxoWrite :=
  ((store.keys.sort TextLE).filter (· ∉ writes.keys)).map fun key => (key, none)

/-- The staged writes as a batch, and the end of staging. -/
def takeStagedOps (u : UtxoSet) : Except Text (List UtxoWrite × UtxoSet) :=
  match u.staging with
  | none => .error (lit "UtxoSet: no staging in progress")
  | some staging =>
    let cleared := if staging.clearBase then clearingOps u.store staging.writes else []
    .ok (cleared ++ staging.writes.entries, { u with staging := none })

def readRaw (u : UtxoSet) (key : Text) : Option UtxoEntry :=
  match u.staging with
  | none => u.store.get key
  | some staging =>
    match staging.writes.get key with
    | some written => written
    | none => if staging.clearBase then none else u.store.get key

def write (u : UtxoSet) (ops : List UtxoWrite) : UtxoSet :=
  match u.staging with
  | none => { u with store := u.store.batch ops }
  | some staging =>
    { u with staging := some { staging with
        writes := ops.foldl (fun writes op => writes.set op.1 op.2) staging.writes } }

end UtxoSet

/-! ## Validation -/

section Validate

variable (S : SignatureScheme) (u : UtxoSet)

/-- The checks on one input of a transaction, and the amount it brings. -/
def inputAmount (payload : Text) (spendingHeight : ℕ) (input : TxInput) : Except Objection ℤ :=
  match u.readRaw input.key with
  | none =>
    .error (.invalid (lit "referenced UTXO not found (already spent or never existed): "
      ++ input.key))
  | some entry => do
    let matureAt := entry.blockHeight + u.coinbaseMaturity
    refuse (entry.isCoinbase ∧ spendingHeight < matureAt)
      (lit "coinbase output not yet mature: created at height " ++ decimal entry.blockHeight
        ++ lit ", spendable at height " ++ decimal matureAt ++ lit ", attempted at height "
        ++ decimal spendingHeight)
    refuse (deriveAddress input.publicKey ≠ entry.address)
      (lit "input public key does not match the owner address of the referenced output")
    refuse (¬S.verify input.publicKey payload input.signature)
      (lit "input signature does not verify against the transaction payload")
    pure entry.amount

/-- The loop over the inputs. -/
def sumInputs (payload : Text) (spendingHeight : ℕ) : ℤ → List TxInput → Except Objection ℤ
  | totalIn, [] => .ok totalIn
  | totalIn, input :: inputs => do
    let amount ← inputAmount S u payload spendingHeight input
    sumInputs payload spendingHeight (totalIn + amount) inputs

/-- The rules on a transaction in the set, to be mined at `spendingHeight`. -/
def validateTransaction (tx : Transaction) (spendingHeight : ℕ) : Verdict := do
  validateTransactionStructure tx
  -- The reward of a coinbase is a rule on its block.
  if tx.inputs = [] then .ok ()
  else do
    let payload := getSigningPayload tx.toUnsignedTransactionBody
    let totalIn ← sumInputs S u payload spendingHeight 0 tx.inputs
    let totalOut := totalAmount tx.outputs
    refuse (totalIn < totalOut + tx.fee)
      (lit "insufficient input amount: inputs=" ++ decimalInt totalIn ++ lit " outputs+fee="
        ++ decimalInt (totalOut + tx.fee))

end Validate

/-! ## Applying and undoing -/

/-- The deletions of what a transaction spends. -/
def spendOps (tx : Transaction) : List UtxoWrite := tx.inputs.map fun input => (input.key, none)

/-- The outpoints a transaction creates. -/
def createdOutpoints (tx : Transaction) : List TxOutpoint :=
  tx.outputs.zipIdx.map fun (_, index) => ⟨tx.id, .ofNat index⟩

/-- The outputs a transaction creates at a height, each under its key. -/
def createdEntries (tx : Transaction) (height : ℕ) : List (Text × UtxoEntry) :=
  tx.outputs.zipIdx.map fun (output, index) =>
    (utxoKey tx.id (.ofNat index),
      { output with blockHeight := height, isCoinbase := tx.inputs = [] })

def createOps (tx : Transaction) (height : ℕ) : List UtxoWrite :=
  (createdEntries tx height).map fun e => (e.1, some e.2)

/-- The record of a transaction about to be applied. -/
def undoRecord (u : UtxoSet) (tx : Transaction) : TxUndo :=
  { spent := tx.inputs.filterMap fun input =>
      (u.readRaw input.key).map fun entry => ⟨⟨input.txId, input.outputIndex⟩, entry⟩
    created := createdOutpoints tx }

def applyTransaction (S : SignatureScheme) (u : UtxoSet) (tx : Transaction) (height : ℕ) :
    Except Text (TxUndo × UtxoSet) :=
  match validateTransaction S u tx height with
  | .error (.invalid reason) =>
    .error (lit "cannot apply invalid transaction " ++ tx.id ++ lit ": " ++ reason)
  | .error (.thrown message) => .error message
  | .ok () => .ok (undoRecord u tx, u.write (spendOps tx ++ createOps tx height))

/-- The writes that reverse a transaction. -/
def undoOps (undo : TxUndo) : List UtxoWrite :=
  (undo.created.map fun o => (o.key, none)) ++ undo.spent.map fun s => (s.key, some s.entry)

def undoTransaction (u : UtxoSet) (undo : TxUndo) : UtxoSet := u.write (undoOps undo)

/-- The transactions of a block in order, each with its undo record. -/
def applyTransactions (S : SignatureScheme) (height : ℕ) :
    UtxoSet → List Transaction → Except Text (List TxUndo × UtxoSet)
  | u, [] => .ok ([], u)
  | u, tx :: txs => do
    let (undo, u) ← applyTransaction S u tx height
    let (undos, u) ← applyTransactions S height u txs
    pure (undo :: undos, u)

theorem applyTransactions_cons_eq_ok {S : SignatureScheme} {height : ℕ} {u u' : UtxoSet}
    {tx : Transaction} {txs : List Transaction} {undos : List TxUndo}
    (h : applyTransactions S height u (tx :: txs) = .ok (undos, u')) :
    ∃ undo u₁ undos₁, applyTransaction S u tx height = .ok (undo, u₁) ∧
      applyTransactions S height u₁ txs = .ok (undos₁, u') ∧ undos = undo :: undos₁ := by
  simp only [applyTransactions, bind_eq_ok] at h
  obtain ⟨⟨undo, u₁⟩, h₁, ⟨undos₁, _⟩, h₂, h⟩ := h
  cases h
  exact ⟨undo, u₁, undos₁, h₁, h₂, rfl⟩

/-- The records of a block undone, the last one first. -/
def undoTransactions (u : UtxoSet) (undos : List TxUndo) : UtxoSet :=
  undos.foldr (fun undo u => undoTransaction u undo) u

/-! ## Reads and writes -/

namespace UtxoSet

@[simp] theorem readRaw_new (store : Store Text UtxoEntry) (m : ℕ) (key : Text) :
    (new store m).readRaw key = store.get key := rfl

@[simp] theorem coinbaseMaturity_write (u : UtxoSet) (ops : List UtxoWrite) :
    (u.write ops).coinbaseMaturity = u.coinbaseMaturity := by
  unfold write
  split <;> rfl

/-- The overlay keeps the last write to each key. -/
theorem get_foldl_set (ops : List UtxoWrite) (m : OrdMap Text (Option UtxoEntry)) (key : Text) :
    (ops.foldl (fun writes op => writes.set op.1 op.2) m).get key =
      (lastWrite ops key).or (m.get key) := by
  induction ops generalizing m with
  | nil => simp
  | cons op ops ih =>
    rw [foldl_cons, ih, OrdMap.get_set, lastWrite_cons, Option.or_assoc]
    split
    · next h => rw [if_pos h.symm]; rfl
    · next h => rw [if_neg (Ne.symm h), Option.none_or]

/-- A read sees the last write to its key, staged or not. -/
theorem readRaw_write (u : UtxoSet) (ops : List UtxoWrite) (key : Text) :
    (u.write ops).readRaw key = (lastWrite ops key).getD (u.readRaw key) := by
  obtain ⟨store, staging, maturity⟩ := u
  cases staging with
  | none => exact Store.get_batch store ops key
  | some staging =>
    simp only [write, readRaw, get_foldl_set]
    cases lastWrite ops key with
    | some v => rfl
    | none => rfl

end UtxoSet

/-! ## What is accepted -/

/-- The amount at a key, `0` where nothing is unspent. -/
def UtxoSet.amountAt (u : UtxoSet) (key : Text) : ℤ := (u.readRaw key).elim 0 fun e => e.amount

/-- An entry that an input may spend: it is mature, and the input is signed by
    its owner. -/
structure Spends (S : SignatureScheme) (maturity : ℕ) (payload : Text) (spendingHeight : ℕ)
    (input : TxInput) (entry : UtxoEntry) : Prop where
  mature : entry.isCoinbase → entry.blockHeight + maturity ≤ spendingHeight
  owner : deriveAddress input.publicKey = entry.address
  signed : S.verify input.publicKey payload input.signature

/-- What `validateTransaction` accepts. -/
structure ValidTransaction (S : SignatureScheme) (u : UtxoSet) (tx : Transaction)
    (spendingHeight : ℕ) : Prop where
  structured : WellStructured tx
  spends : ∀ input ∈ tx.inputs, ∃ entry, u.readRaw input.key = some entry ∧
    Spends S u.coinbaseMaturity (getSigningPayload tx.toUnsignedTransactionBody) spendingHeight
      input entry
  covered : tx.inputs ≠ [] →
    totalAmount tx.outputs + tx.fee ≤ (tx.inputs.map fun input => u.amountAt input.key).sum

section Spec

variable {S : SignatureScheme} {u : UtxoSet} {tx : Transaction}

theorem inputAmount_eq_ok {payload : Text} {height : ℕ} {input : TxInput} {amount : ℤ} :
    inputAmount S u payload height input = .ok amount ↔
      ∃ entry, u.readRaw input.key = some entry ∧
        Spends S u.coinbaseMaturity payload height input entry ∧ amount = entry.amount := by
  unfold inputAmount
  cases u.readRaw input.key with
  | none => simp
  | some entry =>
    simp only [seq_eq_ok, refuse_eq_ok, not_not, not_and, not_lt, Option.some.injEq,
      exists_eq_left']
    constructor
    · rintro ⟨hm, ho, hs, h⟩
      exact ⟨⟨hm, ho, hs⟩, (Except.ok.inj h).symm⟩
    · rintro ⟨⟨hm, ho, hs⟩, rfl⟩
      exact ⟨hm, ho, hs, rfl⟩

theorem sumInputs_eq_ok {payload : Text} {height : ℕ} {inputs : List TxInput} {init total : ℤ} :
    sumInputs S u payload height init inputs = .ok total ↔
      (∀ input ∈ inputs, ∃ entry, u.readRaw input.key = some entry ∧
        Spends S u.coinbaseMaturity payload height input entry) ∧
      total = init + (inputs.map fun input => u.amountAt input.key).sum := by
  induction inputs generalizing init with
  | nil => simp [sumInputs, eq_comm]
  | cons input inputs ih =>
    simp only [sumInputs, bind_eq_ok, inputAmount_eq_ok, ih, forall_mem_cons, map_cons,
      sum_cons]
    constructor
    · rintro ⟨_, ⟨entry, he, hs, rfl⟩, hrest, rfl⟩
      refine ⟨⟨⟨entry, he, hs⟩, hrest⟩, ?_⟩
      simp only [UtxoSet.amountAt, he, Option.elim_some]
      ring
    · rintro ⟨⟨⟨entry, he, hs⟩, hrest⟩, rfl⟩
      refine ⟨_, ⟨entry, he, hs, rfl⟩, hrest, ?_⟩
      simp only [UtxoSet.amountAt, he, Option.elim_some]
      ring

theorem validateTransaction_eq_ok {height : ℕ} :
    validateTransaction S u tx height = .ok () ↔ ValidTransaction S u tx height := by
  rw [validateTransaction, seq_eq_ok, validateTransactionStructure_eq_ok]
  split
  · next hnil =>
    refine ⟨fun h => ⟨h.1, by simp [hnil], fun hne => absurd hnil hne⟩, fun h => ?_⟩
    exact ⟨h.structured, rfl⟩
  · next hne =>
    simp only [bind_eq_ok, sumInputs_eq_ok, refuse_eq_ok, not_lt]
    constructor
    · rintro ⟨hs, total, ⟨hin, rfl⟩, hle⟩
      exact ⟨hs, hin, fun _ => by simpa using hle⟩
    · rintro ⟨hs, hin, hle⟩
      exact ⟨hs, _, ⟨hin, rfl⟩, by simpa using hle hne⟩

/-- Applying a transaction: it is valid, and the set is written as its inputs
    and outputs say. -/
theorem applyTransaction_eq_ok {height : ℕ} {r : TxUndo × UtxoSet} :
    applyTransaction S u tx height = .ok r ↔
      ValidTransaction S u tx height ∧
        r = (undoRecord u tx, u.write (spendOps tx ++ createOps tx height)) := by
  rw [← validateTransaction_eq_ok, applyTransaction]
  split
  · next h => simp [h]
  · next h => simp [h]
  · next h => simp [h, eq_comm]

/-- What an outpoint written by a transaction reads as afterwards. -/
theorem createOps_keys (tx : Transaction) (height : ℕ) :
    (createOps tx height).map Prod.fst = (createdOutpoints tx).map TxOutpoint.key := by
  simp only [createOps, createdEntries, createdOutpoints, map_map]
  rfl

/-- A transaction leaves alone what it neither spends nor creates. -/
theorem readRaw_apply_of_notMem {height : ℕ} {key : Text}
    (hspent : key ∉ tx.inputs.map TxInput.key)
    (hcreated : key ∉ (createdOutpoints tx).map TxOutpoint.key) :
    (u.write (spendOps tx ++ createOps tx height)).readRaw key = u.readRaw key := by
  rw [← createOps_keys tx height] at hcreated
  have hnone : lastWrite (spendOps tx ++ createOps tx height) key = none := by
    refine lastWrite_eq_none.2 fun op hop heq => ?_
    rcases mem_append.1 hop with hop | hop
    · obtain ⟨input, hinput, rfl⟩ := mem_map.1 hop
      exact hspent (heq ▸ mem_map_of_mem hinput)
    · exact hcreated (heq ▸ mem_map_of_mem hop)
  rw [UtxoSet.readRaw_write, hnone, Option.getD_none]

end Spec

end Plainchain
