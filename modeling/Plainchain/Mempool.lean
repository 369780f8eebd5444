import Plainchain.Lib.Prog
import Plainchain.State.UtxoSet

/-!
# The mempool

`src/mempool/mempool.ts`: pending transactions, with two admission policies on
top of validation against the UTXO set. A full pool evicts its lowest fee for a
higher one, and a transaction that spends an outpoint a pending one claims
replaces it if it pays for it.

An admission is a program over the pool: what it evicted before it refuses stays
evicted.

* `addTransaction_pending`: a pending transaction was pending before, or is the new
  one, and then it is valid.
-/

namespace Plainchain

open Js Kv

structure MempoolPolicy where
  /-- The most transactions held at once; unbounded when omitted. -/
  maxSize : Option ℕ
  minFee : ℤ
  /-- The most pending transactions one replacement may evict. -/
  maxReplacements : ℕ

structure Mempool where
  transactions : OrdMap Text Transaction
  /-- The pending transaction that spends an outpoint, by outpoint. -/
  claimedOutpoints : OrdMap Text Text

namespace Mempool

def empty : Mempool := ⟨.empty, .empty⟩

def has (pool : Mempool) (txId : Text) : Bool := (pool.transactions.get txId).isSome

/-- Whether a pending transaction already spends an outpoint. -/
def isClaimed (pool : Mempool) (txId : Text) (outputIndex : Number) : Bool :=
  (pool.claimedOutpoints.get (utxoKey txId outputIndex)).isSome

def getTransactions (pool : Mempool) : List Transaction := pool.transactions.values

/-- By fee, highest first; equal fees in the order of arrival. -/
def getTransactionsByFee (pool : Mempool) : List Transaction :=
  pool.getTransactions.insertionSort fun a b => b.fee ≤ a.fee

/-- Gives up the claims of a transaction. -/
def release (claimed : OrdMap Text Text) (tx : Transaction) : OrdMap Text Text :=
  tx.inputs.foldl (fun claimed input =>
    if claimed.get input.key = some tx.id then claimed.delete input.key else claimed) claimed

def remove (pool : Mempool) (txId : Text) : Mempool :=
  match pool.transactions.get txId with
  | none => pool
  | some tx =>
    { transactions := pool.transactions.delete txId
      claimedOutpoints := release pool.claimedOutpoints { tx with id := txId } }

/-- Adds a transaction with its claims. -/
def insert (pool : Mempool) (tx : Transaction) : Mempool :=
  { transactions := pool.transactions.set tx.id tx
    claimedOutpoints := tx.inputs.foldl (fun claimed input => claimed.set input.key tx.id)
      pool.claimedOutpoints }

/-- The pending transactions that a transaction would displace. -/
def conflicts (pool : Mempool) (tx : Transaction) : OrdMap Text (Option Transaction) :=
  tx.inputs.foldl (fun found input =>
    match pool.claimedOutpoints.get input.key with
    | none => found
    | some claimant => found.set claimant (pool.transactions.get claimant)) .empty

/-- The fees of what is displaced. -/
def displacedFees (displaced : OrdMap Text (Option Transaction)) : Except Objection ℤ :=
  displaced.values.foldlM (fun fees found =>
    match found with
    | some tx => .ok (fees + tx.fee)
    | none => .error (.thrown (lit "Cannot read properties of undefined (reading 'fee')"))) 0

/-- The first of the lowest fee. -/
def lowestFeeTransaction (pool : Mempool) : Option Transaction :=
  pool.getTransactions.foldl (fun lowest tx =>
    match lowest with
    | none => some tx
    | some low => if tx.fee < low.fee then some tx else lowest) none

end Mempool

section Admission

variable (S : SignatureScheme) (policy : MempoolPolicy) (u : UtxoSet)

/-- The rules of replace-by-fee: a transaction pays for what it displaces. -/
def paysForConflicts (displaced : OrdMap Text (Option Transaction)) (tx : Transaction) :
    Verdict := do
  refuse (policy.maxReplacements < displaced.size)
    (lit "transaction would replace " ++ decimal displaced.size
      ++ lit " pending transactions; at most " ++ decimal policy.maxReplacements ++ lit " allowed")
  if displaced.size = 0 then .ok ()
  else do
    let fees ← Mempool.displacedFees displaced
    refuse (tx.fee < fees + policy.minFee)
      (lit "conflicts with " ++ decimal displaced.size
        ++ lit " pending transaction(s); to replace them the fee must be at least "
        ++ decimalInt (fees + policy.minFee) ++ lit " (their " ++ decimalInt fees
        ++ lit " plus the minimum " ++ decimalInt policy.minFee ++ lit "), got "
        ++ decimalInt tx.fee)

/-- The rules on a transaction before anything is evicted. -/
def admissible (pool : Mempool) (tx : Transaction) (spendingHeight : ℕ) : Verdict := do
  refuse (pool.has tx.id) (lit "duplicate transaction: already pending")
  refuse (tx.inputs = [])
    (lit "coinbase-style transactions are not accepted via the mempool")
  refuse (tx.fee < policy.minFee)
    (lit "transaction fee " ++ decimalInt tx.fee ++ lit " is below the minimum required fee "
      ++ decimalInt policy.minFee)
  paysForConflicts policy (pool.conflicts tx) tx
  validateTransaction S u tx spendingHeight

/-- Makes room for a transaction in a full pool, if it pays more than the lowest
    pending fee. -/
def makeRoom (pool : Mempool) (tx : Transaction) : Except Objection Mempool :=
  let full := ∃ n ∈ policy.maxSize, n ≤ pool.transactions.size
  if full then
    let refusal := lit "mempool full (max " ++ decimal (policy.maxSize.getD 0)
      ++ lit ") and incoming fee does not exceed the lowest pending fee"
    match pool.lowestFeeTransaction with
    | none => .error (.invalid refusal)
    | some low => if tx.fee ≤ low.fee then .error (.invalid refusal) else .ok (pool.remove low.id)
  else .ok pool

/-- Admits a transaction, which would be mined at `spendingHeight`; the result
    lists what it replaced. -/
def addTransaction (tx : Transaction) (spendingHeight : ℕ) :
    Prog Mempool Objection (List Text) := do
  let pool ← Prog.reads id
  Prog.lift (admissible S policy u pool tx spendingHeight)
  let displaced := (pool.conflicts tx).keys
  -- Evicted only now, after full validation.
  Prog.writes fun pool => displaced.foldl Mempool.remove pool
  let pool ← Prog.reads id
  let pool ← Prog.lift (makeRoom policy pool tx)
  Prog.writes fun _ => pool.insert tx
  pure displaced

end Admission

/-! ## What is pending -/

namespace Mempool

variable {pool : Mempool} {tx : Transaction}

/-- A transaction that is pending under an id. -/
def Pending (pool : Mempool) (txId : Text) (tx : Transaction) : Prop :=
  pool.transactions.get txId = some tx

theorem pending_remove {id id' : Text} :
    (pool.remove id).Pending id' tx ↔ id' ≠ id ∧ pool.Pending id' tx := by
  unfold Pending remove
  cases h : pool.transactions.get id with
  | none =>
    dsimp only
    constructor
    · intro hp
      refine ⟨?_, hp⟩
      rintro rfl
      simp [h] at hp
    · exact fun hp => hp.2
  | some removed =>
    dsimp only
    rw [OrdMap.get_delete]
    split <;> simp_all

theorem pending_removeAll {ids : List Text} {id' : Text} :
    (ids.foldl remove pool).Pending id' tx ↔ id' ∉ ids ∧ pool.Pending id' tx := by
  induction ids generalizing pool with
  | nil => simp
  | cons id ids ih =>
    rw [List.foldl_cons, ih, pending_remove, List.mem_cons, not_or, ← and_assoc,
      and_comm (a := id' ∉ ids)]

theorem pending_insert {new : Transaction} {id' : Text} :
    (pool.insert new).Pending id' tx ↔
      (id' = new.id ∧ new = tx) ∨ (id' ≠ new.id ∧ pool.Pending id' tx) := by
  unfold Pending insert
  rw [OrdMap.get_set]
  split <;> simp_all

theorem mem_getTransactions :
    tx ∈ pool.getTransactions ↔ ∃ id, pool.Pending id tx := by
  simp only [getTransactions, OrdMap.values, List.mem_map, Pending, OrdMap.get_eq_some,
    Prod.exists, exists_eq_right]

end Mempool

section Admitted

variable {S : SignatureScheme} {policy : MempoolPolicy} {u : UtxoSet} {pool pool' : Mempool}
  {tx : Transaction} {spendingHeight : ℕ}

theorem makeRoom_pending (h : makeRoom policy pool tx = .ok pool') {id : Text} {t : Transaction}
    (hp : pool'.Pending id t) : pool.Pending id t := by
  unfold makeRoom at h
  dsimp only at h
  split at h
  · split at h
    · cases h
    · split at h
      · cases h
      · cases h
        exact (Mempool.pending_remove.1 hp).2
  · cases h
    exact hp

theorem admissible_valid (h : admissible S policy u pool tx spendingHeight = .ok ()) :
    tx.inputs ≠ [] ∧ validateTransaction S u tx spendingHeight = .ok () := by
  simp only [admissible, seq_eq_ok, refuse_eq_ok] at h
  obtain ⟨-, hne, -, -, h⟩ := h
  exact ⟨hne, h⟩

/-- After an admission, whether it succeeds or not, what is pending was pending
    before or is the new transaction, and then it is valid. -/
theorem addTransaction_pending {r : Except Objection (List Text)}
    (h : (addTransaction S policy u tx spendingHeight).exec pool = (r, pool')) {id : Text}
    {t : Transaction} (hp : pool'.Pending id t) :
    pool.Pending id t ∨
      (id = tx.id ∧ t = tx ∧ tx.inputs ≠ [] ∧
        validateTransaction S u tx spendingHeight = .ok ()) := by
  simp only [addTransaction, Prog.exec_bind, Prog.exec_reads, Prog.exec_lift, Prog.exec_writes,
    id_eq] at h
  cases hadm : admissible S policy u pool tx spendingHeight with
  | error e =>
    simp only [hadm] at h
    cases h
    exact .inl hp
  | ok v =>
    simp only [hadm] at h
    cases hroom : makeRoom policy ((pool.conflicts tx).keys.foldl Mempool.remove pool) tx with
    | error e =>
      simp only [hroom] at h
      cases h
      exact .inl (Mempool.pending_removeAll.1 hp).2
    | ok roomy =>
      simp only [hroom] at h
      cases h
      rcases Mempool.pending_insert.1 hp with ⟨rfl, rfl⟩ | ⟨-, hp⟩
      · exact .inr ⟨rfl, rfl, admissible_valid hadm⟩
      · exact .inl (Mempool.pending_removeAll.1 (makeRoom_pending hroom hp)).2

end Admitted

end Plainchain
