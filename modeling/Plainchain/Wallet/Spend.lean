import Plainchain.Lib.Greedy
import Plainchain.State.Codec
import Plainchain.Wallet.TxBuilder

/-!
# Building transactions

`src/wallet/txBuilder.ts`: coins are selected, the largest first, until they cover
what is paid, the fee and, for a record, a change of one; then the change goes back
to the sender, in pieces where this is asked for, and every input is signed.

* `coin_selection`: the coins are as few as can cover the target, in whatever order
  they are listed;
* `buildSigned_eq_ok`: what is built, and of which coins;
* `buildSigned_insufficient_iff`: coins fall short only if no choice of them would
  do;
* `built_transactions`: what is built from the unspent outputs of a key is valid in
  the next block, and conserves coins.
-/

namespace Plainchain

open Js Kv List

/-- An unspent output with its outpoint. -/
structure Unspent extends TxOutpoint, UtxoEntry

/-- The index that a key has; a key without a number in it has one that is none. -/
def indexNumber : Option ℕ → Number
  | some i => .ofNat i
  | none => .other (lit "NaN") ⟨unit 'N', by decide, by decide⟩

/-- The unspent outputs of an address, in the order of their keys. What is staged does
    not count. -/
def UtxoSet.listUnspent (u : UtxoSet) (address : Text) : List Unspent :=
  (u.store.keys.sort TextLE).filterMap fun key => do
    let entry ← u.store.get key
    if entry.address = address then
      let (txId, index) := parseUtxoKey key
      some { entry with txId, outputIndex := indexNumber index }
    else none

/-- Whether a coinbase output is old enough to spend in the next block. -/
def isMature (utxo : Unspent) (tipHeight coinbaseMaturity : ℕ) : Bool :=
  !utxo.isCoinbase || utxo.blockHeight + coinbaseMaturity ≤ tipHeight + 1

/-! ## Selecting coins -/

/-- `a.outputIndex - b.outputIndex` does not put `b` first. -/
def indexLE : Number → Number → Bool
  | .int a, .int b => a ≤ b
  | _, _ => true

/-- The order of coins: the largest first, then by outpoint. -/
def coinLE (a b : Unspent) : Bool :=
  if a.amount ≠ b.amount then b.amount < a.amount
  else if a.txId ≠ b.txId then TextLE a.txId b.txId
  else indexLE a.outputIndex b.outputIndex

/-- What building throws. -/
inductive SpendError
  | insufficientFunds (available required immature : ℤ)
  | error (message : Text)

/-- What coins are worth. -/
def Unspent.value (u : Unspent) : ℤ := u.amount

/-- Largest-first selection until the target is covered. -/
def selectCoins (spendable : List Unspent) (target : ℤ) : Except SpendError (List Unspent) :=
  let sorted := spendable.insertionSort fun a b => coinLE a b
  let (chosen, total) := Greedy.takeUntil Unspent.value target 0 sorted
  if total < target then .error (.insufficientFunds total target 0) else .ok chosen

/-! ## Building -/

/-- What all transactions are built from. -/
structure SpendArgs where
  keyPair : KeyPair
  /-- Everything the node reports as unspent for the address of the key pair. -/
  unspent : List Unspent
  fee : ℤ
  timestamp : Number
  tipHeight : ℕ
  coinbaseMaturity : ℕ

namespace SpendArgs

variable (args : SpendArgs)

def ownAddress : Text := deriveAddress args.keyPair.publicKey

def spendable : List Unspent :=
  args.unspent.filter fun u => isMature u args.tipHeight args.coinbaseMaturity

def immature : ℤ :=
  ((args.unspent.filter fun u =>
    !isMature u args.tipHeight args.coinbaseMaturity).map Unspent.value).sum

end SpendArgs

/-- The coins for a target; the error says what is still locked. -/
def fundedCoins (args : SpendArgs) (target : ℤ) : Except SpendError (List Unspent) :=
  match selectCoins args.spendable target with
  | .error (.insufficientFunds available required _) =>
    .error (.insufficientFunds available required args.immature)
  | result => result

/-- Equal pieces, the remainder on the last; no coin is without value. -/
def changeOutputs (ownAddress : Text) (change : ℤ) (changeSplit : ℕ) : List TxOutput :=
  let pieces : ℕ := if 0 < change then min (max 1 changeSplit) change.toNat else 0
  (List.range pieces).map fun i =>
    ⟨ownAddress,
      if i = pieces - 1 then change - change / pieces * (pieces - 1) else change / pieces⟩

/-- What is signed: the coins as inputs, the payments, and the change. -/
def spendBody (args : SpendArgs) (payments : List TxOutput) (data : Option Text) (changeSplit : ℕ)
    (chosen : List Unspent) : UnsignedTransactionBody :=
  let required := totalAmount payments + args.fee
  { inputs := chosen.map fun u => ⟨u.txId, u.outputIndex, [], args.keyPair.publicKey⟩
    outputs := payments ++
      changeOutputs args.ownAddress ((chosen.map Unspent.value).sum - required) changeSplit
    timestamp := args.timestamp, fee := args.fee, data }

/-- Selects coins for the payments, the fee and `minChange`, adds change, signs every
    input. -/
def buildSigned (S : SignatureScheme) (args : SpendArgs) (payments : List TxOutput) (minChange : ℤ)
    (data : Option Text) (changeSplit : ℕ) : Except SpendError Transaction :=
  match args.unspent.find? fun u => u.address ≠ args.ownAddress with
  | some foreign => .error (.error (lit "unspent output " ++ utxoKey foreign.txId foreign.outputIndex
      ++ lit " is not owned by this wallet"))
  | none => do
    let chosen ← fundedCoins args (totalAmount payments + args.fee + minChange)
    (signBody S args.keyPair (spendBody args payments data changeSplit chosen)).mapError .error

/-- A payment to an address, the change going back to the sender. -/
def buildTransaction (S : SignatureScheme) (args : SpendArgs) (recipient : Text) (amount : ℤ) :
    Except SpendError Transaction := do
  reject (amount ≤ 0) (.error (lit "amount must be positive, got " ++ decimalInt amount))
  reject (args.fee < 0) (.error (lit "fee must be non-negative, got " ++ decimalInt args.fee))
  reject (recipient.length = 0) (.error (lit "recipient address must not be empty"))
  buildSigned S args [⟨recipient, amount⟩] 0 none 1

/-- A transaction that anchors a record and pays nobody: the coins must cover the fee
    plus one, as a transaction needs an output. -/
def buildAnchorTransaction (S : SignatureScheme) (args : SpendArgs) (data : Text) (changeSplit : ℕ) :
    Except SpendError Transaction := do
  reject (¬(hexPairs data ∧ data ≠ [])) (.error (lit "data must be non-empty lowercase hex"))
  reject (MAX_TX_DATA_BYTES < data.length / 2)
    (.error (lit "data is " ++ decimal (data.length / 2) ++ lit " bytes, more than the "
      ++ decimal MAX_TX_DATA_BYTES ++ lit "-byte limit"))
  reject (args.fee < 0) (.error (lit "fee must be non-negative, got " ++ decimalInt args.fee))
  buildSigned S args [] 1 (some data) changeSplit

/-! ## The coins that are selected -/

section Select

variable {spendable chosen : List Unspent} {target : ℤ}

theorem pairwise_sorted (coins : List Unspent) :
    (coins.insertionSort fun a b => coinLE a b).Pairwise fun a b => b.value ≤ a.value := by
  refine Greedy.pairwise_insertionSort (fun a b h => ?_) (fun a b h => ?_) coins
  · rw [coinLE] at h
    simp only [Unspent.value]
    split at h
    · exact (of_decide_eq_true h).le
    next heq => exact (not_not.1 heq).ge
  · rw [coinLE] at h
    simp only [Unspent.value]
    split at h
    · exact not_lt.1 fun hlt => h (decide_eq_true hlt)
    next heq => exact (not_not.1 heq).le

theorem selectCoins_eq_ok (h : selectCoins spendable target = .ok chosen) :
    chosen.Subperm spendable ∧ target ≤ (chosen.map Unspent.value).sum := by
  simp only [selectCoins] at h
  split at h
  next => cases h
  next hge =>
    cases h
    rw [Greedy.takeUntil_snd, zero_add, not_lt] at hge
    exact ⟨Greedy.takeUntil_sublist.subperm.trans (perm_insertionSort _ _).subperm, hge⟩

/-- Coins fall short only if no choice of them would do. -/
theorem selectCoins_isOk_iff :
    (∃ chosen, selectCoins spendable target = .ok chosen) ↔
      Greedy.Covers Unspent.value spendable target := by
  have hperm := perm_insertionSort (fun a b => coinLE a b = true) spendable
  constructor
  · rintro ⟨chosen, h⟩
    obtain ⟨hsub, hle⟩ := selectCoins_eq_ok h
    exact ⟨chosen, hsub, hle⟩
  · intro hcovers
    have hge := (Greedy.takeUntil_covers_iff (pairwise_sorted spendable)).2
      (hcovers.perm hperm.symm)
    exact ⟨_, by rw [selectCoins]; exact if_neg hge.not_gt⟩

theorem selectCoins_error {e : SpendError} (h : selectCoins spendable target = .error e) :
    ∃ available required immature, e = .insufficientFunds available required immature := by
  simp only [selectCoins] at h
  split at h
  · cases h
    exact ⟨_, _, _, rfl⟩
  · cases h

/-! ### As few as possible, whatever their order -/

/-- What coins are compared by, where their indices are positions. -/
def coinKey (u : Unspent) : ℤᵒᵈ ×ₗ List ℕ ×ₗ ℤ :=
  let index : ℤ := match u.outputIndex with
    | .int z => z
    | .other _ _ => 0
  toLex (OrderDual.toDual u.amount, toLex (u.txId.map UInt16.toNat, index))

theorem coinLE_iff {a b : Unspent} (ha : ∃ z, a.outputIndex = .int z)
    (hb : ∃ z, b.outputIndex = .int z) : coinLE a b ↔ coinKey a ≤ coinKey b := by
  obtain ⟨za, ha⟩ := ha
  obtain ⟨zb, hb⟩ := hb
  have htext : a.txId.map UInt16.toNat = b.txId.map UInt16.toNat ↔ a.txId = b.txId :=
    (map_injective_iff.2 fun _ _ => UInt16.toNat_inj.1).eq_iff
  simp only [coinLE, coinKey, ha, hb, Prod.Lex.toLex_le_toLex, OrderDual.toDual_lt_toDual,
    OrderDual.toDual_inj, htext, indexLE]
  by_cases hamount : a.amount = b.amount
  · by_cases hid : a.txId = b.txId
    · simp [hamount, hid]
    · have hle : TextLE a.txId b.txId ↔ a.txId.map UInt16.toNat < b.txId.map UInt16.toNat := by
        rw [TextLE, le_iff_lt_or_eq, htext, or_iff_left hid]
      simp [hamount, hid, hle]
  · simp [hamount]

theorem coinKey_inj {a b : Unspent} (ha : ∃ z, a.outputIndex = .int z)
    (hb : ∃ z, b.outputIndex = .int z) (h : coinKey a = coinKey b) :
    a.toTxOutpoint = b.toTxOutpoint := by
  obtain ⟨za, ha⟩ := ha
  obtain ⟨zb, hb⟩ := hb
  simp only [coinKey, ha, hb, toLex_inj, Prod.mk.injEq, OrderDual.toDual_inj] at h
  obtain ⟨-, hid, hindex⟩ := h
  rw [TxOutpoint.mk.injEq]
  exact ⟨map_injective_iff.2 (fun _ _ => UInt16.toNat_inj.1) hid, by rw [ha, hb, hindex]⟩

theorem selectCoins_eq_takeUntil (h : selectCoins spendable target = .ok chosen) :
    chosen = (Greedy.takeUntil Unspent.value target 0
      (spendable.insertionSort fun a b => coinLE a b)).1 := by
  simp only [selectCoins] at h
  split at h
  · cases h
  · exact (Except.ok.inj h).symm

/-- Coins fall short if their total does. -/
theorem selectCoins_error_iff (hpos : ∀ u ∈ spendable, 0 < u.amount) :
    (∃ e, selectCoins spendable target = .error e) ↔ (spendable.map Unspent.value).sum < target := by
  have hcovers : Greedy.Covers Unspent.value spendable target ↔
      target ≤ (spendable.map Unspent.value).sum := by
    constructor
    · rintro ⟨part, ⟨part', hperm, hsub⟩, hle⟩
      refine hle.trans ?_
      rw [← (hperm.map Unspent.value).sum_eq]
      refine (hsub.map Unspent.value).sum_le_sum fun w hw => ?_
      obtain ⟨u, hu, rfl⟩ := mem_map.1 hw
      exact (hpos u hu).le
    · exact fun h => ⟨spendable, List.Subperm.refl _, h⟩
  rw [← not_le, ← hcovers, ← selectCoins_isOk_iff]
  cases selectCoins spendable target with
  | error e => simp
  | ok chosen => simp

/-- The coins that are selected are as few as can cover the target, none of them is
    more than what is needed, and they do not depend on the order the coins are
    listed in. -/
theorem coin_selection {coins : List Unspent} {target : ℤ}
    (hindex : ∀ u ∈ coins, ∃ z, u.outputIndex = .int z)
    (hdistinct : (coins.map Unspent.toTxOutpoint).Nodup) (hpos : ∀ u ∈ coins, 0 < u.amount) :
    ((∃ e, selectCoins coins target = .error e) ↔ (coins.map Unspent.value).sum < target) ∧
    (∀ chosen, selectCoins coins target = .ok chosen →
      chosen.Subperm coins ∧ target ≤ (chosen.map Unspent.value).sum ∧
      (∀ part : List Unspent, part.Subperm coins → target ≤ (part.map Unspent.value).sum →
        chosen.length ≤ part.length) ∧
      ∀ init last, chosen = init ++ [last] → (init.map Unspent.value).sum < target) ∧
    ∀ coins' : List Unspent, coins'.Perm coins →
      selectCoins coins' target = selectCoins coins target := by
  refine ⟨selectCoins_error_iff hpos, fun chosen h => ?_, fun coins' hperm => ?_⟩
  · obtain ⟨hsub, hle⟩ := selectCoins_eq_ok h
    have htaken := selectCoins_eq_takeUntil h
    refine ⟨hsub, hle, fun part hpart hreach => ?_, fun init last hlast => ?_⟩
    · rw [htaken]
      exact Greedy.length_takeUntil_le_of_covers (pairwise_sorted coins)
        (hpart.trans (perm_insertionSort _ _).symm.subperm) hreach
    · exact Greedy.sum_init_lt (htaken.symm.trans hlast)
  · have hinj : ∀ a ∈ coins, ∀ b ∈ coins, coinKey a = coinKey b → a = b :=
      fun a ha b hb h => inj_on_of_nodup_map hdistinct ha hb
        (coinKey_inj (hindex a ha) (hindex b hb) h)
    have hle : ∀ a ∈ coins, ∀ b ∈ coins, coinLE a b ↔ coinKey a ≤ coinKey b :=
      fun a ha b hb => coinLE_iff (hindex a ha) (hindex b hb)
    rw [selectCoins, selectCoins, Greedy.insertionSort_eq_of_perm hle hinj hperm]

/-- Three coins, two of one amount: the tie is broken by the outpoint. -/
theorem coin_selection_tie :
    let coin (txId : Text) (index amount : ℤ) : Unspent :=
      ⟨⟨txId, .int index⟩, ⟨⟨lit "me", amount⟩, 1, false⟩⟩
    let coins := [coin (lit "b") 0 5, coin (lit "a") 1 5, coin (lit "a") 0 2]
    (∃ chosen, selectCoins coins 6 = .ok chosen ∧ chosen.length = 2) ∧
    selectCoins coins.reverse 6 = selectCoins coins 6 := by
  refine ⟨⟨_, rfl, rfl⟩, (coin_selection ?_ (by decide) ?_).2.2 _ (reverse_perm _)⟩
  · simp
  · simp

end Select

/-! ## What is built -/

section Built

variable {S : SignatureScheme} {args : SpendArgs} {payments : List TxOutput} {minChange : ℤ}
  {data : Option Text} {changeSplit : ℕ} {tx : Transaction}

theorem fundedCoins_eq_ok {target : ℤ} {chosen : List Unspent} :
    fundedCoins args target = .ok chosen ↔ selectCoins args.spendable target = .ok chosen := by
  rw [fundedCoins]
  split
  next h => simp [h]
  next => exact Iff.rfl

theorem fundedCoins_error {target : ℤ} {e : SpendError} (h : fundedCoins args target = .error e) :
    ∃ available required immature, e = .insufficientFunds available required immature := by
  rw [fundedCoins] at h
  split at h
  · cases h
    exact ⟨_, _, _, rfl⟩
  · exact selectCoins_error h

theorem find_foreign_iff :
    (args.unspent.find? fun u => u.address ≠ args.ownAddress) = none ↔
      ∀ u ∈ args.unspent, u.address = args.ownAddress := by
  simp

/-- The transaction that spends coins, with one signature for all of them. -/
def signedSpend (args : SpendArgs) (payments : List TxOutput) (data : Option Text)
    (changeSplit : ℕ) (chosen : List Unspent) (signature : Text) : Transaction :=
  UnsignedTransactionBody.identified
    { spendBody args payments data changeSplit chosen with
      inputs := chosen.map fun u => ⟨u.txId, u.outputIndex, signature, args.keyPair.publicKey⟩ }

/-- What is built: the coins that were selected are spent, and signed for. -/
theorem buildSigned_eq_ok :
    buildSigned S args payments minChange data changeSplit = .ok tx ↔
      (∀ u ∈ args.unspent, u.address = args.ownAddress) ∧
      ∃ chosen signature,
        selectCoins args.spendable (totalAmount payments + args.fee + minChange) = .ok chosen ∧
        S.sign args.keyPair.privateKey
          (getSigningPayload (spendBody args payments data changeSplit chosen)) = some signature ∧
        tx = signedSpend args payments data changeSplit chosen signature := by
  have hsigned : ∀ chosen signature, signedSpend args payments data changeSplit chosen signature =
      UnsignedTransactionBody.identified
        { spendBody args payments data changeSplit chosen with
          inputs := (spendBody args payments data changeSplit chosen).inputs.map
            fun input => { input with signature } } := by
    intro chosen signature
    simp only [signedSpend, spendBody, map_map]
    rfl
  simp only [hsigned]
  rw [buildSigned, ← find_foreign_iff]
  cases args.unspent.find? fun u => u.address ≠ args.ownAddress with
  | some foreign => simp
  | none =>
    simp only [bind_eq_ok, fundedCoins_eq_ok, mapError_eq_ok, signBody_eq_ok, true_and]
    constructor
    · rintro ⟨chosen, hchosen, signature, hsign, htx⟩
      exact ⟨chosen, signature, hchosen, hsign, htx⟩
    · rintro ⟨chosen, signature, hchosen, hsign, htx⟩
      exact ⟨chosen, hchosen, signature, hsign, htx⟩

/-- Funds are insufficient exactly if no choice of the mature coins covers what is
    needed. -/
theorem buildSigned_insufficient_iff (hown : ∀ u ∈ args.unspent, u.address = args.ownAddress) :
    (∃ available required immature, buildSigned S args payments minChange data changeSplit =
      .error (.insufficientFunds available required immature)) ↔
    ¬ Greedy.Covers Unspent.value args.spendable
      (totalAmount payments + args.fee + minChange) := by
  rw [buildSigned, find_foreign_iff.2 hown, ← selectCoins_isOk_iff]
  simp only [← fundedCoins_eq_ok]
  cases hfunded : fundedCoins args (totalAmount payments + args.fee + minChange) with
  | error e =>
    obtain ⟨available, required, immature, rfl⟩ := fundedCoins_error hfunded
    exact iff_of_true ⟨available, required, immature, rfl⟩ (by simp)
  | ok chosen =>
    refine iff_of_false ?_ (by simp)
    rintro ⟨available, required, immature, h⟩
    have hsigned : (signBody S args.keyPair
        (spendBody args payments data changeSplit chosen)).mapError SpendError.error =
        .error (.insufficientFunds available required immature) := h
    cases hsign : signBody S args.keyPair (spendBody args payments data changeSplit chosen) with
    | ok tx => rw [hsign] at hsigned; cases hsigned
    | error message => rw [hsign] at hsigned; cases hsigned

theorem buildTransaction_eq {recipient : Text} {amount : ℤ} (hamount : 0 < amount)
    (hfee : 0 ≤ args.fee) (hrecipient : recipient ≠ []) :
    buildTransaction S args recipient amount =
      buildSigned S args [⟨recipient, amount⟩] 0 none 1 := by
  have hlength : recipient.length ≠ 0 := by simpa using hrecipient
  simp [buildTransaction, reject, not_le.2 hamount, not_lt.2 hfee, hlength, bind, Except.bind]

theorem buildAnchorTransaction_eq {record : Text} (hdata : validateData record = .ok ())
    (hfee : 0 ≤ args.fee) :
    buildAnchorTransaction S args record changeSplit =
      buildSigned S args [] 1 (some record) changeSplit := by
  obtain ⟨hhex, hlength⟩ := validateData_eq_ok.1 hdata
  simp only [buildAnchorTransaction, reject, hhex, not_lt.2 hlength, not_lt.2 hfee, not_true,
    if_false, bind, Except.bind, ne_eq, and_self, not_false_iff]

theorem buildAnchorTransaction_eq_ok {record : Text}
    (h : buildAnchorTransaction S args record changeSplit = .ok tx) :
    validateData record = .ok () ∧ buildSigned S args [] 1 (some record) changeSplit = .ok tx := by
  simp only [buildAnchorTransaction, seq_eq_ok, reject_eq_ok, not_not, not_lt] at h
  obtain ⟨hhex, hlength, -, h⟩ := h
  exact ⟨validateData_eq_ok.2 ⟨hhex, hlength⟩, h⟩

end Built

/-! ## Change -/

section Change

variable {ownAddress : Text} {change : ℤ} {changeSplit : ℕ}

/-- The change goes to its owner, in pieces that are worth something. -/
theorem mem_changeOutputs {output : TxOutput}
    (h : output ∈ changeOutputs ownAddress change changeSplit) :
    0 < output.amount ∧ output.address = ownAddress := by
  obtain ⟨i, hi, rfl⟩ := mem_map.1 h
  rw [mem_range] at hi
  refine ⟨?_, rfl⟩
  have hpos : 0 < change := by
    by_contra hneg
    rw [if_neg hneg] at hi
    omega
  rw [if_pos hpos] at hi ⊢
  set pieces := min (max 1 changeSplit) change.toNat with hpieces
  have hp : (1 : ℤ) ≤ pieces := by omega
  have hle : (pieces : ℤ) ≤ change := by omega
  have hpiece : 1 ≤ change / pieces := (Int.le_ediv_iff_mul_le (by omega)).2 (by omega)
  have hmul : change / pieces * pieces ≤ change := Int.ediv_mul_le _ (by omega)
  dsimp only
  split
  · have : change / pieces * (pieces - 1) = change / pieces * pieces - change / pieces := by ring
    omega
  · omega

/-- The pieces come to the change. -/
theorem changeOutputs_sum (h : 0 ≤ change) :
    totalAmount (changeOutputs ownAddress change changeSplit) = change := by
  rw [changeOutputs]
  split
  next hpos =>
    obtain ⟨n, hn⟩ : ∃ n, min (max 1 changeSplit) change.toNat = n + 1 :=
      ⟨min (max 1 changeSplit) change.toNat - 1, by omega⟩
    rw [hn, totalAmount, map_map, range_succ, map_append, sum_append]
    -- All but the last are equal.
    have hequal : ∀ i ∈ List.range n, (TxOutput.amount ∘ fun i => (⟨ownAddress,
        if i = n + 1 - 1 then change - change / (n + 1 : ℕ) * ((n + 1 : ℕ) - 1)
        else change / (n + 1 : ℕ)⟩ : TxOutput)) i = change / (n + 1 : ℕ) := by
      intro i hi
      have hlt := mem_range.1 hi
      exact if_neg (by omega)
    rw [map_congr_left hequal]
    simp only [map_const', length_range, sum_replicate, map_cons, map_nil,
      sum_cons, sum_nil, Function.comp_apply, Nat.add_sub_cancel, if_true, nsmul_eq_mul]
    push_cast
    ring
  next hneg =>
    simp only [range_zero, map_nil, totalAmount, sum_nil]
    omega

end Change

/-! ## The coins of an address -/

section Coins

variable {store : Store Text UtxoEntry} {maturity : ℕ} {address : Text}

/-- A listed coin is what the set has under its key. -/
theorem mem_listUnspent (hkeys : (UtxoSet.new store maturity).Outpoints) {u : Unspent}
    (hu : u ∈ (UtxoSet.new store maturity).listUnspent address) :
    store.get (utxoKey u.txId u.outputIndex) = some u.toUtxoEntry ∧ u.address = address := by
  obtain ⟨key, -, hu⟩ := mem_filterMap.1 hu
  simp only [Option.bind_eq_bind, Option.bind_eq_some_iff] at hu
  obtain ⟨entry, hget, hu⟩ := hu
  split_ifs at hu with haddress
  obtain ⟨txId, i, rfl⟩ := hkeys key entry hget
  rw [parseUtxoKey_utxoKey] at hu
  cases hu
  exact ⟨hget, haddress⟩

/-- No coin is listed twice. -/
theorem nodup_listUnspent (hkeys : (UtxoSet.new store maturity).Outpoints) :
    (((UtxoSet.new store maturity).listUnspent address).map fun u =>
      utxoKey u.txId u.outputIndex).Nodup := by
  rw [UtxoSet.listUnspent, map_filterMap]
  refine (Finset.sort_nodup _ _).filterMap fun key key' outpoint h h' => ?_
  -- The key of a coin is the one that it was read from.
  have hkey : ∀ {key : Text}, outpoint ∈ Option.map (fun u : Unspent => utxoKey u.txId u.outputIndex)
      ((UtxoSet.new store maturity).store.get key >>= fun entry =>
        if entry.address = address then
          some { entry with txId := (parseUtxoKey key).1,
                            outputIndex := indexNumber (parseUtxoKey key).2 }
        else none) → outpoint = key := by
    intro key hmem
    simp only [Option.mem_def, Option.map_eq_some_iff, Option.bind_eq_bind,
      Option.bind_eq_some_iff] at hmem
    obtain ⟨u, ⟨entry, hget, hu⟩, rfl⟩ := hmem
    split_ifs at hu
    obtain ⟨txId, i, rfl⟩ := hkeys key entry hget
    rw [parseUtxoKey_utxoKey] at hu
    cases hu
    rfl
  rw [← hkey h, ← hkey h']

end Coins

/-! ## Validity -/

/-- What the private key of a pair signs verifies under its public key. -/
def SignatureScheme.Matches (S : SignatureScheme) (keyPair : KeyPair) : Prop :=
  ∀ message signature, S.sign keyPair.privateKey message = some signature →
    S.verify keyPair.publicKey message signature

/-- What a built transaction is for: it may be mined next, spends what it pays and
    the fee, and pays the rest back. -/
structure ValidSpend (S : SignatureScheme) (u : UtxoSet) (args : SpendArgs)
    (payments : List TxOutput) (tx : Transaction) : Prop where
  structured : validateTransactionStructure tx = .ok ()
  valid : validateTransaction S u tx (args.tipHeight + 1) = .ok ()
  conserved : (tx.inputs.map fun input => u.amountAt input.key).sum =
    totalAmount tx.outputs + tx.fee
  fee_eq : tx.fee = args.fee
  outputs : ∃ change, tx.outputs = payments ++ change ∧
    ∀ output ∈ change, 0 < output.amount ∧ output.address = args.ownAddress

section Valid

variable {S : SignatureScheme} {store : Store Text UtxoEntry} {args : SpendArgs}
  {payments : List TxOutput} {minChange : ℤ} {data : Option Text} {changeSplit : ℕ}
  {chosen : List Unspent} {tx : Transaction}

/-- Signatures are not part of what is signed. -/
theorem getSigningPayload_signedSpend (signature : Text) :
    getSigningPayload (signedSpend args payments data changeSplit chosen
      signature).toUnsignedTransactionBody =
      getSigningPayload (spendBody args payments data changeSplit chosen) := by
  simp only [getSigningPayload, spendBody, map_map]
  simp only [signedSpend, UnsignedTransactionBody.identified, map_map]
  rfl

/-- The coins of the wallet, in a set of unspent outputs. -/
structure OwnCoins (store : Store Text UtxoEntry) (args : SpendArgs) : Prop where
  outpoints : (UtxoSet.new store args.coinbaseMaturity).Outpoints
  unspent_eq : args.unspent =
    (UtxoSet.new store args.coinbaseMaturity).listUnspent args.ownAddress

namespace OwnCoins

variable (h : OwnCoins store args)

include h

theorem get {u : Unspent} (hu : u ∈ args.unspent) :
    store.get (utxoKey u.txId u.outputIndex) = some u.toUtxoEntry := by
  rw [h.unspent_eq] at hu
  exact (mem_listUnspent h.outpoints hu).1

theorem own : ∀ u ∈ args.unspent, u.address = args.ownAddress := by
  intro u hu
  rw [h.unspent_eq] at hu
  exact (mem_listUnspent h.outpoints hu).2

theorem nodup (hchosen : chosen.Subperm args.spendable) :
    (chosen.map fun u => utxoKey u.txId u.outputIndex).Nodup := by
  have hall : (args.unspent.map fun u => utxoKey u.txId u.outputIndex).Nodup := by
    rw [h.unspent_eq]
    exact nodup_listUnspent h.outpoints
  have hsub : chosen.Subperm args.unspent := hchosen.trans filter_sublist.subperm
  obtain ⟨part, hperm, hpart⟩ := hsub
  exact (hperm.map _).nodup_iff.1 (hall.sublist (hpart.map _))

/-- What the inputs bring is what the coins are worth. -/
theorem sum_inputs (hchosen : chosen.Subperm args.spendable) (signature : Text) :
    ((signedSpend args payments data changeSplit chosen signature).inputs.map fun input =>
      (UtxoSet.new store args.coinbaseMaturity).amountAt input.key).sum =
      (chosen.map Unspent.value).sum := by
  change ((chosen.map fun u => _).map _).sum = _
  rw [map_map]
  refine congrArg List.sum (map_congr_left fun u hu => ?_)
  have hget := h.get (mem_of_mem_filter (hchosen.subset hu))
  simp only [Function.comp_apply, UtxoSet.amountAt, UtxoSet.readRaw_new, TxInput.key, hget]
  rfl

/-- Every input spends a coin that is mature in the next block, and is signed by its
    owner. -/
theorem spends (hmatches : S.Matches args.keyPair) (hchosen : chosen.Subperm args.spendable)
    {signature : Text} (hsign : S.sign args.keyPair.privateKey
      (getSigningPayload (spendBody args payments data changeSplit chosen)) = some signature) :
    ∀ input ∈ (signedSpend args payments data changeSplit chosen signature).inputs,
      ∃ entry, (UtxoSet.new store args.coinbaseMaturity).readRaw input.key = some entry ∧
        Spends S args.coinbaseMaturity (getSigningPayload (signedSpend args payments data
          changeSplit chosen signature).toUnsignedTransactionBody) (args.tipHeight + 1) input
          entry := by
  intro input hinput
  obtain ⟨u, hu, rfl⟩ := mem_map.1 hinput
  obtain ⟨hmem, hmature⟩ := mem_filter.1 (hchosen.subset hu)
  refine ⟨u.toUtxoEntry, h.get hmem, ?_, (h.own u hmem).symm, ?_⟩
  · intro hcoinbase
    simpa [isMature, hcoinbase] using hmature
  · rw [getSigningPayload_signedSpend]
    exact hmatches _ _ hsign

/-- What is built from the coins of the wallet is valid. -/
theorem validSpend (hmatches : S.Matches args.keyPair) (hfee : 0 ≤ args.fee)
    (hpayments : ∀ payment ∈ payments, 0 < payment.amount) (hchange : 0 ≤ minChange)
    (hsome : payments = [] → 0 < minChange) (hdata : ∀ d ∈ data, validateData d = .ok ())
    (hbuilt : buildSigned S args payments minChange data changeSplit = .ok tx) :
    ValidSpend S (UtxoSet.new store args.coinbaseMaturity) args payments tx := by
  obtain ⟨-, chosen, signature, hselect, hsign, rfl⟩ := buildSigned_eq_ok.1 hbuilt
  obtain ⟨hchosen, hcovered⟩ := selectCoins_eq_ok hselect
  set change := (chosen.map Unspent.value).sum - (totalAmount payments + args.fee) with hdef
  have houtputs : (signedSpend args payments data changeSplit chosen signature).outputs =
      payments ++ changeOutputs args.ownAddress change changeSplit := rfl
  have htotal : totalAmount (signedSpend args payments data changeSplit chosen signature).outputs =
      totalAmount payments + change := by
    rw [houtputs, totalAmount, map_append, sum_append, ← totalAmount, ← totalAmount,
      changeOutputs_sum (by omega)]
  have hconserved : ((signedSpend args payments data changeSplit chosen signature).inputs.map
      fun input => (UtxoSet.new store args.coinbaseMaturity).amountAt input.key).sum =
      totalAmount (signedSpend args payments data changeSplit chosen signature).outputs +
        args.fee := by
    rw [h.sum_inputs hchosen, htotal]
    omega
  have hstructured : WellStructured
      (signedSpend args payments data changeSplit chosen signature) :=
    { id_eq := rfl
      outputs_ne := by
        rw [houtputs]
        intro hnil
        obtain ⟨hnone, hchangeless⟩ := append_eq_nil_iff.1 hnil
        -- Without payments there is change.
        have hpos := hsome hnone
        have hsum : totalAmount (changeOutputs args.ownAddress change changeSplit) = change :=
          changeOutputs_sum (by omega)
        rw [hchangeless] at hsum
        have hzero : change = 0 := hsum.symm
        rw [hnone] at hdef hcovered
        omega
      amount_pos := by
        intro output houtput
        rw [houtputs] at houtput
        rcases mem_append.1 houtput with houtput | houtput
        · exact hpayments output houtput
        · exact (mem_changeOutputs houtput).1
      fee_nonneg := hfee
      data_hex := fun d hd => (validateData_eq_ok.1 (hdata d hd)).1.1
      data_ne := fun d hd => (validateData_eq_ok.1 (hdata d hd)).1.2
      data_length := fun d hd => (validateData_eq_ok.1 (hdata d hd)).2
      nodup_inputs := by
        have hnodup := h.nodup hchosen
        change ((chosen.map fun u => _).map _).Nodup
        rwa [map_map] }
  exact
    { structured := validateTransactionStructure_eq_ok.2 hstructured
      valid := validateTransaction_eq_ok.2
        ⟨hstructured, h.spends hmatches hchosen hsign, fun _ => hconserved.ge⟩
      conserved := hconserved
      fee_eq := rfl
      outputs := ⟨_, houtputs, fun output houtput => mem_changeOutputs houtput⟩ }

end OwnCoins

end Valid

/-- Payments and anchors that are built of the unspent outputs of a key are valid in
    the next block and conserve coins; funds are insufficient exactly if the mature
    coins do not cover what is needed. -/
theorem built_transactions (S : SignatureScheme) (store : Store Text UtxoEntry) (args : SpendArgs)
    (h : OwnCoins store args) (hmatches : S.Matches args.keyPair) (hfee : 0 ≤ args.fee) :
    (∀ recipient amount, 0 < amount → recipient ≠ [] →
      (∀ tx, buildTransaction S args recipient amount = .ok tx →
        ValidSpend S (UtxoSet.new store args.coinbaseMaturity) args [⟨recipient, amount⟩] tx) ∧
      ((∃ available required immature, buildTransaction S args recipient amount =
          .error (.insufficientFunds available required immature)) ↔
        ¬ Greedy.Covers Unspent.value args.spendable (amount + args.fee))) ∧
    ∀ data changeSplit,
      (∀ tx, buildAnchorTransaction S args data changeSplit = .ok tx →
        ValidSpend S (UtxoSet.new store args.coinbaseMaturity) args [] tx) ∧
      (validateData data = .ok () →
        ((∃ available required immature, buildAnchorTransaction S args data changeSplit =
            .error (.insufficientFunds available required immature)) ↔
          ¬ Greedy.Covers Unspent.value args.spendable (args.fee + 1))) := by
  constructor
  · intro recipient amount hamount hrecipient
    have htotal : totalAmount [⟨recipient, amount⟩] = amount := by simp [totalAmount]
    rw [buildTransaction_eq hamount hfee hrecipient]
    refine ⟨fun tx htx => ?_, ?_⟩
    · exact h.validSpend hmatches hfee (by simpa using hamount) le_rfl (by simp) (by simp) htx
    · rw [buildSigned_insufficient_iff h.own, htotal, add_zero]
  · intro data changeSplit
    refine ⟨fun tx htx => ?_, fun hdata => ?_⟩
    · obtain ⟨hdata, hbuilt⟩ := buildAnchorTransaction_eq_ok htx
      exact h.validSpend hmatches hfee (by simp) zero_le_one (fun _ => one_pos)
        (by simpa using hdata) hbuilt
    · have htotal : totalAmount [] = 0 := rfl
      rw [buildAnchorTransaction_eq hdata hfee, buildSigned_insufficient_iff h.own, htotal,
        zero_add]

/-! ## A wallet with one coin -/

/-- A key that signs anything, with one coin of `10`. -/
def sampleCoin : UtxoEntry :=
  { address := deriveAddress (lit "key"), amount := 10, blockHeight := 1, isCoinbase := false }

def sampleCoins : Store Text UtxoEntry :=
  Store.empty.set (utxoKey (lit "tx") (.ofNat 0)) (some sampleCoin)

def sampleArgs : SpendArgs where
  keyPair := { publicKey := lit "key", privateKey := lit "secret" }
  unspent := (UtxoSet.new sampleCoins 100).listUnspent (deriveAddress (lit "key"))
  fee := 1
  timestamp := .ofNat 0
  tipHeight := 5
  coinbaseMaturity := 100

theorem ownCoins_sample : OwnCoins sampleCoins sampleArgs where
  outpoints := by
    intro key entry hget
    rw [UtxoSet.readRaw_new, sampleCoins, Store.get_set] at hget
    split at hget
    next heq => exact ⟨lit "tx", 0, heq⟩
    next => cases hget
  unspent_eq := rfl

/-- A payment of `4` and an anchor in three pieces of change. -/
theorem built_transactions_sample :
    (∃ tx, buildTransaction anySignatures sampleArgs (lit "b") 4 = .ok tx ∧
      ValidSpend anySignatures (UtxoSet.new sampleCoins 100) sampleArgs [⟨lit "b", 4⟩] tx) ∧
    ∃ tx, buildAnchorTransaction anySignatures sampleArgs (lit "ab") 3 = .ok tx ∧
      ValidSpend anySignatures (UtxoSet.new sampleCoins 100) sampleArgs [] tx := by
  obtain ⟨hpay, hanchor⟩ := built_transactions anySignatures sampleCoins sampleArgs
    ownCoins_sample (fun _ _ _ => rfl) (by decide)
  have hbuilt : ∀ {r : Except SpendError Transaction}, r.toOption.isSome → ∃ tx, r = .ok tx := by
    rintro (_ | tx) h
    · cases h
    · exact ⟨tx, rfl⟩
  obtain ⟨paid, hpaid⟩ : ∃ tx, buildTransaction anySignatures sampleArgs (lit "b") 4 = .ok tx :=
    hbuilt (by decide +kernel)
  obtain ⟨anchored, hanchored⟩ :
      ∃ tx, buildAnchorTransaction anySignatures sampleArgs (lit "ab") 3 = .ok tx :=
    hbuilt (by decide +kernel)
  exact ⟨⟨paid, hpaid, (hpay (lit "b") 4 (by decide) (by decide)).1 paid hpaid⟩,
    anchored, hanchored, (hanchor (lit "ab") 3).1 anchored hanchored⟩

end Plainchain
