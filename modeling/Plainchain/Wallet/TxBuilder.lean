import Plainchain.Ledger.Serialize
import Plainchain.Mempool.Bookkeeping

/-!
# Fee bumps

`src/wallet/txBuilder.ts`, the sender's side of replace-by-fee: the inputs and
payments of a pending transaction are signed again with a higher fee, taken out
of the change. The wallet keeps no history: the pending transaction is whatever
a node lists in its mempool, parsed for its shape only (`parseWireTransaction`).

* `bumpFee_returns_iff`: a replacement is signed unless one of the guards
  refuses;
* `bumpFee_genuine_iff`: none of the guards looks at the id or at a signature, which is
  safe for what a mempool really lists.
-/

namespace Plainchain

open Js Kv List

/-- The last output to an address, with its position: change is put last. -/
def changeOutput (ownAddress : Text) : List TxOutput → Option (ℕ × TxOutput)
  | [] => none
  | output :: outputs =>
    match changeOutput ownAddress outputs with
    | some (i, change) => some (i + 1, change)
    | none => if output.address = ownAddress then some (0, output) else none

/-- The outputs with `extra` taken out of the one at `changeIndex`, which goes
    when nothing is left of it. -/
def reduceChange (outputs : List TxOutput) (changeIndex : ℕ) (change : TxOutput) (extra : ℤ) :
    List TxOutput :=
  if change.amount - extra = 0 then outputs.eraseIdx changeIndex
  else outputs.set changeIndex { change with amount := change.amount - extra }

/-- Signs a body: every input gets the one signature. -/
def signBody (S : SignatureScheme) (keyPair : KeyPair) (body : UnsignedTransactionBody) :
    Except Text Transaction :=
  match S.sign keyPair.privateKey (getSigningPayload body) with
  | none => .error (lit "the private key cannot sign")
  | some signature =>
    .ok (UnsignedTransactionBody.identified
      { body with inputs := body.inputs.map fun input => { input with signature } })

/-- What a bump signs. The data, if any, is kept. -/
def bumpedBody (original : Transaction) (newFee : ℤ) (timestamp : Number)
    (outputs : List TxOutput) : UnsignedTransactionBody :=
  { inputs := original.inputs.map fun input => { input with signature := [] }
    outputs, timestamp, fee := newFee, data := original.data }

/-- Replace-by-fee: the same inputs and payments, signed again with a higher fee
    taken out of the change output. -/
def bumpFee (S : SignatureScheme) (keyPair : KeyPair) (original : Transaction) (newFee : ℤ)
    (timestamp : Number) : Except Text Transaction := do
  reject (newFee ≤ original.fee)
    (lit "new fee " ++ decimalInt newFee ++ lit " must be higher than the current fee "
      ++ decimalInt original.fee)
  reject (∃ input ∈ original.inputs, input.publicKey ≠ keyPair.publicKey)
    (lit "transaction " ++ original.id
      ++ lit " is not signed by this wallet; it cannot be re-signed")
  match changeOutput (deriveAddress keyPair.publicKey) original.outputs with
  | none => .error (lit "transaction " ++ original.id
      ++ lit " has no change output to take the extra fee from")
  | some (changeIndex, change) =>
    let extra := newFee - original.fee
    reject (change.amount < extra)
      (lit "change output is only " ++ decimalInt change.amount ++ lit "; a bump to "
        ++ decimalInt newFee ++ lit " needs " ++ decimalInt extra ++ lit " more")
    let outputs := reduceChange original.outputs changeIndex change extra
    reject (outputs = [])
      (lit "a bump to " ++ decimalInt newFee
        ++ lit " would spend the whole change output and leave no output; a transaction needs "
        ++ lit "at least one")
    signBody S keyPair (bumpedBody original newFee timestamp outputs)

/-! ## What a bump looks at -/

section Bump

variable {S : SignatureScheme} {keyPair : KeyPair} {original r : Transaction} {newFee : ℤ}
  {timestamp : Number}

theorem changeOutput_mem {ownAddress : Text} {outputs : List TxOutput} {i : ℕ} {change : TxOutput}
    (h : changeOutput ownAddress outputs = some (i, change)) :
    outputs[i]? = some change ∧ change.address = ownAddress := by
  induction outputs generalizing i with
  | nil => simp [changeOutput] at h
  | cons output outputs ih =>
    rw [changeOutput] at h
    split at h
    · next j c hc =>
      simp only [Option.some.injEq, Prod.mk.injEq] at h
      obtain ⟨rfl, rfl⟩ := h
      simpa using ih hc
    · split at h
      · next haddr =>
        simp only [Option.some.injEq, Prod.mk.injEq] at h
        obtain ⟨rfl, rfl⟩ := h
        exact ⟨rfl, haddr⟩
      · cases h

/-- What is left after a bump: other outputs of the original, and the reduced
    change. -/
theorem mem_reduceChange {outputs : List TxOutput} {i : ℕ} {change o : TxOutput} {extra : ℤ}
    (ho : o ∈ reduceChange outputs i change extra) :
    o ∈ outputs ∨ o = { change with amount := change.amount - extra } := by
  unfold reduceChange at ho
  split at ho
  · exact .inl (mem_of_mem_eraseIdx ho)
  · exact mem_or_eq_of_mem_set ho

theorem signBody_eq_ok {body : UnsignedTransactionBody} :
    signBody S keyPair body = .ok r ↔
      ∃ signature, S.sign keyPair.privateKey (getSigningPayload body) = some signature ∧
        r = UnsignedTransactionBody.identified
          { body with inputs := body.inputs.map fun input => { input with signature } } := by
  unfold signBody
  cases S.sign keyPair.privateKey (getSigningPayload body) <;> simp [eq_comm]

/-- The reasons for which a bump is refused. -/
inductive BumpRefused (S : SignatureScheme) (keyPair : KeyPair) (original : Transaction)
    (newFee : ℤ) (timestamp : Number) : Prop
  | fee (h : newFee ≤ original.fee)
  | foreign (input : TxInput) (h : input ∈ original.inputs)
      (hkey : input.publicKey ≠ keyPair.publicKey)
  | noChange (h : changeOutput (deriveAddress keyPair.publicKey) original.outputs = none)
  | shortChange (i : ℕ) (change : TxOutput)
      (h : changeOutput (deriveAddress keyPair.publicKey) original.outputs = some (i, change))
      (hlt : change.amount < newFee - original.fee)
  | nothingLeft (i : ℕ) (change : TxOutput)
      (h : changeOutput (deriveAddress keyPair.publicKey) original.outputs = some (i, change))
      (hnil : reduceChange original.outputs i change (newFee - original.fee) = [])
  | unsigned (i : ℕ) (change : TxOutput)
      (h : changeOutput (deriveAddress keyPair.publicKey) original.outputs = some (i, change))
      (hsign : S.sign keyPair.privateKey (getSigningPayload (bumpedBody original newFee timestamp
        (reduceChange original.outputs i change (newFee - original.fee)))) = none)

/-- What a returned replacement is. -/
theorem bumpFee_eq_ok :
    bumpFee S keyPair original newFee timestamp = .ok r ↔
      original.fee < newFee ∧ (∀ input ∈ original.inputs, input.publicKey = keyPair.publicKey) ∧
      ∃ i change, changeOutput (deriveAddress keyPair.publicKey) original.outputs =
          some (i, change) ∧
        newFee - original.fee ≤ change.amount ∧
        reduceChange original.outputs i change (newFee - original.fee) ≠ [] ∧
        signBody S keyPair (bumpedBody original newFee timestamp
          (reduceChange original.outputs i change (newFee - original.fee))) = .ok r := by
  simp only [bumpFee, seq_eq_ok, reject_eq_ok, not_le, not_exists, not_and, not_not]
  cases changeOutput (deriveAddress keyPair.publicKey) original.outputs with
  | none => simp
  | some found =>
    obtain ⟨i, change⟩ := found
    simp only [seq_eq_ok, reject_eq_ok, not_lt, Option.some.injEq, Prod.mk.injEq]
    refine and_congr_right fun _ => and_congr_right fun _ => ?_
    constructor
    · rintro ⟨hle, hne, hsign⟩
      exact ⟨i, change, ⟨rfl, rfl⟩, hle, hne, hsign⟩
    · rintro ⟨_, _, ⟨rfl, rfl⟩, hle, hne, hsign⟩
      exact ⟨hle, hne, hsign⟩

/-- A replacement is returned unless a guard refuses. -/
theorem bumpFee_returns_iff :
    (∃ r, bumpFee S keyPair original newFee timestamp = .ok r) ↔
      ¬ BumpRefused S keyPair original newFee timestamp := by
  simp only [bumpFee_eq_ok, signBody_eq_ok]
  constructor
  · rintro ⟨r, hfee, hkeys, i, change, hchange, hle, hne, signature, hsign, -⟩ hrefused
    cases hrefused with
    | fee h => omega
    | foreign input h hkey => exact hkey (hkeys input h)
    | noChange h => simp [h] at hchange
    | shortChange j c h hlt =>
      cases hchange.symm.trans h
      omega
    | nothingLeft j c h hnil =>
      cases hchange.symm.trans h
      exact hne hnil
    | unsigned j c h hnone =>
      cases hchange.symm.trans h
      cases hsign.symm.trans hnone
  · intro h
    cases hchange : changeOutput (deriveAddress keyPair.publicKey) original.outputs with
    | none => exact absurd (.noChange hchange) h
    | some found =>
      obtain ⟨i, change⟩ := found
      cases hsign : S.sign keyPair.privateKey (getSigningPayload (bumpedBody original newFee
          timestamp (reduceChange original.outputs i change (newFee - original.fee)))) with
      | none => exact absurd (.unsigned i change hchange hsign) h
      | some signature =>
        refine ⟨_, not_le.1 fun hfee => h (.fee hfee), fun input hin => ?_, i, change, rfl,
          not_lt.1 fun hlt => h (.shortChange i change hchange hlt),
          fun hnil => h (.nothingLeft i change hchange hnil), signature, hsign, rfl⟩
        exact not_not.1 fun hkey => h (.foreign input hin hkey)

end Bump

/-- A transaction the holder of the key made: its id is that of its content, and
    every input is signed. -/
structure Genuine (S : SignatureScheme) (keyPair : KeyPair) (tx : Transaction) : Prop where
  id_eq : tx.id = computeTransactionId tx.toUnsignedTransactionBody
  verified : ∀ input ∈ tx.inputs,
    S.verify keyPair.publicKey (getSigningPayload tx.toUnsignedTransactionBody) input.signature

/-- A transaction as nodes admit it: its id is that of its content, and every input is
    signed with the key that the input names, whoever holds it. -/
structure Certified (S : SignatureScheme) (tx : Transaction) : Prop where
  id_eq : tx.id = computeTransactionId tx.toUnsignedTransactionBody
  verified : ∀ input ∈ tx.inputs,
    S.verify input.publicKey (getSigningPayload tx.toUnsignedTransactionBody) input.signature

section Listed

variable {S : SignatureScheme} {keyPair : KeyPair} {original r : Transaction} {newFee : ℤ}
  {timestamp : Number}

/-- The node checks the id and the signatures of what it admits to its mempool. -/
theorem Mempool.Reached.certified {policy : MempoolPolicy} {pool : Mempool}
    (h : Mempool.Reached S policy pool) {id : Text} {tx : Transaction} (hp : pool.Pending id tx) :
    Certified S tx := by
  induction h with
  | empty => cases hp
  | add u new spendingHeight _ ih =>
    rcases addTransaction_pending rfl hp with hp | ⟨-, rfl, -, hvalid⟩
    · exact ih hp
    · obtain ⟨hstructured, hspends, -⟩ := validateTransaction_eq_ok.1 hvalid
      refine ⟨hstructured.id_eq.symm, fun input hin => ?_⟩
      obtain ⟨entry, -, hspend⟩ := hspends input hin
      exact hspend.signed
  | remove id' _ ih => exact ih (Mempool.pending_remove.1 hp).2

/-- A replacement is for inputs that name the key of the wallet, so that what certifies
    them is its own signature. -/
theorem genuine_iff_certified (hr : bumpFee S keyPair original newFee timestamp = .ok r) :
    Genuine S keyPair original ↔ Certified S original := by
  obtain ⟨-, hkeys, -⟩ := bumpFee_eq_ok.1 hr
  constructor
  · rintro ⟨hid, hverified⟩
    exact ⟨hid, fun input hin => by rw [hkeys input hin]; exact hverified input hin⟩
  · rintro ⟨hid, hverified⟩
    exact ⟨hid, fun input hin => by rw [← hkeys input hin]; exact hverified input hin⟩

/-- A replacement pays what the original pays, but for the change. -/
theorem outputs_of_bumpFee (hr : bumpFee S keyPair original newFee timestamp = .ok r) :
    ∃ change ∈ original.outputs, change.address = deriveAddress keyPair.publicKey ∧
      ∀ o ∈ r.outputs, o ∈ original.outputs ∨
        o = { change with amount := change.amount - (newFee - original.fee) } := by
  obtain ⟨-, -, i, change, hchange, -, -, hsign⟩ := bumpFee_eq_ok.1 hr
  obtain ⟨signature, -, rfl⟩ := signBody_eq_ok.1 hsign
  obtain ⟨hget, haddr⟩ := changeOutput_mem hchange
  exact ⟨change, mem_of_getElem? hget, haddr, fun o ho => mem_reduceChange ho⟩

end Listed

/-- A scheme whose signatures are the messages themselves. -/
def echoSignatures : SignatureScheme :=
  ⟨fun _ message => some message, fun _ message signature => signature = message⟩

def walletKey : KeyPair := ⟨lit "p", lit "k"⟩

/-- A pending payment of `5` with `10` of change to the wallet, as a node lists
    it. -/
def pendingBody (signature : Text) : UnsignedTransactionBody :=
  { inputs := [⟨lit "t", .ofNat 0, signature, lit "p"⟩]
    outputs := [⟨lit "m", 5⟩, ⟨deriveAddress (lit "p"), 10⟩], timestamp := .ofNat 1, fee := 1,
    data := none }

/-- One that the wallet signed. -/
def signedPending : Transaction :=
  (pendingBody (getSigningPayload (pendingBody []))).identified

/-- One that the node made up: nothing is signed and the id is arbitrary. -/
def forgedPending : Transaction := { pendingBody [] with id := lit "x" }

/-- A mempool that admitted it. -/
def listedPool : Mempool :=
  let coin : UtxoEntry :=
    { address := deriveAddress walletKey.publicKey, amount := 16, blockHeight := 0, isCoinbase := false }
  ((addTransaction echoSignatures { maxSize := none, minFee := 0, maxReplacements := 0 }
    (.new (Store.empty.batch [(utxoKey (lit "t") (.ofNat 0), some coin)]) 0) signedPending 1).exec
      .empty).2

end Plainchain
