import Plainchain.Crypto
import Plainchain.Lib.Check
import Plainchain.Lib.Value

/-!
# Transactions

`src/ledger/types.ts` and `src/ledger/transaction.ts`: the shape of a
transaction, the texts its id and its signatures are made over, and the rules it
has to satisfy on its own.

* `getSigningPayload`, `computeTransactionId`: delimiter-joined texts, and the
  hash of one;
* `validateTransactionStructure`, and `WellStructured` for what it accepts.
-/

namespace Plainchain

open Js

/-- The address of a public key: the hash of its hex form. -/
def deriveAddress (publicKeyHex : Text) : Text := sha256 publicKeyHex

structure TxOutput where
  address : Text
  amount : ℤ
  deriving DecidableEq

/-- An input spends the output at `outputIndex` of the transaction `txId`. -/
structure TxInput where
  txId : Text
  outputIndex : Number
  signature : Text
  publicKey : Text
  deriving DecidableEq

/-- A transaction before it has an id. -/
structure UnsignedTransactionBody where
  inputs : List TxInput
  outputs : List TxOutput
  timestamp : Number
  fee : ℤ
  data : Option Text
  deriving DecidableEq

structure Transaction extends UnsignedTransactionBody where
  id : Text
  deriving DecidableEq

@[ext] theorem Transaction.ext {t u : Transaction}
    (hbody : t.toUnsignedTransactionBody = u.toUnsignedTransactionBody) (hid : t.id = u.id) :
    t = u := by
  cases t
  cases u
  simp_all

/-- The text of an outpoint. It is also the key of the output in the UTXO set
    (`utxoKey` there). -/
def utxoKey (txId : Text) (outputIndex : Number) : Text :=
  txId ++ unit ':' :: outputIndex.toText

/-- The outpoint an input spends. -/
def TxInput.key (input : TxInput) : Text := utxoKey input.txId input.outputIndex

/-- The number of bytes of record data a transaction may carry. -/
def MAX_TX_DATA_BYTES : ℕ := 80

namespace UnsignedTransactionBody

/-- Appended only when present, so transactions without data keep the ids they
    had before. -/
def dataPart (body : UnsignedTransactionBody) : List Text :=
  match body.data with
  | none => []
  | some data => [lit "data:" ++ data]

end UnsignedTransactionBody

def serializeOutput (output : TxOutput) : Text :=
  output.address ++ unit ':' :: decimalInt output.amount

/-- The input as it stands in the text of the id. -/
def serializeInput (input : TxInput) : Text :=
  input.key ++ unit ':' :: (input.signature ++ unit ':' :: input.publicKey)

/-- The fields that the payload and the id share, after the inputs. -/
def serializeTail (body : UnsignedTransactionBody) : List Text :=
  [join (unit ',') (body.outputs.map serializeOutput), body.timestamp.toText,
    decimalInt body.fee] ++ body.dataPart

/-- What every input signs: the outpoints, the outputs, the timestamp, the fee
    and the data, if any. -/
def getSigningPayload (body : UnsignedTransactionBody) : Text :=
  join (unit '|') (join (unit ',') (body.inputs.map TxInput.key) :: serializeTail body)

/-- The text the id is the hash of, with signatures and public keys. -/
def serializeTransactionBody (body : UnsignedTransactionBody) : Text :=
  join (unit '|') (join (unit ',') (body.inputs.map serializeInput) :: serializeTail body)

def computeTransactionId (body : UnsignedTransactionBody) : Text :=
  sha256 (serializeTransactionBody body)

/-- A transaction with the id of its body. -/
def UnsignedTransactionBody.identified (body : UnsignedTransactionBody) : Transaction :=
  { body with id := computeTransactionId body }

/-- The rules on the data of a transaction. -/
def validateData (data : Text) : Verdict := do
  refuse (¬(hexPairs data ∧ data ≠ [])) (lit "data must be non-empty lowercase hex")
  refuse (MAX_TX_DATA_BYTES < data.length / 2)
    (lit "data is " ++ decimal (data.length / 2) ++ lit " bytes, more than the "
      ++ decimal MAX_TX_DATA_BYTES ++ lit "-byte limit")

/-- The rules every transaction has to satisfy whatever the UTXO set holds. -/
def validateTransactionStructure (tx : Transaction) : Verdict := do
  refuse (computeTransactionId tx.toUnsignedTransactionBody ≠ tx.id)
    (lit "transaction id does not match its content")
  refuse (tx.outputs = []) (lit "transaction has no outputs")
  forM tx.outputs fun output =>
    refuse (output.amount ≤ 0)
      (lit "output amount must be positive, got " ++ decimalInt output.amount)
  refuse (tx.fee < 0) (lit "fee must be non-negative, got " ++ decimalInt tx.fee)
  forM tx.data.toList validateData
  distinct (lit "duplicate input outpoint " ++ ·) [] (tx.inputs.map TxInput.key)

/-- What `validateTransactionStructure` accepts. -/
structure WellStructured (tx : Transaction) : Prop where
  id_eq : computeTransactionId tx.toUnsignedTransactionBody = tx.id
  outputs_ne : tx.outputs ≠ []
  amount_pos : ∀ output ∈ tx.outputs, 0 < output.amount
  fee_nonneg : 0 ≤ tx.fee
  data_hex : ∀ data ∈ tx.data, hexPairs data
  data_ne : ∀ data ∈ tx.data, data ≠ []
  data_length : ∀ data ∈ tx.data, data.length / 2 ≤ MAX_TX_DATA_BYTES
  nodup_inputs : (tx.inputs.map TxInput.key).Nodup

theorem validateData_eq_ok {data : Text} : validateData data = .ok () ↔
    (hexPairs data ∧ data ≠ []) ∧ data.length / 2 ≤ MAX_TX_DATA_BYTES := by
  rw [validateData, seq_eq_ok, refuse_eq_ok, refuse_eq_ok, not_not, not_lt]

theorem validateTransactionStructure_eq_ok {tx : Transaction} :
    validateTransactionStructure tx = .ok () ↔ WellStructured tx := by
  simp only [validateTransactionStructure, seq_eq_ok, refuse_eq_ok, forM_eq_ok, distinct_eq_ok,
    validateData_eq_ok, not_not, not_le, not_lt, Option.mem_toList]
  constructor
  · rintro ⟨hid, hout, hpos, hfee, hdata, hnodup, -⟩
    exact ⟨hid, hout, hpos, hfee, fun d hd => (hdata d hd).1.1, fun d hd => (hdata d hd).1.2,
      fun d hd => (hdata d hd).2, hnodup⟩
  · rintro ⟨hid, hout, hpos, hfee, hhex, hne, hlen, hnodup⟩
    exact ⟨hid, hout, hpos, hfee, fun d hd => ⟨⟨hhex d hd, hne d hd⟩, hlen d hd⟩, hnodup,
      fun _ _ => List.not_mem_nil⟩

/-- The key of an output of a transaction with a hex id determines both its
    parts. -/
theorem utxoKey_inj {txId txId' : Text} {i j : Number} (h : hexOf 64 txId) (h' : hexOf 64 txId')
    (heq : utxoKey txId i = utxoKey txId' j) : txId = txId' ∧ i.toText = j.toText := by
  have hcolon : ∀ {t : Text}, hexOf 64 t → unit ':' ∉ t := fun ht hc =>
    absurd (isHexDigit_of_mem_hexOf ht hc) (by decide)
  exact append_cons_inj_left (hcolon h) (hcolon h') heq

/-- The id of a well-structured transaction is a digest. -/
theorem WellStructured.hexOf_id {tx : Transaction} (h : WellStructured tx) : hexOf 64 tx.id := by
  rw [← h.id_eq]
  exact hexOf_sha256 _

/-- The amounts of the outputs, summed. -/
def totalAmount (outputs : List TxOutput) : ℤ := (outputs.map TxOutput.amount).sum

end Plainchain
