import Plainchain.Lib.Json
import Plainchain.Network.WireShapes
import Plainchain.State.ChainState

/-!
# Stored documents

The codecs of `src/ledger/serialize.ts`, `src/state/chainState.ts` and
`src/state/utxoSet.ts`: blocks, undo records, header entries and unspent outputs as
JSON, and the keys of unspent outputs. Amounts and work are written as decimal texts,
each codec at its own depth, and optional fields are left out where they are absent.

The readers trust what they read, which this program has written. Where a document
lacks a field of the type that is expected, the program goes on with another value;
here it is an error.
-/

namespace Plainchain

open Js Value List

/-! ## Reading fields -/

def storedText (document : Value) (key : Text) : Except Text Text :=
  wireText (document.get key) (key ++ lit " is not a string")

def storedNumber (document : Value) (key : Text) : Except Text Number :=
  wireNumber (document.get key) (key ++ lit " is not a number")

def storedNat (document : Value) (key : Text) : Except Text ℕ :=
  match document.get key with
  | .num (.int (.ofNat n)) => .ok n
  | _ => .error (key ++ lit " is not a natural number")

def storedBool (document : Value) (key : Text) : Except Text Bool :=
  match document.get key with
  | .bool b => .ok b
  | _ => .error (key ++ lit " is not a boolean")

def storedList (document : Value) (key : Text) : Except Text (List Value) :=
  wireArray (document.get key) (key ++ lit " is not an array")

def storedOptional (document : Value) (key : Text) : Except Text (Option Text) :=
  wireOptionalText (document.get key) (key ++ lit " is not a string")

/-- `BigInt` of a field. -/
def storedBigInt (document : Value) (key : Text) : Except Text ℤ := do
  bigIntOf (← storedText document key)

/-! ## Blocks -/

def storedInput (document : Value) : Except Text TxInput := do
  let txId ← storedText document (lit "txId")
  let outputIndex ← storedNumber document (lit "outputIndex")
  let signature ← storedText document (lit "signature")
  let publicKey ← storedText document (lit "publicKey")
  pure { txId, outputIndex, signature, publicKey }

def fromWireOutput (wire : Value) : Except Text TxOutput := do
  let address ← storedText wire (lit "address")
  let amount ← storedBigInt wire (lit "amount")
  pure { address, amount }

def fromWireTransaction (wire : Value) : Except Text Transaction := do
  let id ← storedText wire (lit "id")
  let inputs ← mapIdxFrom (fun _ => storedInput) 0 (← storedList wire (lit "inputs"))
  let outputs ← mapIdxFrom (fun _ => fromWireOutput) 0 (← storedList wire (lit "outputs"))
  let timestamp ← storedNumber wire (lit "timestamp")
  let fee ← storedBigInt wire (lit "fee")
  let data ← storedOptional wire (lit "data")
  pure { id, inputs, outputs, timestamp, fee, data }

def storedHeader (document : Value) : Except Text BlockHeader := do
  let version ← storedNat document (lit "version")
  let previousHash ← storedText document (lit "previousHash")
  let merkleRoot ← storedText document (lit "merkleRoot")
  let timestamp ← storedNat document (lit "timestamp")
  let difficultyTarget ← storedText document (lit "difficultyTarget")
  let nonce ← storedNat document (lit "nonce")
  let height ← storedNat document (lit "height")
  let signer ← storedOptional document (lit "signer")
  let signature ← storedOptional document (lit "signature")
  pure { version, previousHash, merkleRoot, timestamp, difficultyTarget, nonce, height, signer,
         signature }

def deserializeBlock (document : Value) : Except Text Block := do
  let header ← storedHeader (document.get (lit "header"))
  let transactions ←
    mapIdxFrom (fun _ => fromWireTransaction) 0 (← storedList document (lit "transactions"))
  let hash ← storedText document (lit "hash")
  pure { header, transactions, hash }

/-! ## Unspent outputs -/

/-- What `serializeEntry` writes. -/
def entryValue (entry : UtxoEntry) : Value :=
  .obj [(lit "address", .str entry.address), (lit "amount", .str (decimalInt entry.amount)),
    (lit "blockHeight", .num (.ofNat entry.blockHeight)), (lit "isCoinbase", .bool entry.isCoinbase)]

def deserializeEntry (document : Value) : Except Text UtxoEntry := do
  let address ← storedText document (lit "address")
  let amount ← storedBigInt document (lit "amount")
  let blockHeight ← storedNat document (lit "blockHeight")
  let isCoinbase ← storedBool document (lit "isCoinbase")
  pure { address, amount, blockHeight, isCoinbase }

/-- The parts of a key, around its last colon; without a colon `slice` drops the last
    unit, and the index is what `Number` makes of all of it. -/
def parseUtxoKey (key : Text) : Text × Option ℕ :=
  match key.reverse.dropWhile (· ≠ unit ':') with
  | [] => (key.dropLast, numberOf key)
  | _ :: before => (before.reverse, numberOf (key.reverse.takeWhile (· ≠ unit ':')).reverse)

/-! ## Undo records -/

def outpointFields (o : TxOutpoint) : List (Text × Value) :=
  [(lit "txId", .str o.txId), (lit "outputIndex", .num o.outputIndex)]

/-- A spent output as an object, its amount being a big integer. -/
def spentValue (s : SpentOutput) : Value :=
  .obj (outpointFields s.toTxOutpoint ++ [(lit "entry",
    .obj [(lit "address", .str s.entry.address), (lit "amount", .bigint s.entry.amount),
      (lit "blockHeight", .num (.ofNat s.entry.blockHeight)),
      (lit "isCoinbase", .bool s.entry.isCoinbase)])])

def txUndoValue (undo : TxUndo) : Value :=
  .obj [(lit "spent", .arr (undo.spent.map spentValue)),
    (lit "created", .arr (undo.created.map fun o => .obj (outpointFields o)))]

/-- What `serializeUndo` writes: its replacer prints big integers. -/
def undoValue (undo : BlockUndo) : Value :=
  mapBigints (fun z => .str (decimalInt z)) (.arr (undo.map txUndoValue))

def storedOutpoint (document : Value) : Except Text TxOutpoint := do
  let txId ← storedText document (lit "txId")
  let outputIndex ← storedNumber document (lit "outputIndex")
  pure { txId, outputIndex }

def storedSpent (document : Value) : Except Text SpentOutput := do
  let outpoint ← storedOutpoint document
  let entry ← deserializeEntry (document.get (lit "entry"))
  pure { outpoint with entry }

def storedTxUndo (document : Value) : Except Text TxUndo := do
  let spent ← mapIdxFrom (fun _ => storedSpent) 0 (← storedList document (lit "spent"))
  let created ← mapIdxFrom (fun _ => storedOutpoint) 0 (← storedList document (lit "created"))
  pure { spent, created }

def deserializeUndo (document : Value) : Except Text BlockUndo := do
  mapIdxFrom (fun _ => storedTxUndo) 0 (← wireArray document (lit "not an array"))

/-! ## Header entries -/

/-- What `serializeHeader` writes. -/
def indexedHeaderValue (entry : IndexedHeader) : Value :=
  .obj [(lit "header", headerValue entry.header), (lit "work", .str (decimalInt entry.work))]

def deserializeHeader (document : Value) : Except Text IndexedHeader := do
  let header ← storedHeader (document.get (lit "header"))
  let work ← storedBigInt document (lit "work")
  pure { header, work := work.toNat }

/-! ## What is read back -/

section Plain

theorem plain_headerValue (header : BlockHeader) : (headerValue header).Plain := by
  simp +contextual [headerValue, headerFields, or_imp, forall_and, Number.finite_ofNat]

theorem plain_inputValue {input : TxInput} (h : input.outputIndex.Finite) :
    (inputValue input).Plain := by
  simp [inputValue, h]

theorem plain_toWireTransaction {tx : Transaction} (h : ∀ input ∈ tx.inputs, input.outputIndex.Finite)
    (ht : tx.timestamp.Finite) : (toWireTransaction tx).Plain := by
  simp +contextual [toWireTransaction, transactionFields, dataFields, toWireOutput, plain_inputValue,
    or_imp, h, ht]

theorem plain_blockValue {block : Block} (h : block.Wire) : (blockValue block).Plain := by
  have htxs : ∀ tx ∈ block.transactions, (toWireTransaction tx).Plain := fun tx htx =>
    plain_toWireTransaction
      (fun input hinput => ((h.transactions tx htx).inputs input hinput).outputIndex.finite)
      (h.transactions tx htx).timestamp.finite
  simpa [blockValue, plain_headerValue] using htxs

end Plain

theorem storedOptional_optional {document : Value} {key : Text} {t : Option Text}
    (h : document.get key = optional t) : storedOptional document key = .ok t := by
  rw [storedOptional, h]
  cases t <;> rfl

/-- A field that was printed from a big integer. -/
theorem storedBigInt_decimalInt {document : Value} {key : Text} {z : ℤ}
    (h : document.get key = .str (decimalInt z)) : storedBigInt document key = .ok z := by
  rw [storedBigInt, storedText, h]
  exact bigIntOf_decimalInt z

theorem storedInput_inputValue (input : TxInput) : storedInput (inputValue input) = .ok input := rfl

theorem fromWireOutput_toWireOutput (output : TxOutput) :
    fromWireOutput (toWireOutput output) = .ok output := by
  rw [fromWireOutput, storedBigInt_decimalInt (z := output.amount) rfl]
  rfl

theorem fromWireTransaction_toWireTransaction (tx : Transaction) :
    fromWireTransaction (toWireTransaction tx) = .ok tx := by
  have hdata : (toWireTransaction tx).get (lit "data") = optional tx.data := by
    obtain ⟨⟨_, _, _, _, data⟩, _⟩ := tx
    cases data <;> rfl
  have hins : mapIdxFrom (fun _ => storedInput) 0 (tx.inputs.map inputValue) = .ok tx.inputs :=
    mapIdxFrom_map (fun input _ _ => storedInput_inputValue input) 0
  have houts : mapIdxFrom (fun _ => fromWireOutput) 0 (tx.outputs.map toWireOutput) = .ok tx.outputs :=
    mapIdxFrom_map (fun output _ _ => fromWireOutput_toWireOutput output) 0
  rw [fromWireTransaction, storedOptional_optional hdata, storedBigInt_decimalInt (z := tx.fee) rfl]
  change (do
    let inputs ← mapIdxFrom (fun _ => storedInput) 0 (tx.inputs.map inputValue)
    let outputs ← mapIdxFrom (fun _ => fromWireOutput) 0 (tx.outputs.map toWireOutput)
    pure { tx with inputs, outputs }) = _
  rw [hins, houts]
  rfl

theorem storedHeader_headerValue (header : BlockHeader) :
    storedHeader (headerValue header) = .ok header := by
  rw [storedHeader, storedOptional_optional (get_signer_headerValue header),
    storedOptional_optional (get_signature_headerValue header)]
  rfl

theorem deserializeBlock_blockValue (block : Block) :
    deserializeBlock (blockValue block) = .ok block := by
  have htxs : mapIdxFrom (fun _ => fromWireTransaction) 0 (block.transactions.map toWireTransaction) =
      .ok block.transactions :=
    mapIdxFrom_map (fun tx _ _ => fromWireTransaction_toWireTransaction tx) 0
  change (do
    let header ← storedHeader (headerValue block.header)
    let transactions ←
      mapIdxFrom (fun _ => fromWireTransaction) 0 (block.transactions.map toWireTransaction)
    pure { block with header, transactions }) = _
  rw [storedHeader_headerValue, htxs]
  rfl

/-- A block of the wire shape is read back from the store. -/
theorem reread_block {block : Block} (h : block.Wire) :
    (blockValue block).reread deserializeBlock = .ok block := by
  rw [reread_of_plain (plain_blockValue h), deserializeBlock_blockValue]

theorem deserializeEntry_entryValue (entry : UtxoEntry) :
    deserializeEntry (entryValue entry) = .ok entry := by
  rw [deserializeEntry, storedBigInt_decimalInt (z := entry.amount) rfl]
  rfl

theorem plain_entryValue (entry : UtxoEntry) : (entryValue entry).Plain := by
  simp [entryValue, Number.finite_ofNat]

theorem reread_entry (entry : UtxoEntry) : (entryValue entry).reread deserializeEntry = .ok entry := by
  rw [reread_of_plain (plain_entryValue entry), deserializeEntry_entryValue]

theorem reread_header (entry : IndexedHeader) :
    (indexedHeaderValue entry).reread deserializeHeader = .ok entry := by
  have hplain : (indexedHeaderValue entry).Plain := by
    simp [indexedHeaderValue, plain_headerValue]
  rw [reread_of_plain hplain, deserializeHeader, storedBigInt_decimalInt (z := entry.work) rfl]
  change (do
    let header ← storedHeader (headerValue entry.header)
    pure { header, work := (entry.work : ℤ).toNat : IndexedHeader }) = _
  rw [storedHeader_headerValue]
  rfl

/-- Undo records whose outpoints have indexes that JSON can write. -/
def WritableUndo (undo : BlockUndo) : Prop :=
  ∀ tx ∈ undo, (∀ s ∈ tx.spent, s.outputIndex.Finite) ∧ ∀ o ∈ tx.created, o.outputIndex.Finite

/-- A spent output as it is written: its entry is one of `serializeEntry`. -/
def writtenSpent (s : SpentOutput) : Value :=
  .obj (outpointFields s.toTxOutpoint ++ [(lit "entry", entryValue s.entry)])

def writtenTxUndo (undo : TxUndo) : Value :=
  .obj [(lit "spent", .arr (undo.spent.map writtenSpent)),
    (lit "created", .arr (undo.created.map fun o => .obj (outpointFields o)))]

theorem undoValue_eq (undo : BlockUndo) : undoValue undo = .arr (undo.map writtenTxUndo) := by
  have hspent : ∀ s, mapBigints (fun z => .str (decimalInt z)) (spentValue s) = writtenSpent s := by
    intro s
    simp [spentValue, writtenSpent, outpointFields, entryValue]
  have htx : ∀ tx, mapBigints (fun z => .str (decimalInt z)) (txUndoValue tx) = writtenTxUndo tx := by
    intro tx
    simp [txUndoValue, writtenTxUndo, outpointFields, Function.comp_def, hspent]
  rw [undoValue, mapBigints_arr, map_map]
  simp only [Function.comp_def, htx]

theorem plain_writtenTxUndo {undo : TxUndo} (hspent : ∀ s ∈ undo.spent, s.outputIndex.Finite)
    (hcreated : ∀ o ∈ undo.created, o.outputIndex.Finite) : (writtenTxUndo undo).Plain := by
  simp +contextual [writtenTxUndo, writtenSpent, outpointFields, plain_entryValue, hspent, hcreated]

theorem storedSpent_writtenSpent (s : SpentOutput) : storedSpent (writtenSpent s) = .ok s := by
  change (do
    let entry ← deserializeEntry (entryValue s.entry)
    pure { s with entry }) = _
  rw [deserializeEntry_entryValue]
  rfl

theorem storedOutpoint_outpointFields (o : TxOutpoint) :
    storedOutpoint (.obj (outpointFields o)) = .ok o := rfl

theorem storedTxUndo_writtenTxUndo (undo : TxUndo) : storedTxUndo (writtenTxUndo undo) = .ok undo := by
  have hspent : mapIdxFrom (fun _ => storedSpent) 0 (undo.spent.map writtenSpent) = .ok undo.spent :=
    mapIdxFrom_map (fun s _ _ => storedSpent_writtenSpent s) 0
  have hcreated : mapIdxFrom (fun _ => storedOutpoint) 0
      (undo.created.map fun o => .obj (outpointFields o)) = .ok undo.created :=
    mapIdxFrom_map (fun o _ _ => storedOutpoint_outpointFields o) 0
  change (do
    let spent ← mapIdxFrom (fun _ => storedSpent) 0 (undo.spent.map writtenSpent)
    let created ← mapIdxFrom (fun _ => storedOutpoint) 0
      (undo.created.map fun o => .obj (outpointFields o))
    pure { spent, created : TxUndo }) = _
  rw [hspent, hcreated]
  rfl

theorem reread_undo {undo : BlockUndo} (h : WritableUndo undo) :
    (undoValue undo).reread deserializeUndo = .ok undo := by
  have hplain : (undoValue undo).Plain := by
    rw [undoValue_eq, plain_arr]
    exact forall_mem_map.2 fun tx htx => plain_writtenTxUndo (h tx htx).1 (h tx htx).2
  rw [reread_of_plain hplain, undoValue_eq]
  exact mapIdxFrom_map (fun tx _ _ => storedTxUndo_writtenTxUndo tx) 0

/-- The parts of a key are read back. -/
theorem parseUtxoKey_utxoKey (txId : Text) (i : ℕ) :
    parseUtxoKey (utxoKey txId (.ofNat i)) = (txId, some i) := by
  have hdigits : ∀ u ∈ (decimal i).reverse, decide (u ≠ unit ':') = true := by
    intro u hu
    have hd := isDigit_of_mem_decimal (mem_reverse.1 hu)
    simp only [decide_eq_true_eq]
    rintro rfl
    revert hd
    decide
  have hreverse : (utxoKey txId (.ofNat i)).reverse = (decimal i).reverse ++ unit ':' :: txId.reverse := by
    rw [utxoKey]
    simp
  have hall : (decimal i).all isDigit := all_eq_true.2 fun u hu => isDigit_of_mem_decimal hu
  have hnumber : numberOf (decimal i) = some i := by
    rw [numberOf, if_pos hall]
    exact congrArg some (digitsValue_zeros_decimal 0 i)
  rw [parseUtxoKey, hreverse, dropWhile_append_of_pos hdigits,
    dropWhile_cons_of_neg (by simp), takeWhile_append_of_pos hdigits,
    takeWhile_cons_of_neg (by simp), append_nil, reverse_reverse]
  simp only [hnumber, reverse_reverse]

/-- The key of an output of a transaction. -/
def IsOutpoint (key : Text) : Prop := ∃ txId i, key = utxoKey txId (.ofNat i)

/-- Every unspent output is under the key of an output. -/
def UtxoSet.Outpoints (u : UtxoSet) : Prop := ∀ key entry, u.readRaw key = some entry → IsOutpoint key

end Plainchain
