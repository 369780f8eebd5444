import Plainchain.Consensus.BlockValidator
import Plainchain.Network.Protocol

/-!
# Blocks in frames

Consensus measures a block by its canonical text, in which amounts are strings; a
message carries it with a marker around every amount and fee (`Lib/Tagged`), and a
frame has a size limit of its own. The markers cost `15` bytes each, which the name of
the field and its quotes outweigh, so that the message is at most twice the block.

* `byteSize_p2pTransactionValue`: what the markers cost a transaction;
* `newBlock_fits`: the bound, and the limits of a node.
-/

namespace Plainchain

open Js Value List

/-- The text that `encodeMessage` returns. -/
def encodedText (m : Envelope) : Option Text := (encodeMessage m).bind stringify

theorem encodedText_eq (m : Envelope) :
    encodedText m = (mapBigints (tagged BIGINT_MARKER) m.value).stringify := stringify_written _

/-- The bytes that a marker adds to the text of a big integer. -/
def markerBytes : ℕ := 15

theorem byteSize_tagged (z : ℤ) :
    (tagged BIGINT_MARKER z).byteSize = (str (decimalInt z)).byteSize + markerBytes := by
  have hmarker : byteLength (quote BIGINT_MARKER) = 12 := by decide
  have hfields : ∀ f ∈ [(BIGINT_MARKER, str (decimalInt z))], f.2.stringify.isSome := by
    simp [stringify]
  rw [tagged, byteSize_obj (cons_ne_nil _ _) hfields, markerBytes]
  simp only [map_cons, map_nil, sum_cons, sum_nil, hmarker]
  omega

/-! ## What the markers cost -/

section Cost

theorem isSome_tagged (z : ℤ) : (tagged BIGINT_MARKER z).stringify.isSome := rfl

theorem isSome_taggedOutput (output : TxOutput) :
    (mapBigints (tagged BIGINT_MARKER) (p2pOutputValue output)).stringify.isSome := rfl

theorem isSome_wireOutput (output : TxOutput) : (toWireOutput output).stringify.isSome := rfl

theorem byteSize_p2pOutputValue (output : TxOutput) :
    (mapBigints (tagged BIGINT_MARKER) (p2pOutputValue output)).byteSize =
      (toWireOutput output).byteSize + markerBytes := by
  have htagged := byteSize_tagged output.amount
  rw [p2pOutputValue, mapBigints_obj, byteSize_obj (by simp) (by simp [isSome_tagged, stringify]),
    toWireOutput, byteSize_obj (by simp) (by simp [stringify])]
  simp only [map_cons, map_nil, sum_cons, sum_nil, mapBigints_str,
    mapBigints_bigint, htagged]
  omega

/-- The names of the fields outweigh the marker. -/
theorem markerBytes_le_output (output : TxOutput) : markerBytes ≤ (toWireOutput output).byteSize := by
  rw [byteSize_toWireOutput, markerBytes]
  omega

theorem mapBigints_p2pTransactionValue (tx : Transaction) :
    mapBigints (tagged BIGINT_MARKER) (p2pTransactionValue tx) =
      .obj (transactionFields tx
        (.arr (tx.outputs.map fun o => mapBigints (tagged BIGINT_MARKER) (p2pOutputValue o)))
        (tagged BIGINT_MARKER tx.fee)) := by
  rw [p2pTransactionValue, mapBigints_obj, transactionFields]
  cases htx : tx.data <;> simp [dataFields, inputValue, Function.comp_def]

/-- The bytes that markers add to a transaction: one for each output, and one for the
    fee. -/
def markersOf (tx : Transaction) : ℕ := (tx.outputs.map fun _ => markerBytes).sum + markerBytes

/-- The markers make a transaction at most twice as large. -/
theorem byteSize_p2pTransactionValue (tx : Transaction) :
    (mapBigints (tagged BIGINT_MARKER) (p2pTransactionValue tx)).byteSize =
        (toWireTransaction tx).byteSize + markersOf tx ∧
      markersOf tx ≤ (toWireTransaction tx).byteSize := by
  have houtputs := byteSize_arr_add (fun o (_ : o ∈ tx.outputs) => isSome_taggedOutput o)
    (fun o _ => isSome_wireOutput o) fun o _ => byteSize_p2pOutputValue o
  have hfee := byteSize_tagged tx.fee
  have hle : (tx.outputs.map fun _ => markerBytes).sum ≤
      (Value.arr (tx.outputs.map toWireOutput)).byteSize :=
    (sum_le_sum fun o _ => markerBytes_le_output o).trans
      (sum_byteSize_le fun o _ => isSome_wireOutput o)
  -- The other fields alone take more than a marker.
  have hmarker : markerBytes ≤ 48 := by decide
  rw [mapBigints_p2pTransactionValue, toWireTransaction, markersOf,
    byteSize_transactionFields tx
      (isSome_stringify_arr (forall_mem_map.2 fun o _ => isSome_taggedOutput o)) (isSome_tagged _),
    byteSize_transactionFields tx (isSome_wireOutputs _) rfl]
  omega

end Cost

/-! ## The whole message -/

theorem mapBigints_headerValue (header : BlockHeader) :
    mapBigints (tagged BIGINT_MARKER) (headerValue header) = headerValue header := by
  rw [headerValue, headerFields, mapBigints_obj]
  cases header.signer <;> cases header.signature <;> simp

theorem isSome_taggedTransaction (tx : Transaction) :
    (mapBigints (tagged BIGINT_MARKER) (p2pTransactionValue tx)).stringify.isSome := by
  rw [mapBigints_p2pTransactionValue]
  exact isSome_stringify_obj (isSome_transactionFields tx
    (isSome_stringify_arr (forall_mem_map.2 fun o _ => isSome_taggedOutput o)) rfl)

/-- The block within its message: the markers of all transactions. -/
theorem byteSize_p2pBlockValue (block : Block) :
    (mapBigints (tagged BIGINT_MARKER) (p2pBlockValue block)).stringify.isSome ∧
    (mapBigints (tagged BIGINT_MARKER) (p2pBlockValue block)).byteSize =
      blockByteSize block + (block.transactions.map markersOf).sum := by
  have hvalue : mapBigints (tagged BIGINT_MARKER) (p2pBlockValue block) =
      .obj [(lit "header", headerValue block.header),
        (lit "transactions", .arr (block.transactions.map fun tx =>
          mapBigints (tagged BIGINT_MARKER) (p2pTransactionValue tx))),
        (lit "hash", .str block.hash)] := by
    simp [p2pBlockValue, mapBigints_headerValue, Function.comp_def]
  have htxs := byteSize_arr_add
    (fun tx (_ : tx ∈ block.transactions) => isSome_taggedTransaction tx)
    (fun tx _ => isSome_stringify_transaction tx) fun tx _ => (byteSize_p2pTransactionValue tx).1
  obtain ⟨hsome, hsize⟩ := byteSize_blockFields block (isSome_stringify_arr (forall_mem_map.2
    fun (tx : Transaction) (_ : tx ∈ block.transactions) => isSome_taggedTransaction tx))
  rw [hvalue, hsize, blockByteSize_eq, htxs]
  exact ⟨hsome, by omega⟩

/-- The names of its fields alone make a header larger than an envelope. -/
theorem envelope_le_headerValue (header : BlockHeader) : 41 ≤ (headerValue header).byteSize := by
  have hprevious : byteLength (quote (lit "previousHash")) = 14 := by decide
  have hmerkle : byteLength (quote (lit "merkleRoot")) = 12 := by decide
  have hdifficulty : byteLength (quote (lit "difficultyTarget")) = 18 := by decide
  rw [byteSize_headerValue]
  simp only [headerFields, map_append, map_cons, map_nil, sum_append,
    sum_cons, sum_nil, hprevious, hmerkle, hdifficulty]
  omega

/-- A block in a message of its own takes at most twice its size; so it fits in a frame
    where the limit of blocks is at most half of that of frames. -/
theorem newBlock_fits (block : Block) :
    ∃ text, encodedText ⟨.NEW_BLOCK, newBlockValue block⟩ = some text ∧
      byteLength text ≤ 2 * blockByteSize block ∧
      ∀ maxBlockBytes maxMessageBytes : ℕ, 2 * maxBlockBytes ≤ maxMessageBytes →
        blockByteSize block ≤ maxBlockBytes → byteLength text ≤ maxMessageBytes := by
  have htype : byteLength (quote (lit "type")) = 6 := by decide
  have hname : byteLength (quote (lit "NEW_BLOCK")) = 11 := by decide
  have hpayload : byteLength (quote (lit "payload")) = 9 := by decide
  have hblock : byteLength (quote (lit "block")) = 7 := by decide
  obtain ⟨hsome, hsize⟩ := byteSize_p2pBlockValue block
  have hvalue : mapBigints (tagged BIGINT_MARKER) (Envelope.value ⟨.NEW_BLOCK, newBlockValue block⟩) =
      .obj [(lit "type", .str (lit "NEW_BLOCK")), (lit "payload",
        .obj [(lit "block", mapBigints (tagged BIGINT_MARKER) (p2pBlockValue block))])] := by
    simp [Envelope.value, newBlockValue, MessageType.text]
  generalize mapBigints (tagged BIGINT_MARKER) (p2pBlockValue block) = written at hsome hsize hvalue
  have hinner : ∀ f ∈ [(lit "block", written)], f.2.stringify.isSome := by simpa using hsome
  have houter : ∀ f ∈ ([(lit "type", .str (lit "NEW_BLOCK")),
      (lit "payload", .obj [(lit "block", written)])] : List (Text × Value)), f.2.stringify.isSome :=
    forall_mem_cons.2 ⟨rfl, forall_mem_singleton.2 (isSome_stringify_obj hinner)⟩
  obtain ⟨text, htext⟩ := Option.isSome_iff_exists.1 (isSome_stringify_obj houter)
  -- the envelope, the block and its markers
  have hlength : byteLength text =
      41 + blockByteSize block + (block.transactions.map markersOf).sum := by
    have hmessage := byteSize_obj (cons_ne_nil _ _) houter
    rw [byteSize, htext, Option.getD_some] at hmessage
    rw [hmessage]
    simp only [map_cons, map_nil, sum_cons, sum_nil,
      byteSize_obj (cons_ne_nil _ _) hinner, byteSize_str, htype, hname, hpayload, hblock, hsize]
    omega
  have hmarkers : (block.transactions.map markersOf).sum ≤
      (Value.arr (block.transactions.map toWireTransaction)).byteSize :=
    (sum_le_sum fun tx _ => (byteSize_p2pTransactionValue tx).2).trans
      (sum_byteSize_le fun tx _ => isSome_stringify_transaction tx)
  have hheader := envelope_le_headerValue block.header
  have hbound : byteLength text ≤ 2 * blockByteSize block := by
    rw [blockByteSize_eq] at hlength ⊢
    omega
  refine ⟨text, ?_, hbound, fun maxBlockBytes maxMessageBytes hhalf hle => by omega⟩
  rw [encodedText_eq, hvalue, htext]

end Plainchain
