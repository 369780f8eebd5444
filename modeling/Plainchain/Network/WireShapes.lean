import Plainchain.Ledger.Serialize

/-!
# Shapes of what peers send

`src/network/wireShapes.ts`: the shape checks on transactions and blocks that
arrive from peers. `Transaction.Wire` and `Block.Wire` are the shapes, and they
are exactly what the parsers return: a parsed transaction has the shape
(`parseP2PTransaction_wire`), and one that has it is read back from its own
object (`parseP2PTransaction_value`); the same for blocks.
-/

namespace Plainchain

open Js

def fail {α : Type} (what : Text) : Except Text α := .error (lit "malformed " ++ what)

/-- A text of a pattern. -/
def matching (pattern : Text → Bool) (expected : Text) (value : Value) (what : Text) :
    Except Text Text :=
  match value with
  | .str t => if pattern t then .ok t else fail (what ++ expected)
  | _ => fail (what ++ expected)

def hex64 : (value : Value) → (what : Text) → Except Text Text :=
  matching (hexOf 64) (lit ": expected 64 hex characters")

def hex : (value : Value) → (what : Text) → Except Text Text :=
  matching hexPairs (lit ": expected hex")

/-- A safe integer not below `min`, as a number of the language. -/
def integer (value : Value) (what : Text) (min : ℕ) : Except Text Number :=
  let expected := fail (what ++ lit ": expected an integer >= " ++ decimal min)
  match value with
  | .num (.int (.ofNat n)) => if n < 2 ^ 53 ∧ min ≤ n then .ok (.ofNat n) else expected
  | _ => expected

def bigint (value : Value) (what : Text) : Except Text ℤ :=
  match value with
  | .bigint z => .ok z
  | _ => fail (what ++ lit ": expected a bigint")

def record (value : Value) (what : Text) : Except Text Unit :=
  wireRecord value (lit "malformed " ++ what ++ lit ": expected an object")

def array (value : Value) (what : Text) : Except Text (List Value) :=
  wireArray value (lit "malformed " ++ what ++ lit ": expected an array")

def parseP2PInput (what : Text) (i : ℕ) (input : Value) : Except Text TxInput := do
  let place := elementPath (what ++ lit ".inputs") i
  record input place
  let txId ← hex64 (input.get (lit "txId")) (place ++ lit ".txId")
  let outputIndex ← integer (input.get (lit "outputIndex")) (place ++ lit ".outputIndex") 0
  let signature ← hex (input.get (lit "signature")) (place ++ lit ".signature")
  let publicKey ← hex (input.get (lit "publicKey")) (place ++ lit ".publicKey")
  pure { txId, outputIndex, signature, publicKey }

def parseP2POutput (what : Text) (i : ℕ) (output : Value) : Except Text TxOutput := do
  let place := elementPath (what ++ lit ".outputs") i
  record output place
  let address ← wireText (output.get (lit "address"))
    (lit "malformed " ++ place ++ lit ".address: expected a string")
  let amount ← bigint (output.get (lit "amount")) (place ++ lit ".amount")
  pure { address, amount }

/-- An optional field in hex. -/
def optionalHex (value : Value) (what : Text) : Except Text (Option Text) :=
  match value with
  | .undefined => .ok none
  | value => some <$> hex value what

/-- A transaction after the big integers of the message were revived. -/
def parseP2PTransaction (value : Value) (what : Text) : Except Text Transaction := do
  record value what
  let id ← hex64 (value.get (lit "id")) (what ++ lit ".id")
  let ins ← array (value.get (lit "inputs")) (what ++ lit ".inputs")
  let outs ← array (value.get (lit "outputs")) (what ++ lit ".outputs")
  let inputs ← mapIdxFrom (parseP2PInput what) 0 ins
  let outputs ← mapIdxFrom (parseP2POutput what) 0 outs
  let fee ← bigint (value.get (lit "fee")) (what ++ lit ".fee")
  let timestamp ← integer (value.get (lit "timestamp")) (what ++ lit ".timestamp") 0
  let data ← optionalHex (value.get (lit "data")) (what ++ lit ".data")
  pure { id, inputs, outputs, timestamp, fee, data }

/-- A block whose claimed hash is the hash of its header. -/
def parseWireBlock (value : Value) (what : Text) : Except Text Block := do
  record value what
  let header ← parseWireHeader (value.get (lit "header")) (what ++ lit ".header")
  let txs ← array (value.get (lit "transactions")) (what ++ lit ".transactions")
  let transactions ← mapIdxFrom
    (fun i tx => parseP2PTransaction tx (elementPath (what ++ lit ".transactions") i)) 0 txs
  let hash ← hex64 (value.get (lit "hash")) (what ++ lit ".hash")
  reject (computeBlockHash header ≠ hash)
    (lit "malformed " ++ what ++ lit ".hash: does not match the header")
  pure { header, transactions, hash }

/-! ## The shapes -/

structure TxInput.Wire (input : TxInput) : Prop where
  txId : hexOf 64 input.txId
  outputIndex : input.outputIndex.IsIndex
  signature : hexPairs input.signature
  publicKey : hexPairs input.publicKey

/-- The shape of a transaction from a peer. Its addresses are any texts. -/
structure Transaction.Wire (tx : Transaction) : Prop where
  id : hexOf 64 tx.id
  inputs : ∀ input ∈ tx.inputs, input.Wire
  timestamp : tx.timestamp.IsIndex
  data : ∀ data ∈ tx.data, hexPairs data

/-- The shape of a block from a peer, which carries the hash of its header. -/
structure Block.Wire (block : Block) : Prop where
  header : block.header.Wire
  transactions : ∀ tx ∈ block.transactions, tx.Wire
  hash : computeBlockHash block.header = block.hash

section Checks

variable {value : Value} {what t : Text}

theorem matching_eq_ok {pattern : Text → Bool} {expected : Text} :
    matching pattern expected value what = .ok t ↔ value = .str t ∧ pattern t := by
  unfold matching
  cases value with
  | str s =>
    simp only [Value.str.injEq]
    split
    · next h =>
      rw [Except.ok.injEq]
      exact ⟨fun hs => ⟨hs, hs ▸ h⟩, fun hs => hs.1⟩
    · next h =>
      simp only [fail, reduceCtorEq, false_iff]
      rintro ⟨rfl, hs⟩
      exact h hs
  | _ => simp [fail]

theorem hex64_eq_ok : hex64 value what = .ok t ↔ value = .str t ∧ hexOf 64 t := matching_eq_ok

theorem hex_eq_ok : hex value what = .ok t ↔ value = .str t ∧ hexPairs t := matching_eq_ok

theorem integer_eq_ok {x : Number} :
    integer value what 0 = .ok x ↔ value = .num x ∧ x.IsIndex := by
  unfold integer
  dsimp only
  split
  · next m =>
    split
    · next h =>
      rw [Except.ok.injEq, Value.num.injEq]
      exact ⟨fun hx => ⟨hx, m, h.1, hx.symm⟩, fun hx => hx.1⟩
    · next h =>
      simp only [fail, reduceCtorEq, false_iff]
      rintro ⟨hx, n, hn, rfl⟩
      obtain rfl : m = n := Number.ofNat_injective (Value.num.inj hx)
      exact h ⟨hn, Nat.zero_le _⟩
  · next h =>
    simp only [fail, reduceCtorEq, false_iff]
    rintro ⟨rfl, n, -, rfl⟩
    exact h n rfl

theorem optionalHex_optional {d : Option Text} (h : ∀ t ∈ d, hexPairs t) :
    optionalHex (optional d) what = .ok d := by
  cases d with
  | none => rfl
  | some t =>
    change some <$> hex (.str t) what = _
    rw [hex_eq_ok.2 ⟨rfl, h t rfl⟩]
    rfl

theorem hexPairs_of_optionalHex {d : Option Text} (h : optionalHex value what = .ok d) :
    ∀ t ∈ d, hexPairs t := by
  have hmap : ∀ v : Value, some <$> hex v what = .ok d → ∀ t ∈ d, hexPairs t := by
    intro v hv t ht
    cases hh : hex v what with
    | error e => simp [hh] at hv
    | ok s =>
      rw [hh] at hv
      cases hv
      cases ht
      exact (hex_eq_ok.1 hh).2
  cases value with
  | undefined =>
    cases h
    simp
  | _ => exact hmap _ h

end Checks

/-! ## Transactions -/

theorem parseP2PInput_wire {what : Text} {i : ℕ} {value : Value} {input : TxInput}
    (h : parseP2PInput what i value = .ok input) : input.Wire := by
  simp only [parseP2PInput, seq_eq_ok] at h
  obtain ⟨-, h⟩ := h
  simp only [bind_eq_ok, hex64_eq_ok, integer_eq_ok, hex_eq_ok] at h
  obtain ⟨txId, ⟨-, ht⟩, outputIndex, ⟨-, ho⟩, signature, ⟨-, hs⟩, publicKey, ⟨-, hp⟩, h⟩ := h
  cases h
  exact ⟨ht, ho, hs, hp⟩

theorem parseP2PInput_value {input : TxInput} (h : input.Wire) (what : Text) (i : ℕ) :
    parseP2PInput what i (inputValue input) = .ok input := by
  rw [parseP2PInput,
    show (inputValue input).get (lit "txId") = .str input.txId from rfl,
    show (inputValue input).get (lit "outputIndex") = .num input.outputIndex from rfl,
    show (inputValue input).get (lit "signature") = .str input.signature from rfl,
    show (inputValue input).get (lit "publicKey") = .str input.publicKey from rfl]
  rw [hex64_eq_ok.2 ⟨rfl, h.txId⟩, integer_eq_ok.2 ⟨rfl, h.outputIndex⟩,
    hex_eq_ok.2 ⟨rfl, h.signature⟩, hex_eq_ok.2 ⟨rfl, h.publicKey⟩]
  rfl

/-- A parsed transaction has the shape. -/
theorem parseP2PTransaction_wire {value : Value} {what : Text} {tx : Transaction}
    (h : parseP2PTransaction value what = .ok tx) : tx.Wire := by
  rw [parseP2PTransaction, seq_eq_ok] at h
  simp only [bind_eq_ok, hex64_eq_ok, integer_eq_ok] at h
  obtain ⟨-, id, ⟨-, hid⟩, ins, -, outs, -, inputs, hins, outputs, -, fee, -, timestamp, ⟨-, hts⟩,
    data, hdata, h⟩ := h
  cases h
  refine ⟨hid, fun input hinput => ?_, hts, hexPairs_of_optionalHex hdata⟩
  obtain ⟨i, v, -, hv⟩ := exists_of_mem_mapIdxFrom hins hinput
  exact parseP2PInput_wire hv

def p2pOutputValue (output : TxOutput) : Value :=
  .obj [(lit "address", .str output.address), (lit "amount", .bigint output.amount)]

theorem parseP2POutput_value (output : TxOutput) (what : Text) (i : ℕ) :
    parseP2POutput what i (p2pOutputValue output) = .ok output := by
  rw [parseP2POutput,
    show (p2pOutputValue output).get (lit "address") = .str output.address from rfl,
    show (p2pOutputValue output).get (lit "amount") = .bigint output.amount from rfl]
  rfl

/-- A transaction as the object a message carries, its amounts being big
    integers. -/
def p2pTransactionValue (tx : Transaction) : Value :=
  .obj ([(lit "id", .str tx.id), (lit "inputs", .arr (tx.inputs.map inputValue)),
    (lit "outputs", .arr (tx.outputs.map p2pOutputValue)), (lit "timestamp", .num tx.timestamp),
    (lit "fee", .bigint tx.fee)] ++ dataFields tx.data)

/-- Every transaction of the shape is read back from its own object. -/
theorem parseP2PTransaction_value {tx : Transaction} (h : tx.Wire) (what : Text) :
    parseP2PTransaction (p2pTransactionValue tx) what = .ok tx := by
  have hdata : (p2pTransactionValue tx).get (lit "data") = optional tx.data := by
    obtain ⟨⟨_, _, _, _, data⟩, _⟩ := tx
    cases data <;> rfl
  have hins : mapIdxFrom (parseP2PInput what) 0 (tx.inputs.map inputValue) = .ok tx.inputs :=
    mapIdxFrom_map (fun input hinput i => parseP2PInput_value (h.inputs input hinput) what i) 0
  have houts : mapIdxFrom (parseP2POutput what) 0 (tx.outputs.map p2pOutputValue)
      = .ok tx.outputs :=
    mapIdxFrom_map (fun output _ i => parseP2POutput_value output what i) 0
  rw [parseP2PTransaction, hdata,
    show (p2pTransactionValue tx).get (lit "id") = .str tx.id from rfl,
    show (p2pTransactionValue tx).get (lit "inputs") = .arr (tx.inputs.map inputValue) from rfl,
    show (p2pTransactionValue tx).get (lit "outputs") = .arr (tx.outputs.map p2pOutputValue)
      from rfl,
    show (p2pTransactionValue tx).get (lit "timestamp") = .num tx.timestamp from rfl,
    show (p2pTransactionValue tx).get (lit "fee") = .bigint tx.fee from rfl,
    hex64_eq_ok.2 ⟨rfl, h.id⟩, integer_eq_ok.2 ⟨rfl, h.timestamp⟩, optionalHex_optional h.data]
  change (do
    let inputs ← mapIdxFrom (parseP2PInput what) 0 (tx.inputs.map inputValue)
    let outputs ← mapIdxFrom (parseP2POutput what) 0 (tx.outputs.map p2pOutputValue)
    pure { tx with inputs, outputs }) = _
  rw [hins, houts]
  rfl

/-! ## Blocks -/

/-- A parsed block has the shape. -/
theorem parseWireBlock_wire {value : Value} {what : Text} {block : Block}
    (h : parseWireBlock value what = .ok block) : block.Wire := by
  rw [parseWireBlock, seq_eq_ok] at h
  simp only [bind_eq_ok] at h
  obtain ⟨-, header, hheader, txs, -, transactions, htxs, hash, -, ⟨⟩, hhash, h⟩ := h
  cases h
  refine ⟨parseWireHeader_wire hheader, fun tx htx => ?_, not_not.1 (reject_eq_ok.1 hhash)⟩
  obtain ⟨i, v, -, hv⟩ := exists_of_mem_mapIdxFrom htxs htx
  exact parseP2PTransaction_wire hv

def p2pBlockValue (block : Block) : Value :=
  .obj [(lit "header", headerValue block.header),
    (lit "transactions", .arr (block.transactions.map p2pTransactionValue)),
    (lit "hash", .str block.hash)]

/-- Every block of the shape is read back from its own object. -/
theorem parseWireBlock_value {block : Block} (h : block.Wire) (what : Text) :
    parseWireBlock (p2pBlockValue block) what = .ok block := by
  have htxs : mapIdxFrom
      (fun i tx => parseP2PTransaction tx (elementPath (what ++ lit ".transactions") i)) 0
      (block.transactions.map p2pTransactionValue) = .ok block.transactions :=
    mapIdxFrom_map (fun tx htx i => parseP2PTransaction_value (h.transactions tx htx) _) 0
  have hhash : hexOf 64 block.hash := h.hash ▸ hexOf_sha256 _
  rw [parseWireBlock,
    show (p2pBlockValue block).get (lit "header") = headerValue block.header from rfl,
    show (p2pBlockValue block).get (lit "transactions") =
      .arr (block.transactions.map p2pTransactionValue) from rfl,
    show (p2pBlockValue block).get (lit "hash") = .str block.hash from rfl,
    parseWireHeader_headerValue h.header, hex64_eq_ok.2 ⟨rfl, hhash⟩]
  change (do
    let transactions ← mapIdxFrom _ 0 (block.transactions.map p2pTransactionValue)
    reject (computeBlockHash block.header ≠ block.hash) _
    pure { block with transactions }) = _
  rw [htxs, reject_eq_ok.2 (not_not.2 h.hash)]
  rfl

end Plainchain
