import Plainchain.Ledger.Block

/-!
# Wire formats

`src/ledger/serialize.ts`: the JSON a block is stored and measured in, and the
shape checks on what a client or a node sends.

* `serializeBlock`: the canonical JSON of a block, which the size rule measures;
* `parseWireTransaction`: a transaction from an RPC body;
* `parseWireHeader`, `parseWireChainHeader`: a header from a peer or a node. The
  headers it returns are exactly the ones of shape `BlockHeader.Wire`
  (`parseWireHeader_wire`, `parseWireHeader_headerValue`).

A parse error is the text of the message.
-/

namespace Plainchain

open Js

/-! ## Writing -/

def inputValue (input : TxInput) : Value :=
  .obj [(lit "txId", .str input.txId), (lit "outputIndex", .num input.outputIndex),
    (lit "signature", .str input.signature), (lit "publicKey", .str input.publicKey)]

def toWireOutput (output : TxOutput) : Value :=
  .obj [(lit "address", .str output.address), (lit "amount", .str (decimalInt output.amount))]

/-- The data is written only when present, so that the size of a payment is what
    it was without the field. -/
def dataFields (data : Option Text) : List (Text × Value) :=
  data.toList.map fun d => (lit "data", .str d)

/-- The fields of a transaction, in canonical order. Its outputs and its fee are written
    in one way to a client and in another to a peer. -/
def transactionFields (tx : Transaction) (outputs fee : Value) : List (Text × Value) :=
  [(lit "id", .str tx.id), (lit "inputs", .arr (tx.inputs.map inputValue)), (lit "outputs", outputs),
    (lit "timestamp", .num tx.timestamp), (lit "fee", fee)] ++ dataFields tx.data

/-- A transaction as an object with its amounts in decimal. -/
def toWireTransaction (tx : Transaction) : Value :=
  .obj (transactionFields tx (.arr (tx.outputs.map toWireOutput)) (.str (decimalInt tx.fee)))

/-- The fields of a header, in canonical order. -/
def headerFields (header : BlockHeader) : List (Text × Value) :=
  [(lit "version", .num (.ofNat header.version)),
    (lit "previousHash", .str header.previousHash), (lit "merkleRoot", .str header.merkleRoot),
    (lit "timestamp", .num (.ofNat header.timestamp)),
    (lit "difficultyTarget", .str header.difficultyTarget),
    (lit "nonce", .num (.ofNat header.nonce)), (lit "height", .num (.ofNat header.height))]
    ++ (header.signer.toList.map fun t => (lit "signer", .str t))
    ++ (header.signature.toList.map fun t => (lit "signature", .str t))

/-- A header as an object. -/
def headerValue (header : BlockHeader) : Value := .obj (headerFields header)

/-- A block as an object. -/
def blockValue (block : Block) : Value :=
  .obj [(lit "header", headerValue block.header),
    (lit "transactions", .arr (block.transactions.map toWireTransaction)),
    (lit "hash", .str block.hash)]

/-- `JSON.stringify` of the wire form, which holds nothing it throws on. -/
def serializeBlock (block : Block) : Text := (blockValue block).stringify.getD []

/-! ## Transactions from a client -/

/-- A value of the pattern `/^-?\d+$/`. -/
def parseAmount (value : Value) (what : Text) : Except Text ℤ :=
  let fail := .error (what ++ lit " must be a decimal integer string")
  match value with
  | .str (u :: t) =>
    if u = unit '-' then if t ≠ [] ∧ t.all isDigit then .ok (-(digitsValue t)) else fail
    else if (u :: t).all isDigit then .ok (digitsValue (u :: t)) else fail
  | _ => fail

def wireText (value : Value) (message : Text) : Except Text Text :=
  match value with
  | .str t => .ok t
  | _ => .error message

def wireNumber (value : Value) (message : Text) : Except Text Number :=
  match value with
  | .num x => .ok x
  | _ => .error message

def wireArray (value : Value) (message : Text) : Except Text (List Value) :=
  match value with
  | .arr vs => .ok vs
  | _ => .error message

def wireRecord (value : Value) (message : Text) : Except Text Unit :=
  match value with
  | .obj _ => .ok ()
  | _ => .error message

/-- The place of an element in a message, such as `inputs[3]`. -/
def elementPath (list : Text) (i : ℕ) : Text := list ++ unit '[' :: (decimal i ++ [unit ']'])

def parseWireInput (i : ℕ) (input : Value) : Except Text TxInput := do
  let place := elementPath (lit "inputs") i
  wireRecord input (place ++ lit " must be an object")
  let txId ← wireText (input.get (lit "txId")) (place ++ lit ".txId must be a string")
  let outputIndex ← wireNumber (input.get (lit "outputIndex"))
    (place ++ lit ".outputIndex must be a number")
  let signature ← wireText (input.get (lit "signature"))
    (place ++ lit ".signature must be a string")
  let publicKey ← wireText (input.get (lit "publicKey"))
    (place ++ lit ".publicKey must be a string")
  pure { txId, outputIndex, signature, publicKey }

def parseWireOutput (i : ℕ) (output : Value) : Except Text TxOutput := do
  let place := elementPath (lit "outputs") i
  wireRecord output (place ++ lit " must be an object")
  let address ← wireText (output.get (lit "address")) (place ++ lit ".address must be a string")
  let amount ← parseAmount (output.get (lit "amount")) (place ++ lit ".amount")
  pure { address, amount }

/-- An optional text field. -/
def wireOptionalText (value : Value) (message : Text) : Except Text (Option Text) :=
  match value with
  | .undefined => .ok none
  | value => some <$> wireText value message

/-- A transaction from an untrusted request body or reply: shape only. -/
def parseWireTransaction (value : Value) : Except Text Transaction := do
  wireRecord value (lit "transaction must be an object")
  let id ← wireText (value.get (lit "id")) (lit "transaction.id must be a string")
  let ins ← wireArray (value.get (lit "inputs")) (lit "transaction.inputs must be an array")
  let outs ← wireArray (value.get (lit "outputs")) (lit "transaction.outputs must be an array")
  let timestamp ← wireNumber (value.get (lit "timestamp"))
    (lit "transaction.timestamp must be a number")
  let data ← wireOptionalText (value.get (lit "data")) (lit "transaction.data must be a hex string")
  let inputs ← mapIdxFrom parseWireInput 0 ins
  let outputs ← mapIdxFrom parseWireOutput 0 outs
  let fee ← parseAmount (value.get (lit "fee")) (lit "transaction.fee")
  pure { id, inputs, outputs, timestamp, fee, data }

/-! ## Headers -/

def shapeFail {α : Type} (what : Text) : Except Text α := .error (lit "malformed " ++ what)

/-- Hex of even length, or of the given length. -/
def shapeHex (value : Value) (what : Text) (length : Option ℕ) : Except Text Text :=
  let expected := match length with
    | none => lit "hex"
    | some n => decimal n ++ lit " hex characters"
  match value with
  | .str t =>
    if hexPairs t ∧ ∀ n ∈ length, t.length = n then .ok t
    else shapeFail (what ++ lit ": expected " ++ expected)
  | _ => shapeFail (what ++ lit ": expected " ++ expected)

/-- A safe integer not below `min`. -/
def shapeInteger (value : Value) (what : Text) (min : ℕ) : Except Text ℕ :=
  let fail := shapeFail (what ++ lit ": expected an integer >= " ++ decimal min)
  match value with
  | .num (.int (.ofNat n)) => if n < 2 ^ 53 ∧ min ≤ n then .ok n else fail
  | _ => fail

/-- The seal of a header: both its parts are there, or neither. -/
def parseSeal (signer signature : Value) (what : Text) :
    Except Text (Option Text × Option Text) :=
  match signer, signature with
  | .undefined, .undefined => pure (none, none)
  | signer, signature => do
    let signer ← shapeHex signer (what ++ lit ".signer") none
    let signature ← shapeHex signature (what ++ lit ".signature") none
    pure (some signer, some signature)

def parseWireHeader (value : Value) (what : Text) : Except Text BlockHeader := do
  wireRecord value (lit "malformed " ++ what ++ lit ": expected an object")
  let version ← shapeInteger (value.get (lit "version")) (what ++ lit ".version") 0
  let previousHash ←
    shapeHex (value.get (lit "previousHash")) (what ++ lit ".previousHash") (some 64)
  let merkleRoot ← shapeHex (value.get (lit "merkleRoot")) (what ++ lit ".merkleRoot") (some 64)
  let timestamp ← shapeInteger (value.get (lit "timestamp")) (what ++ lit ".timestamp") 0
  let difficultyTarget ←
    shapeHex (value.get (lit "difficultyTarget")) (what ++ lit ".difficultyTarget") (some 64)
  let nonce ← shapeInteger (value.get (lit "nonce")) (what ++ lit ".nonce") 0
  let height ← shapeInteger (value.get (lit "height")) (what ++ lit ".height") 0
  let (signer, signature) ←
    parseSeal (value.get (lit "signer")) (value.get (lit "signature")) what
  pure { version, previousHash, merkleRoot, timestamp, difficultyTarget, nonce, height, signer,
         signature }

/-- A header with the hash a node claims for it. -/
structure ChainHeader where
  hash : Text
  header : BlockHeader
  deriving DecidableEq

/-- The shape of a chain header; the hash is only checked to be hex. -/
def parseWireChainHeader (value : Value) (what : Text) : Except Text ChainHeader :=
  let parse : Except Text ChainHeader := do
    let header ← parseWireHeader (value.get (lit "header")) (what ++ lit ".header")
    let hash ← shapeHex (value.get (lit "hash")) (what ++ lit ".hash") (some 64)
    pure { hash, header }
  match value with
  | .obj _ => parse
  | .arr _ => parse
  | _ => shapeFail (what ++ lit ": expected an object")

/-! ## What the parsers return -/

variable {what t : Text} {value : Value}

theorem shapeHex_eq_ok {length : Option ℕ} :
    shapeHex value what length = .ok t ↔
      value = .str t ∧ hexPairs t ∧ ∀ n ∈ length, t.length = n := by
  unfold shapeHex
  cases value with
  | str s =>
    dsimp only
    split
    · next h =>
      simp only [Except.ok.injEq, Value.str.injEq]
      exact ⟨fun hs => ⟨hs, hs ▸ h⟩, fun hs => hs.1⟩
    · next h =>
      simp only [shapeFail, reduceCtorEq, Value.str.injEq, false_iff]
      rintro ⟨rfl, hs⟩
      exact h hs
  | _ => simp [shapeFail]

theorem shapeInteger_eq_ok {min n : ℕ} :
    shapeInteger value what min = .ok n ↔
      value = .num (.ofNat n) ∧ n < 2 ^ 53 ∧ min ≤ n := by
  unfold shapeInteger
  dsimp only
  split
  · next m =>
    simp only [Number.ofNat, Value.num.injEq, Number.int.injEq, Int.ofNat_eq_natCast,
      Nat.cast_inj]
    split
    · next h =>
      rw [Except.ok.injEq]
      exact ⟨fun hm => ⟨hm, hm ▸ h⟩, fun hm => hm.1⟩
    · next h =>
      simp only [shapeFail, reduceCtorEq, false_iff]
      rintro ⟨rfl, hm⟩
      exact h hm
  · next h =>
    simp only [shapeFail, reduceCtorEq, false_iff]
    rintro ⟨rfl, -⟩
    exact h n rfl

theorem hexOf_iff_hexPairs : hexOf 64 t ↔ hexPairs t ∧ t.length = 64 := by
  simp only [hexOf, hexPairs, Bool.and_eq_true, beq_iff_eq]
  constructor
  · rintro ⟨hlen, hall⟩
    exact ⟨⟨by rw [hlen], hall⟩, hlen⟩
  · rintro ⟨⟨-, hall⟩, hlen⟩
    exact ⟨hlen, hall⟩

/-- A field of 64 hex characters. -/
theorem shapeHex_some_eq_ok :
    shapeHex value what (some 64) = .ok t ↔ value = .str t ∧ hexOf 64 t := by
  rw [shapeHex_eq_ok, hexOf_iff_hexPairs]
  simp

theorem parseSeal_wire {signer signature : Value} {r : Option Text × Option Text}
    (h : parseSeal signer signature what = .ok r) :
    r.1.isSome = r.2.isSome ∧ (∀ t ∈ r.1, hexPairs t) ∧ ∀ t ∈ r.2, hexPairs t := by
  unfold parseSeal at h
  split at h
  · cases h
    simp
  · simp only [bind_eq_ok, shapeHex_eq_ok] at h
    obtain ⟨s, ⟨-, hs, -⟩, g, ⟨-, hg, -⟩, h⟩ := h
    cases h
    simp [hs, hg]

/-- A parsed header has the wire shape. -/
theorem parseWireHeader_wire {header : BlockHeader} (h : parseWireHeader value what = .ok header) :
    header.Wire := by
  rw [parseWireHeader, seq_eq_ok] at h
  simp only [bind_eq_ok, shapeInteger_eq_ok, shapeHex_some_eq_ok] at h
  obtain ⟨-, version, ⟨-, hv, -⟩, previousHash, ⟨-, hp⟩, merkleRoot, ⟨-, hm⟩, timestamp,
    ⟨-, ht, -⟩, difficultyTarget, ⟨-, hd⟩, nonce, ⟨-, hn, -⟩, height, ⟨-, hh, -⟩,
    ⟨signer, signature⟩, hseal, h⟩ := h
  cases h
  obtain ⟨hb, hs, hg⟩ := parseSeal_wire hseal
  exact ⟨hv, hp, hm, ht, hd, hn, hh, hb, hs, hg⟩

/-- An optional field of an object. -/
def optional (t : Option Text) : Value := (t.map Value.str).getD .undefined

theorem parseSeal_optional {signer signature : Option Text} (hb : signer.isSome = signature.isSome)
    (hs : ∀ t ∈ signer, hexPairs t) (hg : ∀ t ∈ signature, hexPairs t) :
    parseSeal (optional signer) (optional signature) what = .ok (signer, signature) := by
  cases signer with
  | none =>
    cases signature with
    | none => rfl
    | some g => simp at hb
  | some s =>
    cases signature with
    | none => simp at hb
    | some g =>
      simp only [optional, Option.map_some, Option.getD_some, parseSeal]
      rw [shapeHex_eq_ok.2 ⟨rfl, hs s rfl, by simp⟩, shapeHex_eq_ok.2 ⟨rfl, hg g rfl, by simp⟩]
      rfl

theorem get_signer_headerValue (header : BlockHeader) :
    (headerValue header).get (lit "signer") = optional header.signer := by
  obtain ⟨_, _, _, _, _, _, _, signer, signature⟩ := header
  cases signer <;> cases signature <;> rfl

theorem get_signature_headerValue (header : BlockHeader) :
    (headerValue header).get (lit "signature") = optional header.signature := by
  obtain ⟨_, _, _, _, _, _, _, signer, signature⟩ := header
  cases signer <;> cases signature <;> rfl

/-- Every header of the wire shape is read back from its own object. -/
theorem parseWireHeader_headerValue {header : BlockHeader} (h : header.Wire) (what : Text) :
    parseWireHeader (headerValue header) what = .ok header := by
  have hint : ∀ {n : ℕ} (w : Text), n < 2 ^ 53 → shapeInteger (.num (.ofNat n)) w 0 = .ok n :=
    fun _ hn => shapeInteger_eq_ok.2 ⟨rfl, hn, Nat.zero_le _⟩
  have hhex : ∀ {t : Text} (w : Text), hexOf 64 t → shapeHex (.str t) w (some 64) = .ok t :=
    fun _ ht => shapeHex_some_eq_ok.2 ⟨rfl, ht⟩
  have hseal : parseSeal ((headerValue header).get (lit "signer"))
      ((headerValue header).get (lit "signature")) what = .ok (header.signer, header.signature) := by
    rw [get_signer_headerValue, get_signature_headerValue]
    exact parseSeal_optional h.both h.signer h.signature
  rw [parseWireHeader, seq_eq_ok]
  simp only [bind_eq_ok]
  exact ⟨rfl, _, hint _ h.version, _, hhex _ h.previousHash, _, hhex _ h.merkleRoot, _,
    hint _ h.timestamp, _, hhex _ h.difficultyTarget, _, hint _ h.nonce, _, hint _ h.height, _, hseal,
    rfl⟩

/-! ## The identity of a header -/

/-- The text that is hashed for the seal of a header. -/
def sealText (header : BlockHeader) : Text := serializeHeader { header with signature := none }

/-- The hash of a header that was read identifies it, its seal included; what is signed
    identifies the rest of a sealed header, and is not the hash of any header. -/
theorem header_identity {value value' : Value} {what what' : Text} {x y : BlockHeader}
    (hx : parseWireHeader value what = .ok x) (hy : parseWireHeader value' what' = .ok y)
    (hcollision : NoCollision {serializeHeader x, serializeHeader y, sealText x, sealText y}) :
    (computeBlockHash x = computeBlockHash y → x = y) ∧
    (x.signer.isSome → y.signer.isSome → computeSealHash x = computeSealHash y →
      { x with signature := none } = { y with signature := none }) ∧
    (x.signer.isSome → computeSealHash x ≠ computeBlockHash y) := by
  have wx := parseWireHeader_wire hx
  have wy := parseWireHeader_wire hy
  refine ⟨computeBlockHash_inj hcollision wx wy (by simp) (by simp), fun _ _ h => ?_, fun hsome h => ?_⟩
  · have htext := hcollision.eq (by simp [sealText]) (by simp [sealText])
      wx.hexFields_unsigned.wellFormed wy.hexFields_unsigned.wellFormed h
    have hfields := wx.hexFields_unsigned.fields_eq wy.hexFields_unsigned htext
    simp only [BlockHeader.fields, List.cons.injEq, Option.toList_none, List.append_nil] at hfields
    obtain ⟨hv, hp, hm, ht, hd, hn, hh, hlist⟩ := hfields
    have hsigner : x.signer = y.signer := by
      cases hs : x.signer <;> cases hs' : y.signer <;> simp_all
    simp only [BlockHeader.mk.injEq, and_true]
    exact ⟨decimal_injective hv, hp, hm, decimal_injective ht, hd, decimal_injective hn,
      decimal_injective hh, hsigner⟩
  · -- what is signed has eight fields, what is hashed seven or nine
    have htext := hcollision.eq (by simp [sealText]) (by simp [sealText])
      wx.hexFields_unsigned.wellFormed wy.wellFormed h
    have hlength := congrArg List.length (wx.hexFields_unsigned.fields_eq wy.hexFields htext)
    obtain ⟨signer, hsigner⟩ := Option.isSome_iff_exists.1 hsome
    have hboth := wy.both
    simp only [BlockHeader.fields, hsigner] at hlength
    cases hs : y.signer <;> cases hg : y.signature <;> simp_all

/-- A header with a seal. -/
def sealedHeader : BlockHeader :=
  { version := 1, previousHash := ZERO_HASH, merkleRoot := ZERO_HASH, timestamp := 1,
    difficultyTarget := ZERO_HASH, nonce := 0, height := 1, signer := some (lit "aa"),
    signature := some (lit "bb") }

theorem sealedHeader_wire : sealedHeader.Wire :=
  ⟨by decide, by decide, by decide, by decide, by decide, by decide, by decide, rfl,
    by rintro t ⟨⟩; decide, by rintro t ⟨⟩; decide⟩

/-- What is signed for a sealed header is not its hash. -/
theorem header_identity_sealed :
    sealedHeader.signer.isSome ∧ computeSealHash sealedHeader ≠ computeBlockHash sealedHeader := by
  have hdistinct : sha256 (serializeHeader sealedHeader) ≠ sha256 (sealText sealedHeader) := by
    decide +kernel
  have hpair : NoCollision {serializeHeader sealedHeader, sealText sealedHeader} :=
    .of_injOn (Set.injOn_pair.2 fun h => absurd h hdistinct)
  have hparse := parseWireHeader_headerValue sealedHeader_wire (lit "header")
  exact ⟨rfl, (header_identity hparse hparse (hpair.mono (by simp))).2.2 rfl⟩

/-- A parsed chain header has the wire shape, and a hash that looks like one. -/
theorem parseWireChainHeader_wire {c : ChainHeader} (h : parseWireChainHeader value what = .ok c) :
    c.header.Wire ∧ hexOf 64 c.hash := by
  have hparse : ∀ {v : Value}, (do
      let header ← parseWireHeader (v.get (lit "header")) (what ++ lit ".header")
      let hash ← shapeHex (v.get (lit "hash")) (what ++ lit ".hash") (some 64)
      pure { hash, header : ChainHeader }) = .ok c → c.header.Wire ∧ hexOf 64 c.hash := by
    intro v hv
    simp only [bind_eq_ok, shapeHex_some_eq_ok] at hv
    obtain ⟨header, hheader, hash, ⟨-, hhash⟩, hv⟩ := hv
    cases hv
    exact ⟨parseWireHeader_wire hheader, hhash⟩
  cases value with
  | obj fields => exact hparse h
  | arr vs => exact hparse h
  | _ => simp [parseWireChainHeader, shapeFail] at h

/-- A chain header as an object. -/
def chainHeaderValue (c : ChainHeader) : Value :=
  .obj [(lit "hash", .str c.hash), (lit "header", headerValue c.header)]

/-! ## Everything is written -/

theorem isSome_headerFields (header : BlockHeader) :
    ∀ f ∈ headerFields header, f.2.stringify.isSome := by
  simp +contextual [headerFields, or_imp, forall_and, Value.stringify]

theorem isSome_transactionFields (tx : Transaction) {outputs fee : Value}
    (houtputs : outputs.stringify.isSome) (hfee : fee.stringify.isSome) :
    ∀ f ∈ transactionFields tx outputs fee, f.2.stringify.isSome := by
  have hinputs : (Value.arr (tx.inputs.map inputValue)).stringify.isSome :=
    Value.isSome_stringify_arr (List.forall_mem_map.2 fun _ _ => rfl)
  have hstr : ∀ t, (Value.str t).stringify.isSome := fun _ => rfl
  have hnum : ∀ x, (Value.num x).stringify.isSome := fun _ => rfl
  simp +contextual [transactionFields, dataFields, or_imp, houtputs, hfee, hinputs, hstr, hnum]

theorem isSome_wireOutputs (outputs : List TxOutput) :
    (Value.arr (outputs.map toWireOutput)).stringify.isSome :=
  Value.isSome_stringify_arr (List.forall_mem_map.2 fun _ _ => rfl)

theorem isSome_stringify_transaction (tx : Transaction) : (toWireTransaction tx).stringify.isSome :=
  Value.isSome_stringify_obj (isSome_transactionFields tx (isSome_wireOutputs _) rfl)

end Plainchain
