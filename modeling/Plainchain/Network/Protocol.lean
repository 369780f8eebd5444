import Plainchain.Lib.Tagged
import Plainchain.Network.P2pServer
import Plainchain.Network.WireShapes

/-!
# The wire codec

`src/network/protocol.ts` and `checkPayload` of `src/network/wireShapes.ts`: messages
as documents. Big integers travel as objects with a marker (`Lib/Tagged`).

The payloads of three types are rebuilt from what was checked (`MessageType.rebuilds`).
Those of the others are handed on as they were parsed, with fields that nobody looked
at. A number that JSON has a notation for, but the language does not, such as
`1e999`, is infinite after it was parsed, and it is not read back from what is then
written.
-/

namespace Plainchain

open Js Value

inductive MessageType
  | HANDSHAKE
  | GET_BLOCKS
  | GET_HEADERS
  | HEADERS
  | INV_BLOCKS
  | NEW_BLOCK
  | NEW_TX
  | GET_PEERS
  | PEERS
  deriving DecidableEq

namespace MessageType

def text : MessageType → Text
  | HANDSHAKE => lit "HANDSHAKE"
  | GET_BLOCKS => lit "GET_BLOCKS"
  | GET_HEADERS => lit "GET_HEADERS"
  | HEADERS => lit "HEADERS"
  | INV_BLOCKS => lit "INV_BLOCKS"
  | NEW_BLOCK => lit "NEW_BLOCK"
  | NEW_TX => lit "NEW_TX"
  | GET_PEERS => lit "GET_PEERS"
  | PEERS => lit "PEERS"

/-- `MESSAGE_TYPES`. -/
def all : List MessageType :=
  [HANDSHAKE, GET_BLOCKS, GET_HEADERS, HEADERS, INV_BLOCKS, NEW_BLOCK, NEW_TX, GET_PEERS, PEERS]

def ofText? (t : Text) : Option MessageType := all.find? fun type => type.text = t

theorem ofText?_text (type : MessageType) : ofText? type.text = some type := by
  cases type <;> decide +kernel

theorem text_of_ofText? {t : Text} {type : MessageType} (h : ofText? t = some type) :
    type.text = t := by
  simpa using List.find?_some h

theorem text_inj {type type' : MessageType} : type.text = type'.text ↔ type = type' := by
  refine ⟨fun h => ?_, fun h => h ▸ rfl⟩
  have hsome := ofText?_text type'
  rw [← h, ofText?_text] at hsome
  exact Option.some.inj hsome

/-- The types whose payloads are built anew. -/
def rebuilds : MessageType → Bool
  | HEADERS | NEW_BLOCK | NEW_TX => true
  | _ => false

end MessageType

/-- A message, with its payload as the object that it is. -/
structure Envelope where
  type : MessageType
  payload : Value

namespace Envelope

def value (m : Envelope) : Value :=
  .obj [(lit "type", .str m.type.text), (lit "payload", m.payload)]

end Envelope

/-! ## Payloads -/

/-- An array of texts. -/
def stringList (value : Value) (what : Text) : Except Text Unit :=
  let expected := fail (what ++ lit ": expected an array of strings")
  match value with
  | .arr vs => if vs.all fun v => (v matches .str _) then .ok () else expected
  | _ => expected

/-- A text, where the field is there. -/
def optionalText (payload : Value) (key : Text) : Except Text Unit :=
  match payload.get key with
  | .undefined => .ok ()
  | .str _ => .ok ()
  | _ => fail (lit "HANDSHAKE." ++ key ++ lit ": expected a string")

def headersValue (headers : List BlockHeader) : Value :=
  .obj [(lit "headers", .arr (headers.map headerValue))]

def newBlockValue (block : Block) : Value := .obj [(lit "block", p2pBlockValue block)]

def newTxValue (tx : Transaction) : Value := .obj [(lit "transaction", p2pTransactionValue tx)]

def checkPayload (type : MessageType) (payload : Value) : Except Text Value :=
  match type with
  | .HANDSHAKE => do
    let _ ← wireText (payload.get (lit "nodeId")) (lit "malformed HANDSHAKE.nodeId: expected a string")
    optionalText payload (lit "listenAddress")
    optionalText payload (lit "networkId")
    optionalText payload (lit "genesisHash")
    optionalText payload (lit "rulesHash")
    pure payload
  | .GET_BLOCKS => do
    let _ ← integer (payload.get (lit "fromHeight")) (lit "GET_BLOCKS.fromHeight") 0
    match payload.get (lit "locator") with
    | .undefined => pure payload
    | locator => do
      stringList locator (lit "GET_BLOCKS.locator")
      pure payload
  | .GET_HEADERS => do
    stringList (payload.get (lit "locator")) (lit "GET_HEADERS.locator")
    pure payload
  | .HEADERS => do
    let items ← array (payload.get (lit "headers")) (lit "HEADERS.headers")
    let headers ← mapIdxFrom (fun i h => parseWireHeader h (elementPath (lit "HEADERS.headers") i)) 0 items
    pure (headersValue headers)
  | .INV_BLOCKS => do
    stringList (payload.get (lit "hashes")) (lit "INV_BLOCKS.hashes")
    pure payload
  | .NEW_BLOCK => do
    let block ← parseWireBlock (payload.get (lit "block")) (lit "NEW_BLOCK.block")
    pure (newBlockValue block)
  | .NEW_TX => do
    let tx ← parseP2PTransaction (payload.get (lit "transaction")) (lit "NEW_TX.transaction")
    pure (newTxValue tx)
  | .GET_PEERS => pure payload
  | .PEERS => do
    stringList (payload.get (lit "addresses")) (lit "PEERS.addresses")
    pure payload

/-! ## Messages -/

def BIGINT_MARKER : Text := lit "__bigint__"

/-- The document that `encodeMessage` writes. -/
def encodeMessage (m : Envelope) : Option Value :=
  (mapBigints (tagged BIGINT_MARKER) m.value).written

/-- What `typeof` takes for an object, without `null`. -/
def isObject : Value → Bool
  | .obj _ => true
  | .arr _ => true
  | _ => false

section Decode

variable (integral : Number → Option ℤ)

/-- `decodeMessage` of a text that denotes the document. -/
def decodeMessage (document : Value) : Except Text Envelope := do
  let parsed ← revive (untag BIGINT_MARKER integral) document
  let malformed := .error (lit "malformed message envelope")
  match parsed.get (lit "type") with
  | .str t =>
    match MessageType.ofText? t with
    | some type =>
      if isObject (parsed.get (lit "payload")) then do
        let payload ← checkPayload type (parsed.get (lit "payload"))
        pure { type, payload }
      else malformed
    | none => malformed
  | _ => malformed

/-- A message that is encoded and decoded again. -/
def resent (m : Envelope) : Except Text Envelope :=
  match encodeMessage m with
  | some document => decodeMessage integral document
  | none => .error (lit "nothing is written")

end Decode

/-! ## What is rebuilt -/

section Rebuilt

theorem sendable_headerValue (header : BlockHeader) : Sendable BIGINT_MARKER (headerValue header) := by
  simp +contextual +decide [headerValue, headerFields, or_imp, forall_and, Number.finite_ofNat]

theorem sendable_p2pTransactionValue {tx : Transaction} (h : tx.Wire) :
    Sendable BIGINT_MARKER (p2pTransactionValue tx) := by
  have hinputs : ∀ input ∈ tx.inputs, input.outputIndex.Finite := fun input hinput =>
    (h.inputs input hinput).outputIndex.finite
  simp +contextual +decide [p2pTransactionValue, dataFields, inputValue, p2pOutputValue, or_imp,
    forall_and, hinputs, h.timestamp.finite]

theorem sendable_p2pBlockValue {block : Block} (h : block.Wire) :
    Sendable BIGINT_MARKER (p2pBlockValue block) := by
  simp +contextual +decide [p2pBlockValue, sendable_headerValue, sendable_p2pTransactionValue,
    h.transactions]

/-- A payload that stands for itself: it is checked to itself, and it is read back. -/
structure Canonical (type : MessageType) (payload : Value) : Prop where
  checks : checkPayload type payload = .ok payload
  object : isObject payload
  sendable : Sendable BIGINT_MARKER payload

theorem canonical_headersValue {headers : List BlockHeader} (h : ∀ header ∈ headers, header.Wire) :
    Canonical .HEADERS (headersValue headers) where
  checks := by
    have hmap : mapIdxFrom (fun i h => parseWireHeader h (elementPath (lit "HEADERS.headers") i)) 0
        (headers.map headerValue) = .ok headers :=
      mapIdxFrom_map (fun header hheader i => parseWireHeader_headerValue (h header hheader) _) 0
    change (do
      let headers ← mapIdxFrom (fun i h => parseWireHeader h (elementPath (lit "HEADERS.headers") i)) 0
        (headers.map headerValue)
      pure (headersValue headers)) = _
    rw [hmap]
    rfl
  object := rfl
  sendable := by simp +decide [headersValue, sendable_headerValue]

theorem canonical_newBlockValue {block : Block} (h : block.Wire) :
    Canonical .NEW_BLOCK (newBlockValue block) where
  checks := by
    change (do
      let block ← parseWireBlock (p2pBlockValue block) (lit "NEW_BLOCK.block")
      pure (newBlockValue block)) = _
    rw [parseWireBlock_value h]
    rfl
  object := rfl
  sendable := by simp +decide [newBlockValue, sendable_p2pBlockValue h]

theorem canonical_newTxValue {tx : Transaction} (h : tx.Wire) : Canonical .NEW_TX (newTxValue tx) where
  checks := by
    change (do
      let tx ← parseP2PTransaction (p2pTransactionValue tx) (lit "NEW_TX.transaction")
      pure (newTxValue tx)) = _
    rw [parseP2PTransaction_value h]
    rfl
  object := rfl
  sendable := by simp +decide [newTxValue, sendable_p2pTransactionValue h]

end Rebuilt

/-! ## What checks return -/

section Checks

variable {type : MessageType} {payload result : Value}

/-- A payload that is not rebuilt is the one that was checked. -/
theorem checkPayload_passes (htype : type.rebuilds = false)
    (h : checkPayload type payload = .ok result) : result = payload := by
  cases type with
  | HANDSHAKE =>
    simp only [checkPayload, bind_eq_ok] at h
    obtain ⟨_, -, _, -, _, -, _, -, _, -, h⟩ := h
    cases h
    rfl
  | GET_BLOCKS =>
    simp only [checkPayload, bind_eq_ok] at h
    obtain ⟨_, -, h⟩ := h
    split at h
    · cases h
      rfl
    · rw [seq_eq_ok] at h
      cases h.2
      rfl
  | GET_PEERS =>
    cases h
    rfl
  | GET_HEADERS | INV_BLOCKS | PEERS =>
    rw [checkPayload, seq_eq_ok] at h
    cases h.2
    rfl
  | HEADERS | NEW_BLOCK | NEW_TX => cases htype

/-- A payload that is rebuilt is canonical, and a block in it has its own hash. -/
theorem checkPayload_rebuilds (htype : type.rebuilds = true)
    (h : checkPayload type payload = .ok result) : Canonical type result := by
  cases type with
  | HEADERS =>
    simp only [checkPayload, bind_eq_ok] at h
    obtain ⟨items, -, headers, hheaders, h⟩ := h
    cases h
    refine canonical_headersValue fun header hheader => ?_
    obtain ⟨i, v, -, hv⟩ := exists_of_mem_mapIdxFrom hheaders hheader
    exact parseWireHeader_wire hv
  | NEW_BLOCK =>
    simp only [checkPayload, bind_eq_ok] at h
    obtain ⟨block, hblock, h⟩ := h
    cases h
    exact canonical_newBlockValue (parseWireBlock_wire hblock)
  | NEW_TX =>
    simp only [checkPayload, bind_eq_ok] at h
    obtain ⟨tx, htx, h⟩ := h
    cases h
    exact canonical_newTxValue (parseP2PTransaction_wire htx)
  | HANDSHAKE | GET_BLOCKS | GET_HEADERS | INV_BLOCKS | GET_PEERS | PEERS => cases htype

end Checks

/-! ## Round trips -/

section Resend

variable {integral : Number → Option ℤ} {m : Envelope}

theorem decodeMessage_eq_ok {document : Value} :
    decodeMessage integral document = .ok m ↔
      ∃ parsed, revive (untag BIGINT_MARKER integral) document = .ok parsed ∧
        parsed.get (lit "type") = .str m.type.text ∧ isObject (parsed.get (lit "payload")) ∧
        checkPayload m.type (parsed.get (lit "payload")) = .ok m.payload := by
  rw [decodeMessage, bind_eq_ok]
  refine exists_congr fun parsed => and_congr_right fun _ => ?_
  constructor
  · intro h
    split at h
    · next t htype =>
      split at h
      · next type hknown =>
        split at h
        · next hobject =>
          simp only [bind_eq_ok] at h
          obtain ⟨payload, hpayload, h⟩ := h
          cases h
          exact ⟨by rw [htype, MessageType.text_of_ofText? hknown], hobject, hpayload⟩
        · cases h
      · cases h
    · cases h
  · rintro ⟨htype, hobject, hpayload⟩
    simp only [htype, MessageType.ofText?_text, hobject, if_true, hpayload]
    rfl

theorem isObject_nulled {v : Value} (h : isObject v) : isObject v.nulled := by
  cases v with
  | obj fields =>
    rw [nulled_obj]
    rfl
  | arr vs =>
    rw [nulled_arr]
    rfl
  | _ => cases h

/-- What comes of a message: its payload, with `null` for numbers that are not
    finite, is checked again. -/
theorem resent_eq_ok (hobject : isObject m.payload) (hu : Untagged BIGINT_MARKER m.payload)
    {m' : Envelope} :
    resent integral m = .ok m' ↔
      m'.type = m.type ∧ checkPayload m.type m.payload.nulled = .ok m'.payload := by
  have hvalue : Untagged BIGINT_MARKER m.value := by
    simp +decide [Envelope.value, untagged_obj_iff, hu]
  have hnulled : m.value.nulled =
      .obj [(lit "type", .str m.type.text), (lit "payload", m.payload.nulled)] := by
    simp [Envelope.value]
  obtain ⟨d, hd, hrevive⟩ : ∃ d, (mapBigints (tagged BIGINT_MARKER) m.value).written = some d ∧
      revive (untag BIGINT_MARKER integral) d = .ok m.value.nulled := resend hvalue
  rw [hnulled] at hrevive
  rw [resent, encodeMessage, hd]
  dsimp only
  rw [decodeMessage_eq_ok, hrevive]
  constructor
  · rintro ⟨_, hparsed, ht, -, hp⟩
    cases hparsed
    have heq := MessageType.text_inj.1 (Value.str.inj ht)
    exact ⟨heq.symm, heq ▸ hp⟩
  · rintro ⟨heq, hp⟩
    exact ⟨_, rfl, by rw [heq]; rfl, isObject_nulled hobject, heq ▸ hp⟩

/-- A message that passes its own check is read back exactly where its numbers are
    finite. -/
theorem resent_eq_self (hchecks : checkPayload m.type m.payload = .ok m.payload)
    (hobject : isObject m.payload) (hu : Untagged BIGINT_MARKER m.payload) :
    resent integral m = .ok m ↔ m.payload.Finite := by
  rw [resent_eq_ok hobject hu]
  constructor
  · rintro ⟨-, hagain⟩
    cases htype : m.type.rebuilds with
    | true => exact (checkPayload_rebuilds htype hchecks).sendable.2
    | false => exact nulled_eq_iff.1 (checkPayload_passes htype hagain).symm
  · intro hfinite
    exact ⟨rfl, by rw [nulled_eq_iff.2 hfinite, hchecks]⟩

/-- A decoded message passes its own check. Its numbers are finite where it was
    rebuilt, or where those of the document are. -/
theorem decodeMessage_spec {document : Value} (hd : document.IsDocument)
    (h : decodeMessage integral document = .ok m) :
    checkPayload m.type m.payload = .ok m.payload ∧ isObject m.payload ∧
      Untagged BIGINT_MARKER m.payload ∧
      (m.payload.Finite ↔ m.type.rebuilds ∨
        FiniteOutside BIGINT_MARKER (document.get (lit "payload"))) := by
  obtain ⟨parsed, hparsed, -, hobject, hpayload⟩ := decodeMessage_eq_ok.1 h
  cases htype : m.type.rebuilds with
  | true =>
    have hc := checkPayload_rebuilds htype hpayload
    exact ⟨hc.checks, hc.object, hc.sendable.1, iff_of_true hc.sendable.2 (.inl rfl)⟩
  | false =>
    have hsame := checkPayload_passes htype hpayload
    rw [hsame] at hpayload ⊢
    have hne : parsed.get (lit "payload") ≠ .undefined := by
      intro heq
      rw [heq] at hobject
      cases hobject
    obtain ⟨hne', hrevive⟩ := revive_get hparsed hne
    obtain ⟨hu, hfinite⟩ := untagged_of_revive (Everywhere.get hd hne') hrevive
    refine ⟨hpayload, hobject, hu, ?_⟩
    rw [hfinite]
    simp

end Resend

/-! ## Messages of the program -/

def optionalField (key : Text) (t : Option Text) : List (Text × Value) :=
  t.toList.map fun t => (key, .str t)

def textsValue (ts : List Text) : Value := .arr (ts.map .str)

def HandshakePayload.value (p : HandshakePayload) : Value :=
  .obj ([(lit "version", p.version), (lit "nodeId", .str p.nodeId), (lit "height", p.height)]
    ++ optionalField (lit "listenAddress") p.listenAddress
    ++ optionalField (lit "networkId") p.networkId
    ++ optionalField (lit "genesisHash") p.genesisHash
    ++ optionalField (lit "rulesHash") p.rulesHash)

/-- A message as the object that it is. -/
def WireMessage.envelope : WireMessage → Envelope
  | .HANDSHAKE p => ⟨.HANDSHAKE, p.value⟩
  | .GET_BLOCKS fromHeight locator => ⟨.GET_BLOCKS,
      .obj ((lit "fromHeight", .num (.ofNat fromHeight)) ::
        locator.toList.map fun l => (lit "locator", textsValue l))⟩
  | .GET_HEADERS locator => ⟨.GET_HEADERS, .obj [(lit "locator", textsValue locator)]⟩
  | .HEADERS headers => ⟨.HEADERS, headersValue headers⟩
  | .INV_BLOCKS hashes => ⟨.INV_BLOCKS, .obj [(lit "hashes", textsValue hashes)]⟩
  | .NEW_BLOCK block => ⟨.NEW_BLOCK, newBlockValue block⟩
  | .NEW_TX tx => ⟨.NEW_TX, newTxValue tx⟩
  | .GET_PEERS => ⟨.GET_PEERS, .obj []⟩
  | .PEERS addresses => ⟨.PEERS, .obj [(lit "addresses", textsValue addresses)]⟩

/-- The shapes of the payloads. The version and the height of a handshake are numbers
    by their type; nothing checks them. -/
def WireMessage.Shaped : WireMessage → Prop
  | .HANDSHAKE p => ∃ version height, p.version = .num version ∧ p.height = .num height
  | .GET_BLOCKS fromHeight _ => fromHeight < 2 ^ 53
  | .HEADERS headers => ∀ header ∈ headers, header.Wire
  | .NEW_BLOCK block => block.Wire
  | .NEW_TX tx => tx.Wire
  | _ => True

/-- The numbers that are not checked are finite: those of a handshake. -/
def WireMessage.FiniteNumbers : WireMessage → Prop
  | .HANDSHAKE p => p.version.Finite ∧ p.height.Finite
  | _ => True

section Messages

theorem sendable_textsValue (ts : List Text) : Sendable BIGINT_MARKER (textsValue ts) := by
  rw [textsValue, sendable_arr]
  intro v hv
  obtain ⟨t, -, rfl⟩ := List.mem_map.1 hv
  exact sendable_str t

theorem stringList_textsValue (ts : List Text) (what : Text) :
    stringList (textsValue ts) what = .ok () := by
  simp [stringList, textsValue]

/-- A payload of one list of texts. -/
theorem canonical_texts {type : MessageType} {key what : Text} (hkey : key ≠ BIGINT_MARKER)
    (hcheck : ∀ payload, checkPayload type payload = (do
      stringList (payload.get key) what
      pure payload)) (ts : List Text) : Canonical type (.obj [(key, textsValue ts)]) where
  checks := by
    have hget : Value.get (.obj [(key, textsValue ts)]) key = textsValue ts := by simp [Value.get]
    rw [hcheck, hget, stringList_textsValue]
    rfl
  object := rfl
  sendable := by simp [hkey, sendable_textsValue]

theorem optionalText_handshake (p : HandshakePayload) :
    optionalText p.value (lit "listenAddress") = .ok () ∧
    optionalText p.value (lit "networkId") = .ok () ∧
    optionalText p.value (lit "genesisHash") = .ok () ∧
    optionalText p.value (lit "rulesHash") = .ok () := by
  obtain ⟨version, nodeId, height, a, b, c, d⟩ := p
  cases a <;> cases b <;> cases c <;> cases d <;> exact ⟨rfl, rfl, rfl, rfl⟩

/-- Everything but a handshake has a canonical payload. -/
theorem WireMessage.Shaped.canonical {m : WireMessage} (h : m.Shaped)
    (hm : ∀ p, m ≠ .HANDSHAKE p) : Canonical m.envelope.type m.envelope.payload := by
  cases m with
  | HANDSHAKE p => exact absurd rfl (hm p)
  | GET_BLOCKS fromHeight locator =>
    have hinteger : integer (.num (.ofNat fromHeight)) (lit "GET_BLOCKS.fromHeight") 0 =
        .ok (.ofNat fromHeight) := integer_eq_ok.2 ⟨rfl, fromHeight, h, rfl⟩
    refine ⟨?_, rfl, by
      cases locator <;> simp +decide [envelope, sendable_textsValue, Number.finite_ofNat]⟩
    cases locator with
    | none =>
      change (do
        let _ ← integer (.num (.ofNat fromHeight)) (lit "GET_BLOCKS.fromHeight") 0
        pure _) = _
      rw [hinteger]
      rfl
    | some l =>
      change (do
        let _ ← integer (.num (.ofNat fromHeight)) (lit "GET_BLOCKS.fromHeight") 0
        stringList (textsValue l) (lit "GET_BLOCKS.locator")
        pure _) = _
      rw [hinteger, stringList_textsValue]
      rfl
  | GET_HEADERS locator => exact canonical_texts (by decide) (fun payload => rfl) locator
  | HEADERS headers => exact canonical_headersValue h
  | INV_BLOCKS hashes => exact canonical_texts (by decide) (fun payload => rfl) hashes
  | NEW_BLOCK block => exact canonical_newBlockValue h
  | NEW_TX tx => exact canonical_newTxValue h
  | GET_PEERS => exact ⟨rfl, rfl, by simp [envelope]⟩
  | PEERS addresses => exact canonical_texts (by decide) (fun payload => rfl) addresses

/-- A message of the shape passes its own check, and its numbers are finite where
    those of a handshake are. -/
theorem WireMessage.Shaped.passes {m : WireMessage} (h : m.Shaped) :
    checkPayload m.envelope.type m.envelope.payload = .ok m.envelope.payload ∧
      isObject m.envelope.payload ∧ Untagged BIGINT_MARKER m.envelope.payload ∧
      (m.envelope.payload.Finite ↔ m.FiniteNumbers) := by
  by_cases hm : ∃ p, m = .HANDSHAKE p
  · obtain ⟨p, rfl⟩ := hm
    obtain ⟨version, height, hversion, hheight⟩ := h
    obtain ⟨ha, hb, hc, hd⟩ := optionalText_handshake p
    change checkPayload .HANDSHAKE p.value = .ok p.value ∧ isObject p.value ∧
      Untagged BIGINT_MARKER p.value ∧ (p.value.Finite ↔ p.version.Finite ∧ p.height.Finite)
    refine ⟨?_, rfl, ?_, ?_⟩
    · simp only [checkPayload, ha, hb, hc, hd]
      rfl
    · simp +contextual +decide [HandshakePayload.value, optionalField, untagged_obj_iff, or_imp,
        forall_and, hversion, hheight]
    · simp +contextual [HandshakePayload.value, optionalField, or_imp, forall_and]
  · have hc := h.canonical fun p heq => hm ⟨p, heq⟩
    refine ⟨hc.checks, hc.object, hc.sendable.1, iff_of_true hc.sendable.2 ?_⟩
    cases m with
    | HANDSHAKE p => exact absurd ⟨p, rfl⟩ hm
    | _ => trivial

/-- A document whose type is one of those whose payloads are rebuilt. -/
def RebuildsPayload (document : Value) : Prop :=
  ∃ type : MessageType, type.rebuilds ∧ document.get (lit "type") = .str type.text

/-- The type of a decoded message is the one of the document. -/
theorem type_of_decodeMessage {integral : Number → Option ℤ} {document : Value} {m : Envelope}
    (h : decodeMessage integral document = .ok m) :
    document.get (lit "type") = .str m.type.text := by
  obtain ⟨parsed, hparsed, htype, -, -⟩ := decodeMessage_eq_ok.1 h
  have hne : parsed.get (lit "type") ≠ .undefined := by
    rw [htype]
    simp
  obtain ⟨-, hrevive⟩ := revive_get hparsed hne
  rw [htype] at hrevive
  cases hdoc : document.get (lit "type") with
  | arr vs =>
    rw [hdoc, revive, bind_eq_ok] at hrevive
    obtain ⟨_, -, heq⟩ := hrevive
    cases heq
  | obj fields =>
    rw [hdoc, revive, bind_eq_ok] at hrevive
    obtain ⟨rest, -, heq⟩ := hrevive
    rw [untag] at heq
    split at heq
    · simp only [bind_eq_ok] at heq
      obtain ⟨_, -, heq⟩ := heq
      cases heq
    · cases heq
  | _ =>
    rw [hdoc] at hrevive
    cases hrevive <;> rfl

theorem rebuildsPayload_iff {integral : Number → Option ℤ} {document : Value} {m : Envelope}
    (h : decodeMessage integral document = .ok m) : RebuildsPayload document ↔ m.type.rebuilds := by
  have htype := type_of_decodeMessage h
  constructor
  · rintro ⟨type, hrebuilds, ht⟩
    rw [htype] at ht
    rwa [MessageType.text_inj.1 (Value.str.inj ht)]
  · exact fun hrebuilds => ⟨m.type, hrebuilds, htype⟩

/-- The wire codec. A message of the shape is read back exactly where the numbers of a
    handshake are finite. A decoded message is read back exactly where its payload was
    rebuilt, or the numbers of the payload that was received are finite; and a block
    in it has the hash of its header. -/
theorem resent_iff (integral : Number → Option ℤ) :
    (∀ m : WireMessage, m.Shaped →
      (resent integral m.envelope = .ok m.envelope ↔ m.FiniteNumbers)) ∧
    ∀ document m, document.IsDocument → decodeMessage integral document = .ok m →
      (resent integral m = .ok m ↔ RebuildsPayload document ∨
        FiniteOutside BIGINT_MARKER (document.get (lit "payload"))) ∧
      (m.type = .NEW_BLOCK → ∃ block, m.payload = newBlockValue block ∧
        block.hash = computeBlockHash block.header) := by
  constructor
  · intro m h
    obtain ⟨hchecks, hobject, hu, hfinite⟩ := h.passes
    rw [resent_eq_self hchecks hobject hu, hfinite]
  · intro document m hd h
    obtain ⟨hchecks, hobject, hu, hfinite⟩ := decodeMessage_spec hd h
    rw [resent_eq_self hchecks hobject hu, hfinite, rebuildsPayload_iff h]
    refine ⟨Iff.rfl, fun htype => ?_⟩
    rw [htype] at hchecks
    simp only [checkPayload, bind_eq_ok] at hchecks
    obtain ⟨block, hblock, heq⟩ := hchecks
    exact ⟨block, (Except.ok.inj heq).symm, (parseWireBlock_wire hblock).hash.symm⟩

/-- A request for peers, with a number too large to be one. -/
def infiniteDocument : Value :=
  .obj [(lit "type", .str (lit "GET_PEERS")),
    (lit "payload", .obj [(lit "x", .num (.other (lit "Infinity") ⟨unit 'I', by decide, by decide⟩))])]

/-- It is decoded, but what is decoded is not read back. -/
theorem infiniteDocument_lost : ∃ m, decodeMessage (fun _ => none) infiniteDocument = .ok m ∧
    resent (fun _ => none) m ≠ .ok m := by
  have hdecode : decodeMessage (fun _ => none) infiniteDocument =
      .ok ⟨.GET_PEERS, infiniteDocument.get (lit "payload")⟩ := by rfl
  have hnot : ¬(infiniteDocument.get (lit "payload")).Finite := by
    change ¬(Value.obj [(lit "x", .num (.other (lit "Infinity") _))]).Finite
    rw [finite_obj]
    intro h
    exact absurd (finite_num.1 (h _ List.mem_cons_self)) (by decide)
  have hu : Untagged BIGINT_MARKER (infiniteDocument.get (lit "payload")) := by
    change Untagged _ (Value.obj [(lit "x", .num (.other (lit "Infinity") _))])
    simp +decide [untagged_obj_iff]
  exact ⟨_, hdecode, fun h => hnot ((resent_eq_self rfl rfl hu).1 h)⟩

/-- A request for blocks is read back, and so is an announcement of peers that was
    received. -/
theorem resent_sample :
    resent (fun _ => none) (WireMessage.GET_BLOCKS 5 (some [])).envelope =
      .ok (WireMessage.GET_BLOCKS 5 (some [])).envelope ∧
    resent (fun _ => none) (WireMessage.PEERS [lit "ws://a"]).envelope =
      .ok (WireMessage.PEERS [lit "ws://a"]).envelope := by
  constructor
  · have hshaped : (WireMessage.GET_BLOCKS 5 (some [])).Shaped := by
      change 5 < 2 ^ 53
      decide
    exact ((resent_iff _).1 _ hshaped).2 trivial
  · have hd : (WireMessage.PEERS [lit "ws://a"]).envelope.value.IsDocument := by
      simp [WireMessage.envelope, Envelope.value, textsValue, IsDocument]
    have hfinite : FiniteOutside BIGINT_MARKER
        ((WireMessage.PEERS [lit "ws://a"]).envelope.value.get (lit "payload")) := by
      change FiniteOutside _ (Value.obj [(lit "addresses", .arr [.str (lit "ws://a")])])
      simp
    exact ((resent_iff _).2 _ _ hd rfl).1.2 (.inr hfinite)

end Messages

end Plainchain
