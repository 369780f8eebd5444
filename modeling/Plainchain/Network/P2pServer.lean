import Plainchain.Ledger.Block
import Plainchain.Lib.Store

/-!
# Connections to peers

`src/network/p2pServer.ts`, `peer.ts` and `reputation.ts`: the transport layer of
a node. It lists its connections, exchanges handshakes over them, hands what peers
send to the node, and enforces bans.

A connection is a `Peer` object whose socket handlers stay attached as long as the
socket lives. So the server here keeps all of them (`sockets`), and a peer that it
has forgotten is one that is not `listed` any more. Whether `close` was called on
the socket is `closing`; frames that were received before may still be delivered.

Everything that happens to the server is an `Input`, and what it does is in
`emitted`: events for the node, and what goes to the sockets. A frame comes as
`decodeMessage` leaves it: a message, or what was thrown.
-/

namespace Plainchain

open Js Kv List

/-! ## Messages -/

/-- The payload of a handshake. The version and the height are not looked at. -/
structure HandshakePayload where
  version : Value
  nodeId : Text
  height : Value
  listenAddress : Option Text
  networkId : Option Text
  genesisHash : Option Text
  rulesHash : Option Text

/-- The messages of `src/network/protocol.ts`. -/
inductive WireMessage
  | HANDSHAKE (payload : HandshakePayload)
  | GET_BLOCKS (fromHeight : ℕ) (locator : Option (List Text))
  | GET_HEADERS (locator : List Text)
  | HEADERS (headers : List BlockHeader)
  | INV_BLOCKS (hashes : List Text)
  | NEW_BLOCK (block : Block)
  | NEW_TX (transaction : Transaction)
  | GET_PEERS
  | PEERS (addresses : List Text)

/-! ## Reputation -/

/-- Misbehaviour points by key, and when the bans expire. -/
structure PeerReputation where
  scores : OrdMap Text ℕ
  bans : OrdMap Text ℕ

namespace PeerReputation

variable (r : PeerReputation) (key : Text) (now : ℕ)

def empty : PeerReputation := ⟨.empty, .empty⟩

/-- Whether a key is banned. An expired ban is forgotten, with the score. -/
def isBanned : Bool × PeerReputation :=
  match r.bans.get key with
  | none => (false, r)
  | some expiresAt =>
    if expiresAt ≤ now then (false, ⟨r.scores.delete key, r.bans.delete key⟩) else (true, r)

def ban (banDurationMs : ℕ) : PeerReputation :=
  { r with bans := r.bans.set key (now + banDurationMs) }

/-- Adds points to a score; whether this crossed the threshold. -/
def penalize (banThreshold banDurationMs points : ℕ) : Bool × PeerReputation :=
  match r.isBanned key now with
  | (true, r) => (false, r)
  | (false, r) =>
    let score := (r.scores.get key).getD 0 + points
    let r := { r with scores := r.scores.set key score }
    if banThreshold ≤ score then (true, r.ban key now banDurationMs) else (false, r)

end PeerReputation

/-! ## The server -/

structure ChainIdentity where
  networkId : Text
  genesisHash : Text
  rulesHash : Option Text

structure P2PServerOptions where
  nodeId : Text
  identity : Option ChainIdentity
  maxInboundPeers : ℕ
  maxOutboundPeers : ℕ
  banThreshold : ℕ
  banDurationMs : ℕ
  /-- `0` is no limit. -/
  maxInboundPerIp : ℕ

inductive PeerDirection
  | inbound
  | outbound
  deriving DecidableEq

structure Peer where
  direction : PeerDirection
  remoteNodeId : Option Text
  remoteHeight : Option Value
  remoteListenAddress : Option Text
  remoteIp : Option Text
  /-- Whether the deadline of the handshake is pending. -/
  handshakeTimer : Bool
  /-- Whether the server lists the peer in `peers`. -/
  listed : Bool
  /-- Whether `close` was called on the socket. -/
  closing : Bool

/-- A peer whose handshake was accepted. -/
def Peer.handshaked (peer : Peer) (payload : HandshakePayload) : Peer :=
  { peer with
    handshakeTimer := false
    remoteNodeId := some payload.nodeId
    remoteHeight := some payload.height
    remoteListenAddress := payload.listenAddress }

/-- The events of the server. -/
inductive PeerEvent
  | connected (nodeId : Text) (height : Value)
  | disconnected (nodeId : Text) (handshaked : Bool)
  | rejected (nodeId reason : Text)
  | banned (nodeId reason : Text)
  | message (message : WireMessage) (fromNodeId : Text)
  | messageSent (message : WireMessage) (toNodeId : Option Text)

inductive Output
  | emit (event : PeerEvent)
  | socketSend (peerId : Text) (message : WireMessage)
  | socketClose (peerId : Text) (code : Option ℕ) (reason : Text)

structure P2PServer where
  /-- The peers by id, in the order in which they were registered. -/
  sockets : OrdMap Text Peer
  reputation : PeerReputation
  /-- What the last input made the server do. -/
  emitted : List Output

/-- What can happen to a server. The id of a new peer is a random one. -/
inductive Input
  | connection (peerId ip : Text)
  | connect (peerId url : Text)
  | opened (peerId : Text)
  | frame (peerId : Text) (frame : Except Text WireMessage)
  | socketError (peerId message : Text)
  | handshakeTimeout (peerId : Text)
  | closed (peerId : Text)
  | penalize (nodeId : Text) (points : ℕ) (reason : Text)
  | broadcast (message : WireMessage) (excludeNodeId : Option Text)
  | send (nodeId : Text) (message : WireMessage)

/-- The moment of an input: the clock, and what the server says of its node. -/
structure Moment where
  now : ℕ
  height : ℕ
  listenAddress : Option Text

def PROTOCOL_VERSION : ℕ := 1

def CLOSE_TRY_AGAIN_LATER : ℕ := 1013

def CLOSE_POLICY_VIOLATION : ℕ := 1008

namespace P2PServer

/-- The peers that the server lists. -/
def peers (s : P2PServer) : List Peer := s.sockets.values.filter (·.listed)

/-- The listed peer of a node, with its id. -/
def findPeer (s : P2PServer) (nodeId : Text) : Option (Text × Peer) :=
  s.sockets.entries.find? fun e => e.2.listed ∧ e.2.remoteNodeId = some nodeId

def countPeers (s : P2PServer) (direction : PeerDirection) : ℕ :=
  s.peers.countP fun p => p.direction = direction

def countInboundFrom (s : P2PServer) (ip : Text) : ℕ :=
  s.peers.countP fun p => p.direction = .inbound ∧ p.remoteIp = some ip

/-- Changes to a peer that is there. -/
def update (s : P2PServer) (peerId : Text) (f : Peer → Peer) : P2PServer :=
  match s.sockets.get peerId with
  | none => s
  | some peer => { s with sockets := s.sockets.set peerId (f peer) }

def output (s : P2PServer) (o : Output) : P2PServer := { s with emitted := s.emitted ++ [o] }

def emit (s : P2PServer) (event : PeerEvent) : P2PServer := s.output (.emit event)

def forget (s : P2PServer) (peerId : Text) : P2PServer :=
  s.update peerId fun peer => { peer with handshakeTimer := false, listed := false }

def close (s : P2PServer) (peerId : Text) (code : Option ℕ) (reason : Text) : P2PServer :=
  (s.update peerId fun peer => { peer with closing := true }).output
    (.socketClose peerId code reason)

/-- How a peer is called in events: its node, or its id while that is unknown. -/
def nameOf (s : P2PServer) (peerId : Text) : Text :=
  ((s.sockets.get peerId).bind (·.remoteNodeId)).getD peerId

def drop (s : P2PServer) (peerId reason : Text) : P2PServer :=
  let s := (s.forget peerId).close peerId (some CLOSE_POLICY_VIOLATION) reason
  s.emit (.rejected (s.nameOf peerId) reason)

/-- Refuses the handshake of a node. -/
def dropNode (s : P2PServer) (peerId remoteNodeId reason : Text) : P2PServer :=
  (s.update peerId fun peer => { peer with remoteNodeId := some remoteNodeId }).drop peerId reason

/-- Forgets a connection that is of no use, without an event. -/
def closeRedundant (s : P2PServer) (peerId : Text) : P2PServer :=
  (s.forget peerId).close peerId none []

def deliver (s : P2PServer) (peerId : Text) (message : WireMessage) : P2PServer :=
  (s.output (.socketSend peerId message)).emit
    (.messageSent message ((s.sockets.get peerId).bind (·.remoteNodeId)))

section Handlers

variable (opts : P2PServerOptions) (moment : Moment)

/-- What a node says of itself in a handshake. -/
def hello : HandshakePayload :=
  { version := .num (.ofNat PROTOCOL_VERSION), nodeId := opts.nodeId
    height := .num (.ofNat moment.height), listenAddress := moment.listenAddress
    networkId := opts.identity.map (·.networkId)
    genesisHash := opts.identity.map (·.genesisHash)
    rulesHash := opts.identity.bind (·.rulesHash) }

def announceHandshake (s : P2PServer) (peerId : Text) : P2PServer :=
  s.deliver peerId (.HANDSHAKE (hello opts moment))

def registerPeer (s : P2PServer) (peerId : Text) (direction : PeerDirection)
    (remoteIp : Option Text) : P2PServer :=
  let peer : Peer :=
    { direction, remoteNodeId := none, remoteHeight := none, remoteListenAddress := none, remoteIp,
      handshakeTimer := true, listed := true, closing := false }
  { s with sockets := s.sockets.set peerId peer }

/-- A socket that was accepted. -/
def onConnection (s : P2PServer) (peerId ip : Text) : P2PServer :=
  if opts.maxInboundPeers ≤ s.countPeers .inbound then
    (s.output (.socketClose peerId (some CLOSE_TRY_AGAIN_LATER) (lit "too many inbound peers"))).emit
      (.rejected ip (lit "too many inbound peers"))
  else if 0 < opts.maxInboundPerIp ∧ opts.maxInboundPerIp ≤ s.countInboundFrom ip then
    (s.output (.socketClose peerId (some CLOSE_TRY_AGAIN_LATER)
      (lit "too many connections from this address"))).emit
      (.rejected ip (lit "too many connections from this address (limit "
        ++ decimal opts.maxInboundPerIp ++ lit " per address)"))
  else announceHandshake opts moment (s.registerPeer peerId .inbound (some ip)) peerId

/-- Dials a peer, unless that is refused. -/
def connect (s : P2PServer) (peerId url : Text) : P2PServer :=
  match s.reputation.isBanned url moment.now with
  | (true, reputation) => { s with reputation }
  | (false, reputation) =>
    let s := { s with reputation }
    if opts.maxOutboundPeers ≤ s.countPeers .outbound then s
    else s.registerPeer peerId .outbound none

/-- A handshake that tells of another network. -/
def otherNetwork (payload : HandshakePayload) : Prop :=
  ∃ identity ∈ opts.identity, payload.networkId ≠ some identity.networkId ∨
    payload.genesisHash ≠ some identity.genesisHash

/-- A handshake that tells of other rules. -/
def otherRules (payload : HandshakePayload) : Prop :=
  ∃ rulesHash ∈ opts.identity.bind (·.rulesHash), payload.rulesHash ≠ some rulesHash

instance (payload : HandshakePayload) : Decidable (otherNetwork opts payload) :=
  inferInstanceAs (Decidable (∃ identity ∈ opts.identity, _))

instance (payload : HandshakePayload) : Decidable (otherRules opts payload) :=
  inferInstanceAs (Decidable (∃ rulesHash ∈ opts.identity.bind (·.rulesHash), _))

def acceptHandshake (s : P2PServer) (peerId : Text) (payload : HandshakePayload) : P2PServer :=
  (s.update peerId fun peer => peer.handshaked payload).emit
    (.connected payload.nodeId payload.height)

def onHandshake (s : P2PServer) (peerId : Text) (payload : HandshakePayload) : P2PServer :=
  if payload.nodeId = opts.nodeId then s.closeRedundant peerId
  else if otherNetwork opts payload then
    s.dropNode peerId payload.nodeId (lit "network identity mismatch: peer is on "
      ++ payload.networkId.getD (lit "(none)") ++ lit "/"
      ++ payload.genesisHash.getD (lit "(none)"))
  else if otherRules opts payload then
    s.dropNode peerId payload.nodeId (lit "consensus rules mismatch: peer rules "
      ++ payload.rulesHash.getD (lit "(none)"))
  else
    match s.reputation.isBanned payload.nodeId moment.now with
    | (true, reputation) => { s with reputation }.dropNode peerId payload.nodeId (lit "banned")
    | (false, reputation) =>
      let s := { s with reputation }
      match s.findPeer payload.nodeId with
      | some _ => s.closeRedundant peerId
      | none => s.acceptHandshake peerId payload

/-- A message of a peer, which reaches the node after a handshake only. -/
def onMessage (s : P2PServer) (peerId : Text) (message : WireMessage) : P2PServer :=
  match message with
  | .HANDSHAKE payload => onHandshake opts moment s peerId payload
  | message =>
    match (s.sockets.get peerId).bind (·.remoteNodeId) with
    | none => s.drop peerId (lit "message before handshake")
    | some nodeId => s.emit (.message message nodeId)

def onMalformed (s : P2PServer) (peerId error : Text) : P2PServer :=
  s.drop peerId (lit "malformed message: " ++ error)

def onClose (s : P2PServer) (peerId : Text) : P2PServer :=
  (s.forget peerId).emit
    (.disconnected (s.nameOf peerId) ((s.sockets.get peerId).bind (·.remoteNodeId)).isSome)

/-- Records misbehaviour of a listed peer, and bans it. -/
def penalize (s : P2PServer) (nodeId : Text) (points : ℕ) (reason : Text) : P2PServer :=
  match s.findPeer nodeId with
  | none => s
  | some (peerId, peer) =>
    match s.reputation.penalize nodeId moment.now opts.banThreshold opts.banDurationMs points with
    | (false, reputation) => { s with reputation }
    | (true, reputation) =>
      let reputation := match peer.remoteListenAddress with
        | some (u :: address) => reputation.ban (u :: address) moment.now opts.banDurationMs
        | _ => reputation
      ({ s with reputation }.emit (.banned nodeId reason)).close peerId
        (some CLOSE_POLICY_VIOLATION) (lit "banned")

def broadcast (s : P2PServer) (message : WireMessage) (excludeNodeId : Option Text) : P2PServer :=
  s.sockets.entries.foldl (fun s e =>
    if e.2.listed ∧ e.2.remoteNodeId ≠ none ∧ e.2.remoteNodeId ≠ excludeNodeId then
      s.deliver e.1 message
    else s) s

def send (s : P2PServer) (nodeId : Text) (message : WireMessage) : P2PServer :=
  match s.findPeer nodeId with
  | none => s
  | some (peerId, _) => s.deliver peerId message

/-- What an input does. Sockets that the server has no peer for have no
    handlers, and a deadline that was cleared does not come. -/
def handle (s : P2PServer) (input : Input) : P2PServer :=
  let s := { s with emitted := [] }
  match input with
  | .connection peerId ip => onConnection opts moment s peerId ip
  | .connect peerId url => connect opts moment s peerId url
  | .penalize nodeId points reason => penalize opts moment s nodeId points reason
  | .broadcast message excludeNodeId => s.broadcast message excludeNodeId
  | .send nodeId message => s.send nodeId message
  | .opened peerId =>
    if (s.sockets.get peerId).isSome then announceHandshake opts moment s peerId else s
  | .frame peerId frame =>
    if (s.sockets.get peerId).isSome then
      match frame with
      | .ok message => onMessage opts moment s peerId message
      | .error error => s.onMalformed peerId error
    else s
  | .socketError peerId error =>
    if (s.sockets.get peerId).isSome then s.onMalformed peerId error else s
  | .handshakeTimeout peerId =>
    if ∃ peer ∈ s.sockets.get peerId, peer.handshakeTimer then
      s.drop peerId (lit "handshake timeout")
    else s
  | .closed peerId => if (s.sockets.get peerId).isSome then s.onClose peerId else s

end Handlers

/-! ## What the parts do to the peers -/

section Sockets

variable {s : P2PServer} {peerId peerId' : Text}

theorem findPeer_eq_none {nodeId : Text} : s.findPeer nodeId = none ↔
    ∀ peerId peer, s.sockets.get peerId = some peer → peer.listed →
      peer.remoteNodeId ≠ some nodeId := by
  simp [findPeer, find?_eq_none, OrdMap.get_eq_some]

theorem findPeer_eq_some {nodeId : Text} {peer : Peer}
    (h : s.findPeer nodeId = some (peerId, peer)) :
    s.sockets.get peerId = some peer ∧ peer.listed ∧ peer.remoteNodeId = some nodeId := by
  have hp := find?_some h
  simp only [decide_eq_true_eq] at hp
  exact ⟨OrdMap.get_eq_some.2 (mem_of_find?_eq_some h), hp⟩

/-- The peers `sockets'` are those of `sockets` but for a change `f` to one. -/
def Changes (sockets sockets' : OrdMap Text Peer) (peerId : Text) (f : Peer → Peer) : Prop :=
  ∀ peerId', sockets'.get peerId' =
    if peerId' = peerId then (sockets.get peerId).map f else sockets.get peerId'

theorem Changes.trans {sockets₀ sockets₁ sockets₂ : OrdMap Text Peer} {f g : Peer → Peer}
    (h : Changes sockets₀ sockets₁ peerId f) (h' : Changes sockets₁ sockets₂ peerId g) :
    Changes sockets₀ sockets₂ peerId (g ∘ f) := by
  intro peerId'
  rw [h', h, h, if_pos rfl, Option.map_map]
  split <;> rfl

theorem changes_update (f : Peer → Peer) : Changes s.sockets (s.update peerId f).sockets peerId f := by
  intro peerId'
  unfold update
  cases h : s.sockets.get peerId with
  | none =>
    by_cases heq : peerId' = peerId
    · simp [heq, h]
    · simp [heq]
  | some peer =>
    simp only [OrdMap.get_set]
    rfl

@[simp] theorem reputation_update (f : Peer → Peer) :
    (s.update peerId f).reputation = s.reputation := by
  unfold update
  split <;> rfl

@[simp] theorem emitted_update (f : Peer → Peer) :
    (s.update peerId f).emitted = s.emitted := by
  unfold update
  split <;> rfl

@[simp] theorem sockets_emit (event : PeerEvent) : (s.emit event).sockets = s.sockets := rfl

theorem changes_forget : Changes s.sockets (s.forget peerId).sockets peerId fun peer =>
    { peer with handshakeTimer := false, listed := false } :=
  changes_update _

theorem changes_close (code : Option ℕ) (reason : Text) :
    Changes s.sockets (s.close peerId code reason).sockets peerId fun peer =>
      { peer with closing := true } :=
  changes_update _

/-- A connection that is forgotten and closed. -/
theorem changes_closeRedundant : Changes s.sockets (s.closeRedundant peerId).sockets peerId fun peer =>
    { peer with handshakeTimer := false, listed := false, closing := true } :=
  changes_forget.trans (changes_close _ _)

theorem changes_drop (reason : Text) :
    Changes s.sockets (s.drop peerId reason).sockets peerId fun peer =>
      { peer with handshakeTimer := false, listed := false, closing := true } :=
  changes_closeRedundant

theorem changes_dropNode (nodeId reason : Text) :
    Changes s.sockets (s.dropNode peerId nodeId reason).sockets peerId fun peer =>
      { peer with
        remoteNodeId := some nodeId, handshakeTimer := false, listed := false, closing := true } :=
  (changes_update _).trans (changes_drop _)

theorem changes_acceptHandshake (payload : HandshakePayload) :
    Changes s.sockets (s.acceptHandshake peerId payload).sockets peerId fun peer =>
      peer.handshaked payload :=
  changes_update _

theorem sockets_broadcast (message : WireMessage) (excludeNodeId : Option Text) :
    (s.broadcast message excludeNodeId).sockets = s.sockets := by
  have hfold : ∀ (l : List (Text × Peer)) (s' : P2PServer), s'.sockets = s.sockets →
      (l.foldl (fun s e =>
        if e.2.listed ∧ e.2.remoteNodeId ≠ none ∧ e.2.remoteNodeId ≠ excludeNodeId then
          s.deliver e.1 message
        else s) s').sockets = s.sockets := by
    intro l
    induction l with
    | nil => exact fun s' h => h
    | cons e l ih =>
      intro s' h
      rw [foldl_cons]
      refine ih _ ?_
      split_ifs
      · exact h
      · exact h
  exact hfold _ s rfl

end Sockets

end P2PServer

end Plainchain
