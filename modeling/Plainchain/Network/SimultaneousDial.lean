import Plainchain.Network.Connections

/-!
# Two nodes that dial each other

Each of two nodes dials the other, which makes two connections between them, each named here
after the side that dials it. Both ends send a handshake over both, and refuse the connection
on which a handshake comes from a node that they have a link with already. Nothing makes the
two sides choose the same one.

The world is the two servers and what is on the way between them (`DialWorld`); an event is a
step of opening a connection, or the delivery of the next packet (`Dialling.next`). A connection
is followed through its phases (`Phase`): it is dead once one of its ends has given it up, and
a link is left if and only if one of the two is not. So the links are lost just where a side
refuses one connection for another that is dead at the other end (`Safe`, `linked_iff_safe`).
-/

namespace Plainchain

open Js Kv List

/-! ## One server -/

namespace P2PServer

/-- What a connection is to a server, as one to a node. -/
inductive Status
  | absent
  | waiting
  | linked
  | gone
  deriving DecidableEq

/-- A connection is linked once the handshake of the node was accepted, and gone when the
    server has forgotten it. -/
def status (s : P2PServer) (nodeId peerId : Text) : Status :=
  match s.sockets.get peerId with
  | none => .absent
  | some peer =>
    if peer.listed then if peer.remoteNodeId = some nodeId then .linked else .waiting else .gone

/-- What goes over a connection. -/
inductive Packet
  | frame (message : WireMessage)
  | close

/-- What a server puts on a connection. -/
def packetOf (peerId : Text) : Output → Option Packet
  | .socketSend id message => if id = peerId then some (.frame message) else none
  | .socketClose id _ _ => if id = peerId then some .close else none
  | .emit _ => none

def packets (peerId : Text) (outputs : List Output) : List Packet :=
  outputs.filterMap (packetOf peerId)

/-- An input about one connection: what the connection is afterwards, and what was sent. -/
structure Effect (s s' : P2PServer) (nodeId peerId : Text) (status : Status)
    (sent : List Packet) : Prop where
  status : s'.status nodeId peerId = status
  same : ∀ id ≠ peerId, s'.sockets.get id = s.sockets.get id
  sent : ∀ id, packets id s'.emitted = if peerId = id then sent else []
  allowed : s.reputation.bans.get nodeId = none → s'.reputation.bans.get nodeId = none

section Effects

variable {opts : P2PServerOptions} {moment : Moment} {s : P2PServer} {nodeId peerId : Text}

theorem status_of_get {peer : Peer} (h : s.sockets.get peerId = some peer) :
    s.status nodeId peerId =
      if peer.listed then if peer.remoteNodeId = some nodeId then .linked else .waiting
      else .gone := by
  rw [status, h]

theorem status_eq_of_get {s' : P2PServer} (h : s'.sockets.get peerId = s.sockets.get peerId) :
    s'.status nodeId peerId = s.status nodeId peerId := by
  rw [status, status, h]

theorem exists_of_status (h : s.status nodeId peerId ≠ .absent) :
    ∃ peer, s.sockets.get peerId = some peer := by
  unfold status at h
  cases hget : s.sockets.get peerId with
  | none => simp [hget] at h
  | some peer => exact ⟨peer, rfl⟩

/-- Looking up a ban does not make one. -/
theorem bans_isBanned {r : PeerReputation} {key : Text} {now : ℕ} (h : r.bans.get nodeId = none) :
    (r.isBanned key now).2.bans.get nodeId = none := by
  rw [PeerReputation.isBanned]
  split
  · exact h
  · split
    · rw [OrdMap.get_delete, h, ite_self]
    · exact h

/-- A handshake is announced on one connection only. -/
theorem packets_announce (s₀ : P2PServer) (hs : s₀.emitted = []) (id : Text) :
    packets id (announceHandshake opts moment s₀ peerId).emitted =
      if peerId = id then [.frame (.HANDSHAKE (hello opts moment))] else [] := by
  by_cases h : peerId = id
  · simp [announceHandshake, deliver, output, emit, hs, packets, packetOf, h]
  · simp [announceHandshake, deliver, output, emit, hs, packets, packetOf, h]

/-- A connection that is registered waits for a handshake. -/
theorem effect_register {s₀ : P2PServer} {direction : PeerDirection} {ip : Option Text}
    {sent : List Packet} (hget : s₀.sockets = (s.registerPeer peerId direction ip).sockets)
    (hsent : ∀ id, packets id s₀.emitted = if peerId = id then sent else [])
    (hbans : s.reputation.bans.get nodeId = none → s₀.reputation.bans.get nodeId = none) :
    Effect s s₀ nodeId peerId .waiting sent := by
  refine ⟨?_, fun id hid => ?_, hsent, hbans⟩
  · rw [status_of_get (by rw [hget, registerPeer, OrdMap.get_set, if_pos rfl])]
    rfl
  · rw [hget, registerPeer, OrdMap.get_set, if_neg hid]

theorem effect_connect {url : Text} (hnew : s.sockets.get peerId = none)
    (h : ((handle opts moment s (.connect peerId url)).sockets.get peerId).isSome) :
    Effect s (handle opts moment s (.connect peerId url)) nodeId peerId .waiting [] := by
  simp only [handle, connect] at h ⊢
  have hbans := @bans_isBanned nodeId s.reputation url moment.now
  rcases hbanned : s.reputation.isBanned url moment.now with ⟨banned, reputation⟩
  rw [hbanned] at hbans
  simp only [hbanned] at h ⊢
  cases banned with
  | true => simp [hnew] at h
  | false =>
    dsimp only at h ⊢
    split_ifs at h ⊢ with hroom
    · simp [hnew] at h
    · exact effect_register rfl (fun _ => (ite_self _).symm) hbans

theorem effect_connection {ip : Text} (hnew : s.sockets.get peerId = none)
    (h : ((handle opts moment s (.connection peerId ip)).sockets.get peerId).isSome) :
    Effect s (handle opts moment s (.connection peerId ip)) nodeId peerId .waiting
      [.frame (.HANDSHAKE (hello opts moment))] := by
  simp only [handle, onConnection] at h ⊢
  split_ifs at h ⊢ with hroom hip
  · simp [output, hnew] at h
  · simp [output, hnew] at h
  · exact effect_register rfl (packets_announce _ rfl) id

theorem effect_opened (h : (s.sockets.get peerId).isSome) :
    Effect s (handle opts moment s (.opened peerId)) nodeId peerId (s.status nodeId peerId)
      [.frame (.HANDSHAKE (hello opts moment))] := by
  simp only [handle, h, if_true]
  exact ⟨rfl, fun _ _ => rfl, packets_announce _ rfl, id⟩

/-- What a change to a peer makes of its connection. -/
theorem effect_changes {s₀ : P2PServer} {peer : Peer} {f : Peer → Peer} {status : Status}
    {sent : List Packet} (hpeer : s.sockets.get peerId = some peer)
    (hchange : Changes s.sockets s₀.sockets peerId f)
    (hstatus : (if (f peer).listed then
      if (f peer).remoteNodeId = some nodeId then Status.linked else .waiting else .gone) = status)
    (hsent : ∀ id, packets id s₀.emitted = if peerId = id then sent else [])
    (hreputation : s₀.reputation = s.reputation) : Effect s s₀ nodeId peerId status sent := by
  refine ⟨(status_of_get ?_).trans hstatus, fun id hid => ?_, hsent, fun h => hreputation ▸ h⟩
  · rw [hchange, if_pos rfl, hpeer, Option.map_some]
  · rw [hchange, if_neg hid]

/-- A connection that is forgotten and closed. -/
theorem effect_closeRedundant {peer : Peer} (hpeer : s.sockets.get peerId = some peer) :
    Effect s ({ s with emitted := [] }.closeRedundant peerId) nodeId peerId .gone [.close] := by
  refine effect_changes hpeer changes_closeRedundant rfl (fun id => ?_) ?_
  · by_cases h : peerId = id <;> simp [closeRedundant, close, forget, output, packets, packetOf, h]
  · simp [closeRedundant, close, forget, output]

theorem effect_accept {payload : HandshakePayload} (hnode : payload.nodeId = nodeId)
    (h : s.status nodeId peerId = .waiting) :
    Effect s ({ s with emitted := [] }.acceptHandshake peerId payload) nodeId peerId .linked [] := by
  obtain ⟨peer, hpeer⟩ := exists_of_status (h.trans_ne Status.noConfusion)
  have hlisted : peer.listed := by
    rw [status_of_get hpeer] at h
    by_contra hnot
    rw [if_neg hnot] at h
    cases h
  refine effect_changes hpeer (changes_acceptHandshake payload) ?_ (fun id => ?_) ?_
  · simp [Peer.handshaked, hlisted, hnode]
  · simp [acceptHandshake, emit, output, packets, packetOf]
  · simp [acceptHandshake, emit, output]

theorem effect_closed {peer : Peer} (hpeer : s.sockets.get peerId = some peer) :
    Effect s (handle opts moment s (.closed peerId)) nodeId peerId .gone [] := by
  simp only [handle, hpeer, Option.isSome_some, if_true]
  refine effect_changes hpeer changes_forget rfl (fun id => ?_) ?_
  · simp [onClose, emit, output, forget, packets, packetOf]
  · simp [onClose, emit, output, forget]

/-- A handshake of a node with the same identity tells of no other network. -/
theorem hello_friendly {opts' : P2PServerOptions} (h : opts'.identity = opts.identity) :
    ¬otherNetwork opts (hello opts' moment) ∧ ¬otherRules opts (hello opts' moment) := by
  refine ⟨?_, ?_⟩
  · rintro ⟨identity, hidentity, hne⟩
    rw [Option.mem_def] at hidentity
    simp [hello, h, hidentity] at hne
  · rintro ⟨rulesHash, hrules, hne⟩
    rw [Option.mem_def] at hrules
    simp [hello, h, hrules] at hne

/-- The handshake of a node that is not banned is accepted, or the connection is refused for
    another one to the node. -/
theorem effect_hello {opts' : P2PServerOptions} {moment' : Moment}
    (hother : opts'.nodeId ≠ opts.nodeId) (hidentity : opts'.identity = opts.identity)
    (hbans : s.reputation.bans.get opts'.nodeId = none)
    (hwaiting : s.status opts'.nodeId peerId = .waiting) :
    if (s.findPeer opts'.nodeId).isSome then
      Effect s (handle opts moment s (.frame peerId (.ok (.HANDSHAKE (hello opts' moment')))))
        opts'.nodeId peerId .gone [.close]
    else
      Effect s (handle opts moment s (.frame peerId (.ok (.HANDSHAKE (hello opts' moment')))))
        opts'.nodeId peerId .linked [] := by
  obtain ⟨peer, hpeer⟩ := exists_of_status (hwaiting.trans_ne Status.noConfusion)
  obtain ⟨hnetwork, hrules⟩ := @hello_friendly opts moment' opts' hidentity
  have hself : (hello opts' moment').nodeId ≠ opts.nodeId := hother
  have hbanned : s.reputation.isBanned (hello opts' moment').nodeId moment.now =
      (false, s.reputation) := by
    rw [PeerReputation.isBanned, show (hello opts' moment').nodeId = opts'.nodeId from rfl, hbans]
  have hhandle : handle opts moment s (.frame peerId (.ok (.HANDSHAKE (hello opts' moment')))) =
      if (s.findPeer opts'.nodeId).isSome then { s with emitted := [] }.closeRedundant peerId
      else { s with emitted := [] }.acceptHandshake peerId (hello opts' moment') := by
    simp only [handle, hpeer, Option.isSome_some, if_true, onMessage, onHandshake, hself, hnetwork,
      hrules, if_false, hbanned]
    split <;> next hfind =>
      rw [show s.findPeer opts'.nodeId = _ from hfind]
      rfl
  rw [hhandle]
  split
  · exact effect_closeRedundant hpeer
  · exact effect_accept rfl hwaiting

end Effects

end P2PServer

/-! ## Two servers -/

inductive Side
  | A
  | B
  deriving DecidableEq

def Side.other : Side → Side
  | .A => .B
  | .B => .A

@[simp] theorem Side.other_other (n : Side) : n.other.other = n := by cases n <;> rfl

theorem Side.other_ne (n : Side) : n.other ≠ n := by cases n <;> decide

theorem Side.eq_or (n d : Side) : n = d ∨ n = d.other := by cases n <;> cases d <;> decide

open P2PServer (Status Packet)

/-- How far the opening of a connection is. -/
inductive Stage
  | idle
  | dialled
  | accepted
  | opened
  deriving DecidableEq

/-- Two nodes that dial each other: the id that a side gives to the connection that a side
    dials, and the address it is dialled at and comes from. -/
structure Dialling where
  opts : Side → P2PServerOptions
  peerId : (n d : Side) → Text
  url : Side → Text
  ip : Side → Text
  other_node : ∀ n : Side, (opts n.other).nodeId ≠ (opts n).nodeId
  same_identity : ∀ n : Side, (opts n.other).identity = (opts n).identity
  peerId_ne : ∀ n d : Side, peerId n d.other ≠ peerId n d

/-- The servers, how far the connections are, and what is on the way to a side by one. -/
structure DialWorld where
  server : Side → P2PServer
  stage : Side → Stage
  wire : (n d : Side) → List Packet

/-- What happens in the world; `deliver n d` is the next packet to `n` by the connection that
    `d` dials. -/
inductive DialEvent
  | dial (d : Side) (moment : Moment)
  | accept (d : Side) (moment : Moment)
  | opened (d : Side) (moment : Moment)
  | deliver (n d : Side) (moment : Moment)

variable {d' : Side}

namespace DialWorld

def setStage (w : DialWorld) (d : Side) (stage : Stage) : DialWorld :=
  { w with stage := Function.update w.stage d stage }

def setWire (w : DialWorld) (n d : Side) (packets : List Packet) : DialWorld :=
  { w with wire := Function.update w.wire n (Function.update (w.wire n) d packets) }

/-- A side answers a close with one of its own, if it has not sent one. -/
def answerClose (w : DialWorld) (n d : Side) (closing : Bool) : DialWorld :=
  if closing then w else w.setWire n.other d (w.wire n.other d ++ [.close])

variable (w : DialWorld) (n d : Side)

@[simp] theorem stage_setStage (stage : Stage) : (w.setStage d stage).stage d = stage :=
  Function.update_self ..

theorem stage_setStage_of_ne (h : d' ≠ d) (stage : Stage) :
    (w.setStage d stage).stage d' = w.stage d' :=
  Function.update_of_ne h ..

@[simp] theorem wire_setWire (packets : List Packet) : (w.setWire n d packets).wire n d = packets := by
  simp [setWire]

theorem wire_setWire_of_ne {n' : Side} (h : n' ≠ n ∨ d' ≠ d) (packets : List Packet) :
    (w.setWire n d packets).wire n' d' = w.wire n' d' := by
  by_cases hn : n' = n
  · subst hn
    simp [setWire, Function.update_of_ne (h.resolve_left (not_not.2 rfl))]
  · simp [setWire, Function.update_of_ne hn]

end DialWorld

namespace Dialling

variable (D : Dialling)

/-- An input to the server of a side; what it sends is on the way to the other one. -/
def handle (w : DialWorld) (n : Side) (moment : Moment) (input : Input) : DialWorld :=
  let s := P2PServer.handle (D.opts n) moment (w.server n) input
  { w with
    server := Function.update w.server n s
    wire := Function.update w.wire n.other fun d =>
      w.wire n.other d ++ P2PServer.packets (D.peerId n d) s.emitted }

def registered (w : DialWorld) (n d : Side) : Bool :=
  ((w.server n).sockets.get (D.peerId n d)).isSome

def closing (w : DialWorld) (n d : Side) : Bool :=
  ((w.server n).sockets.get (D.peerId n d)).any (·.closing)

/-- An event, where it can happen. A connection that is refused for want of a slot is none, and
    the side that dials gets nothing before its socket is open. -/
def next (w : DialWorld) : DialEvent → Option DialWorld
  | .dial d moment =>
    let w' := D.handle w d moment (.connect (D.peerId d d) (D.url d))
    if w.stage d = .idle ∧ D.registered w' d d then some (w'.setStage d .dialled) else none
  | .accept d moment =>
    let w' := D.handle w d.other moment (.connection (D.peerId d.other d) (D.ip d))
    if w.stage d = .dialled ∧ D.registered w' d.other d then some (w'.setStage d .accepted)
    else none
  | .opened d moment =>
    if w.stage d = .accepted then
      some ((D.handle w d moment (.opened (D.peerId d d))).setStage d .opened)
    else none
  | .deliver n d moment =>
    if n = d ∧ w.stage d ≠ .opened then none
    else
      match w.wire n d with
      | [] => none
      | .frame message :: rest =>
        some (D.handle (w.setWire n d rest) n moment (.frame (D.peerId n d) (.ok message)))
      | .close :: rest =>
        some ((D.handle (w.setWire n d rest) n moment (.closed (D.peerId n d))).answerClose n d
          (D.closing w n d))

def run (w : DialWorld) : List DialEvent → Option DialWorld
  | [] => some w
  | e :: events => (D.next w e).bind fun w' => run w' events

/-- What a connection is to a side. -/
def status (w : DialWorld) (n d : Side) : Status :=
  (w.server n).status (D.opts n.other).nodeId (D.peerId n d)

/-- Two nodes that do not know each other, before anything has happened. -/
structure Start (w : DialWorld) : Prop where
  idle : ∀ d, w.stage d = .idle
  silent : ∀ n d, w.wire n d = []
  fresh : ∀ n d, (w.server n).sockets.get (D.peerId n d) = none
  allowed : ∀ n, (w.server n).reputation.bans.get (D.opts n.other).nodeId = none
  unknown : ∀ n, (w.server n).findPeer (D.opts n.other).nodeId = none

/-- Both connections were opened, and nothing is on the way. -/
def Complete (w : DialWorld) : Prop := (∀ d, w.stage d = .opened) ∧ ∀ n d, w.wire n d = []

/-- A connection that is registered at both ends. -/
def Linked (w : DialWorld) : Prop := ∃ d, ∀ n, D.status w n d = .linked

/-- A side that gets a handshake while it has a link by the other connection will refuse this
    one; the other connection must not be dead already at the other end. -/
def Safe (w : DialWorld) : DialEvent → Prop
  | .deliver n d _ => (∃ message rest, w.wire n d = .frame message :: rest) →
      D.status w n d.other = .linked → D.status w n.other d.other ≠ .gone
  | _ => True

def SafeRun (w : DialWorld) : List DialEvent → Prop
  | [] => True
  | e :: events => D.Safe w e ∧ ∀ w', D.next w e = some w' → SafeRun w' events

/-! ## One event -/

variable {D} {w w' : DialWorld}

/-- The servers know each other by these connections only, and have not banned each other. -/
structure Clear (D : Dialling) (w : DialWorld) : Prop where
  allowed : ∀ n, (w.server n).reputation.bans.get (D.opts n.other).nodeId = none
  only : ∀ n peerId peer, (w.server n).sockets.get peerId = some peer → peer.listed →
    peer.remoteNodeId = some (D.opts n.other).nodeId → ∃ d, peerId = D.peerId n d

/-- An input about one connection, in the world. -/
structure Local (D : Dialling) (w w' : DialWorld) (n d : Side) (status : Status)
    (sent : List Packet) : Prop where
  self : D.status w' n d = status
  others : ∀ n' d', n' ≠ n ∨ d' ≠ d → D.status w' n' d' = D.status w n' d'
  wire : w'.wire n.other d = w.wire n.other d ++ sent
  wires : ∀ n' d', n' ≠ n.other ∨ d' ≠ d → w'.wire n' d' = w.wire n' d'
  stage : w'.stage = w.stage
  clear : D.Clear w → D.Clear w'

variable {d n : Side} {e : DialEvent}

theorem Local.cases {status : Status} {sent : List Packet} (h : D.Local w w' n d status sent)
    (n' d' : Side) :
    (n' = n ∧ d' = d ∧ D.status w' n' d' = status) ∨ D.status w' n' d' = D.status w n' d' := by
  by_cases hsame : n' = n ∧ d' = d
  · obtain ⟨rfl, rfl⟩ := hsame
    exact .inl ⟨rfl, rfl, h.self⟩
  · exact .inr (h.others n' d' (by tauto))

theorem peerId_injective (h : d' ≠ d) : D.peerId n d' ≠ D.peerId n d := by
  rcases d'.eq_or d with rfl | rfl
  · exact absurd rfl h
  · exact D.peerId_ne n d

theorem local_handle {moment : Moment} {input : Input} {status : Status}
    {sent : List Packet}
    (h : P2PServer.Effect (w.server n) (P2PServer.handle (D.opts n) moment (w.server n) input)
      (D.opts n.other).nodeId (D.peerId n d) status sent) :
    D.Local w (D.handle w n moment input) n d status sent := by
  have hserver : (D.handle w n moment input).server n =
      P2PServer.handle (D.opts n) moment (w.server n) input := Function.update_self ..
  have hservers : ∀ n' ≠ n, (D.handle w n moment input).server n' = w.server n' :=
    fun n' hn' => Function.update_of_ne hn' ..
  refine ⟨?_, fun n' d' hne => ?_, ?_, fun n' d' hne => ?_, rfl, fun hclear => ⟨fun n' => ?_,
    fun n' peerId peer hpeer hlisted hid => ?_⟩⟩
  · rw [Dialling.status, hserver, h.status]
  · by_cases hn : n' = n
    · subst hn
      have hd : d' ≠ d := hne.resolve_left (not_not.2 rfl)
      rw [Dialling.status, hserver]
      exact P2PServer.status_eq_of_get (h.same _ (peerId_injective hd))
    · rw [Dialling.status, hservers n' hn]
      rfl
  · rw [Dialling.handle]
    simp only [Function.update_self, h.sent, if_true]
  · by_cases hn : n' = n.other
    · subst hn
      have hd : d' ≠ d := hne.resolve_left (not_not.2 rfl)
      rw [Dialling.handle]
      simp only [Function.update_self, h.sent, if_neg (peerId_injective hd).symm, append_nil]
    · rw [Dialling.handle]
      simp only [Function.update_of_ne hn]
  · by_cases hn : n' = n
    · subst hn
      rw [hserver]
      exact h.allowed (hclear.allowed n')
    · rw [hservers n' hn]
      exact hclear.allowed n'
  · by_cases hn : n' = n
    · subst hn
      by_cases hpeerId : peerId = D.peerId n' d
      · exact ⟨d, hpeerId⟩
      · rw [hserver, h.same _ hpeerId] at hpeer
        exact hclear.only n' peerId peer hpeer hlisted hid
    · rw [hservers n' hn] at hpeer
      exact hclear.only n' peerId peer hpeer hlisted hid

/-- A side finds the other one if one of the connections is linked. -/
theorem findPeer_isSome_iff (hclear : D.Clear w) (n : Side) :
    ((w.server n).findPeer (D.opts n.other).nodeId).isSome ↔ ∃ d, D.status w n d = .linked := by
  constructor
  · intro h
    obtain ⟨⟨peerId, peer⟩, hfind⟩ := Option.isSome_iff_exists.1 h
    obtain ⟨hget, hlisted, hid⟩ := P2PServer.findPeer_eq_some hfind
    obtain ⟨d, rfl⟩ := hclear.only n peerId peer hget hlisted hid
    exact ⟨d, by rw [Dialling.status, P2PServer.status_of_get hget, if_pos hlisted, if_pos hid]⟩
  · rintro ⟨d, hd⟩
    by_contra hnone
    rw [Option.not_isSome_iff_eq_none, P2PServer.findPeer_eq_none] at hnone
    unfold Dialling.status P2PServer.status at hd
    cases hget : (w.server n).sockets.get (D.peerId n d) with
    | none => simp [hget] at hd
    | some peer =>
      simp only [hget] at hd
      split_ifs at hd with hlisted hid
      exact hnone _ peer hget hlisted hid

/-! ## Phases of a connection -/

/-- A handshake of a side. -/
def helloOf (D : Dialling) (n : Side) (moment : Moment) : Packet :=
  .frame (.HANDSHAKE (P2PServer.hello (D.opts n) moment))

/-- What is on the way to a side by an open connection: the handshake, as long as the side
    waits for it, and then closes, if the other side has given up. -/
def Pending (D : Dialling) (w : DialWorld) (n d : Side) : Prop :=
  ∃ k, (k = 0 ∨ D.status w n.other d = .gone) ∧
    ((D.status w n d = .waiting ∧
        ∃ moment, w.wire n d = D.helloOf n.other moment :: List.replicate k .close) ∨
      ((D.status w n d = .linked ∨ D.status w n d = .gone) ∧ w.wire n d = List.replicate k .close))

/-- What is known of a connection at a stage. -/
def PhaseAt (D : Dialling) (w : DialWorld) (d : Side) : Stage → Prop
  | .idle => D.status w d d = .absent ∧ D.status w d.other d = .absent ∧
      w.wire d d = [] ∧ w.wire d.other d = []
  | .dialled => D.status w d d = .waiting ∧ D.status w d.other d = .absent ∧
      w.wire d d = [] ∧ w.wire d.other d = []
  | .accepted => D.status w d d = .waiting ∧ D.status w d.other d = .waiting ∧
      (∃ moment, w.wire d d = [D.helloOf d.other moment]) ∧ w.wire d.other d = []
  | .opened => ∀ n, D.Pending w n d

def Phase (D : Dialling) (w : DialWorld) (d : Side) : Prop := D.PhaseAt w d (w.stage d)

structure Inv (D : Dialling) (w : DialWorld) : Prop where
  clear : D.Clear w
  phase : ∀ d, D.Phase w d

theorem Inv.at {stage : Stage} (h : D.Inv w) (hstage : w.stage d = stage) : D.PhaseAt w d stage :=
  hstage ▸ h.phase d

/-- A handshake is about to be delivered to a side that has a link by the other connection. -/
def Crossed (D : Dialling) (w : DialWorld) (n d : Side) : Prop :=
  (∃ message rest, w.wire n d = .frame message :: rest) ∧ D.status w n d.other = .linked

/-- An event: a side gives up a connection that is dead at the other one already, or because a
    handshake crosses another link. -/
structure Change (D : Dialling) (w w' : DialWorld) (e : DialEvent) : Prop where
  inv : D.Inv w'
  gone : ∀ n d, D.status w n d = .gone → D.status w' n d = .gone
  dead : ∀ n d, D.status w' n d = .gone → (∃ n', D.status w n' d = .gone) ∨
    ∃ moment, e = .deliver n d moment ∧ D.Crossed w n d
  refused : ∀ n d moment, e = .deliver n d moment → D.Crossed w n d → D.status w' n d = .gone

theorem Phase.congr (h : D.Phase w d) (hstage : w'.stage d = w.stage d)
    (hstatus : ∀ n, D.status w' n d = D.status w n d) (hwire : ∀ n, w'.wire n d = w.wire n d) :
    D.Phase w' d := by
  rw [Phase, hstage]
  unfold Phase at h
  cases hphase : w.stage d <;> rw [hphase] at h <;>
    simpa only [PhaseAt, Pending, hstatus, hwire] using h

theorem status_eq_absent (h : D.status w n d = .absent) :
    (w.server n).sockets.get (D.peerId n d) = none := by
  unfold Dialling.status P2PServer.status at h
  cases hget : (w.server n).sockets.get (D.peerId n d) with
  | none => rfl
  | some peer =>
    simp only [hget] at h
    split_ifs at h

/-- A step of opening: a side that has not given up the connection waits for a handshake. -/
theorem Change.of_opening {stage : Stage} {sent : List Packet} (hinv : D.Inv w)
    (hlocal : D.Local w w' n d .waiting sent) (hgone : D.status w n d ≠ .gone)
    (he : ∀ n d moment, e ≠ .deliver n d moment) (hphase : D.PhaseAt w' d stage) :
    D.Change w (w'.setStage d stage) e := by
  refine ⟨⟨?_, fun d' => ?_⟩, fun n' d' h => ?_, fun n' d' h => .inl ⟨n', ?_⟩,
    fun n' d' moment heq => absurd heq (he n' d' moment)⟩
  · obtain ⟨hallowed, honly⟩ := hlocal.clear hinv.clear
    exact ⟨hallowed, honly⟩
  · by_cases hd : d' = d
    · rw [hd, Phase, DialWorld.stage_setStage]
      exact hphase
    · refine (hinv.phase d').congr ?_ (fun n' => hlocal.others n' d' (.inr hd))
        (fun n' => hlocal.wires n' d' (.inr hd))
      rw [DialWorld.stage_setStage_of_ne _ _ hd, hlocal.stage]
  · rcases hlocal.cases n' d' with ⟨rfl, rfl, -⟩ | heq
    · exact absurd h hgone
    · exact heq.trans h
  · rcases hlocal.cases n' d' with ⟨rfl, rfl, hself⟩ | heq
    · cases hself.symm.trans h
    · exact heq.symm.trans h

section Opening

variable {d : Side} {moment : Moment} (hinv : D.Inv w)

include hinv

theorem change_dial (h : D.next w (.dial d moment) = some w') :
    D.Change w w' (.dial d moment) := by
  simp only [next, Option.ite_none_right_eq_some, Option.some.injEq] at h
  obtain ⟨⟨hstage, hregistered⟩, rfl⟩ := h
  obtain ⟨hself, hother, hwire, hwire'⟩ := hinv.at hstage
  have heffect : P2PServer.Effect (w.server d) _ (D.opts d.other).nodeId (D.peerId d d) .waiting [] :=
    P2PServer.effect_connect (status_eq_absent hself)
      (by simpa [registered, Dialling.handle] using hregistered)
  have hlocal := local_handle heffect
  refine .of_opening hinv hlocal (hself.trans_ne Status.noConfusion)
    (fun _ _ _ => DialEvent.noConfusion) ⟨hlocal.self, ?_, ?_, ?_⟩
  · rw [hlocal.others _ _ (.inl d.other_ne), hother]
  · rw [hlocal.wires _ _ (.inl d.other_ne.symm), hwire]
  · rw [hlocal.wire, hwire']
    rfl

theorem change_accept (h : D.next w (.accept d moment) = some w') :
    D.Change w w' (.accept d moment) := by
  simp only [next, Option.ite_none_right_eq_some, Option.some.injEq] at h
  obtain ⟨⟨hstage, hregistered⟩, rfl⟩ := h
  obtain ⟨hself, hother, hwire, hwire'⟩ := hinv.at hstage
  have heffect : P2PServer.Effect (w.server d.other) _ (D.opts d.other.other).nodeId
      (D.peerId d.other d) .waiting
      [.frame (.HANDSHAKE (P2PServer.hello (D.opts d.other) moment))] :=
    P2PServer.effect_connection (status_eq_absent hother)
      (by simpa [registered, Dialling.handle] using hregistered)
  have hlocal := local_handle heffect
  have hwire_self := hlocal.wire
  rw [Side.other_other, hwire] at hwire_self
  refine .of_opening hinv hlocal (hother.trans_ne Status.noConfusion)
    (fun _ _ _ => DialEvent.noConfusion) ⟨?_, hlocal.self, ⟨moment, hwire_self⟩, ?_⟩
  · rw [hlocal.others _ _ (.inl d.other_ne.symm), hself]
  · rw [hlocal.wires _ _ (.inl (by simpa using d.other_ne)), hwire']

theorem change_opened (h : D.next w (.opened d moment) = some w') :
    D.Change w w' (.opened d moment) := by
  simp only [next, Option.ite_none_right_eq_some, Option.some.injEq] at h
  obtain ⟨hstage, rfl⟩ := h
  obtain ⟨hself, hother, ⟨moment', hwire⟩, hwire'⟩ := hinv.at hstage
  obtain ⟨peer, hpeer⟩ := P2PServer.exists_of_status (hself.trans_ne Status.noConfusion)
  have heffect := @P2PServer.effect_opened (D.opts d) moment _ (D.opts d.other).nodeId _
    (Option.isSome_of_eq_some hpeer)
  rw [← Dialling.status, hself] at heffect
  have hlocal := local_handle heffect
  refine .of_opening hinv hlocal (hself.trans_ne Status.noConfusion)
    (fun _ _ _ => DialEvent.noConfusion) fun n => ⟨0, .inl rfl, .inl ?_⟩
  rcases n.eq_or d with rfl | rfl
  · refine ⟨hlocal.self, moment', ?_⟩
    rw [hlocal.wires _ _ (.inl n.other_ne.symm), hwire]
    rfl
  · refine ⟨?_, moment, ?_⟩
    · rw [hlocal.others _ _ (.inl d.other_ne), hother]
    · rw [hlocal.wire, hwire', Side.other_other]
      rfl

end Opening

/-! ## Delivery -/

section Delivery

variable {n d : Side} {moment : Moment}

theorem Local.answerClose {status : Status} (hlocal : D.Local w w' n d status []) (closing : Bool) :
    D.Local w (w'.answerClose n d closing) n d status
      (List.replicate (if closing then 0 else 1) .close) := by
  have hwire : w'.wire n.other d = w.wire n.other d := by rw [hlocal.wire, append_nil]
  rw [DialWorld.answerClose]
  cases closing with
  | true => exact hlocal
  | false =>
    refine ⟨hlocal.self, hlocal.others, ?_, fun n' d' h => ?_, hlocal.stage, fun h => ?_⟩
    · simp [hwire]
    · rw [if_neg Bool.false_ne_true, DialWorld.wire_setWire_of_ne _ _ _ h, hlocal.wires n' d' h]
    · obtain ⟨hallowed, honly⟩ := hlocal.clear h
      exact ⟨hallowed, honly⟩

/-- Only an open connection has anything to deliver. -/
theorem stage_of_deliver (hinv : D.Inv w) (h : D.next w (.deliver n d moment) = some w') :
    w.stage d = .opened := by
  simp only [next] at h
  rcases n.eq_or d with rfl | rfl
  · by_contra hstage
    simp [hstage] at h
  · cases hstage : w.stage d with
    | opened => rfl
    | idle => simp [(hinv.at hstage).2.2.2] at h
    | dialled => simp [(hinv.at hstage).2.2.2] at h
    | accepted => simp [(hinv.at hstage).2.2.2] at h

variable {status : Status} {j k : ℕ}

/-- A side that has got the handshake expects nothing but closes. -/
theorem pending_self
    (hlocal : D.Local (w.setWire n d (List.replicate k .close)) w' n d status
      (List.replicate j .close))
    (hstatus : status = .linked ∨ status = .gone) (hk : k = 0 ∨ D.status w n.other d = .gone) :
    D.Pending w' n d := by
  refine ⟨k, hk.imp_right fun h => ?_, .inr ⟨?_, ?_⟩⟩
  · rw [hlocal.others _ _ (.inl n.other_ne)]
    exact h
  · rwa [hlocal.self]
  · rw [hlocal.wires _ _ (.inl n.other_ne.symm), DialWorld.wire_setWire]

/-- What is on the way to the other side stays on the way, before the closes sent now. -/
theorem pending_other
    (hlocal : D.Local (w.setWire n d (List.replicate k .close)) w' n d status
      (List.replicate j .close))
    (hpending : D.Pending w n.other d) (hkeep : D.status w n d = .gone → status = .gone)
    (hj : j = 0 ∨ status = .gone) : D.Pending w' n.other d := by
  obtain ⟨i, hi, hwaits⟩ := hpending
  have hother : D.status w' n.other d = D.status w n.other d :=
    hlocal.others _ _ (.inl n.other_ne)
  have hwire : w'.wire n.other d = w.wire n.other d ++ List.replicate j .close := by
    rw [hlocal.wire, DialWorld.wire_setWire_of_ne _ _ _ (.inl n.other_ne)]
  rw [Side.other_other] at hi
  refine ⟨i + j, ?_, ?_⟩
  · rw [Side.other_other, hlocal.self]
    rcases hi with rfl | hgone
    · simpa using hj
    · exact .inr (hkeep hgone)
  · rw [hother, hwire]
    rcases hwaits with ⟨hstatus, moment, hhello⟩ | ⟨hstatus, hcloses⟩
    · exact .inl ⟨hstatus, moment, by rw [hhello, cons_append, replicate_append_replicate]⟩
    · exact .inr ⟨hstatus, by rw [hcloses, replicate_append_replicate]⟩

theorem Change.of_delivery (hinv : D.Inv w) (hstage : w.stage d = .opened)
    (hlocal : D.Local (w.setWire n d (List.replicate k .close)) w' n d status
      (List.replicate j .close))
    (hstatus : status = .linked ∨ status = .gone) (hk : k = 0 ∨ D.status w n.other d = .gone)
    (hj : j = 0 ∨ status = .gone) (hkeep : D.status w n d = .gone → status = .gone)
    (hdead : status = .gone → (∃ n', D.status w n' d = .gone) ∨ D.Crossed w n d)
    (hcrossed : D.Crossed w n d → status = .gone) :
    D.Change w w' (.deliver n d moment) := by
  have hpending : ∀ n', D.Pending w n' d := hinv.at hstage
  have hclear : D.Clear (w.setWire n d (List.replicate k .close)) :=
    ⟨hinv.clear.allowed, hinv.clear.only⟩
  refine ⟨⟨hlocal.clear hclear, fun d' => ?_⟩, fun n' d' h => ?_, fun n' d' h => ?_,
    fun n' d' moment' heq hcross => ?_⟩
  · by_cases hd : d' = d
    · subst hd
      rw [Phase, hlocal.stage, show (w.setWire n d' _).stage d' = .opened from hstage]
      intro n'
      rcases n'.eq_or n with rfl | rfl
      · exact pending_self hlocal hstatus hk
      · exact pending_other hlocal (hpending _) hkeep hj
    · refine (hinv.phase d').congr ?_ (fun n' => hlocal.others n' d' (.inr hd)) fun n' => ?_
      · rw [hlocal.stage]
        rfl
      · rw [hlocal.wires n' d' (.inr hd), DialWorld.wire_setWire_of_ne _ _ _ (.inr hd)]
  · rcases hlocal.cases n' d' with ⟨rfl, rfl, hself⟩ | heq
    · rw [hself, hkeep h]
    · exact heq.trans h
  · rcases hlocal.cases n' d' with ⟨rfl, rfl, hself⟩ | heq
    · exact (hdead (hself.symm.trans h)).imp_right fun hcross => ⟨moment, rfl, hcross⟩
    · exact .inl ⟨n', heq.symm.trans h⟩
  · cases heq
    rw [hlocal.self, hcrossed hcross]

variable {rest : List Packet}

/-- A handshake that waits is the next packet, and the connection has not been given up. -/
theorem Pending.frame {message : WireMessage} (h : D.Pending w n d)
    (hwire : w.wire n d = .frame message :: rest) :
    D.status w n d = .waiting ∧ ∃ k moment, (k = 0 ∨ D.status w n.other d = .gone) ∧
      message = .HANDSHAKE (P2PServer.hello (D.opts n.other) moment) ∧
      rest = List.replicate k .close := by
  obtain ⟨k, hk, ⟨hwaiting, moment, hhello⟩ | ⟨-, hcloses⟩⟩ := h
  · rw [hwire, helloOf, List.cons.injEq, Packet.frame.injEq] at hhello
    exact ⟨hwaiting, k, moment, hk, hhello⟩
  · rw [hwire] at hcloses
    cases k with
    | zero => cases hcloses
    | succ k => cases hcloses

/-- A side gets a close only when the other one has given up the connection. -/
theorem Pending.close (h : D.Pending w n d) (hwire : w.wire n d = .close :: rest) :
    (D.status w n d = .linked ∨ D.status w n d = .gone) ∧ D.status w n.other d = .gone ∧
      ∃ k, rest = List.replicate k .close := by
  obtain ⟨k, hk, ⟨-, moment, hhello⟩ | ⟨hstatus, hcloses⟩⟩ := h
  · rw [hwire] at hhello
    cases hhello
  · rw [hwire] at hcloses
    cases k with
    | zero => cases hcloses
    | succ k =>
      rw [replicate_succ, List.cons.injEq] at hcloses
      exact ⟨hstatus, hk.resolve_left k.succ_ne_zero, k, hcloses.2⟩

theorem change_frame {message : WireMessage} (hinv : D.Inv w) (hstage : w.stage d = .opened)
    (hwire : w.wire n d = .frame message :: rest) :
    D.Change w (D.handle (w.setWire n d rest) n moment (.frame (D.peerId n d) (.ok message)))
      (.deliver n d moment) := by
  obtain ⟨hwaiting, k, moment', hk, rfl, rfl⟩ := (hinv.at hstage n).frame hwire
  have heffect := @P2PServer.effect_hello (D.opts n) moment (w.server n) (D.peerId n d)
    (D.opts n.other) moment' (D.other_node n) (D.same_identity n) (hinv.clear.allowed n) hwaiting
  have hkeep : ∀ status, D.status w n d = .gone → status = Status.gone := by
    intro status hgone
    cases hwaiting.symm.trans hgone
  -- the side waits on this connection, so a link it has is by the other one
  have hfind : ((w.server n).findPeer (D.opts n.other).nodeId).isSome ↔
      D.status w n d.other = .linked := by
    rw [findPeer_isSome_iff hinv.clear]
    refine ⟨?_, fun h => ⟨_, h⟩⟩
    rintro ⟨d', hlinked⟩
    rcases d'.eq_or d with rfl | rfl
    · cases hwaiting.symm.trans hlinked
    · exact hlinked
  split_ifs at heffect with hfound
  · have hlocal := local_handle (w := w.setWire n d (List.replicate k .close)) heffect
    exact .of_delivery (j := 1) hinv hstage hlocal (.inr rfl) hk (.inr rfl) (hkeep _)
      (fun _ => .inr ⟨⟨_, _, hwire⟩, hfind.1 hfound⟩) (fun _ => rfl)
  · have hlocal := local_handle (w := w.setWire n d (List.replicate k .close)) heffect
    exact .of_delivery (j := 0) hinv hstage hlocal (.inl rfl) hk (.inl rfl) (hkeep _)
      (fun h => Status.noConfusion h) (fun hcross => absurd (hfind.2 hcross.2) hfound)

theorem change_close (hinv : D.Inv w) (hstage : w.stage d = .opened)
    (hwire : w.wire n d = .close :: rest) (closing : Bool) :
    D.Change w ((D.handle (w.setWire n d rest) n moment (.closed (D.peerId n d))).answerClose n d
      closing) (.deliver n d moment) := by
  obtain ⟨hstatus, hgone, k, rfl⟩ := (hinv.at hstage n).close hwire
  have hpresent : D.status w n d ≠ .absent := by
    rcases hstatus with h | h <;> rw [h] <;> exact Status.noConfusion
  obtain ⟨peer, hpeer⟩ := P2PServer.exists_of_status hpresent
  have heffect := @P2PServer.effect_closed (D.opts n) moment (w.server n) (D.opts n.other).nodeId _
    peer hpeer
  have hlocal := local_handle (w := w.setWire n d (List.replicate k .close)) heffect
  refine .of_delivery hinv hstage (hlocal.answerClose closing) (.inr rfl) (.inr hgone) (.inr rfl)
    (fun _ => rfl) (fun _ => .inl ⟨_, hgone⟩) ?_
  rintro ⟨⟨message, rest', hframe⟩, -⟩
  cases hwire.symm.trans hframe

end Delivery

theorem next_change (hinv : D.Inv w) (h : D.next w e = some w') : D.Change w w' e := by
  cases e with
  | dial d moment => exact change_dial hinv h
  | accept d moment => exact change_accept hinv h
  | opened d moment => exact change_opened hinv h
  | deliver n d moment =>
    have hstage := stage_of_deliver hinv h
    simp only [next, hstage, ne_eq, not_true_eq_false, and_false, if_false] at h
    cases hwire : w.wire n d with
    | nil => simp [hwire] at h
    | cons packet rest =>
      cases packet with
      | frame message =>
        simp only [hwire, Option.some.injEq] at h
        exact h ▸ change_frame hinv hstage hwire
      | close =>
        simp only [hwire, Option.some.injEq] at h
        exact h ▸ change_close hinv hstage hwire _

/-! ## Runs -/

/-- A connection that no side has given up. -/
def Alive (D : Dialling) (w : DialWorld) : Prop := ∃ d, ∀ n, D.status w n d ≠ .gone

/-- An event leaves a connection alive if there was one, and the event is a safe one. -/
theorem Change.alive_iff (h : D.Change w w' e) : D.Alive w' ↔ D.Alive w ∧ D.Safe w e := by
  constructor
  · rintro ⟨d, hd⟩
    refine ⟨⟨d, fun n hgone => hd n (h.gone n d hgone)⟩, ?_⟩
    cases e with
    | deliver n d' moment =>
      intro hframe hlinked hgone
      rcases d.eq_or d' with rfl | rfl
      · exact hd n (h.refused n d moment rfl ⟨hframe, hlinked⟩)
      · exact hd _ (h.gone _ _ hgone)
    | dial | accept | opened => trivial
  · rintro ⟨⟨d, hd⟩, hsafe⟩
    by_contra hdead
    simp only [Alive, not_exists, not_forall, not_not] at hdead
    obtain ⟨n, hn⟩ := hdead d
    obtain ⟨n', hn'⟩ := hdead d.other
    -- the connection was given up for the other one, which is alive before the event
    obtain ⟨n'', hgone⟩ | ⟨moment, rfl, hframe, hlinked⟩ := h.dead n d hn
    · exact hd n'' hgone
    · obtain ⟨n'', hgone⟩ | ⟨moment', heq, -⟩ := h.dead n' d.other hn'
      · rcases n''.eq_or n with rfl | rfl
        · cases hlinked.symm.trans hgone
        · exact hsafe hframe hlinked hgone
      · cases d <;> cases heq

theorem run_alive_iff {events : List DialEvent} (hinv : D.Inv w) (h : D.run w events = some w') :
    D.Inv w' ∧ (D.Alive w' ↔ D.Alive w ∧ D.SafeRun w events) := by
  induction events generalizing w with
  | nil =>
    cases h
    exact ⟨hinv, by simp [SafeRun]⟩
  | cons e events ih =>
    obtain ⟨w₁, hnext, hrun⟩ := Option.bind_eq_some_iff.1 h
    have hchange := next_change hinv hnext
    obtain ⟨hinv', halive⟩ := ih hchange.inv hrun
    refine ⟨hinv', ?_⟩
    rw [halive, hchange.alive_iff, SafeRun, and_assoc]
    simp [hnext]

theorem Start.absent (h : D.Start w) (n d : Side) : D.status w n d = .absent := by
  rw [Dialling.status, P2PServer.status, h.fresh]

theorem Start.inv (h : D.Start w) : D.Inv w := by
  refine ⟨⟨h.allowed, fun n peerId peer hget hlisted hid => ?_⟩, fun d => ?_⟩
  · exact absurd hid (P2PServer.findPeer_eq_none.1 (h.unknown n) _ peer hget hlisted)
  · rw [Phase, h.idle]
    exact ⟨h.absent _ _, h.absent _ _, h.silent _ _, h.silent _ _⟩

theorem Start.alive (h : D.Start w) : D.Alive w := by
  refine ⟨.A, fun n => ?_⟩
  rw [h.absent]
  exact Status.noConfusion

/-- When nothing is on the way, a connection that is alive is a link. -/
theorem Complete.linked_iff (hinv : D.Inv w) (h : Complete w) : D.Linked w ↔ D.Alive w := by
  constructor
  · rintro ⟨d, hd⟩
    refine ⟨d, fun n => ?_⟩
    rw [hd n]
    exact Status.noConfusion
  · rintro ⟨d, hd⟩
    refine ⟨d, fun n => ?_⟩
    obtain ⟨k, -, ⟨-, moment, hhello⟩ | ⟨hstatus, -⟩⟩ := hinv.at (h.1 d) n
    · rw [h.2] at hhello
      cases hhello
    · exact hstatus.resolve_right (hd n)

/-- Two nodes that dial each other are left with a link if and only if no side ever refuses a
    connection for one that the other side has given up. -/
theorem linked_iff_safe {w₀ : DialWorld} {events : List DialEvent} (hstart : D.Start w₀)
    (hrun : D.run w₀ events = some w) (hcomplete : Complete w) :
    D.Linked w ↔ D.SafeRun w₀ events := by
  obtain ⟨hinv, halive⟩ := run_alive_iff hstart.inv hrun
  rw [hcomplete.linked_iff hinv, halive]
  exact and_iff_right hstart.alive

end Dialling

def Side.nodeId : Side → Text
  | .A => lit "a"
  | .B => lit "b"

/-- Two nodes of one network. -/
def neighbours : Dialling where
  opts n := { P2PServer.strictOptions with nodeId := n.nodeId }
  peerId n d := if n = d then lit "outbound" else lit "inbound"
  url _ := lit "url"
  ip _ := lit "ip"
  other_node n := by cases n <;> decide
  same_identity _ := rfl
  peerId_ne n d := by cases n <;> cases d <;> decide

def strangers : DialWorld := ⟨fun _ => .init, fun _ => .idle, fun _ _ => []⟩

theorem start_strangers : neighbours.Start strangers :=
  ⟨fun _ => rfl, fun _ _ => rfl, fun _ _ => rfl, fun _ => rfl, fun _ => rfl⟩

section Samples

open DialEvent P2PServer

/-- One connection is a link before the other one is dialled. -/
def inTurn : List DialEvent :=
  [.dial .A peerMoment, .accept .A peerMoment, .opened .A peerMoment, .deliver .A .A peerMoment,
    .deliver .B .A peerMoment, .dial .B peerMoment, .accept .B peerMoment, .opened .B peerMoment,
    .deliver .A .B peerMoment, .deliver .B .B peerMoment, .deliver .B .B peerMoment,
    .deliver .A .B peerMoment]

/-- Each side gets the handshake over the connection it dialled first. -/
def crossing : List DialEvent :=
  [.dial .A peerMoment, .dial .B peerMoment, .accept .A peerMoment, .accept .B peerMoment,
    .opened .A peerMoment, .opened .B peerMoment, .deliver .A .A peerMoment,
    .deliver .B .B peerMoment, .deliver .A .B peerMoment, .deliver .B .A peerMoment,
    .deliver .A .A peerMoment, .deliver .B .B peerMoment, .deliver .A .B peerMoment,
    .deliver .B .A peerMoment]

end Samples

theorem run_inTurn : (neighbours.run strangers inTurn).isSome := by decide +kernel

theorem run_crossing : (neighbours.run strangers crossing).isSome := by decide +kernel

theorem linked_inTurn : ∃ w, neighbours.run strangers inTurn = some w ∧ Dialling.Complete w ∧
    neighbours.Linked w ∧ neighbours.SafeRun strangers inTurn := by
  have hcomplete : Dialling.Complete ((neighbours.run strangers inTurn).get run_inTurn) := by
    refine ⟨?_, ?_⟩
    · rintro (_ | _) <;> decide +kernel
    · rintro (_ | _) (_ | _) <;> decide +kernel
  have hlinked : neighbours.Linked ((neighbours.run strangers inTurn).get run_inTurn) := by
    refine ⟨.A, ?_⟩
    rintro (_ | _) <;> decide +kernel
  have hrun := (Option.some_get run_inTurn).symm
  exact ⟨_, hrun, hcomplete, hlinked,
    (Dialling.linked_iff_safe start_strangers hrun hcomplete).1 hlinked⟩

/-- Each side refuses the connection that the other one has kept. -/
theorem unlinked_crossing : neighbours.Start strangers ∧
    ∃ w, neighbours.run strangers crossing = some w ∧ Dialling.Complete w ∧
      ¬neighbours.Linked w := by
  refine ⟨start_strangers, _, (Option.some_get run_crossing).symm, ⟨?_, ?_⟩, ?_⟩
  · rintro (_ | _) <;> decide +kernel
  · rintro (_ | _) (_ | _) <;> decide +kernel
  · rintro ⟨d, hd⟩
    cases d with
    | A => exact absurd (hd .A) (by decide +kernel)
    | B => exact absurd (hd .B) (by decide +kernel)

end Plainchain
