import Plainchain.Network.P2pServer

/-!
# Identities of connections

What a run of inputs does to the identities that connections hold. An input keeps
the identity of every listed connection, except that an accepted handshake gives
its connection a new one (`SocketStep.listed`); nothing asks whether it had one
already.

* `Reaches`: runs of a server whose inputs all meet a condition;
* `unique`: no two listed connections have the same identity, in any run;
* `one_identity`: in runs where no connection is accepted a second time, an
  identity stays, and a penalty for a message finds the connection it came by;
* `refused_silent_iff`: which frames of a refused connection still reach the node.
  They do so by what the peer object says, and refusing it for its network or its
  rules, or because it is banned, even gives it an identity.
-/

namespace Plainchain

open Js Kv List

namespace P2PServer

section Step

variable (opts : P2PServerOptions)

/-- The handshake of a node that is accepted. -/
structure Acceptable (moment : Moment) (s : P2PServer) (payload : HandshakePayload) : Prop where
  other : payload.nodeId ≠ opts.nodeId
  network : ¬otherNetwork opts payload
  rules : ¬otherRules opts payload
  allowed : (s.reputation.isBanned payload.nodeId moment.now).1 = false
  unknown : s.findPeer payload.nodeId = none

theorem acceptable_clear {opts : P2PServerOptions} {moment : Moment} {s : P2PServer}
    {payload : HandshakePayload} :
    Acceptable opts moment { s with emitted := [] } payload ↔ Acceptable opts moment s payload :=
  ⟨fun ⟨h₁, h₂, h₃, h₄, h₅⟩ => ⟨h₁, h₂, h₃, h₄, h₅⟩,
    fun ⟨h₁, h₂, h₃, h₄, h₅⟩ => ⟨h₁, h₂, h₃, h₄, h₅⟩⟩

/-- The ids of new peers are new. -/
def Fresh (s : P2PServer) : Input → Prop
  | .connection peerId _ => s.sockets.get peerId = none
  | .connect peerId _ => s.sockets.get peerId = none
  | _ => True

/-- The runs of a server whose inputs all meet the condition `P`. -/
inductive Reaches (P : Moment → P2PServer → Input → Prop) (s : P2PServer) : P2PServer → Prop
  | refl : Reaches P s s
  | next {s' : P2PServer} {moment : Moment} {input : Input} : Reaches P s s' → Fresh s' input →
      P moment s' input → Reaches P s (handle opts moment s' input)

/-- A server that has just been made. -/
def init : P2PServer := ⟨.empty, .empty, []⟩

end Step

/-! ## One input -/

variable {peerId : Text} {input : Input}

section Inversion

variable {opts : P2PServerOptions} {moment : Moment} {s s' : P2PServer}

variable (opts moment s) in
/-- The handshake of an acceptable node is accepted, any other is refused. -/
theorem onHandshake_cases (peerId : Text) (payload : HandshakePayload) :
    (Acceptable opts moment s payload ∧ ∃ reputation, onHandshake opts moment s peerId payload =
      { s with reputation }.acceptHandshake peerId payload) ∨
    (¬Acceptable opts moment s payload ∧ ∃ reputation,
      onHandshake opts moment s peerId payload = { s with reputation }.closeRedundant peerId ∨
      ∃ reason, onHandshake opts moment s peerId payload =
        { s with reputation }.dropNode peerId payload.nodeId reason) := by
  rw [onHandshake]
  split_ifs with hself hnetwork hrules
  · exact .inr ⟨fun h => h.other hself, s.reputation, .inl rfl⟩
  · exact .inr ⟨fun h => h.network hnetwork, s.reputation, .inr ⟨_, rfl⟩⟩
  · exact .inr ⟨fun h => h.rules hrules, s.reputation, .inr ⟨_, rfl⟩⟩
  · rcases hbanned : s.reputation.isBanned payload.nodeId moment.now with ⟨banned, reputation⟩
    cases banned with
    | true =>
      refine .inr ⟨fun h => ?_, reputation, .inr ⟨_, rfl⟩⟩
      have := h.allowed
      rw [hbanned] at this
      cases this
    | false =>
      -- Looking for the node does not depend on the reputations.
      have hfind : { s with reputation }.findPeer payload.nodeId = s.findPeer payload.nodeId := rfl
      dsimp only
      rw [hfind]
      cases hknown : s.findPeer payload.nodeId with
      | some found =>
        refine .inr ⟨fun h => ?_, reputation, .inl rfl⟩
        have := h.unknown
        rw [hknown] at this
        cases this
      | none =>
        exact .inl ⟨⟨hself, hnetwork, hrules, by rw [hbanned], hknown⟩, reputation, rfl⟩

/-- A change that leaves the identity of a peer, or unlists it. -/
def Tame (f : Peer → Peer) : Prop :=
  ∀ peer, (f peer).listed → peer.listed ∧ (f peer).remoteNodeId = peer.remoteNodeId

/-- What an input does to the peers. -/
inductive SocketStep (opts : P2PServerOptions) (moment : Moment) (s : P2PServer) (input : Input)
    (sockets' : OrdMap Text Peer) : Prop
  | same : sockets' = s.sockets → SocketStep opts moment s input sockets'
  | register {peerId : Text} {direction : PeerDirection} {ip : Option Text} :
      s.sockets.get peerId = none → sockets' = (s.registerPeer peerId direction ip).sockets →
      SocketStep opts moment s input sockets'
  | change {peerId : Text} {f : Peer → Peer} : Changes s.sockets sockets' peerId f → Tame f →
      SocketStep opts moment s input sockets'
  | accept {peerId : Text} {payload : HandshakePayload} :
      input = .frame peerId (.ok (.HANDSHAKE payload)) → Acceptable opts moment s payload →
      Changes s.sockets sockets' peerId (fun peer => peer.handshaked payload) →
      SocketStep opts moment s input sockets'

variable {s₀ : P2PServer} {sockets' : OrdMap Text Peer}

theorem SocketStep.of_changes (h : s₀.sockets = s.sockets) {f : Peer → Peer}
    (hchange : Changes s₀.sockets sockets' peerId f) (htame : Tame f) :
    SocketStep opts moment s input sockets' := by
  rw [h] at hchange
  exact .change hchange htame

theorem SocketStep.closeRedundant (h : s₀.sockets = s.sockets) (peerId : Text) :
    SocketStep opts moment s input (s₀.closeRedundant peerId).sockets :=
  .of_changes h changes_closeRedundant (by simp [Tame])

theorem SocketStep.drop (h : s₀.sockets = s.sockets) (peerId reason : Text) :
    SocketStep opts moment s input (s₀.drop peerId reason).sockets :=
  .of_changes h (changes_drop reason) (by simp [Tame])

theorem SocketStep.dropNode (h : s₀.sockets = s.sockets) (peerId nodeId reason : Text) :
    SocketStep opts moment s input (s₀.dropNode peerId nodeId reason).sockets :=
  .of_changes h (changes_dropNode nodeId reason) (by simp [Tame])

theorem socketStep_onHandshake (peerId : Text) (payload : HandshakePayload) :
    SocketStep opts moment s (.frame peerId (.ok (.HANDSHAKE payload)))
      (onHandshake opts moment { s with emitted := [] } peerId payload).sockets := by
  rcases onHandshake_cases opts moment { s with emitted := [] } peerId payload with
    ⟨hacceptable, reputation, heq⟩ | ⟨-, reputation, heq | ⟨reason, heq⟩⟩
  · exact .accept rfl (acceptable_clear.1 hacceptable)
      (by rw [heq]; exact changes_acceptHandshake payload)
  · rw [heq]
    exact .closeRedundant (by rfl) peerId
  · rw [heq]
    exact .dropNode (by rfl) peerId payload.nodeId reason

theorem socketStep_onMessage (peerId : Text) (message : WireMessage) :
    SocketStep opts moment s (.frame peerId (.ok message))
      (onMessage opts moment { s with emitted := [] } peerId message).sockets := by
  rw [onMessage.eq_def]
  split
  · exact socketStep_onHandshake peerId _
  · split
    · exact .drop (by rfl) peerId _
    · exact .same rfl

theorem socketStep_penalize (h : s₀.sockets = s.sockets) (nodeId : Text) (points : ℕ)
    (reason : Text) :
    SocketStep opts moment s input (penalize opts moment s₀ nodeId points reason).sockets := by
  rw [penalize]
  split
  · exact .same h
  · split
    · exact .same h
    · exact .of_changes h (changes_close _ _) fun _ hlisted => ⟨hlisted, rfl⟩

variable (opts moment) in
/-- The step of every input. -/
theorem handle_socketStep (hfresh : Fresh s input) :
    SocketStep opts moment s input (handle opts moment s input).sockets := by
  cases input with
  | connection peerId ip =>
    simp only [handle, onConnection]
    split_ifs
    · exact .same rfl
    · exact .same rfl
    · exact .register hfresh rfl
  | connect peerId url =>
    simp only [handle, connect]
    split
    · exact .same rfl
    · split_ifs
      · exact .same rfl
      · exact .register hfresh rfl
  | opened peerId =>
    simp only [handle]
    split_ifs <;> exact .same rfl
  | frame peerId frame =>
    simp only [handle]
    split_ifs
    · cases frame with
      | error error => exact .drop (by rfl) peerId _
      | ok message => exact socketStep_onMessage peerId message
    · exact .same rfl
  | socketError peerId error =>
    simp only [handle]
    split_ifs
    · exact .drop (by rfl) peerId _
    · exact .same rfl
  | handshakeTimeout peerId =>
    simp only [handle]
    split_ifs
    · exact .drop (by rfl) peerId _
    · exact .same rfl
  | closed peerId =>
    simp only [handle]
    split_ifs
    · exact .change changes_forget (by simp [Tame])
    · exact .same rfl
  | penalize nodeId points reason => exact socketStep_penalize (by rfl) nodeId points reason
  | broadcast message excludeNodeId => exact .same (sockets_broadcast message excludeNodeId)
  | send nodeId message =>
    simp only [handle, send]
    split <;> exact .same rfl

/-! ## What a step keeps -/

/-- How a connection came to be listed with the identity it has. -/
inductive Listed (opts : P2PServerOptions) (moment : Moment) (s : P2PServer) (input : Input)
    (peerId : Text) : Option Text → Prop
  /-- It is new. -/
  | registered : s.sockets.get peerId = none → Listed opts moment s input peerId none
  /-- It was so before. -/
  | kept {peer : Peer} : s.sockets.get peerId = some peer → peer.listed →
      Listed opts moment s input peerId peer.remoteNodeId
  /-- Its handshake was just accepted. -/
  | accepted {peer : Peer} {payload : HandshakePayload} : s.sockets.get peerId = some peer →
      peer.listed → input = .frame peerId (.ok (.HANDSHAKE payload)) →
      Acceptable opts moment s payload → Listed opts moment s input peerId (some payload.nodeId)

theorem SocketStep.listed (h : SocketStep opts moment s input sockets') {peer' : Peer}
    (hget : sockets'.get peerId = some peer') (hlisted : peer'.listed) :
    Listed opts moment s input peerId peer'.remoteNodeId := by
  cases h with
  | same hsame =>
    rw [hsame] at hget
    exact .kept hget hlisted
  | register hnew hregister =>
    rw [hregister, registerPeer, OrdMap.get_set] at hget
    split_ifs at hget with heq
    · cases hget
      exact .registered (heq ▸ hnew)
    · exact .kept hget hlisted
  | change hchange htame =>
    rw [hchange] at hget
    split_ifs at hget with heq
    · obtain ⟨peer, hpeer, rfl⟩ := Option.map_eq_some_iff.1 hget
      obtain ⟨hlisted', hid⟩ := htame peer hlisted
      rw [hid]
      exact .kept (heq ▸ hpeer) hlisted'
    · exact .kept hget hlisted
  | accept hinput hacceptable haccept =>
    rw [haccept] at hget
    split_ifs at hget with heq
    · obtain ⟨peer, hpeer, rfl⟩ := Option.map_eq_some_iff.1 hget
      subst heq
      exact .accepted hpeer hlisted hinput hacceptable
    · exact .kept hget hlisted

theorem Changes.isSome {sockets : OrdMap Text Peer} {peerId' : Text} {f : Peer → Peer}
    (h : Changes sockets sockets' peerId' f) (hget : (sockets.get peerId).isSome) :
    (sockets'.get peerId).isSome := by
  rw [h]
  split_ifs with heq
  · rwa [Option.isSome_map, ← heq]
  · exact hget

/-- No peer object goes away. -/
theorem SocketStep.isSome (h : SocketStep opts moment s input sockets')
    (hget : (s.sockets.get peerId).isSome) : (sockets'.get peerId).isSome := by
  cases h with
  | same hsame => rwa [hsame]
  | register hnew hregister =>
    rw [hregister, registerPeer, OrdMap.get_set]
    split_ifs
    · rfl
    · exact hget
  | change hchange _ => exact hchange.isSome hget
  | accept _ _ haccept => exact haccept.isSome hget

end Inversion

/-! ## Runs -/

section Runs

variable {opts : P2PServerOptions} {moment : Moment} {s s' : P2PServer}
  {P : Moment → P2PServer → Input → Prop}

/-- No two listed connections are of the same node. -/
def Unique (s : P2PServer) : Prop :=
  ∀ ⦃peerId peerId' : Text⦄ ⦃peer peer' : Peer⦄ ⦃nodeId : Text⦄,
    s.sockets.get peerId = some peer → peer.listed → peer.remoteNodeId = some nodeId →
    s.sockets.get peerId' = some peer' → peer'.listed → peer'.remoteNodeId = some nodeId →
    peerId = peerId'

theorem Unique.handle (hu : Unique s) (hfresh : Fresh s input) :
    Unique (handle opts moment s input) := by
  have hstep := handle_socketStep opts moment hfresh
  intro peerId peerId' peer peer' nodeId hget hlisted hid hget' hlisted' hid'
  have h := hstep.listed hget hlisted
  have h' := hstep.listed hget' hlisted'
  generalize hn : peer.remoteNodeId = n at h
  generalize hn' : peer'.remoteNodeId = n' at h'
  cases h with
  | registered _ => cases hid.symm.trans hn
  | kept hpeer hplisted =>
    cases h' with
    | registered _ => cases hid'.symm.trans hn'
    | kept hpeer' hplisted' =>
      exact hu hpeer hplisted (hn.symm.trans hid) hpeer' hplisted' (hn'.symm.trans hid')
    | accepted _ _ _ hacceptable =>
      exact absurd (hn.symm.trans (hid.trans (hid'.symm.trans hn')))
        (findPeer_eq_none.1 hacceptable.unknown _ _ hpeer hplisted)
  | accepted _ _ hinput hacceptable =>
    cases h' with
    | registered _ => cases hid'.symm.trans hn'
    | kept hpeer' hplisted' =>
      exact absurd (hn'.symm.trans (hid'.trans (hid.symm.trans hn)))
        (findPeer_eq_none.1 hacceptable.unknown _ _ hpeer' hplisted')
    | accepted _ _ hinput' _ =>
      rw [hinput] at hinput'
      cases hinput'
      rfl

/-- In every run no two listed connections are of the same node. -/
theorem Reaches.unique (h : Reaches opts P s s') (hu : Unique s) : Unique s' := by
  induction h with
  | refl => exact hu
  | next _ hfresh _ ih => exact ih.handle hfresh

theorem Reaches.isSome (h : Reaches opts P s s') (hget : (s.sockets.get peerId).isSome) :
    (s'.sockets.get peerId).isSome := by
  induction h with
  | refl => exact hget
  | next _ hfresh _ ih => exact (handle_socketStep opts _ hfresh).isSome ih

theorem unique_init : Unique init := by
  intro _ _ _ _ _ hget
  cases hget

/-- No connection that has an identity is accepted again. -/
def Steady (opts : P2PServerOptions) (moment : Moment) (s : P2PServer) (input : Input) : Prop :=
  ∀ peerId peer payload, input = .frame peerId (.ok (.HANDSHAKE payload)) →
    s.sockets.get peerId = some peer → peer.listed → peer.remoteNodeId ≠ none →
    ¬Acceptable opts moment s payload

variable {nodeId : Text}

/-- The identity of a connection that is still listed. -/
theorem Reaches.identity (h : Reaches opts (Steady opts) s s') {peer peer' : Peer}
    (hget : s.sockets.get peerId = some peer) (hid : peer.remoteNodeId = some nodeId)
    (hget' : s'.sockets.get peerId = some peer') (hlisted : peer'.listed) :
    peer'.remoteNodeId = some nodeId := by
  induction h generalizing peer' with
  | refl =>
    rw [hget] at hget'
    cases hget'
    exact hid
  | next hrun hfresh hsteady ih =>
    have hsome := hrun.isSome (Option.isSome_of_eq_some hget)
    have h := (handle_socketStep opts _ hfresh).listed hget' hlisted
    generalize peer'.remoteNodeId = n at h
    cases h with
    | registered hnew =>
      rw [hnew] at hsome
      cases hsome
    | kept hpeer hplisted => exact ih hpeer hplisted
    | accepted hpeer hplisted hinput hacceptable =>
      have hne := ih hpeer hplisted
      exact absurd hacceptable (hsteady _ _ _ hinput hpeer hplisted (by simp [hne]))

/-- A listed connection is the one that its node is found by. -/
theorem Unique.findPeer (hu : Unique s) {peer : Peer} (hget : s.sockets.get peerId = some peer)
    (hlisted : peer.listed) (hid : peer.remoteNodeId = some nodeId) :
    s.findPeer nodeId = some (peerId, peer) := by
  cases hfind : s.findPeer nodeId with
  | none => exact absurd hid (findPeer_eq_none.1 hfind _ _ hget hlisted)
  | some found =>
    obtain ⟨peerId', peer'⟩ := found
    obtain ⟨hget', hlisted', hid'⟩ := findPeer_eq_some hfind
    cases hu hget hlisted hid hget' hlisted' hid'
    rw [hget] at hget'
    cases hget'
    rfl

/-- Points are added to the score of a key that is not banned. -/
theorem scores_penalize {r : PeerReputation} {key : Text} {now : ℕ}
    (h : (r.isBanned key now).1 = false) (banThreshold banDurationMs points : ℕ) :
    (r.penalize key now banThreshold banDurationMs points).2.scores.get key =
      some (((r.isBanned key now).2.scores.get key).getD 0 + points) := by
  rcases hbanned : r.isBanned key now with ⟨banned, r'⟩
  rw [hbanned] at h
  cases h
  rw [PeerReputation.penalize, hbanned]
  dsimp only
  split_ifs
  · rw [PeerReputation.ban, OrdMap.get_set, if_pos rfl]
  · rw [OrdMap.get_set, if_pos rfl]

/-- A penalty is charged to the node that a peer is found by. -/
theorem scores_handle_penalize {found : Text × Peer} (hfind : s.findPeer nodeId = some found)
    (points : ℕ) (reason : Text) :
    (handle opts moment s (.penalize nodeId points reason)).reputation.scores =
      (s.reputation.penalize nodeId moment.now opts.banThreshold opts.banDurationMs
        points).2.scores := by
  have hfind' : { s with emitted := [] }.findPeer nodeId = some found := hfind
  simp only [handle, penalize, hfind']
  split
  · next heq => rw [heq]
  · next heq =>
    rw [heq, close, output, reputation_update, emit, output]
    split <;> rfl

/-- A message reaches the node under the identity of the connection it came by. -/
theorem message_onMessage {message message' : WireMessage}
    (h : .emit (.message message' nodeId) ∈
      (onMessage opts moment { s with emitted := [] } peerId message).emitted) :
    (s.sockets.get peerId).bind (·.remoteNodeId) = some nodeId := by
  rw [onMessage.eq_def] at h
  split at h
  · -- A handshake is never handed on.
    next payload =>
    rcases onHandshake_cases opts moment { s with emitted := [] } peerId payload with
      ⟨-, reputation, heq⟩ | ⟨-, reputation, heq | ⟨reason, heq⟩⟩ <;>
      simp [heq, acceptHandshake, closeRedundant, dropNode, drop, close, forget, emit, output] at h
  · split at h
    · simp [drop, close, forget, emit, output] at h
    · next hid =>
      simp only [emit, output, nil_append, mem_singleton, Output.emit.injEq,
        PeerEvent.message.injEq] at h
      rw [h.2]
      exact hid

theorem message_handle {frame : Except Text WireMessage} {message : WireMessage}
    (h : .emit (.message message nodeId) ∈ (handle opts moment s (.frame peerId frame)).emitted) :
    ∃ peer, s.sockets.get peerId = some peer ∧ peer.remoteNodeId = some nodeId := by
  simp only [handle] at h
  split_ifs at h with hsome
  · cases frame with
    | error error => simp [onMalformed, drop, close, forget, emit, output] at h
    | ok message' => exact Option.bind_eq_some_iff.1 (message_onMessage h)
  · cases h

/-- In runs where no connection is accepted a second time, connections keep their
    identities and do not share them, and a penalty for a message is charged to the
    identity that its connection holds, as long as it is there. -/
theorem one_identity (h : Reaches opts (Steady opts) init s)
    (h' : Reaches opts (Steady opts) s s') :
    Unique s' ∧
    (∀ peerId peer peer' nodeId, s.sockets.get peerId = some peer →
      peer.remoteNodeId = some nodeId → s'.sockets.get peerId = some peer' → peer'.listed →
      peer'.remoteNodeId = some nodeId) ∧
    ∀ peerId frame message nodeId peer' moment moment' points reason,
      .emit (.message message nodeId) ∈ (handle opts moment s (.frame peerId frame)).emitted →
      s'.sockets.get peerId = some peer' → peer'.listed →
      peer'.remoteNodeId = some nodeId ∧ s'.findPeer nodeId = some (peerId, peer') ∧
      ((s'.reputation.isBanned nodeId moment'.now).1 = false →
        (handle opts moment' s' (.penalize nodeId points reason)).reputation.scores.get nodeId =
          some (((s'.reputation.isBanned nodeId moment'.now).2.scores.get nodeId).getD 0
            + points)) := by
  have hunique := h'.unique (h.unique unique_init)
  refine ⟨hunique, fun _ _ _ _ hget hid => h'.identity hget hid, ?_⟩
  intro peerId frame message nodeId peer' moment moment' points reason hmessage hget' hlisted
  obtain ⟨peer, hget, hid⟩ := message_handle hmessage
  have hid' := h'.identity hget hid hget' hlisted
  have hfind := hunique.findPeer hget' hlisted hid'
  refine ⟨hid', hfind, fun hallowed => ?_⟩
  rw [scores_handle_penalize hfind, scores_penalize hallowed]

/-! ## A run -/

def peerOptions : P2PServerOptions := ⟨lit "me", none, 8, 8, 100, 1000, 0⟩

def peerMoment : Moment := ⟨0, 0, none⟩

def handshakeOf (nodeId : Text) : Input :=
  .frame (lit "p") (.ok (.HANDSHAKE ⟨.null, nodeId, .null, none, none, none, none⟩))

/-- A server that has accepted the handshake of one connection. -/
def greeted : P2PServer :=
  handle peerOptions peerMoment
    (handle peerOptions peerMoment init (.connection (lit "p") (lit "ip"))) (handshakeOf (lit "x"))

theorem greeted_peer : greeted.sockets.get (lit "p") =
    some ⟨.inbound, some (lit "x"), some .null, none, some (lit "ip"), false, true, false⟩ := rfl

theorem reaches_greeted : Reaches peerOptions (Steady peerOptions) init greeted := by
  refine .next (.next .refl rfl ?_) trivial ?_
  · rintro _ _ _ ⟨⟩
  · -- The connection has no identity before its handshake.
    rintro _ peer _ ⟨⟩ hget - hid
    cases hget
    exact absurd rfl hid

theorem one_identity_greeted : ∃ peer', greeted.sockets.get (lit "p") = some peer' ∧
    peer'.listed ∧ .emit (.message .GET_PEERS (lit "x")) ∈
      (handle peerOptions peerMoment greeted (.frame (lit "p") (.ok .GET_PEERS))).emitted ∧
    peer'.remoteNodeId = some (lit "x") ∧ greeted.findPeer (lit "x") = some (lit "p", peer') := by
  have hmessage : .emit (.message .GET_PEERS (lit "x")) ∈
      (handle peerOptions peerMoment greeted (.frame (lit "p") (.ok .GET_PEERS))).emitted :=
    mem_singleton_self _
  have h := (one_identity reaches_greeted .refl).2.2 (lit "p") _ _ _ _ peerMoment peerMoment 0 []
    hmessage greeted_peer rfl
  exact ⟨_, greeted_peer, rfl, hmessage, h.1, h.2.1⟩

/-- A connection that handshakes again sheds the points of the message before. -/
theorem points_shed : Reaches peerOptions (fun _ _ _ => True) init greeted ∧
    (let asked := handle peerOptions peerMoment greeted (.frame (lit "p") (.ok .GET_PEERS))
    let renamed := handle peerOptions peerMoment asked (handshakeOf (lit "y"))
    let penalized := handle peerOptions peerMoment renamed (.penalize (lit "x") 100 [])
    asked.emitted = [.emit (.message .GET_PEERS (lit "x"))] ∧
    (renamed.sockets.get (lit "p")).map (fun peer => (peer.listed, peer.remoteNodeId)) =
      some (true, some (lit "y")) ∧
    renamed.findPeer (lit "x") = none ∧
    penalized.reputation = renamed.reputation ∧ penalized.emitted = []) :=
  ⟨.next (.next .refl rfl trivial) trivial trivial, rfl, rfl, rfl, rfl, rfl⟩

end Runs

/-! ## Frames after a refusal -/

section Silence

variable {opts : P2PServerOptions} {moment : Moment} {s s' : P2PServer}

/-- An event by which a connection reaches the node. -/
def loud : Output → Bool
  | .emit (.connected _ _) => true
  | .emit (.message _ _) => true
  | _ => false

/-- The last input let nothing reach the node. -/
def Silent (s : P2PServer) : Prop := ∀ o ∈ s.emitted, loud o = false

instance : Decidable (Silent s) := inferInstanceAs (Decidable (∀ o ∈ s.emitted, _))

/-- The server has closed the connection. -/
def Refused (s : P2PServer) (peerId : Text) : Prop :=
  ∃ peer, s.sockets.get peerId = some peer ∧ peer.closing

/-- A frame that is malformed, a handshake that is not acceptable, or a message of a
    connection without an identity. -/
def Harmless (opts : P2PServerOptions) (moment : Moment) (s : P2PServer) (peerId : Text) :
    Except Text WireMessage → Prop
  | .error _ => True
  | .ok (.HANDSHAKE payload) => ¬Acceptable opts moment s payload
  | .ok _ => (s.sockets.get peerId).bind (·.remoteNodeId) = none

theorem emitted_closeRedundant (peerId : Text) :
    (s.closeRedundant peerId).emitted = s.emitted ++ [.socketClose peerId none []] := by
  simp [closeRedundant, close, output, forget]

theorem emitted_drop (peerId reason : Text) : ∃ name, (s.drop peerId reason).emitted =
    s.emitted ++ [.socketClose peerId (some CLOSE_POLICY_VIOLATION) reason] ++
      [.emit (.rejected name reason)] := by
  refine ⟨((s.forget peerId).close peerId (some CLOSE_POLICY_VIOLATION) reason).nameOf peerId, ?_⟩
  simp only [drop, emit, output, close, forget, emitted_update]

theorem silent_drop {reason : Text} (h : s.emitted = []) : Silent (s.drop peerId reason) := by
  obtain ⟨name, hemitted⟩ := emitted_drop (s := s) peerId reason
  intro o ho
  rw [hemitted, h] at ho
  simp only [nil_append, cons_append, mem_cons, not_mem_nil, or_false] at ho
  rcases ho with rfl | rfl <;> rfl

theorem silent_onHandshake_iff (h : s.emitted = []) (peerId : Text) (payload : HandshakePayload) :
    Silent (onHandshake opts moment s peerId payload) ↔ ¬Acceptable opts moment s payload := by
  rcases onHandshake_cases opts moment s peerId payload with
    ⟨hacceptable, reputation, heq⟩ | ⟨hnot, reputation, heq | ⟨reason, heq⟩⟩
  · -- The event of the connection is emitted.
    refine iff_of_false (fun hsilent => ?_) (not_not.2 hacceptable)
    have hmem : .emit (.connected payload.nodeId payload.height) ∈
        (onHandshake opts moment s peerId payload).emitted := by
      rw [heq]
      exact mem_append_right _ (mem_singleton_self _)
    exact Bool.noConfusion (hsilent _ hmem)
  · refine iff_of_true (fun o ho => ?_) hnot
    rw [heq, emitted_closeRedundant, h] at ho
    cases mem_singleton.1 ho
    rfl
  · refine iff_of_true ?_ hnot
    rw [heq]
    exact silent_drop (by rw [emitted_update, h])

theorem silent_onMessage_iff (h : s.emitted = []) (peerId : Text) (message : WireMessage) :
    Silent (onMessage opts moment s peerId message) ↔
      Harmless opts moment s peerId (.ok message) := by
  have hother : ∀ s', ((s.sockets.get peerId).bind (·.remoteNodeId) = none →
        s' = s.drop peerId (lit "message before handshake")) →
      (∀ nodeId, (s.sockets.get peerId).bind (·.remoteNodeId) = some nodeId →
        ∃ message, s' = s.emit (.message message nodeId)) →
      (Silent s' ↔ (s.sockets.get peerId).bind (·.remoteNodeId) = none) := by
    intro s' hnone hsome
    cases hid : (s.sockets.get peerId).bind (·.remoteNodeId) with
    | none =>
      rw [hnone hid]
      exact iff_of_true (silent_drop h) rfl
    | some nodeId =>
      obtain ⟨message, rfl⟩ := hsome nodeId hid
      refine iff_of_false (fun hsilent => ?_) (by simp)
      exact Bool.noConfusion
        (hsilent (.emit (.message message nodeId)) (mem_append_right _ (mem_singleton_self _)))
  cases message with
  | HANDSHAKE payload => exact silent_onHandshake_iff h peerId payload
  | _ =>
    unfold onMessage
    dsimp only
    refine hother _ (fun hid => ?_) fun nodeId hid => ?_
    · rw [hid]
    · rw [hid]
      exact ⟨_, rfl⟩

theorem harmless_clear {frame : Except Text WireMessage} :
    Harmless opts moment { s with emitted := [] } peerId frame ↔
      Harmless opts moment s peerId frame := by
  cases frame with
  | error error => rfl
  | ok message =>
    cases message with
    | HANDSHAKE payload => exact not_congr acceptable_clear
    | _ => rfl

/-- Once a connection was refused, a frame of it lets nothing reach the node
    exactly if it is harmless. -/
theorem refused_silent_iff {peerId : Text} (hrefused : Refused s peerId)
    (hrun : Reaches opts (fun _ _ _ => True) s s') (moment : Moment)
    (frame : Except Text WireMessage) :
    Silent (handle opts moment s' (.frame peerId frame)) ↔
      Harmless opts moment s' peerId frame := by
  obtain ⟨peer, hget, -⟩ := hrefused
  have hsome := hrun.isSome (Option.isSome_of_eq_some hget)
  simp only [handle, hsome, if_true]
  cases frame with
  | error error => exact iff_of_true (silent_drop rfl) trivial
  | ok message => exact (silent_onMessage_iff rfl peerId message).trans harmless_clear

def strictOptions : P2PServerOptions :=
  { peerOptions with identity := some ⟨lit "net", lit "genesis", none⟩ }

/-- A server that has refused the network of a connection. -/
def refusing : P2PServer :=
  handle strictOptions peerMoment
    (handle strictOptions peerMoment init (.connection (lit "p") (lit "ip")))
    (handshakeOf (lit "x"))

theorem refused_refusing : Refused refusing (lit "p") := ⟨_, rfl, rfl⟩

/-- The same server, once there is another connection. -/
def refusedBefore : P2PServer :=
  handle strictOptions peerMoment refusing (.connection (lit "q") (lit "ip"))

/-- Neither a malformed frame nor the same handshake again is heard of. -/
theorem refused_silent_malformed : Refused refusing (lit "p") ∧
    Silent (handle strictOptions peerMoment refusedBefore (.frame (lit "p") (.error []))) ∧
    Silent (handle strictOptions peerMoment refusedBefore (handshakeOf (lit "x"))) := by
  have hrun : Reaches strictOptions (fun _ _ _ => True) refusing refusedBefore :=
    .next .refl rfl trivial
  exact ⟨refused_refusing, (refused_silent_iff refused_refusing hrun peerMoment (.error [])).2 trivial,
    (refused_silent_iff refused_refusing hrun peerMoment (.ok (.HANDSHAKE _))).2 fun h =>
      h.network (by decide)⟩

/-- A message reaches the node by a connection that was refused for its network. -/
theorem refused_message : Refused refusing (lit "p") ∧
    (refusing.sockets.get (lit "p")).map (·.listed) = some false ∧
    (handle strictOptions peerMoment refusing (.frame (lit "p") (.ok .GET_PEERS))).emitted =
      [.emit (.message .GET_PEERS (lit "x"))] :=
  ⟨refused_refusing, rfl, rfl⟩

end Silence

end P2PServer

end Plainchain
