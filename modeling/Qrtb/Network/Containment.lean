import Qrtb.Network.PeerList

/-!
# What malformed peer data can do (`src/p2p.py`)

The messages of a handshake are read under a handler for every exception, and decoded
outside of it. A read loop decodes a peer list under a handler for connection errors
only. So an exception leaves the task exactly when the data cannot be decoded; sockets
are assumed to take what is written to them.
-/

namespace Qrtb

open Bytes

/-- How a task goes on after a message. `closes` is `writer.close()` and the end of the task, with
the result `False` where it has one. -/
inductive Ending where
  | raises (error : PyError)
  | closes
  | goesOn
  deriving DecidableEq

namespace PeerManager

variable {F : Type}

/-- `known_addresses.add` for each entry. -/
def learn (entries : List PeerEntry) (m : PeerManager F) : PeerManager F :=
  { m with knownAddresses :=
      entries.foldl (fun known entry => insert entry.address known) m.knownAddresses }

end PeerManager

namespace P2PNode

variable {F : Type}

/-- The exceptions that end a read loop quietly. -/
def endsReadLoop : PyError → Bool
  | .connectionError => true
  | _ => false

/-- `connect_to_peer` from the answer of the remote on; a failure or a timeout is no message. -/
def connectAnswered (task : ℕ) (host : String) (message : Option (MessageType × Bytes)) (now : F)
    (n : P2PNode F) : Ending × P2PNode F :=
  match message with
  | none => (.closes, n.finish task)
  | some (type, payload) =>
    if type ≠ .peerDiscovery then (.closes, n.finish task)
    else
      match PeerManager.decodeSelfInfo payload with
      | .error e => (.raises e, n.finish task)
      | .ok info =>
        if info.validatorId = n.peerManager.validatorId then (.closes, n.finish task)
        else
          match n.peerManager.addPeer (connectionOf task host info now true) with
          | (false, _) => (.closes, n.finish task)
          | (true, m) =>
            (.goesOn, { n with peerManager := m }.suspend task (.exchanging info.validatorId))

/-- `_handle_inbound` from the introduction of the remote to the own one. -/
def inboundAnswered (task : ℕ) (host : String) (message : Option (MessageType × Bytes))
    (n : P2PNode F) : Ending × P2PNode F :=
  match message with
  | none => (.closes, n.finish task)
  | some (type, payload) =>
    if type ≠ .peerDiscovery then (.closes, n.finish task)
    else
      match PeerManager.decodeSelfInfo payload with
      | .error e => (.raises e, n.finish task)
      | .ok info =>
        if info.validatorId = n.peerManager.validatorId then (.closes, n.finish task)
        else if n.peerManager.peers.contains info.validatorId then (.closes, n.finish task)
        else
          match n.peerManager.encodeSelfInfo n.port with
          | .error e => (.raises e, n.finish task)
          | .ok _ => (.goesOn, n.suspend task (.answering host info))

/-- A send fails without a connection, or when the connection does. -/
def sendTo (peerId : Bytes) (delivered : Bool) (n : P2PNode F) : Except PyError Unit :=
  match n.peerManager.peers.get? peerId with
  | none => .error .keyError
  | some _ => if delivered then .ok () else .error .connectionError

/-- `_dispatch`. Every other message goes to the handler of the user, under a handler for every
exception. -/
def dispatch (peerId : Bytes) (type : MessageType) (payload : Bytes) (delivered : Bool)
    (n : P2PNode F) : Except PyError Unit × P2PNode F :=
  match type with
  | .ping => (n.sendTo peerId delivered, n)
  | .pong => (.ok (), n)
  | .peerList =>
    match PeerManager.decodePeerList payload with
    | .error e => (.error e, n)
    | .ok entries => (.ok (), { n with peerManager := n.peerManager.learn entries })
  | _ => (.ok (), n)

/-- One round of `_read_loop`; whatever ends the loop closes the peer. -/
def readLoopMessage (connection : ℕ) (type : MessageType) (payload : Bytes) (delivered : Bool)
    (now : F) (n : P2PNode F) : Ending × P2PNode F :=
  match n.loopOf connection with
  | none => (.goesOn, n)
  | some l =>
    match (n.message connection now).dispatch l.validatorId type payload delivered with
    | (.ok (), n) => (.goesOn, n)
    | (.error e, n) => (if endsReadLoop e then .closes else .raises e, n.endLoop connection)

variable {n : P2PNode F} {task : ℕ} {host : String}

theorem remoteInfo_of_ne {type : MessageType} (h : type ≠ .peerDiscovery) (payload : Bytes) :
    n.remoteInfo (some (type, payload)) = none := by
  cases type <;> first | rfl | exact absurd rfl h

/-- An answered handshake is the step of the event loop. -/
theorem connectAnswered_snd (htask : n.tasks.get? task = some (.awaitingAnswer host))
    (message : Option (MessageType × Bytes)) (now : F) :
    (n.connectAnswered task host message now).2 = n.answered task message now := by
  rw [answered, htask]
  rcases message with _ | ⟨type, payload⟩
  · rfl
  by_cases htype : type = .peerDiscovery
  · subst htype
    simp only [connectAnswered, remoteInfo, ne_eq, not_true_eq_false, if_false]
    cases PeerManager.decodeSelfInfo payload with
    | error e => rfl
    | ok info =>
      simp only
      split_ifs
      · rfl
      · simp only [register]
        rcases n.peerManager.addPeer (connectionOf task host info now true) with ⟨_ | _, m⟩ <;> rfl
  · simp only [connectAnswered, remoteInfo_of_ne htype, ne_eq, htype, not_false_eq_true, if_true]

theorem inboundAnswered_snd (htask : n.tasks.get? task = some (.awaitingIntroduction host))
    (message : Option (MessageType × Bytes)) (now : F) :
    (n.inboundAnswered task host message).2 = n.answered task message now := by
  rw [answered, htask]
  rcases message with _ | ⟨type, payload⟩
  · rfl
  by_cases htype : type = .peerDiscovery
  · subst htype
    simp only [inboundAnswered, remoteInfo, ne_eq, not_true_eq_false, if_false]
    cases PeerManager.decodeSelfInfo payload with
    | error e => rfl
    | ok info =>
      by_cases hown : info.validatorId = n.peerManager.validatorId
      · simp only [hown, if_true]
      by_cases hknown : n.peerManager.peers.contains info.validatorId = true
      · simp only [hown, hknown, if_false, if_true]
      obtain ⟨self, hself⟩ : ∃ self, n.peerManager.encodeSelfInfo n.port = self := ⟨_, rfl⟩
      have hintroduces : n.introduces = self.isOk := by rw [introduces, hself]
      cases self with
      | error e => simp [hown, hknown, hself, hintroduces, Except.isOk, Except.toBool]
      | ok own => simp [hown, hknown, hself, hintroduces, Except.isOk, Except.toBool]
  · simp only [inboundAnswered, remoteInfo_of_ne htype, ne_eq, htype, not_false_eq_true, if_true]

theorem decodeSelfInfo_eq_ok {payload : Bytes} {info : SelfInfo}
    (h : PeerManager.decodeSelfInfo payload = .ok info) :
    46 ≤ payload.length ∧ info.validatorId = payload.take 32 := by
  unfold PeerManager.decodeSelfInfo at h
  simp only at h
  split_ifs at h with hlength
  obtain rfl := Except.ok.inj h
  rw [length_slice_eq] at hlength
  exact ⟨by omega, slice_zero ..⟩

theorem decodeSelfInfo_returns_iff (payload : Bytes) :
    (PeerManager.decodeSelfInfo payload).Returns ↔ 46 ≤ payload.length := by
  constructor
  · rintro ⟨info, h⟩
    exact (decodeSelfInfo_eq_ok h).1
  · intro h
    have hlength : (payload.slice 32 46).length = 14 := by
      rw [length_slice_eq]
      omega
    exact ⟨_, if_pos hlength⟩

theorem endsReadLoop_of_decodePeerList {payload : Bytes} {e : PyError}
    (h : PeerManager.decodePeerList payload = .error e) : endsReadLoop e = false := by
  obtain ⟨offset, hstep⟩ := Codec.Body.step_of_loop_eq_error h
  rcases PeerManager.readPeer_eq_error hstep with rfl | rfl <;> rfl

/-- No exception leaves the handshake, and data that cannot be decoded closes the connection and
leaves the peers. -/
structure HandshakeContained (payload : Bytes) (n : P2PNode F)
    (outcome : Ending × P2PNode F) : Prop where
  quiet : ∀ e, outcome.1 ≠ .raises e
  undecodable : ¬ (PeerManager.decodeSelfInfo payload).Returns →
    outcome.1 = .closes ∧ outcome.2.peerManager.peers = n.peerManager.peers

/-- No exception leaves the read loop, and a list that cannot be decoded leaves the addresses. -/
structure ListContained (payload : Bytes) (n : P2PNode F) (outcome : Ending × P2PNode F) :
    Prop where
  quiet : ∀ e, outcome.1 ≠ .raises e
  undecodable : ¬ (PeerManager.decodePeerList payload).Returns →
    outcome.2.peerManager.knownAddresses = n.peerManager.knownAddresses

/-- The numbers of the own introduction fit. -/
structure InfoInRange (n : P2PNode F) : Prop where
  zoneId : -2 ^ 31 ≤ n.peerManager.zoneId ∧ n.peerManager.zoneId < 2 ^ 31
  stake : 0 ≤ n.peerManager.stake ∧ n.peerManager.stake < 256 ^ 8
  port : 0 ≤ n.port ∧ n.port < 256 ^ 2

theorem introduces_iff (n : P2PNode F) : n.introduces = true ↔ n.InfoInRange := by
  have hpack : n.introduces = true ↔ (n.peerManager.encodeSelfInfo n.port).Returns := by
    rw [introduces, Except.Returns]
    cases n.peerManager.encodeSelfInfo n.port <;> simp [Except.isOk, Except.toBool]
  rw [hpack, PeerManager.encodeSelfInfo]
  simp only [Except.returns_bind]
  constructor
  · rintro ⟨zoneId, hzone, stake, hstake, port, hport, -⟩
    refine ⟨?_, structPack_returns.mp ⟨_, hstake⟩, structPack_returns.mp ⟨_, hport⟩⟩
    unfold packInt32 at hzone
    split_ifs at hzone with h
    exact h
  · intro h
    obtain ⟨stake, hstake⟩ := structPack_returns.mpr h.stake
    obtain ⟨port, hport⟩ := structPack_returns.mpr h.port
    exact ⟨_, if_pos h.zoneId, stake, hstake, port, hport, _, rfl⟩

/-- An inbound handshake with this remote does not need the own introduction, or can write it. -/
def CanAnswer (n : P2PNode F) (remote : Bytes) : Prop :=
  remote = n.peerManager.validatorId ∨ n.peerManager.peers.contains remote ∨ n.InfoInRange

theorem connectAnswered_contained_iff (n : P2PNode F) (task : ℕ) (host : String)
    (type : MessageType) (payload : Bytes) (now : F) :
    HandshakeContained payload n (n.connectAnswered task host (some (type, payload)) now) ↔
      (type = .peerDiscovery → 46 ≤ payload.length) := by
  rw [← decodeSelfInfo_returns_iff]
  by_cases htype : type = .peerDiscovery
  · subst htype
    simp only [connectAnswered, ne_eq, not_true_eq_false, if_false, true_implies]
    cases hinfo : PeerManager.decodeSelfInfo payload with
    | error e =>
      refine iff_of_false (fun h => h.quiet e rfl) ?_
      rintro ⟨info, h⟩
      cases h
    | ok info =>
      refine iff_of_true ⟨?_, fun h => absurd ⟨info, hinfo⟩ h⟩ ⟨info, rfl⟩
      intro e
      simp only
      split_ifs
      · simp
      · rcases n.peerManager.addPeer (connectionOf task host info now true) with ⟨_ | _, m⟩ <;> simp
  · refine iff_of_true ?_ fun h => absurd h htype
    simp only [connectAnswered, ne_eq, htype, not_false_eq_true, if_true]
    exact ⟨by simp, fun _ => ⟨rfl, rfl⟩⟩

theorem inboundAnswered_contained_iff (n : P2PNode F) (task : ℕ) (host : String)
    (type : MessageType) (payload : Bytes) :
    HandshakeContained payload n (n.inboundAnswered task host (some (type, payload))) ↔
      (type = .peerDiscovery → 46 ≤ payload.length ∧ n.CanAnswer (payload.take 32)) := by
  rw [← decodeSelfInfo_returns_iff]
  by_cases htype : type = .peerDiscovery
  · subst htype
    simp only [inboundAnswered, ne_eq, not_true_eq_false, if_false, true_implies]
    cases hinfo : PeerManager.decodeSelfInfo payload with
    | error e =>
      refine iff_of_false (fun h => h.quiet e rfl) ?_
      rintro ⟨⟨info, h⟩, -⟩
      cases h
    | ok info =>
      rw [CanAnswer, ← introduces_iff, ← (decodeSelfInfo_eq_ok hinfo).2, and_iff_right ⟨info, rfl⟩]
      simp only
      by_cases hown : info.validatorId = n.peerManager.validatorId
      · rw [if_pos hown]
        exact iff_of_true ⟨by simp, fun h => absurd ⟨info, hinfo⟩ h⟩ (Or.inl hown)
      by_cases hknown : n.peerManager.peers.contains info.validatorId = true
      · rw [if_neg hown, if_pos hknown]
        exact iff_of_true ⟨by simp, fun h => absurd ⟨info, hinfo⟩ h⟩ (Or.inr (Or.inl hknown))
      rw [if_neg hown, if_neg hknown]
      cases hself : n.peerManager.encodeSelfInfo n.port with
      | error e =>
        refine iff_of_false (fun h => h.quiet e rfl) ?_
        simp [hown, hknown, introduces, hself, Except.isOk, Except.toBool]
      | ok own =>
        refine iff_of_true ⟨by simp, fun h => absurd ⟨info, hinfo⟩ h⟩ (Or.inr (Or.inr ?_))
        rw [introduces, hself]
        rfl
  · refine iff_of_true ?_ fun h => absurd h htype
    simp only [inboundAnswered, ne_eq, htype, not_false_eq_true, if_true]
    exact ⟨by simp, fun _ => ⟨rfl, rfl⟩⟩

theorem knownAddresses_touchPeer (m : PeerManager F) (validatorId : Bytes) (now : F) :
    (m.touchPeer validatorId now).knownAddresses = m.knownAddresses := by
  unfold PeerManager.touchPeer
  split <;> rfl

theorem knownAddresses_message (n : P2PNode F) (connection : ℕ) (now : F) :
    (n.message connection now).peerManager.knownAddresses = n.peerManager.knownAddresses := by
  unfold message
  split
  · rfl
  · exact knownAddresses_touchPeer _ _ _

theorem knownAddresses_endLoop (n : P2PNode F) (connection : ℕ) :
    (n.endLoop connection).peerManager.knownAddresses = n.peerManager.knownAddresses := by
  unfold endLoop
  split <;> rfl

theorem readLoopMessage_contained_iff (n : P2PNode F) {connection : ℕ} {l : ReadLoop}
    (hl : n.loopOf connection = some l) {type : MessageType}
    (htype : type = .peerDiscovery ∨ type = .peerList) (payload : Bytes) (delivered : Bool)
    (now : F) :
    ListContained payload n (n.readLoopMessage connection type payload delivered now) ↔
      (type = .peerList → Codec.Stream PeerManager.IsRecord PeerManager.IsRest payload) := by
  rw [← PeerManager.decodePeerList_returns_iff]
  rcases htype with rfl | rfl
  · refine iff_of_true ?_ (fun h => by cases h)
    rw [readLoopMessage, hl]
    exact ⟨by simp [dispatch], fun _ => knownAddresses_message _ _ _⟩
  · simp only [readLoopMessage, hl, dispatch, true_implies]
    cases hlist : PeerManager.decodePeerList payload with
    | error e =>
      refine iff_of_false (fun h => h.quiet e ?_) ?_
      · simp [endsReadLoop_of_decodePeerList hlist]
      · rintro ⟨entries, h⟩
        cases h
    | ok entries =>
      exact iff_of_true ⟨by simp, fun h => absurd ⟨entries, hlist⟩ h⟩ ⟨entries, rfl⟩

/-- Whatever else it does, a list that cannot be decoded adds no address. -/
theorem knownAddresses_of_undecodable (n : P2PNode F) (connection : ℕ) {payload : Bytes}
    (h : ¬ (PeerManager.decodePeerList payload).Returns) (delivered : Bool) (now : F) :
    (n.readLoopMessage connection .peerList payload delivered now).2.peerManager.knownAddresses =
      n.peerManager.knownAddresses := by
  rw [readLoopMessage]
  cases n.loopOf connection with
  | none => rfl
  | some l =>
    cases hlist : PeerManager.decodePeerList payload with
    | error e =>
      simp only [dispatch, hlist]
      rw [knownAddresses_endLoop, knownAddresses_message]
    | ok entries => exact absurd ⟨entries, hlist⟩ h

/-- Peer data is contained exactly when an introduction has its 46 bytes, and can be answered where
it came in, and when a list is made of whole records. -/
theorem malformed_contained_iff (n : P2PNode F) (task connection : ℕ) (host : String)
    (l : ReadLoop) (type : MessageType) (payload : Bytes) (delivered : Bool) (now : F)
    (hl : n.loopOf connection = some l) (htype : type = .peerDiscovery ∨ type = .peerList) :
    (HandshakeContained payload n (n.connectAnswered task host (some (type, payload)) now) ↔
      (type = .peerDiscovery → 46 ≤ payload.length)) ∧
    (HandshakeContained payload n (n.inboundAnswered task host (some (type, payload))) ↔
      (type = .peerDiscovery → 46 ≤ payload.length ∧ n.CanAnswer (payload.take 32))) ∧
    (ListContained payload n (n.readLoopMessage connection type payload delivered now) ↔
      (type = .peerList → Codec.Stream PeerManager.IsRecord PeerManager.IsRest payload)) :=
  ⟨connectAnswered_contained_iff n task host type payload now,
    inboundAnswered_contained_iff n task host type payload,
    readLoopMessage_contained_iff n hl htype payload delivered now⟩

theorem malformed_contained_of_introduction :
    ∃ n : P2PNode ℚ, n.loopOf 0 = some ⟨0, [7]⟩ ∧
      HandshakeContained (List.replicate 46 1) n
        (n.connectAnswered 1 "host" (some (.peerDiscovery, List.replicate 46 1)) 0) ∧
      HandshakeContained (List.replicate 46 1) n
        (n.inboundAnswered 1 "host" (some (.peerDiscovery, List.replicate 46 1))) ∧
      ListContained (List.replicate 46 1) n
        (n.readLoopMessage 0 .peerDiscovery (List.replicate 46 1) true 0) := by
  obtain ⟨n, hn⟩ : ∃ n : P2PNode ℚ, n =
      { (new [9] 0 100 9000 : P2PNode ℚ) with readLoops := [⟨0, [7]⟩] } := ⟨_, rfl⟩
  have hl : n.loopOf 0 = some ⟨0, [7]⟩ := by
    rw [hn]
    rfl
  have hrange : n.InfoInRange := by
    rw [hn]
    exact ⟨by decide, by decide, by decide⟩
  obtain ⟨hconnect, hinbound, hloop⟩ := malformed_contained_iff n 1 0 "host" ⟨0, [7]⟩
    .peerDiscovery (List.replicate 46 1) true 0 hl (Or.inl rfl)
  exact ⟨n, hl, hconnect.mpr fun _ => by simp,
    hinbound.mpr fun _ => ⟨by simp, Or.inr (Or.inr hrange)⟩, hloop.mpr fun h => by cases h⟩

/-- Nothing where an introduction should be, and a list that ends within a record. -/
theorem malformed_escapes :
    ∃ n : P2PNode ℚ, n.loopOf 0 = some ⟨0, [7]⟩ ∧
      (n.connectAnswered 1 "host" (some (.peerDiscovery, [])) 0).1 = .raises .structError ∧
      (n.inboundAnswered 1 "host" (some (.peerDiscovery, []))).1 = .raises .structError ∧
      (n.readLoopMessage 0 .peerList [0, 0] true 0).1 = .raises .structError := by
  have hlist : PeerManager.decodePeerList [0, 0] = .error .structError := by
    refine Codec.Body.loop_of_error (by decide) ?_
    have hempty : Text.ofUtf8 [] = some "" := Text.ofUtf8_utf8 ""
    change PeerManager.readPeer [0, 0] 0 = .error .structError
    have hlen : structUnpack 2 (Bytes.slice [0, 0] 0 2) = .ok 0 := by decide
    have hname : Bytes.slice [0, 0] (0 + 2) (0 + (2 + 0)) = [] := rfl
    rw [PeerManager.readPeer, if_neg (by decide), hlen]
    simp only [bind, Except.bind]
    rw [hname, hempty]
    rfl
  have hraises : ∀ n : P2PNode ℚ, n.loopOf 0 = some ⟨0, [7]⟩ →
      (n.readLoopMessage 0 .peerList [0, 0] true 0).1 = .raises .structError := fun n hl => by
    simp only [readLoopMessage, hl, dispatch, hlist]
    rfl
  exact ⟨{ (new [9] 0 100 9000 : P2PNode ℚ) with readLoops := [⟨0, [7]⟩] }, rfl, rfl, rfl,
    hraises _ rfl⟩

end P2PNode

end Qrtb
