import Qrtb.Lib.Float
import Qrtb.Lib.OrderedDict
import Qrtb.Lib.Python
import Qrtb.Lib.Transition
import Mathlib.Data.Finset.Insert

/-!
# Peer connections (`src/p2p.py`)

A node keeps its connections by validator id. Handshakes in both directions,
the read loops and the heartbeat are tasks of one event loop, and another task
can run at every `await`. An outbound handshake registers its connection without
asking whether the peer has one, an inbound one asks before an `await`, and the
cleanup of a connection takes out whatever is registered under its id. What is
written to the sockets is left out.
-/

namespace Qrtb

open PyFloat Transition

def MAX_PEERS : ℕ := 50
def HEARTBEAT_TIMEOUT {F : Type} [PyFloat F] : F := literal 90

inductive MessageType where
  | ping
  | pong
  | peerDiscovery
  | peerList
  | txBroadcast
  | measurementCommit
  | measurementReveal
  | proposal
  | preVote
  | preCommit
  | block
  | epochSync
  deriving DecidableEq, Repr

/-- A connection object. Its identity is the number of the task that made it. -/
structure PeerConnection (F : Type) where
  id : ℕ
  validatorId : Bytes
  address : String
  zoneId : ℤ
  stake : ℤ
  lastSeen : F
  outbound : Bool
  deriving DecidableEq

/-- `struct.pack(">i", n)` and its inverse. -/
def packInt32 (n : ℤ) : Except PyError Bytes :=
  if -2 ^ 31 ≤ n ∧ n < 2 ^ 31 then .ok (Bytes.bigEndian 4 (n % 2 ^ 32).toNat)
  else .error .structError

def unpackInt32 (data : Bytes) : ℤ :=
  if Bytes.toNat data < 2 ^ 31 then Bytes.toNat data else Bytes.toNat data - 2 ^ 32

/-- What a node tells about itself. -/
structure SelfInfo where
  validatorId : Bytes
  zoneId : ℤ
  stake : ℤ
  listenPort : ℕ
  deriving DecidableEq

structure PeerManager (F : Type) where
  validatorId : Bytes
  zoneId : ℤ
  stake : ℤ
  peers : OrderedDict Bytes (PeerConnection F) := ∅
  knownAddresses : Finset String := ∅

namespace PeerManager

variable {F : Type} (m : PeerManager F)

def canAcceptPeer : Prop := m.peers.items.length < MAX_PEERS

instance : Decidable m.canAcceptPeer :=
  inferInstanceAs (Decidable (m.peers.items.length < MAX_PEERS))

def addPeer (peer : PeerConnection F) (m : PeerManager F) : Bool × PeerManager F :=
  if ¬ m.canAcceptPeer then (false, m)
  else if peer.validatorId = m.validatorId then (false, m)
  else
    (true,
      { m with
        peers := m.peers.set peer.validatorId peer
        knownAddresses := insert peer.address m.knownAddresses })

def removePeer (validatorId : Bytes) (m : PeerManager F) :
    Option (PeerConnection F) × PeerManager F :=
  (m.peers.get? validatorId, { m with peers := m.peers.erase validatorId })

def touchPeer (validatorId : Bytes) (now : F) (m : PeerManager F) : PeerManager F :=
  match m.peers.get? validatorId with
  | none => m
  | some peer => { m with peers := m.peers.set validatorId { peer with lastSeen := now } }

def getStalePeers [PyFloat F] (now : F) : List Bytes :=
  (m.peers.items.filter fun p => lt HEARTBEAT_TIMEOUT (sub now p.2.lastSeen)).map Prod.fst

def encodeSelfInfo (listenPort : ℤ) : Except PyError Bytes := do
  let zoneId ← packInt32 m.zoneId
  let stake ← structPack 8 m.stake
  let port ← structPack 2 listenPort
  return m.validatorId ++ (zoneId ++ stake ++ port)

def decodeSelfInfo (data : Bytes) : Except PyError SelfInfo :=
  let info := data.slice 32 46
  if info.length = 14 then
    .ok
      { validatorId := data.slice 0 32
        zoneId := unpackInt32 (info.slice 0 4)
        stake := Bytes.toNat (info.slice 4 12)
        listenPort := Bytes.toNat (info.slice 12 14) }
  else .error .structError

end PeerManager

/-- Where a handshake waits: outbound ones for the socket, the introduction to go out and the
answer, inbound ones for the introduction and the answer to go out, both for the peer list to go
out after the connection is added. -/
inductive Handshake where
  | connecting (host : String) (port : ℤ)
  | introducing (host : String)
  | awaitingAnswer (host : String)
  | awaitingIntroduction (host : String)
  | answering (host : String) (info : SelfInfo)
  | exchanging (validatorId : Bytes)
  deriving DecidableEq

/-- A running read loop. -/
structure ReadLoop where
  connection : ℕ
  validatorId : Bytes
  deriving DecidableEq

/-- A started node: its suspended handshakes by task, its running read loops, and the stale peers
that the heartbeat has still to close. -/
structure P2PNode (F : Type) where
  peerManager : PeerManager F
  port : ℤ
  tasks : OrderedDict ℕ Handshake := ∅
  nextTask : ℕ := 0
  readLoops : List ReadLoop := []
  stale : List Bytes := []

namespace P2PNode

variable {F : Type}

def new (validatorId : Bytes) (zoneId stake port : ℤ) : P2PNode F :=
  { peerManager := { validatorId := validatorId, zoneId := zoneId, stake := stake }, port := port }

def spawn (handshake : Handshake) (n : P2PNode F) : P2PNode F :=
  { n with tasks := n.tasks.set n.nextTask handshake, nextTask := n.nextTask + 1 }

def suspend (task : ℕ) (handshake : Handshake) (n : P2PNode F) : P2PNode F :=
  { n with tasks := n.tasks.set task handshake }

def finish (task : ℕ) (n : P2PNode F) : P2PNode F := { n with tasks := n.tasks.erase task }

/-- Whether the own introduction can be written. -/
def introduces (n : P2PNode F) : Bool := (n.peerManager.encodeSelfInfo n.port).isOk

/-- The remote side of a handshake message, if it is one of another validator. -/
def remoteInfo (message : Option (MessageType × Bytes)) (n : P2PNode F) : Option SelfInfo :=
  match message with
  | some (.peerDiscovery, payload) =>
    match PeerManager.decodeSelfInfo payload with
    | .ok info => if info.validatorId = n.peerManager.validatorId then none else some info
    | .error _ => none
  | _ => none

/-- Add the connection of a handshake and send the peer list, or end the handshake. -/
def register (peer : PeerConnection F) (n : P2PNode F) : P2PNode F :=
  match n.peerManager.addPeer peer with
  | (false, _) => n.finish peer.id
  | (true, m) => { n with peerManager := m }.suspend peer.id (.exchanging peer.validatorId)

def connectionOf (task : ℕ) (host : String) (info : SelfInfo) (now : F) (outbound : Bool) :
    PeerConnection F :=
  { id := task
    validatorId := info.validatorId
    address := s!"{host}:{info.listenPort}"
    zoneId := info.zoneId
    stake := info.stake
    lastSeen := now
    outbound := outbound }

def connectToPeer (host : String) (port : ℤ) (n : P2PNode F) : P2PNode F :=
  if n.peerManager.canAcceptPeer then n.spawn (.connecting host port) else n

def handleInbound (remoteHost : String) (n : P2PNode F) : P2PNode F :=
  if n.peerManager.canAcceptPeer then n.spawn (.awaitingIntroduction remoteHost) else n

/-- The socket of an outbound handshake is open, or could not be opened. -/
def opened (task : ℕ) (ok : Bool) (n : P2PNode F) : P2PNode F :=
  match n.tasks.get? task with
  | some (.connecting host _) =>
    if ok ∧ n.introduces then n.suspend task (.introducing host) else n.finish task
  | _ => n

/-- The handshake message has arrived; a failure or a timeout is no message. -/
def answered (task : ℕ) (message : Option (MessageType × Bytes)) (now : F) (n : P2PNode F) :
    P2PNode F :=
  match n.tasks.get? task with
  | some (.awaitingAnswer host) =>
    match n.remoteInfo message with
    | none => n.finish task
    | some info => n.register (connectionOf task host info now true)
  | some (.awaitingIntroduction host) =>
    match n.remoteInfo message with
    | none => n.finish task
    | some info =>
      if n.peerManager.peers.contains info.validatorId then n.finish task
      else if n.introduces then n.suspend task (.answering host info)
      else n.finish task
  | _ => n

def startReadLoop (task : ℕ) (validatorId : Bytes) (n : P2PNode F) : P2PNode F :=
  { n.finish task with readLoops := n.readLoops ++ [⟨task, validatorId⟩] }

/-- A drain returns, or raises; only the one of the peer list is guarded. -/
def drained (task : ℕ) (ok : Bool) (now : F) (n : P2PNode F) : P2PNode F :=
  match n.tasks.get? task with
  | some (.introducing host) =>
    if ok then n.suspend task (.awaitingAnswer host) else n.finish task
  | some (.answering host info) =>
    if ok then n.register (connectionOf task host info now false) else n.finish task
  | some (.exchanging validatorId) => n.startReadLoop task validatorId
  | _ => n

def loopOf (connection : ℕ) (n : P2PNode F) : Option ReadLoop :=
  n.readLoops.find? fun l => l.connection = connection

def message (connection : ℕ) (now : F) (n : P2PNode F) : P2PNode F :=
  match n.loopOf connection with
  | none => n
  | some l => { n with peerManager := n.peerManager.touchPeer l.validatorId now }

def closePeer (validatorId : Bytes) (n : P2PNode F) : P2PNode F :=
  { n with peerManager := (n.peerManager.removePeer validatorId).2 }

/-- A read loop ends, for whatever reason, and closes the peer of its id. -/
def endLoop (connection : ℕ) (n : P2PNode F) : P2PNode F :=
  match n.loopOf connection with
  | none => n
  | some l =>
    { n with readLoops := n.readLoops.filter fun l' => l'.connection ≠ connection }.closePeer
      l.validatorId

/-- The heartbeat looks for stale peers; it does so again when all found ones are closed. -/
def heartbeat [PyFloat F] (now : F) (n : P2PNode F) : P2PNode F :=
  if n.stale = [] then { n with stale := n.peerManager.getStalePeers now } else n

/-- The heartbeat closes the next stale peer. -/
def prune (n : P2PNode F) : P2PNode F :=
  match n.stale with
  | [] => n
  | validatorId :: rest => { n with stale := rest }.closePeer validatorId

inductive Event (F : Type) where
  | connectToPeer (host : String) (port : ℤ)
  | handleInbound (remoteHost : String)
  | opened (task : ℕ) (ok : Bool)
  | answered (task : ℕ) (message : Option (MessageType × Bytes)) (now : F)
  | drained (task : ℕ) (ok : Bool) (now : F)
  | message (connection : ℕ) (now : F)
  | endLoop (connection : ℕ)
  | heartbeat (now : F)
  | prune

def step [PyFloat F] : Event F → P2PNode F → P2PNode F
  | .connectToPeer host port, n => n.connectToPeer host port
  | .handleInbound remoteHost, n => n.handleInbound remoteHost
  | .opened task ok, n => n.opened task ok
  | .answered task message now, n => n.answered task message now
  | .drained task ok now, n => n.drained task ok now
  | .message connection now, n => n.message connection now
  | .endLoop connection, n => n.endLoop connection
  | .heartbeat now, n => n.heartbeat now
  | .prune, n => n.prune

/-- The connection registered under an id. -/
def registered (n : P2PNode F) (validatorId : Bytes) : Option ℕ :=
  (n.peerManager.peers.get? validatorId).map PeerConnection.id

/-- Every running read loop reads the connection that is registered for its peer. -/
def Live (n : P2PNode F) : Prop :=
  ∀ l ∈ n.readLoops, n.registered l.validatorId = some l.connection

/-- Some running read loop belongs to the peer. -/
def Reads (n : P2PNode F) (validatorId : Bytes) : Prop :=
  ∃ l ∈ n.readLoops, l.validatorId = validatorId

/-- The steps that keep the connections live: no connection is added, and none pruned, under the
id of a running read loop, and a read loop starts while its connection is still registered. -/
def KeepsLive : Event F → P2PNode F → Prop
  | .answered task message _, n => ∀ host info,
      n.tasks.get? task = some (.awaitingAnswer host) → n.remoteInfo message = some info →
        n.peerManager.canAcceptPeer → ¬ n.Reads info.validatorId
  | .drained task ok _, n =>
      (∀ host info, n.tasks.get? task = some (.answering host info) → ok = true →
        n.peerManager.canAcceptPeer → info.validatorId ≠ n.peerManager.validatorId →
          ¬ n.Reads info.validatorId) ∧
      ∀ validatorId, n.tasks.get? task = some (.exchanging validatorId) →
        n.registered validatorId = some task
  | .prune, n => ∀ validatorId, n.stale.head? = some validatorId → ¬ n.Reads validatorId
  | _, _ => True

/-- Tasks and connections are numbered apart: a number is a suspended handshake or a running read
loop, never both, and at most one of each. -/
structure Inv (n : P2PNode F) : Prop where
  tasks : ∀ task handshake, n.tasks.get? task = some handshake → task < n.nextTask
  loops : ∀ l ∈ n.readLoops, l.connection < n.nextTask
  apart : ∀ l ∈ n.readLoops, n.tasks.get? l.connection = none
  nodup : (n.readLoops.map ReadLoop.connection).Nodup

theorem inv_new (validatorId : Bytes) (zoneId stake port : ℤ) :
    (new validatorId zoneId stake port : P2PNode F).Inv where
  tasks _ _ h := by cases h
  loops _ h := by cases h
  apart _ h := by cases h
  nodup := List.nodup_nil

variable {n : P2PNode F} {task : ℕ} {handshake : Handshake}

theorem Inv.ne_of_task (hn : n.Inv) (htask : n.tasks.get? task = some handshake) {l : ReadLoop}
    (hl : l ∈ n.readLoops) : l.connection ≠ task := by
  rintro rfl
  rw [hn.apart l hl] at htask
  cases htask

theorem Inv.spawn (hn : n.Inv) (handshake : Handshake) : (n.spawn handshake).Inv where
  tasks := OrderedDict.forall_get?_set (Nat.lt_succ_self _)
    fun task h ht => (hn.tasks task h ht).trans (Nat.lt_succ_self _)
  loops l hl := (hn.loops l hl).trans (Nat.lt_succ_self _)
  apart l hl := by
    rw [P2PNode.spawn, OrderedDict.get?_set_of_ne _ (hn.loops l hl).ne]
    exact hn.apart l hl
  nodup := hn.nodup

theorem Inv.suspend (hn : n.Inv) (htask : n.tasks.get? task = some handshake)
    (next : Handshake) : (n.suspend task next).Inv where
  tasks := OrderedDict.forall_get?_set (hn.tasks _ _ htask) hn.tasks
  loops := hn.loops
  apart l hl := by
    rw [P2PNode.suspend, OrderedDict.get?_set_of_ne _ (hn.ne_of_task htask hl)]
    exact hn.apart l hl
  nodup := hn.nodup

theorem Inv.finish (hn : n.Inv) (task : ℕ) : (n.finish task).Inv where
  tasks t h ht := hn.tasks t h (OrderedDict.get?_erase_eq_some.mp ht).2
  loops := hn.loops
  apart l hl := by
    rw [P2PNode.finish, OrderedDict.get?_erase]
    split_ifs
    · rfl
    · exact hn.apart l hl
  nodup := hn.nodup

theorem Inv.withPeers (hn : n.Inv) (m : PeerManager F) : ({ n with peerManager := m }).Inv :=
  ⟨hn.tasks, hn.loops, hn.apart, hn.nodup⟩

theorem Inv.register (hn : n.Inv) {peer : PeerConnection F}
    (htask : n.tasks.get? peer.id = some handshake) : (n.register peer).Inv := by
  rw [P2PNode.register]
  split
  next => exact hn.finish peer.id
  next m _ => exact (hn.withPeers m).suspend htask _

theorem Inv.startReadLoop (hn : n.Inv) (htask : n.tasks.get? task = some handshake)
    (validatorId : Bytes) : (n.startReadLoop task validatorId).Inv where
  tasks := (hn.finish task).tasks
  loops l hl := by
    rcases List.mem_append.mp hl with hl | hl
    · exact hn.loops l hl
    · rw [List.mem_singleton.mp hl]
      exact hn.tasks _ _ htask
  apart l hl := by
    rcases List.mem_append.mp hl with hl | hl
    · exact (hn.finish task).apart l hl
    · rw [List.mem_singleton.mp hl]
      simp [P2PNode.startReadLoop, P2PNode.finish, OrderedDict.get?_erase]
  nodup := by
    rw [P2PNode.startReadLoop, List.map_append, List.nodup_append]
    refine ⟨hn.nodup, List.nodup_singleton _, ?_⟩
    rintro c hc d hd rfl
    obtain ⟨l, hl, rfl⟩ := List.mem_map.mp hc
    exact hn.ne_of_task htask hl (List.mem_singleton.mp hd)

theorem Inv.endLoop (hn : n.Inv) (connection : ℕ) : (n.endLoop connection).Inv := by
  rw [P2PNode.endLoop]
  split
  next => exact hn
  next =>
    exact ⟨hn.tasks, fun l hl => hn.loops l (List.mem_of_mem_filter hl),
      fun l hl => hn.apart l (List.mem_of_mem_filter hl),
      hn.nodup.sublist (List.filter_sublist.map _)⟩

theorem remoteInfo_ne {message : Option (MessageType × Bytes)} {info : SelfInfo}
    (h : n.remoteInfo message = some info) : info.validatorId ≠ n.peerManager.validatorId := by
  unfold remoteInfo at h
  split at h
  · split at h
    · split_ifs at h with hown
      obtain rfl := Option.some.inj h
      exact hown
    · cases h
  · cases h

/-- A handshake adds its connection under a free place only: a running loop of that peer reads
another one. -/
theorem live_register (hn : n.Inv) (hlive : n.Live) {peer : PeerConnection F}
    (htask : n.tasks.get? peer.id = some handshake) :
    (n.register peer).Live ↔ (n.peerManager.canAcceptPeer →
      peer.validatorId ≠ n.peerManager.validatorId → ¬ n.Reads peer.validatorId) := by
  rw [register, PeerManager.addPeer]
  split_ifs with hroom hown
  · exact iff_of_true hlive fun _ h => absurd hown h
  · have hregistered : ∀ v, ({ n with peerManager :=
        { n.peerManager with
          peers := n.peerManager.peers.set peer.validatorId peer
          knownAddresses := insert peer.address n.peerManager.knownAddresses } } :
            P2PNode F).registered v =
        if v = peer.validatorId then some peer.id else n.registered v := by
      intro v
      rw [registered, OrderedDict.get?_set]
      split_ifs <;> rfl
    constructor
    · rintro h - - ⟨l, hl, hv⟩
      have hl' := (hregistered l.validatorId).symm.trans (h l hl)
      rw [if_pos hv] at hl'
      exact hn.ne_of_task htask hl (Option.some.inj hl').symm
    · intro h l hl
      have hne : l.validatorId ≠ peer.validatorId := fun hv => h hroom hown ⟨l, hl, hv⟩
      refine (hregistered l.validatorId).trans ?_
      rw [if_neg hne]
      exact hlive l hl
  · exact iff_of_true hlive fun h => absurd h hroom

theorem live_startReadLoop (hlive : n.Live) (task : ℕ) (validatorId : Bytes) :
    (n.startReadLoop task validatorId).Live ↔ n.registered validatorId = some task := by
  simp only [Live, startReadLoop, List.forall_mem_append, List.forall_mem_singleton]
  exact and_iff_right hlive

theorem registered_closePeer (n : P2PNode F) (validatorId v : Bytes) :
    (n.closePeer validatorId).registered v =
      if v = validatorId then none else n.registered v := by
  rw [registered, closePeer, PeerManager.removePeer, OrderedDict.get?_erase]
  split_ifs <;> rfl

theorem live_closePeer (hlive : n.Live) (validatorId : Bytes) :
    (n.closePeer validatorId).Live ↔ ¬ n.Reads validatorId := by
  constructor
  · rintro h ⟨l, hl, rfl⟩
    have hl' := h l hl
    rw [registered_closePeer, if_pos rfl] at hl'
    cases hl'
  · intro h l hl
    rw [registered_closePeer, if_neg fun hv => h ⟨l, hl, hv⟩]
    exact hlive l hl

/-- A loop that ends takes out its own connection: loops of one peer read the registered one, so
there is no other. -/
theorem live_endLoop (hlive : n.Live) (connection : ℕ) :
    (n.endLoop connection).Live := by
  rw [endLoop]
  split
  next => exact hlive
  next l hfind =>
  have hmem : l ∈ n.readLoops := List.mem_of_find?_eq_some hfind
  have hid : l.connection = connection := by simpa using List.find?_some hfind
  have hrest : ({ n with
      readLoops := n.readLoops.filter fun l' => l'.connection ≠ connection } : P2PNode F).Live :=
    fun l' hl' => hlive l' (List.mem_of_mem_filter hl')
  rw [live_closePeer hrest]
  rintro ⟨l', hl', hv⟩
  obtain ⟨hl', hne⟩ := List.mem_filter.mp hl'
  have hsame := (hlive l' hl').symm.trans ((congrArg n.registered hv).trans (hlive l hmem))
  simp [Option.some.inj hsame, hid] at hne

theorem registered_touchPeer (n : P2PNode F) (validatorId v : Bytes) (now : F) :
    ({ n with peerManager := n.peerManager.touchPeer validatorId now } : P2PNode F).registered v =
      n.registered v := by
  simp only [registered, PeerManager.touchPeer]
  split
  next => rfl
  next peer hpeer =>
    rw [OrderedDict.get?_set]
    split_ifs with hv
    · rw [hv, hpeer]
      rfl
    · rfl

theorem live_answered_iff (hn : n.Inv) (hlive : n.Live) (task : ℕ)
    (message : Option (MessageType × Bytes)) (now : F) :
    (n.answered task message now).Live ↔ KeepsLive (.answered task message now) n := by
  rw [answered, KeepsLive]
  split
  next host htask =>
    rw [htask]
    split
    next hinfo => exact iff_of_true hlive fun _ _ _ h => by rw [hinfo] at h; cases h
    next info hinfo =>
      have hother : info.validatorId ≠ n.peerManager.validatorId := remoteInfo_ne hinfo
      have hid : n.tasks.get? (connectionOf task host info now true).id = _ := htask
      rw [live_register hn hlive hid]
      constructor
      · rintro h _ info' - hinfo' hroom
        obtain rfl := Option.some.inj (hinfo.symm.trans hinfo')
        exact h hroom hother
      · intro h hroom _
        exact h host info rfl hinfo hroom
  next htask =>
    have hkeeps : ∀ host info, n.tasks.get? task = some (.awaitingAnswer host) →
        n.remoteInfo message = some info → n.peerManager.canAcceptPeer →
          ¬ n.Reads info.validatorId := fun _ _ h => by rw [htask] at h; cases h
    split
    next => exact iff_of_true hlive hkeeps
    next => split_ifs <;> exact iff_of_true hlive hkeeps
  next hnone _ => exact iff_of_true hlive fun host _ h => absurd h (hnone host)

theorem live_drained_iff (hn : n.Inv) (hlive : n.Live) (task : ℕ) (ok : Bool) (now : F) :
    (n.drained task ok now).Live ↔ KeepsLive (.drained task ok now) n := by
  rw [drained, KeepsLive]
  split
  next htask =>
    rw [htask]
    split_ifs <;> exact iff_of_true hlive ⟨nofun, nofun⟩
  next host info htask =>
    rw [htask]
    split_ifs with hok
    · have hid : n.tasks.get? (connectionOf task host info now false).id = _ := htask
      rw [live_register hn hlive hid]
      constructor
      · refine fun h => ⟨?_, nofun⟩
        rintro _ _ ⟨⟩ - hroom hother
        exact h hroom hother
      · intro h hroom hother
        exact h.1 host info rfl hok hroom hother
    · exact iff_of_true hlive ⟨fun _ _ _ h => absurd h hok, nofun⟩
  next validatorId htask =>
    rw [live_startReadLoop hlive, htask]
    simp
  next h₁ h₂ h₃ =>
    exact iff_of_true hlive ⟨fun host info h => absurd h (h₂ host info),
      fun v h => absurd h (h₃ v)⟩

theorem live_prune_iff (hlive : n.Live) : n.prune.Live ↔ KeepsLive .prune n := by
  rw [prune, KeepsLive]
  split
  next hstale => exact iff_of_true hlive fun v hv => by rw [hstale] at hv; cases hv
  next validatorId rest hstale =>
    have hrest : ({ n with stale := rest } : P2PNode F).Live := hlive
    rw [live_closePeer hrest, hstale]
    simp [Reads]

variable [PyFloat F]

theorem Inv.step (hn : n.Inv) (e : Event F) : (step e n).Inv := by
  cases e with
  | connectToPeer host port =>
    rw [P2PNode.step, connectToPeer]
    split_ifs
    · exact hn.spawn _
    · exact hn
  | handleInbound remoteHost =>
    rw [P2PNode.step, handleInbound]
    split_ifs
    · exact hn.spawn _
    · exact hn
  | opened task ok =>
    rw [P2PNode.step, opened]
    split
    next htask =>
      split_ifs
      · exact hn.suspend htask _
      · exact hn.finish task
    next => exact hn
  | answered task message now =>
    rw [P2PNode.step, answered]
    split
    next htask =>
      split
      next => exact hn.finish task
      next => exact hn.register htask
    next htask =>
      split
      next => exact hn.finish task
      next =>
        split_ifs
        · exact hn.finish task
        · exact hn.suspend htask _
        · exact hn.finish task
    next => exact hn
  | drained task ok now =>
    rw [P2PNode.step, drained]
    split
    next htask =>
      split_ifs
      · exact hn.suspend htask _
      · exact hn.finish task
    next htask =>
      split_ifs
      · exact hn.register htask
      · exact hn.finish task
    next htask => exact hn.startReadLoop htask _
    next => exact hn
  | message connection now =>
    rw [P2PNode.step, P2PNode.message]
    split
    next => exact hn
    next => exact hn.withPeers _
  | endLoop connection => exact hn.endLoop connection
  | heartbeat now =>
    rw [P2PNode.step, heartbeat]
    split_ifs
    · exact ⟨hn.tasks, hn.loops, hn.apart, hn.nodup⟩
    · exact hn
  | prune =>
    rw [P2PNode.step, prune]
    split
    next => exact hn
    next => exact ⟨hn.tasks, hn.loops, hn.apart, hn.nodup⟩

theorem live_step_iff (hn : n.Inv) (hlive : n.Live) (e : Event F) :
    (step e n).Live ↔ KeepsLive e n := by
  cases e with
  | connectToPeer host port =>
    rw [step, connectToPeer]
    split_ifs <;> exact iff_of_true hlive trivial
  | handleInbound remoteHost =>
    rw [step, handleInbound]
    split_ifs <;> exact iff_of_true hlive trivial
  | opened task ok =>
    rw [step, opened]
    split
    next => split_ifs <;> exact iff_of_true hlive trivial
    next => exact iff_of_true hlive trivial
  | answered task message now => exact live_answered_iff hn hlive task message now
  | drained task ok now => exact live_drained_iff hn hlive task ok now
  | message connection now =>
    rw [step, P2PNode.message]
    split
    next => exact iff_of_true hlive trivial
    next l _ =>
      refine iff_of_true (fun l' hl' => ?_) trivial
      rw [registered_touchPeer]
      exact hlive l' hl'
  | endLoop connection => exact iff_of_true (live_endLoop hlive connection) trivial
  | heartbeat now =>
    rw [step, heartbeat]
    split_ifs <;> exact iff_of_true hlive trivial
  | prune => exact live_prune_iff hlive

/-- The connections are live in every state of a run exactly when every step keeps them so. -/
theorem live_runs_iff (validatorId : Bytes) (zoneId stake port : ℤ) (events : List (Event F)) :
    (∀ pre post, events = pre ++ post →
      (runs step pre (new validatorId zoneId stake port)).Live) ↔
      ∀ pre e post, events = pre ++ e :: post →
        KeepsLive e (runs step pre (new validatorId zoneId stake port)) :=
  throughout_iff step (J := Inv) (fun e _ hn => hn.step e) (fun e _ hn hlive =>
    live_step_iff hn hlive e) (inv_new validatorId zoneId stake port)
    (fun _ hl => by cases hl) events

/-- The introduction of a validator in zone 0 with stake 1, listening on port 1. -/
def introduction (validatorId : Bytes) : Bytes :=
  validatorId ++ (List.replicate 11 0 ++ [1] ++ [0, 1])

/-- An outbound handshake with the validator `2…2`. -/
def dial (task : ℕ) : List (Event ℚ) :=
  [.connectToPeer "10.0.0.2" 1, .opened task true, .drained task true 0,
    .answered task (some (.peerDiscovery, introduction (List.replicate 32 2))) 0,
    .drained task true 0]

/-- Connecting to a peer once more replaces its connection, whose read loop goes on. -/
theorem live_lost_by_second_dial :
    ¬ (runs step (dial 0 ++ dial 1) (new (List.replicate 32 1) 0 1 1)).Live := by
  intro h
  have hloop : (⟨0, List.replicate 32 2⟩ : ReadLoop) ∈
      (runs step (dial 0 ++ dial 1) (new (List.replicate 32 1) 0 1 1)).readLoops := by
    decide +kernel
  have hregistered : (runs step (dial 0 ++ dial 1)
      (new (List.replicate 32 1) 0 1 1)).registered (List.replicate 32 2) = some 1 := by
    decide +kernel
  rw [h _ hloop] at hregistered
  cases hregistered

end P2PNode

end Qrtb
