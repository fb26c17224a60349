import Qrtb.Network.Connections
import Qrtb.Lib.Codec
import Qrtb.Lib.Text

/-!
# Peer lists (`src/p2p.py`)

A peer list is one record for each peer, with no count and no length around them. The
host stands behind its length, everything else has a fixed width, so a record says where
it ends. The reader takes records until the data is used up, and a single byte at the end
is ignored.
-/

namespace Qrtb

open Bytes Text

/-- A function that finds nothing raises. -/
def orRaise {α : Type} (error : PyError) : Option α → Except PyError α
  | none => .error error
  | some a => .ok a

theorem orRaise_eq_ok {α : Type} {error : PyError} {x : Option α} {a : α} :
    orRaise error x = .ok a ↔ x = some a := by
  cases x <;> simp [orRaise]

/-- One entry of a peer list that was read. -/
structure PeerEntry where
  host : String
  port : ℕ
  validatorId : Bytes
  zoneId : ℤ
  stake : ℤ
  address : String
  deriving DecidableEq

/-- `struct.pack(">iQ", zone_id, stake)` and its inverse. -/
def packIQ (zoneId stake : ℤ) : Except PyError Bytes := do
  let zoneId ← packInt32 zoneId
  let stake ← structPack 8 stake
  return zoneId ++ stake

def unpackIQ (data : Bytes) : Except PyError (ℤ × ℕ) :=
  if data.length = 12 then .ok (unpackInt32 (data.slice 0 4), Bytes.toNat (data.slice 4 12))
  else .error .structError

namespace PeerManager

variable {F : Type}

def encodePeer (peer : PeerConnection F) : Except PyError Bytes := do
  let (host, portS) ← orRaise .valueError (rsplitOnce ':' peer.address)
  let port ← orRaise .valueError (parseInt portS)
  let hostBytes := utf8 host
  let hostLen ← structPack 2 hostBytes.length
  let port ← structPack 2 port
  let info ← packIQ peer.zoneId peer.stake
  return [hostLen, hostBytes, port, peer.validatorId, info].flatten

def encodePeerList (m : PeerManager F) : Except PyError Bytes := do
  let parts ← m.peers.values.mapM encodePeer
  return parts.flatten

/-- The body of the loop, with the offset behind the record. -/
def readPeer (data : Bytes) (offset : ℕ) : Except PyError (Option (PeerEntry × ℕ)) :=
  if data.length < offset + 2 then .ok none
  else do
    let hostLen ← structUnpack 2 (data.slice offset (offset + 2))
    let host ← orRaise .unicodeDecodeError
      (ofUtf8 (data.slice (offset + 2) (offset + (2 + hostLen))))
    let port ← structUnpack 2 (data.slice (offset + (2 + hostLen)) (offset + (4 + hostLen)))
    let validatorId := data.slice (offset + (4 + hostLen)) (offset + (36 + hostLen))
    let (zoneId, stake) ← unpackIQ
      (data.slice (offset + (36 + hostLen)) (offset + (48 + hostLen)))
    return some ({ host, port, validatorId, zoneId, stake, address := s!"{host}:{port}" },
      offset + (48 + hostLen))

theorem readPeer_eq_some {data : Bytes} {offset stop : ℕ} {entry : PeerEntry}
    (h : readPeer data offset = .ok (some (entry, stop))) :
    ∃ hostLen, offset + 2 ≤ data.length ∧
      structUnpack 2 (data.slice offset (offset + 2)) = .ok hostLen ∧
      (ofUtf8 (data.slice (offset + 2) (offset + (2 + hostLen)))).isSome ∧
      (data.slice (offset + (36 + hostLen)) (offset + (48 + hostLen))).length = 12 ∧
      stop = offset + (48 + hostLen) := by
  unfold readPeer at h
  split_ifs at h with hlength
  · cases h
  simp only [Except.bind_eq_ok, orRaise_eq_ok] at h
  obtain ⟨hostLen, hhost, host, hutf8, port, -, ⟨zoneId, stake⟩, hinfo, heq⟩ := h
  unfold unpackIQ at hinfo
  split_ifs at hinfo with hwidth
  refine ⟨hostLen, not_lt.mp hlength, hhost, by rw [hutf8]; rfl, hwidth, ?_⟩
  exact (Prod.mk.inj (Option.some.inj (Except.ok.inj heq))).2.symm

theorem readPeer_eq_error {data : Bytes} {offset : ℕ} {e : PyError}
    (h : readPeer data offset = .error e) : e = .structError ∨ e = .unicodeDecodeError := by
  unfold readPeer at h
  split_ifs at h
  simp only [Except.bind_eq_error] at h
  rcases h with h | ⟨_, -, h | ⟨_, -, h | ⟨_, -, h | ⟨_, -, h⟩⟩⟩⟩
  · exact Or.inl (structUnpack_eq_error h)
  · unfold orRaise at h
    split at h
    · exact Or.inr (Except.error.inj h).symm
    · cases h
  · exact Or.inl (structUnpack_eq_error h)
  · unfold unpackIQ at h
    split_ifs at h
    exact Or.inl (Except.error.inj h).symm
  · cases h

/-- The loop of the reader; a record has at least 48 bytes. -/
def peerLoop : Codec.Body PyError PeerEntry where
  step := readPeer
  advances h := by
    obtain ⟨hostLen, -, -, -, -, rfl⟩ := readPeer_eq_some h
    omega

def decodePeerList (data : Bytes) : Except PyError (List PeerEntry) := peerLoop.loop data 0

/-- The bytes of a record: a host that is text behind its length, and 46 bytes. -/
def recordOf (hostBytes tail : Bytes) : Bytes :=
  bigEndian 2 hostBytes.length ++ (hostBytes ++ tail)

/-- The entry that the 46 bytes behind a host spell. -/
def entryOf (host : String) (tail : Bytes) : PeerEntry where
  host := host
  port := Bytes.toNat (tail.slice 0 2)
  validatorId := tail.slice 2 34
  zoneId := unpackInt32 (Bytes.slice (tail.slice 34 46) 0 4)
  stake := Bytes.toNat (Bytes.slice (tail.slice 34 46) 4 12)
  address := s!"{host}:{Bytes.toNat (tail.slice 0 2)}"

theorem slice_behind (before data : Bytes) (start stop : ℕ) :
    Bytes.slice (before ++ data) (before.length + start) (before.length + stop) =
      Bytes.slice data start stop := by
  rw [Bytes.slice, List.drop_length_add_append, Nat.add_sub_add_left, Bytes.slice]

theorem length_recordOf {hostBytes tail : Bytes} (htail : tail.length = 46) :
    (recordOf hostBytes tail).length = 48 + hostBytes.length := by
  simp only [recordOf, List.length_append, length_bigEndian, htail]
  omega

theorem slice_recordOf_host (hostBytes tail : Bytes) :
    Bytes.slice (recordOf hostBytes tail) 2 (2 + hostBytes.length) = hostBytes := by
  have hparts : recordOf hostBytes tail =
      [bigEndian 2 hostBytes.length, hostBytes, tail].flatten := by simp [recordOf]
  rw [hparts]
  exact slice_flatten _ 1 _ _ rfl (by simp) rfl

theorem slice_recordOf_tail (hostBytes tail : Bytes) (start stop : ℕ) :
    Bytes.slice (recordOf hostBytes tail) (2 + hostBytes.length + start)
      (2 + hostBytes.length + stop) = Bytes.slice tail start stop := by
  have hfront : (bigEndian 2 hostBytes.length ++ hostBytes).length = 2 + hostBytes.length := by
    simp
  rw [recordOf, ← List.append_assoc, ← hfront]
  exact slice_behind _ _ _ _

theorem readPeer_recordOf {host : String} {tail : Bytes} (hhost : (utf8 host).length < 256 ^ 2)
    (htail : tail.length = 46) (before after : Bytes) :
    readPeer (before ++ recordOf (utf8 host) tail ++ after) before.length =
      .ok (some (entryOf host tail, before.length + (recordOf (utf8 host) tail).length)) := by
  have hlength : (recordOf (utf8 host) tail).length = 48 + (utf8 host).length :=
    length_recordOf htail
  have hinside : ∀ {start stop : ℕ}, stop ≤ 48 + (utf8 host).length →
      Bytes.slice (before ++ recordOf (utf8 host) tail ++ after) (before.length + start)
        (before.length + stop) = Bytes.slice (recordOf (utf8 host) tail) start stop :=
    fun h => Codec.slice_inside before _ after (by rw [hlength]; exact h)
  have hlen : Bytes.slice (before ++ recordOf (utf8 host) tail ++ after) before.length
      (before.length + 2) = bigEndian 2 (utf8 host).length := by
    have hzero := @hinside 0 2 (by omega)
    rw [Nat.add_zero] at hzero
    rw [hzero, slice_zero, recordOf, List.take_left' (length_bigEndian ..)]
  have hport := slice_recordOf_tail (utf8 host) tail 0 2
  have hid := slice_recordOf_tail (utf8 host) tail 2 34
  have hinfo := slice_recordOf_tail (utf8 host) tail 34 46
  have htail2 : (Bytes.slice tail 0 2).length = 2 := by rw [length_slice_eq, htail]; rfl
  have htail12 : (Bytes.slice tail 34 46).length = 12 := by rw [length_slice_eq, htail]; rfl
  have hbound : ¬ (before ++ recordOf (utf8 host) tail ++ after).length < before.length + 2 := by
    simp only [List.length_append, hlength]
    omega
  rw [readPeer, if_neg hbound, hlen, structUnpack_bigEndian hhost]
  simp only [bind, Except.bind]
  rw [hinside (by omega), hinside (by omega), hinside (by omega), hinside (by omega),
    slice_recordOf_host, ofUtf8_utf8]
  rw [show 4 + (utf8 host).length = 2 + (utf8 host).length + 2 by omega,
    show 36 + (utf8 host).length = 2 + (utf8 host).length + 34 by omega,
    show 48 + (utf8 host).length = 2 + (utf8 host).length + 46 by omega, hid, hinfo]
  rw [Nat.add_zero] at hport
  rw [hport, (structUnpack_eq_ok.mpr ⟨htail2, rfl⟩ : structUnpack 2 (Bytes.slice tail 0 2) = _),
    unpackIQ, if_pos htail12, hlength]
  simp only [orRaise, pure, Except.pure, entryOf]
  rw [show 48 + (utf8 host).length = 2 + (utf8 host).length + 46 by omega]

theorem unpackInt32_of_packInt32 {n : ℤ} {data : Bytes} (h : packInt32 n = .ok data) :
    data.length = 4 ∧ unpackInt32 data = n := by
  unfold packInt32 at h
  split_ifs at h with hrange
  obtain rfl := Except.ok.inj h
  have hmod : (n % 2 ^ 32).toNat < 256 ^ 4 := by omega
  refine ⟨length_bigEndian .., ?_⟩
  rw [unpackInt32, Bytes.toNat_bigEndian hmod]
  split_ifs with hsign
  · omega
  · omega

theorem unpackIQ_of_packIQ {zoneId stake : ℤ} {data : Bytes} (h : packIQ zoneId stake = .ok data) :
    data.length = 12 ∧ unpackIQ data = .ok (zoneId, stake.toNat) := by
  simp only [packIQ, Except.bind_eq_ok, structPack_eq_ok] at h
  obtain ⟨zone, hzone, _, ⟨hstake, rfl⟩, hdata⟩ := h
  obtain rfl := Except.ok.inj hdata
  obtain ⟨hlength, hvalue⟩ := unpackInt32_of_packInt32 hzone
  have hwidth : (zone ++ bigEndian 8 stake.toNat).length = 12 := by simp [hlength]
  have hright : Bytes.slice (zone ++ bigEndian 8 stake.toNat) 4 12 = bigEndian 8 stake.toNat := by
    rw [Bytes.slice, ← hlength, List.drop_left, List.take_of_length_le (by simp [hlength])]
  refine ⟨hwidth, ?_⟩
  rw [unpackIQ, if_pos hwidth, slice_zero, ← hlength, List.take_left, hlength, hright, hvalue,
    Bytes.toNat_bigEndian (by omega)]

/-- A peer with a host and a port, everything in the range of the format. -/
structure Listable (peer : PeerConnection F) (host : String) (port : ℕ) : Prop where
  validatorId : peer.validatorId.length = 32
  address : peer.address = s!"{host}:{port}"
  hostLength : (utf8 host).length < 2 ^ 16
  port : port < 2 ^ 16
  zoneId : -2 ^ 31 ≤ peer.zoneId ∧ peer.zoneId < 2 ^ 31
  stake : 0 ≤ peer.stake ∧ peer.stake < 2 ^ 64

theorem rsplitOnce_address (host : String) (port : ℕ) :
    rsplitOnce ':' s!"{host}:{port}" = some (host, toString port) :=
  rsplitOnce_append host (notMem_toString rfl)

/-- The entry that says what is known of a peer. -/
def entryFor (peer : PeerConnection F) (host : String) (port : ℕ) : PeerEntry where
  host := host
  port := port
  validatorId := peer.validatorId
  zoneId := peer.zoneId
  stake := peer.stake
  address := peer.address

theorem encodePeer_of_listable {peer : PeerConnection F} {host : String} {port : ℕ}
    (h : Listable peer host port) :
    ∃ tail : Bytes, tail.length = 46 ∧ encodePeer peer = .ok (recordOf (utf8 host) tail) ∧
      entryOf host tail = entryFor peer host port := by
  have hport : parseInt (toString port) = some (port : ℤ) := by
    refine parseInt_toString ?_
    have hdigits : (Nat.toDigits 10 port).length ≤ 5 := by
      rw [Nat.length_toDigits_le_iff (by decide) (by decide)]
      have := h.port
      omega
    exact hdigits.trans (by decide)
  have hportPack : structPack 2 (port : ℤ) = .ok (bigEndian 2 port) :=
    structPack_eq_ok.mpr ⟨⟨by omega, by exact_mod_cast h.port⟩, rfl⟩
  have hlenPack : structPack 2 ((utf8 host).length : ℤ) =
      .ok (bigEndian 2 (utf8 host).length) :=
    structPack_eq_ok.mpr ⟨⟨by omega, by exact_mod_cast h.hostLength⟩, rfl⟩
  obtain ⟨info, hinfo⟩ : ∃ info, packIQ peer.zoneId peer.stake = .ok info := by
    refine ⟨bigEndian 4 (peer.zoneId % 2 ^ 32).toNat ++ bigEndian 8 peer.stake.toNat, ?_⟩
    rw [packIQ, packInt32, if_pos h.zoneId, structPack_eq_ok.mpr ⟨h.stake, rfl⟩]
    rfl
  obtain ⟨hinfoLength, hinfoValue⟩ := unpackIQ_of_packIQ hinfo
  have hid := h.validatorId
  obtain ⟨parts, hparts⟩ : ∃ parts : List Bytes,
      parts = [bigEndian 2 port, peer.validatorId, info] := ⟨_, rfl⟩
  refine ⟨parts.flatten, ?_, ?_, ?_⟩
  · simp [hparts, hid, hinfoLength]
  · rw [encodePeer, h.address, rsplitOnce_address]
    simp only [Except.bind_eq_ok, orRaise_eq_ok]
    exact ⟨_, rfl, _, hport, _, hlenPack, _, hportPack, info, hinfo, by
      simp [hparts, recordOf, pure, Except.pure]⟩
  · have h0 : Bytes.slice parts.flatten 0 2 = bigEndian 2 port :=
      slice_flatten parts 0 0 2 (by rw [hparts]; rfl) rfl (by simp)
    have h1 : Bytes.slice parts.flatten 2 34 = peer.validatorId :=
      slice_flatten parts 1 2 34 (by rw [hparts]; rfl) (by simp [hparts]) (by simp [hid])
    have h2 : Bytes.slice parts.flatten 34 46 = info :=
      slice_flatten parts 2 34 46 (by rw [hparts]; rfl) (by simp [hparts, hid])
        (by simp [hinfoLength])
    rw [unpackIQ, if_pos hinfoLength] at hinfoValue
    obtain ⟨hzone, hstake⟩ := Prod.mk.inj (Except.ok.inj hinfoValue)
    have hstakeInt : ((Bytes.toNat (Bytes.slice info 4 12) : ℕ) : ℤ) = peer.stake := by
      rw [hstake, Int.toNat_of_nonneg h.stake.1]
    rw [entryOf, entryFor, h0, h1, h2, Bytes.toNat_bigEndian h.port, hzone, hstakeInt, h.address]

/-- What an entry must say of its peer. -/
structure Reports (peer : PeerConnection F) (entry : PeerEntry) : Prop where
  address : entry.address = peer.address
  parts : ∀ host port, peer.address = s!"{host}:{(port : ℕ)}" →
    entry.host = host ∧ entry.port = port
  validatorId : entry.validatorId = peer.validatorId
  zoneId : entry.zoneId = peer.zoneId
  stake : entry.stake = peer.stake

theorem reports_entryFor {peer : PeerConnection F} {host : String} {port : ℕ}
    (h : Listable peer host port) : Reports peer (entryFor peer host port) := by
  refine ⟨rfl, fun host' port' h' => ?_, rfl, rfl, rfl⟩
  have hsame := (rsplitOnce_address host port).symm.trans
    ((congrArg (rsplitOnce ':') (h.address.symm.trans h')).trans (rsplitOnce_address host' port'))
  obtain ⟨hhost, hport⟩ := Prod.mk.inj (Option.some.inj hsame)
  have hvalue := congrArg (fun s => Nat.ofDigitChars 10 s.toList 0) hport
  have hvalue : port = port' := by simpa using hvalue
  exact ⟨hhost, hvalue⟩

/-- Each peer is written as a record that is read back wherever it stands. -/
theorem encodePeers_of_listable {peers : List (PeerConnection F)}
    (hpeers : ∀ peer ∈ peers, ∃ host port, Listable peer host port) :
    ∃ parts entries, peers.mapM encodePeer = .ok parts ∧
      List.Forall₂ (fun part entry => part ≠ [] ∧ ∀ before after,
        peerLoop.step (before ++ part ++ after) before.length =
          .ok (some (entry, before.length + part.length))) parts entries ∧
      List.Forall₂ Reports peers entries := by
  induction peers with
  | nil => exact ⟨[], [], rfl, .nil, .nil⟩
  | cons peer peers ih =>
    obtain ⟨⟨host, port, hpeer⟩, hrest⟩ := List.forall_mem_cons.mp hpeers
    obtain ⟨parts, entries, hparts, hreads, hreports⟩ := ih hrest
    obtain ⟨tail, htail, hpart, hentry⟩ := encodePeer_of_listable hpeer
    refine ⟨recordOf (utf8 host) tail :: parts, entryFor peer host port :: entries, ?_,
      .cons ⟨?_, fun before after => ?_⟩ hreads, .cons (reports_entryFor hpeer) hreports⟩
    · rw [List.mapM_cons, hpart, hparts]
      rfl
    · intro hnil
      have hlength := congrArg List.length hnil
      simp [recordOf] at hlength
    · rw [← hentry]
      exact readPeer_recordOf hpeer.hostLength htail before after

/-- Peer lists survive the wire: one entry for each peer, in order, that says what is known. -/
theorem decodePeerList_encodePeerList (m : PeerManager F)
    (h : ∀ peer ∈ m.peers.values, ∃ host port, Listable peer host port) :
    ∃ data entries, m.encodePeerList = .ok data ∧ decodePeerList data = .ok entries ∧
      List.Forall₂ Reports m.peers.values entries := by
  obtain ⟨parts, entries, hparts, hreads, hreports⟩ := encodePeers_of_listable h
  refine ⟨parts.flatten, entries, ?_, Codec.Body.loop_of_undoes hreads [], hreports⟩
  rw [encodePeerList, hparts]
  rfl

theorem decodePeerList_encodePeerList_two :
    ∃ (m : PeerManager ℚ) (data : Bytes) (entries : List PeerEntry),
      m.peers.values.map PeerConnection.address = ["node:9000", "::1:65535"] ∧
      m.encodePeerList = .ok data ∧ decodePeerList data = .ok entries ∧
      List.Forall₂ Reports m.peers.values entries := by
  obtain ⟨m, hm⟩ : ∃ m : PeerManager ℚ, m =
      { validatorId := [], zoneId := 0, stake := 0
        peers := (OrderedDict.set ∅ (List.replicate 32 1)
          { id := 0, validatorId := List.replicate 32 1, address := "node:9000", zoneId := 3,
            stake := 100, lastSeen := 0, outbound := true }).set (List.replicate 32 2)
          { id := 1, validatorId := List.replicate 32 2, address := "::1:65535", zoneId := -1,
            stake := 200, lastSeen := 0, outbound := false } } := ⟨_, rfl⟩
  have hvalues : m.peers.values =
      [{ id := 0, validatorId := List.replicate 32 1, address := "node:9000", zoneId := 3,
         stake := 100, lastSeen := 0, outbound := true },
        { id := 1, validatorId := List.replicate 32 2, address := "::1:65535", zoneId := -1,
          stake := 200, lastSeen := 0, outbound := false }] := by rw [hm]; rfl
  obtain ⟨data, entries, hdata, hentries, hreports⟩ := decodePeerList_encodePeerList m (by
    rw [hvalues, List.forall_mem_cons, List.forall_mem_singleton]
    exact ⟨⟨"node", 9000, by decide, by decide, by decide, by decide, by decide, by decide⟩,
      "::1", 65535, by decide, by decide, by decide, by decide, by decide, by decide⟩)
  exact ⟨m, data, entries, by rw [hvalues]; rfl, hdata, hentries, hreports⟩

def IsRecord (part : Bytes) : Prop :=
  ∃ (host : String) (tail : Bytes), (utf8 host).length < 256 ^ 2 ∧ tail.length = 46 ∧
    part = recordOf (utf8 host) tail

def IsRest (data : Bytes) : Prop := data.length < 2

theorem isRecord_of_readPeer {before data : Bytes} {entry : PeerEntry} {stop : ℕ}
    (h : readPeer (before ++ data) before.length = .ok (some (entry, stop))) :
    ∃ part rest, data = part ++ rest ∧ IsRecord part ∧ stop = before.length + part.length := by
  obtain ⟨hostLen, -, hlen, hutf8, hinfo, rfl⟩ := readPeer_eq_some h
  have hfront := slice_behind before data 0 2
  rw [Nat.add_zero] at hfront
  rw [hfront] at hlen
  rw [slice_behind] at hutf8 hinfo
  obtain ⟨host, hhost⟩ := Option.isSome_iff_exists.mp hutf8
  have hhost := ofUtf8_eq_some.mp hhost
  obtain ⟨htwo, hvalue⟩ := structUnpack_eq_ok.mp hlen
  have hlt := Bytes.toNat_lt (data.slice 0 2)
  rw [htwo, ← hvalue] at hlt
  have hlength : 48 + hostLen ≤ data.length := by
    rw [length_slice_eq] at hinfo
    omega
  have hname : (utf8 host).length = hostLen := by
    rw [← hhost, length_slice_eq]
    omega
  have hword : bigEndian 2 (utf8 host).length = data.slice 0 2 := by
    have hspell := bigEndian_toNat (data.slice 0 2)
    rw [htwo] at hspell
    rw [hname, hvalue, hspell]
  have hpart : data.take (48 + hostLen) =
      recordOf (utf8 host) (data.slice (2 + hostLen) (48 + hostLen)) := by
    rw [recordOf, hword, ← hhost, slice_append_slice data (by omega) (by omega),
      slice_append_slice data (by omega) (by omega), slice_zero]
  refine ⟨data.take (48 + hostLen), data.drop (48 + hostLen), (List.take_append_drop _ _).symm,
    ⟨host, _, by omega, ?_, hpart⟩, ?_⟩
  · rw [length_slice_eq]
    omega
  · rw [List.length_take_of_le hlength]

/-- The loop takes whole records, and breaks off at what is less than a length. -/
theorem peerLoop_describes : peerLoop.Describes IsRecord IsRest where
  nil := show 0 < 2 by decide
  reads := by
    rintro _ ⟨host, tail, hhost, htail, rfl⟩ before after
    exact ⟨_, readPeer_recordOf hhost htail before after⟩
  breaks := by
    intro data hshort _ before
    refine if_pos ?_
    rw [List.length_append]
    exact Nat.add_lt_add_left hshort _
  of_read := isRecord_of_readPeer
  of_break := by
    intro before data _ h
    have h : readPeer (before ++ data) before.length = .ok none := h
    unfold readPeer at h
    split_ifs at h with hshort
    · rw [List.length_append] at hshort
      exact Nat.lt_of_add_lt_add_left hshort
    · simp only [Except.bind_eq_ok] at h
      obtain ⟨_, -, _, -, _, -, _, -, heq⟩ := h
      cases Except.ok.inj heq

theorem decodePeerList_returns_iff (data : Bytes) :
    (decodePeerList data).Returns ↔ Codec.Stream IsRecord IsRest data :=
  peerLoop_describes.loop_returns_iff data

end PeerManager

end Qrtb
