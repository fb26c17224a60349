import Qrtb.Lib.Framing
import Qrtb.Network.Connections

/-!
# Message framing (`src/p2p.py`)

A message on the wire is the length of its payload in four bytes, its type in one, and
the payload. The bytes that have arrived and those still to arrive are one stream, from
whose front the reader takes what it awaits; where the stream ends early it loses them.
-/

namespace Qrtb

def MAX_MESSAGE_SIZE : ℕ := 16 * 1024 * 1024
def HEADER_SIZE : ℕ := 5

namespace MessageType

def toInt : MessageType → ℕ
  | ping => 0
  | pong => 1
  | peerDiscovery => 2
  | peerList => 3
  | txBroadcast => 4
  | measurementCommit => 5
  | measurementReveal => 6
  | proposal => 7
  | preVote => 8
  | preCommit => 9
  | block => 10
  | epochSync => 11

def members : List MessageType :=
  [ping, pong, peerDiscovery, peerList, txBroadcast, measurementCommit, measurementReveal, proposal,
    preVote, preCommit, block, epochSync]

/-- `max(MessageType)`. -/
def maxInt : ℕ := (members.map toInt).foldl max 0

/-- `MessageType(n)`. -/
def ofInt (n : ℕ) : Option MessageType := members.find? fun t => t.toInt = n

theorem ofInt_toInt (t : MessageType) : ofInt t.toInt = some t := by
  cases t <;> rfl

theorem toInt_le (t : MessageType) : t.toInt ≤ maxInt := by
  cases t <;> decide

theorem exists_of_le {n : ℕ} (h : n ≤ maxInt) : ∃ t, ofInt n = some t ∧ t.toInt = n := by
  have hmembers : ∀ n < maxInt + 1, ∃ t ∈ members, ofInt n = some t ∧ t.toInt = n := by decide
  obtain ⟨t, -, ht⟩ := hmembers n (Nat.lt_succ_of_le h)
  exact ⟨t, ht⟩

end MessageType

/-- What reading a message raises. -/
inductive ReadError where
  | incompleteRead (received : Bytes) (expected : ℕ)
  | connectionError (message : String)
  | valueError
  deriving DecidableEq, Repr

def encodeMessage (msgType : MessageType) (payload : Bytes) : Except PyError Bytes := do
  let header := (← structPack 4 payload.length) ++ (← structPack 1 msgType.toInt)
  return header ++ payload

def encodePair (message : MessageType × Bytes) : Except PyError Bytes :=
  encodeMessage message.1 message.2

/-- `reader.readexactly(n)`, with the rest of the stream. -/
def readexactly (n : ℕ) (stream : Bytes) : Except ReadError Bytes × Bytes :=
  if n ≤ stream.length then (.ok (stream.take n), stream.drop n)
  else (.error (.incompleteRead stream n), [])

def readMessage (stream : Bytes) : Except ReadError (MessageType × Bytes) × Bytes :=
  match readexactly HEADER_SIZE stream with
  | (.error e, stream) => (.error e, stream)
  | (.ok header, stream) =>
    let payloadLen := Bytes.toNat (header.take 4)
    let msgTypeInt := Bytes.toNat (header.drop 4)
    if payloadLen > MAX_MESSAGE_SIZE then
      (.error (.connectionError s!"Message too large: {payloadLen}"), stream)
    else if msgTypeInt > MessageType.maxInt then
      (.error (.connectionError s!"Unknown message type: {msgTypeInt}"), stream)
    else
      match if payloadLen > 0 then readexactly payloadLen stream else (.ok [], stream) with
      | (.error e, stream) => (.error e, stream)
      | (.ok payload, stream) =>
        match MessageType.ofInt msgTypeInt with
        | some msgType => (.ok (msgType, payload), stream)
        | none => (.error .valueError, stream)

theorem readexactly_append (data rest : Bytes) :
    readexactly data.length (data ++ rest) = (.ok data, rest) := by
  rw [readexactly, if_pos (by simp), List.take_left, List.drop_left]

theorem readexactly_eq_ok {n : ℕ} {stream data rest : Bytes}
    (h : readexactly n stream = (.ok data, rest)) : stream = data ++ rest ∧ data.length = n := by
  rw [readexactly] at h
  split_ifs at h with hlen
  · obtain ⟨hdata, rfl⟩ := Prod.mk.inj h
    obtain rfl := Except.ok.inj hdata
    exact ⟨(List.take_append_drop n stream).symm, by rw [List.length_take, min_eq_left hlen]⟩
  · cases h

theorem readPayload_eq (n : ℕ) (stream : Bytes) :
    (if n > 0 then readexactly n stream else (.ok [], stream)) = readexactly n stream := by
  split_ifs with hpos
  · rfl
  · obtain rfl := Nat.eq_zero_of_not_pos hpos
    rfl

def header (length msgTypeInt : ℕ) : Bytes :=
  Bytes.bigEndian 4 length ++ Bytes.bigEndian 1 msgTypeInt

theorem length_header (length msgTypeInt : ℕ) :
    (header length msgTypeInt).length = HEADER_SIZE := by
  rw [header, List.length_append, Bytes.length_bigEndian, Bytes.length_bigEndian, HEADER_SIZE]

theorem header_fields {length msgTypeInt : ℕ} (hlength : length < 2 ^ 32) (hint : msgTypeInt < 256) :
    Bytes.toNat ((header length msgTypeInt).take 4) = length ∧
      Bytes.toNat ((header length msgTypeInt).drop 4) = msgTypeInt := by
  rw [header, List.take_left' (Bytes.length_bigEndian _ _),
    List.drop_left' (Bytes.length_bigEndian _ _)]
  exact ⟨Bytes.toNat_bigEndian hlength, Bytes.toNat_bigEndian hint⟩

theorem header_eq {data : Bytes} (h : data.length = HEADER_SIZE) :
    header (Bytes.toNat (data.take 4)) (Bytes.toNat (data.drop 4)) = data := by
  have hlength : (data.take 4).length = 4 := by
    rw [List.length_take, h]
    rfl
  have hint : (data.drop 4).length = 1 := by
    rw [List.length_drop, h]
    rfl
  have hfirst := Bytes.bigEndian_toNat (data.take 4)
  have hsecond := Bytes.bigEndian_toNat (data.drop 4)
  rw [hlength] at hfirst
  rw [hint] at hsecond
  rw [header, hfirst, hsecond, List.take_append_drop]

theorem toInt_lt (msgType : MessageType) : msgType.toInt < 256 :=
  (MessageType.toInt_le msgType).trans_lt (by decide)

theorem encodeMessage_eq (msgType : MessageType) {payload : Bytes} (h : payload.length < 2 ^ 32) :
    encodeMessage msgType payload = .ok (header payload.length msgType.toInt ++ payload) := by
  have hlt := toInt_lt msgType
  have hlength : structPack 4 payload.length = .ok (Bytes.bigEndian 4 payload.length) :=
    structPack_eq_ok.mpr ⟨by omega, rfl⟩
  have hint : structPack 1 msgType.toInt = .ok (Bytes.bigEndian 1 msgType.toInt) :=
    structPack_eq_ok.mpr ⟨by omega, rfl⟩
  rw [encodeMessage, hlength, hint]
  rfl

theorem readMessage_header (msgType : MessageType) {payload : Bytes}
    (h : payload.length ≤ MAX_MESSAGE_SIZE) (rest : Bytes) :
    readMessage (header payload.length msgType.toInt ++ payload ++ rest) =
      (.ok (msgType, payload), rest) := by
  have hlt : MAX_MESSAGE_SIZE < 2 ^ 32 := by decide
  obtain ⟨hlength, hint⟩ := header_fields (h.trans_lt hlt) (toInt_lt msgType)
  have hread := readexactly_append (header payload.length msgType.toInt) (payload ++ rest)
  rw [length_header] at hread
  rw [readMessage, List.append_assoc, hread]
  dsimp only
  rw [hlength, hint, if_neg h.not_gt, if_neg (MessageType.toInt_le msgType).not_gt,
    readPayload_eq, readexactly_append]
  dsimp only
  rw [MessageType.ofInt_toInt]

theorem readMessage_eq_ok {stream payload rest : Bytes} {msgType : MessageType}
    (h : readMessage stream = (.ok (msgType, payload), rest)) :
    payload.length ≤ MAX_MESSAGE_SIZE ∧
      stream = header payload.length msgType.toInt ++ payload ++ rest := by
  rw [readMessage] at h
  split at h
  · cases h
  · next data afterHeader hheader =>
    obtain ⟨rfl, hdata⟩ := readexactly_eq_ok hheader
    dsimp only at h
    rw [readPayload_eq] at h
    split_ifs at h with hlarge hunknown
    · cases h
    · cases h
    · split at h
      · cases h
      · next body _ hbody =>
        obtain ⟨rfl, hlen⟩ := readexactly_eq_ok hbody
        obtain ⟨t, hof, hint⟩ := MessageType.exists_of_le (not_lt.mp hunknown)
        rw [hof] at h
        obtain ⟨hmessage, rfl⟩ := Prod.mk.inj h
        obtain ⟨rfl, rfl⟩ := Prod.mk.inj (Except.ok.inj hmessage)
        rw [hlen, hint, header_eq hdata, List.append_assoc]
        exact ⟨not_lt.mp hlarge, rfl⟩

/-- What a run of reads took off a stream is the encoding of what it returned. -/
theorem encoding_of_readMany {n : ℕ} {stream rest : Bytes} {messages : List (MessageType × Bytes)}
    (h : Framing.readMany readMessage n stream = (.ok messages, rest)) :
    messages.length = n ∧
      ∃ data, Framing.writeMany encodePair messages = .ok data ∧ stream = data ++ rest := by
  apply Framing.writeMany_readMany _ h
  rintro stream ⟨msgType, payload⟩ rest hread
  obtain ⟨hsize, rfl⟩ := readMessage_eq_ok hread
  exact ⟨_, encodeMessage_eq msgType (hsize.trans_lt (by decide)), rfl⟩

/-- A list of messages is read back from its encoding, and nothing but an encoding is
taken off a stream. -/
theorem framing_transparent :
    (∀ messages : List (MessageType × Bytes), (∀ m ∈ messages, m.2.length ≤ MAX_MESSAGE_SIZE) →
      ∃ stream, Framing.writeMany encodePair messages = .ok stream ∧
        Framing.readMany readMessage messages.length stream = (.ok messages, [])) ∧
    ∀ stream msgType payload rest, readMessage stream = (.ok (msgType, payload), rest) →
      ∃ data, encodeMessage msgType payload = .ok data ∧ stream = data ++ rest := by
  have hlt : MAX_MESSAGE_SIZE < 2 ^ 32 := by decide
  constructor
  · intro messages hsize
    have hpair : ∀ m ∈ messages, ∃ data, encodePair m = .ok data ∧
        ∀ rest, readMessage (data ++ rest) = (.ok m, rest) := fun m hm =>
      ⟨_, encodeMessage_eq m.1 ((hsize m hm).trans_lt hlt), readMessage_header m.1 (hsize m hm)⟩
    obtain ⟨stream, hwrite, hread⟩ := Framing.readMany_writeMany hpair
    have hall := hread []
    rw [List.append_nil] at hall
    exact ⟨stream, hwrite, hall⟩
  · intro stream msgType payload rest h
    obtain ⟨hsize, rfl⟩ := readMessage_eq_ok h
    exact ⟨_, encodeMessage_eq msgType (hsize.trans_lt hlt), rfl⟩

theorem framing_transparent_two :
    (∃ stream, Framing.writeMany encodePair [(.ping, []), (.block, [1, 2])] = .ok stream ∧
      Framing.readMany readMessage 2 stream = (.ok [(.ping, []), (.block, [1, 2])], [])) ∧
    ∃ data, encodeMessage .ping [] = .ok data ∧ [0, 0, 0, 0, 0, 7] = data ++ [7] :=
  ⟨framing_transparent.1 [(.ping, []), (.block, [1, 2])] (by decide),
    framing_transparent.2 [0, 0, 0, 0, 0, 7] .ping [] [7] (by decide)⟩

end Qrtb
