import Qrtb.Consensus.EpochRecords
import Mathlib.Data.List.MinMax
import Mathlib.Data.Finset.Card

/-!
# Agreement on the epoch (`EpochSynchronizer` in `src/epoch.py`)

A synchronizer keeps the epoch that each peer has told last, and every message under
its epoch. It is synchronized when 67 of 100 peers tell its own epoch. Peers may tell
different epochs to different validators; as long as these are few, two validators
that are synchronized are in the same epoch, and it is the one each of them counts the
most peers in.
-/

namespace Qrtb.Epochs

open Keccak PyFloat Transition

structure EpochSyncMessage (F : Type) where
  senderId : Bytes
  epoch : ℤ
  timestamp : F
  entropyHash : Bytes
  signature : Bytes := []

structure EpochSynchronizer (F : Type) where
  validatorId : Bytes
  epochManager : EpochManager F
  peerEpochs : OrderedDict Bytes ℤ := ∅
  syncMessages : OrderedDict ℤ (List (EpochSyncMessage F)) := ∅

variable {F : Type}

namespace EpochSynchronizer

/-- Create a message for the current epoch; without an entropy in the record the hash is empty. -/
def createSyncMessage (time : F) (s : EpochSynchronizer F) : EpochSyncMessage F where
  senderId := s.validatorId
  epoch := s.epochManager.currentEpoch
  timestamp := time
  entropyHash :=
    match (s.epochManager.epochs.get? s.epochManager.currentEpoch).bind EpochState.entropy with
    | none => []
    | some entropy => sha3_256 entropy.combinedEntropy

def receiveSyncMessage (msg : EpochSyncMessage F) (s : EpochSynchronizer F) :
    (Bool × String) × EpochSynchronizer F :=
  let s :=
    { s with
      peerEpochs := s.peerEpochs.set msg.senderId msg.epoch
      syncMessages := s.syncMessages.set msg.epoch (s.syncMessages.getD msg.epoch [] ++ [msg]) }
  let myEpoch := s.epochManager.currentEpoch
  if msg.epoch = myEpoch then ((true, "in sync"), s)
  else if myEpoch < msg.epoch then
    ((false, "peer ahead by " ++ toString (msg.epoch - myEpoch) ++ " epochs"), s)
  else ((false, "peer behind by " ++ toString (myEpoch - msg.epoch) ++ " epochs"), s)

def countEpochs (epochs : List ℤ) : OrderedDict ℤ ℕ :=
  epochs.foldl (fun counts epoch => counts.set epoch (counts.getD epoch 0 + 1)) ∅

/-- The epoch that the most peers are in, of several the one that was counted first. -/
def getConsensusEpoch (s : EpochSynchronizer F) : ℤ :=
  let counts := countEpochs s.peerEpochs.values
  match counts.keys.argmax fun epoch => counts.getD epoch 0 with
  | none => s.epochManager.currentEpoch
  | some epoch => epoch

def isSynchronized [PyFloat F] (threshold : F) (s : EpochSynchronizer F) : Bool :=
  if s.peerEpochs.keys.isEmpty then true
  else
    let matching := s.peerEpochs.values.countP (· = s.epochManager.currentEpoch)
    le threshold (divInt matching s.peerEpochs.keys.length)

end EpochSynchronizer

/-- What happens to a synchronizer and to the manager it reads. -/
inductive SyncEvent (F : Type) where
  | receive (msg : EpochSyncMessage F)
  | manage (op : Operation F)

def SyncEvent.act [PyFloat F] : SyncEvent F → EpochSynchronizer F → EpochSynchronizer F
  | .receive msg, s => (s.receiveSyncMessage msg).2
  | .manage op, s => { s with epochManager := op.act s.epochManager }

def SyncEvent.message : SyncEvent F → Option (EpochSyncMessage F)
  | .receive msg => some msg
  | .manage _ => none

def heard (events : List (SyncEvent F)) : List (EpochSyncMessage F) :=
  events.filterMap SyncEvent.message

def told (events : List (SyncEvent F)) (peer : Bytes) : Option ℤ :=
  ((heard events).reverse.find? fun msg => msg.senderId = peer).map EpochSyncMessage.epoch

def senders (events : List (SyncEvent F)) : Finset Bytes :=
  ((heard events).map EpochSyncMessage.senderId).toFinset

theorem heard_receive (events : List (SyncEvent F)) (msg : EpochSyncMessage F) :
    heard (events ++ [.receive msg]) = heard events ++ [msg] := List.filterMap_append ..

theorem heard_manage (events : List (SyncEvent F)) (op : Operation F) :
    heard (events ++ [.manage op]) = heard events := by
  rw [heard, List.filterMap_append]
  exact List.append_nil _

theorem told_receive (events : List (SyncEvent F)) (msg : EpochSyncMessage F) (peer : Bytes) :
    told (events ++ [.receive msg]) peer =
      if peer = msg.senderId then some msg.epoch else told events peer := by
  rw [told, heard_receive, List.reverse_append, List.reverse_singleton, List.singleton_append,
    List.find?_cons]
  by_cases h : peer = msg.senderId
  · rw [if_pos h, decide_eq_true h.symm]
    rfl
  · rw [if_neg h, decide_eq_false (Ne.symm h)]
    rfl

theorem isSome_told (events : List (SyncEvent F)) (peer : Bytes) :
    (told events peer).isSome = true ↔ peer ∈ senders events := by
  simp [told, senders]

/-- The books of a synchronizer are those of what it has heard. -/
structure Hearing (events : List (SyncEvent F)) (s : EpochSynchronizer F) : Prop where
  peers : ∀ peer, s.peerEpochs.get? peer = told events peer
  messages : ∀ epoch, s.syncMessages.getD epoch [] =
    (heard events).filter fun msg => msg.epoch = epoch

namespace Hearing

variable {events : List (SyncEvent F)} {s : EpochSynchronizer F}

theorem receive (h : Hearing events s) (msg : EpochSyncMessage F) :
    Hearing (events ++ [.receive msg]) (s.receiveSyncMessage msg).2 := by
  have hbooks : (s.receiveSyncMessage msg).2.peerEpochs = s.peerEpochs.set msg.senderId msg.epoch ∧
      (s.receiveSyncMessage msg).2.syncMessages =
        s.syncMessages.set msg.epoch (s.syncMessages.getD msg.epoch [] ++ [msg]) := by
    rw [EpochSynchronizer.receiveSyncMessage]
    split_ifs <;> exact ⟨rfl, rfl⟩
  constructor
  · intro peer
    rw [hbooks.1, OrderedDict.get?_set, told_receive, h.peers]
  · intro epoch
    rw [hbooks.2, OrderedDict.getD, OrderedDict.get?_set, heard_receive, List.filter_append]
    by_cases hepoch : epoch = msg.epoch
    · subst hepoch
      rw [if_pos rfl, Option.getD_some, h.messages]
      simp
    · rw [if_neg hepoch]
      have hskip : [msg].filter (fun msg => msg.epoch = epoch) = [] := by simp [Ne.symm hepoch]
      rw [hskip, List.append_nil]
      exact h.messages epoch

theorem runs [PyFloat F] (validatorId : Bytes) (m : EpochManager F) (events : List (SyncEvent F)) :
    Hearing events (Transition.runs SyncEvent.act events { validatorId, epochManager := m }) := by
  induction events using List.reverseRecOn with
  | nil => exact ⟨fun _ => rfl, fun _ => rfl⟩
  | append_singleton events event ih =>
    rw [runs_append_singleton]
    cases event with
    | receive msg => exact ih.receive msg
    | manage op =>
      refine ⟨fun peer => (ih.peers peer).trans ?_, fun epoch => (ih.messages epoch).trans ?_⟩
      · rw [told, told, heard_manage]
      · rw [heard_manage]

theorem keys_toFinset (h : Hearing events s) : s.peerEpochs.keys.toFinset = senders events := by
  ext peer
  rw [List.mem_toFinset, OrderedDict.mem_keys_iff, ← isSome_told, ← h.peers,
    Option.isSome_iff_exists]

theorem countP_values (h : Hearing events s) (epoch : ℤ) :
    s.peerEpochs.values.countP (· = epoch) =
      ((senders events).filter fun peer => told events peer = some epoch).card := by
  rw [OrderedDict.countP_values, h.keys_toFinset]
  congr 1
  refine Finset.filter_congr fun peer _ => ?_
  rw [h.peers]
  cases told events peer with
  | none => simp
  | some e => simp

theorem length_keys (h : Hearing events s) : s.peerEpochs.keys.length = (senders events).card := by
  rw [← h.keys_toFinset]
  exact (List.toFinset_card_of_nodup s.peerEpochs.nodup).symm

end Hearing

namespace EpochSynchronizer

theorem getD_countEpochs (epochs : List ℤ) (epoch : ℤ) :
    (countEpochs epochs).getD epoch 0 = epochs.count epoch := by
  induction epochs using List.reverseRecOn with
  | nil => rfl
  | append_singleton epochs e ih =>
    rw [countEpochs, List.foldl_append, List.foldl_cons, List.foldl_nil, ← countEpochs,
      OrderedDict.getD, OrderedDict.get?_set, List.count_append, List.count_singleton]
    by_cases h : epoch = e
    · subst h
      rw [if_pos rfl, Option.getD_some, ih]
      simp
    · rw [if_neg h, ← OrderedDict.getD, ih]
      simp [Ne.symm h]

theorem mem_keys_countEpochs (epochs : List ℤ) (epoch : ℤ) :
    epoch ∈ (countEpochs epochs).keys ↔ epoch ∈ epochs := by
  induction epochs using List.reverseRecOn with
  | nil => exact Iff.rfl
  | append_singleton epochs e ih =>
    rw [countEpochs, List.foldl_append, List.foldl_cons, List.foldl_nil, ← countEpochs,
      OrderedDict.mem_keys_iff, List.mem_append, List.mem_singleton, ← ih, OrderedDict.mem_keys_iff]
    simp only [OrderedDict.get?_set]
    by_cases h : epoch = e
    · simp [h]
    · simp [h]

/-- An epoch that more than half of the peers are in is the one with the most peers. -/
theorem getConsensusEpoch_of_majority {s : EpochSynchronizer F} {epoch : ℤ}
    (h : s.peerEpochs.values.length < 2 * s.peerEpochs.values.count epoch) :
    s.getConsensusEpoch = epoch := by
  rw [getConsensusEpoch]
  generalize s.peerEpochs.values = epochs at h
  have hmem : epoch ∈ (countEpochs epochs).keys := by
    rw [mem_keys_countEpochs, ← List.count_pos_iff]
    omega
  simp only [getD_countEpochs]
  cases hmax : (countEpochs epochs).keys.argmax fun e => epochs.count e with
  | none =>
    rw [List.argmax_eq_none.mp hmax] at hmem
    cases hmem
  | some e =>
    have hle := List.le_of_mem_argmax hmem hmax
    by_contra hne
    have hothers : epochs.count epoch ≤ epochs.countP fun a => !(a == e) := by
      refine List.countP_mono_left fun a _ ha => ?_
      simpa [eq_of_beq ha] using Ne.symm hne
    have hall := epochs.length_eq_countP_add_countP (· == e)
    rw [← List.count_eq_countP] at hall
    simp only [Bool.not_eq_true, Bool.decide_eq_false] at hall
    omega

end EpochSynchronizer

/-- The peers that have not told the two the same. -/
def dissenters (events₁ events₂ : List (SyncEvent F)) : Finset Bytes :=
  (senders events₁ ∪ senders events₂).filter fun peer => told events₁ peer ≠ told events₂ peer

variable [PyFloat F]

/-- The peers that tell the epoch of the synchronizer. -/
def agreeing (events : List (SyncEvent F)) (s : EpochSynchronizer F) : Finset Bytes :=
  (senders events).filter fun peer => told events peer = some s.epochManager.currentEpoch

theorem Hearing.card_agreeing (hexact : ThresholdExact F) {events : List (SyncEvent F)}
    {s : EpochSynchronizer F} (h : Hearing events s)
    (hs : s.isSynchronized (BFT_THRESHOLD : F) = true) :
    67 * (senders events).card ≤ 100 * (agreeing events s).card := by
  rw [EpochSynchronizer.isSynchronized] at hs
  split_ifs at hs with hempty
  · rw [List.isEmpty_iff_length_eq_zero, h.length_keys] at hempty
    rw [hempty]
    exact Nat.zero_le _
  · have hpos : 0 < s.peerEpochs.keys.length := by
      rw [List.isEmpty_iff_length_eq_zero] at hempty
      omega
    have hle := (hexact _ _ (by exact_mod_cast hpos)).mp hs
    rw [h.countP_values, h.length_keys] at hle
    exact_mod_cast hle

/-- A synchronizer with peers that is synchronized finds its epoch in the majority. -/
theorem Hearing.getConsensusEpoch (hexact : ThresholdExact F) {events : List (SyncEvent F)}
    {s : EpochSynchronizer F} (h : Hearing events s) (hne : 0 < (senders events).card)
    (hs : s.isSynchronized (BFT_THRESHOLD : F) = true) :
    s.getConsensusEpoch = s.epochManager.currentEpoch := by
  apply EpochSynchronizer.getConsensusEpoch_of_majority
  have hlength : s.peerEpochs.values.length = (senders events).card := by
    rw [← h.length_keys, OrderedDict.values, OrderedDict.keys, List.length_map, List.length_map]
  have hcount : s.peerEpochs.values.count s.epochManager.currentEpoch =
      (agreeing events s).card := by
    rw [agreeing, ← h.countP_values, List.count_eq_countP]
    rfl
  have hle := h.card_agreeing hexact hs
  rw [hlength, hcount]
  omega

/-- Validators that are synchronized with their peers are in one epoch, unless too many peers have
told the two different epochs, and each finds this epoch in the majority. -/
theorem synchronized_agree (hexact : ThresholdExact F) (v₁ v₂ : Bytes) (m₁ m₂ : EpochManager F)
    (events₁ events₂ : List (SyncEvent F))
    (hfew : 100 * ((senders events₁ ∪ senders events₂).card +
      (dissenters events₁ events₂).card) <
        67 * ((senders events₁).card + (senders events₂).card)) :
    let s₁ := runs SyncEvent.act events₁ { validatorId := v₁, epochManager := m₁ }
    let s₂ := runs SyncEvent.act events₂ { validatorId := v₂, epochManager := m₂ }
    s₁.isSynchronized (BFT_THRESHOLD : F) = true → s₂.isSynchronized (BFT_THRESHOLD : F) = true →
      s₁.epochManager.currentEpoch = s₂.epochManager.currentEpoch ∧
        s₁.getConsensusEpoch = s₁.epochManager.currentEpoch ∧
        s₂.getConsensusEpoch = s₂.epochManager.currentEpoch := by
  intro s₁ s₂ hs₁ hs₂
  have h₁ : Hearing events₁ s₁ := Hearing.runs v₁ m₁ events₁
  have h₂ : Hearing events₂ s₂ := Hearing.runs v₂ m₂ events₂
  have hleft : (senders events₁).card ≤ (senders events₁ ∪ senders events₂).card :=
    Finset.card_le_card Finset.subset_union_left
  have hright : (senders events₂).card ≤ (senders events₁ ∪ senders events₂).card :=
    Finset.card_le_card Finset.subset_union_right
  refine ⟨?_, h₁.getConsensusEpoch hexact (by omega) hs₁,
    h₂.getConsensusEpoch hexact (by omega) hs₂⟩
  by_contra hne
  have hinter : agreeing events₁ s₁ ∩ agreeing events₂ s₂ ⊆ dissenters events₁ events₂ := by
    intro peer hpeer
    obtain ⟨hin₁, hin₂⟩ := Finset.mem_inter.mp hpeer
    obtain ⟨hsender, htold₁⟩ := Finset.mem_filter.mp hin₁
    have htold₂ := (Finset.mem_filter.mp hin₂).2
    refine Finset.mem_filter.mpr ⟨Finset.mem_union_left _ hsender, ?_⟩
    rw [htold₁, htold₂]
    exact fun h => hne (Option.some.inj h)
  have hunion : agreeing events₁ s₁ ∪ agreeing events₂ s₂ ⊆ senders events₁ ∪ senders events₂ :=
    Finset.union_subset_union (Finset.filter_subset ..) (Finset.filter_subset ..)
  have hcount := Finset.card_union_add_card_inter (agreeing events₁ s₁) (agreeing events₂ s₂)
  have hinterCard := Finset.card_le_card hinter
  have hunionCard := Finset.card_le_card hunion
  have hcard₁ := h₁.card_agreeing hexact hs₁
  have hcard₂ := h₂.card_agreeing hexact hs₂
  omega

section Example

/-- Three peers tell the next epoch, and the fourth one tells what it likes. -/
def exampleEvents (liar : ℤ) : List (SyncEvent ℚ) :=
  .manage (.call (.advanceEpoch 900)) :: [([1], 1), ([2], 1), ([3], 1), ([4], liar)].map fun p =>
    .receive { senderId := p.1, epoch := p.2, timestamp := 900, entropyHash := [] }

def exampleSynchronizer (validatorId : Bytes) (liar : ℤ) : EpochSynchronizer ℚ :=
  runs SyncEvent.act (exampleEvents liar) { validatorId, epochManager := .init 0 [1] }

theorem synchronized_agree_liar :
    (exampleSynchronizer [5] 1).getConsensusEpoch = (exampleSynchronizer [6] 7).getConsensusEpoch := by
  have hfew : 100 * ((senders (exampleEvents 1) ∪ senders (exampleEvents 7)).card +
      (dissenters (exampleEvents 1) (exampleEvents 7)).card) <
        67 * ((senders (exampleEvents 1)).card + (senders (exampleEvents 7)).card) := by
    decide +kernel
  obtain ⟨hepoch, hfirst, hsecond⟩ := synchronized_agree thresholdExact_rat [5] [6]
    (.init 0 [1]) (.init 0 [1]) (exampleEvents 1) (exampleEvents 7) hfew (by decide +kernel)
    (by decide +kernel)
  exact hfirst.trans (hepoch.trans hsecond.symm)

end Example

end Qrtb.Epochs
