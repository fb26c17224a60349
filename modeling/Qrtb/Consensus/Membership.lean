import Qrtb.Consensus.BlockHash
import Qrtb.Lib.Transition

/-!
# Peers and the voting registry (`src/validator.py`)

A node keeps its peers three times: as nodes, as targets of its measurements and
as voters of its engine. Adding a peer writes all three, removing one clears the
first two, so a removed peer stays in the registry that the thresholds are taken
over.
-/

namespace Qrtb

open Transition

/-- A validator as it is configured, after the location is filled in. -/
structure ValidatorConfig (F : Type) where
  zoneId : ℤ
  stake : ℤ
  location : F × F

structure PeerInfo (F : Type) where
  validatorId : Bytes
  location : F × F
  zoneId : ℤ
  stake : ℤ
  lastSeen : F

/-- The parts of a validator node that know its peers. -/
structure PeeredNode (F : Type) where
  validatorId : Bytes
  config : ValidatorConfig F
  peers : OrderedDict Bytes (ValidatorConfig F) := ∅
  measurementPeers : OrderedDict Bytes (PeerInfo F) := ∅
  consensus : BFTConsensus F

namespace PeeredNode

variable {F : Type}

def new (validatorId : Bytes) (config : ValidatorConfig F) : PeeredNode F :=
  { validatorId := validatorId
    config := config
    consensus := .init validatorId config.stake }

def addPeer (peerId : Bytes) (peer : ValidatorConfig F) (time : F) (n : PeeredNode F) :
    PeeredNode F :=
  { n with
    peers := n.peers.set peerId peer
    measurementPeers := n.measurementPeers.set peerId
      { validatorId := peerId, location := peer.location, zoneId := peer.zoneId,
        stake := peer.stake, lastSeen := time }
    consensus := n.consensus.registerValidator peerId peer.stake }

def removePeer (peerId : Bytes) (n : PeeredNode F) : PeeredNode F :=
  { n with
    peers := n.peers.erase peerId
    measurementPeers := n.measurementPeers.erase peerId }

inductive Command (F : Type) where
  | addPeer (peerId : Bytes) (peer : ValidatorConfig F) (time : F)
  | removePeer (peerId : Bytes)

def exec : Command F → PeeredNode F → PeeredNode F
  | .addPeer peerId peer time, n => n.addPeer peerId peer time
  | .removePeer peerId, n => n.removePeer peerId

/-- The voters are the node and its current peers, and the total is the sum of their stakes. -/
structure FollowsPeers (n : PeeredNode F) : Prop where
  keys : ∀ v, n.consensus.validators.contains v = true ↔
    v = n.validatorId ∨ n.peers.contains v = true
  total : n.consensus.totalStake =
    n.config.stake + (n.peers.erase n.validatorId).sumBy ValidatorConfig.stake

/-- The calls that keep it: nobody but the node itself is removed while it is a peer, and a peer
under the id of the node has the stake of the node. -/
def KeepsMembership (n : PeeredNode F) : Command F → Prop
  | .addPeer peerId peer _ => peerId = n.validatorId → peer.stake = n.config.stake
  | .removePeer peerId => n.peers.contains peerId = true → peerId = n.validatorId

/-- The stake a member should be registered with. -/
def memberStake (n : PeeredNode F) (v : Bytes) : Option ℤ :=
  if v = n.validatorId then some n.config.stake else (n.peers.get? v).map ValidatorConfig.stake

/-- What holds after any calls: the node is registered, and so is every other peer, with its
stake. -/
structure Inv (n : PeeredNode F) : Prop where
  total : n.consensus.totalStake = n.consensus.validators.sumBy id
  own : n.consensus.validators.contains n.validatorId = true
  peer : ∀ v, v ≠ n.validatorId → ∀ config, n.peers.get? v = some config →
    n.consensus.validators.get? v = some config.stake

theorem inv_new (validatorId : Bytes) (config : ValidatorConfig F) : (new validatorId config).Inv :=
  ⟨(BFTConsensus.inv_init validatorId config.stake).totalStake_eq,
    by simp [new, BFTConsensus.init, BFTConsensus.registerValidator, OrderedDict.contains],
    fun _ _ _ hget => by cases hget⟩

theorem Inv.exec {n : PeeredNode F} (hn : n.Inv) (command : Command F) :
    (PeeredNode.exec command n).Inv := by
  cases command with
  | addPeer peerId peer time =>
    refine ⟨by simp [PeeredNode.exec, addPeer, BFTConsensus.registerValidator, OrderedDict.sumBy],
      ?_, ?_⟩
    · change ((n.consensus.validators.set peerId peer.stake).get? n.validatorId).isSome = true
      rw [OrderedDict.get?_set]
      split_ifs
      · rfl
      · exact hn.own
    · intro v hv config hget
      change (n.consensus.validators.set peerId peer.stake).get? v = _
      rcases OrderedDict.get?_set_eq_some.mp hget with ⟨rfl, rfl⟩ | ⟨hne, hget⟩
      · exact OrderedDict.get?_set_self ..
      · rw [OrderedDict.get?_set_of_ne _ hne]
        exact hn.peer v hv config hget
  | removePeer peerId =>
    refine ⟨hn.total, hn.own, ?_⟩
    intro v hv config hget
    exact hn.peer v hv config (OrderedDict.get?_erase_eq_some.mp hget).2

/-- With every other entry as it should be, the total is the entry of the node and the peers. -/
theorem total_eq {n : PeeredNode F} (hn : n.Inv) {stake : ℤ}
    (hown : n.consensus.validators.get? n.validatorId = some stake)
    (hrest : ∀ v, v ≠ n.validatorId →
      n.consensus.validators.get? v = (n.peers.get? v).map ValidatorConfig.stake) :
    n.consensus.totalStake =
      stake + (n.peers.erase n.validatorId).sumBy ValidatorConfig.stake := by
  have hentries : ∀ v, n.consensus.validators.get? v =
      (((n.peers.erase n.validatorId).map ValidatorConfig.stake).set n.validatorId
        stake).get? v := by
    intro v
    rw [OrderedDict.get?_set, OrderedDict.get?_map, OrderedDict.get?_erase]
    split_ifs with hv
    · rw [hv, hown]
    · exact hrest v hv
  rw [hn.total, OrderedDict.sumBy_congr id hentries, OrderedDict.sumBy_set]
  simp [OrderedDict.sumBy, OrderedDict.values_map, OrderedDict.weightAt, OrderedDict.get?_map,
    OrderedDict.get?_erase, add_comm]

theorem followsPeers_iff {n : PeeredNode F} (hn : n.Inv) :
    n.FollowsPeers ↔ ∀ v, n.consensus.validators.get? v = n.memberStake v := by
  obtain ⟨stake, hown⟩ := Option.isSome_iff_exists.mp hn.own
  constructor
  · intro h
    have hrest : ∀ v, v ≠ n.validatorId →
        n.consensus.validators.get? v = (n.peers.get? v).map ValidatorConfig.stake := by
      intro v hv
      cases hpeer : n.peers.get? v with
      | some config => exact hn.peer v hv config hpeer
      | none =>
        have hnot : n.consensus.validators.contains v ≠ true := by
          intro hv'
          rcases (h.keys v).mp hv' with rfl | hcontains
          · exact hv rfl
          · simp [OrderedDict.contains, hpeer] at hcontains
        simpa [OrderedDict.contains] using hnot
    have hstake : stake = n.config.stake := by
      have htotal := (total_eq hn hown hrest).symm.trans h.total
      omega
    intro v
    rw [memberStake]
    split_ifs with hv
    · rw [hv, hown, hstake]
    · exact hrest v hv
  · intro h
    have hown' : n.consensus.validators.get? n.validatorId = some n.config.stake := by
      rw [h, memberStake, if_pos rfl]
    have hrest : ∀ v, v ≠ n.validatorId →
        n.consensus.validators.get? v = (n.peers.get? v).map ValidatorConfig.stake := by
      intro v hv
      rw [h, memberStake, if_neg hv]
    refine ⟨?_, total_eq hn hown' hrest⟩
    intro v
    rw [OrderedDict.contains, OrderedDict.contains]
    by_cases hv : v = n.validatorId
    · simp [hv, hown']
    · simp [hv, hrest v hv]

/-- An added peer is registered with its stake, which may write over the entry of the node. -/
theorem memberStake_addPeer_iff {n : PeeredNode F}
    (h : ∀ v, n.consensus.validators.get? v = n.memberStake v) (peerId : Bytes)
    (peer : ValidatorConfig F) (time : F) :
    (∀ v, (n.addPeer peerId peer time).consensus.validators.get? v =
        (n.addPeer peerId peer time).memberStake v) ↔
      (peerId = n.validatorId → peer.stake = n.config.stake) := by
  change (∀ v, (n.consensus.validators.set peerId peer.stake).get? v =
    if v = n.validatorId then some n.config.stake
    else ((n.peers.set peerId peer).get? v).map ValidatorConfig.stake) ↔ _
  constructor
  · intro hnext hid
    have hentry := hnext peerId
    rw [OrderedDict.get?_set_self, if_pos hid] at hentry
    exact Option.some.inj hentry
  · intro hstake v
    by_cases hv : v = peerId
    · subst hv
      rw [OrderedDict.get?_set_self, OrderedDict.get?_set_self]
      split_ifs with hid
      · rw [hstake hid]
      · rfl
    · rw [OrderedDict.get?_set_of_ne _ hv, OrderedDict.get?_set_of_ne _ hv]
      exact h v

theorem memberStake_removePeer_iff {n : PeeredNode F}
    (h : ∀ v, n.consensus.validators.get? v = n.memberStake v) (peerId : Bytes) :
    (∀ v, (n.removePeer peerId).consensus.validators.get? v =
        (n.removePeer peerId).memberStake v) ↔
      (n.peers.contains peerId = true → peerId = n.validatorId) := by
  change (∀ v, n.consensus.validators.get? v =
    if v = n.validatorId then some n.config.stake
    else ((n.peers.erase peerId).get? v).map ValidatorConfig.stake) ↔ _
  constructor
  · intro hnext hpeer
    by_contra hid
    have hentry := hnext peerId
    rw [h, memberStake, if_neg hid, if_neg hid, OrderedDict.get?_erase, if_pos rfl] at hentry
    obtain ⟨config, hget⟩ := Option.isSome_iff_exists.mp hpeer
    rw [hget] at hentry
    cases hentry
  · intro hkeep v
    rw [h, memberStake]
    split_ifs with hv
    · rfl
    · rw [OrderedDict.get?_erase]
      split_ifs with hid
      · have hnone : n.peers.get? v = none := by
          by_contra hsome
          apply hv
          rw [hid]
          apply hkeep
          rw [← hid]
          exact Option.isSome_iff_ne_none.mpr hsome
        rw [hnone]
      · rfl

theorem followsPeers_exec_iff {n : PeeredNode F} (hn : n.Inv) (h : n.FollowsPeers)
    (command : Command F) : (exec command n).FollowsPeers ↔ n.KeepsMembership command := by
  rw [followsPeers_iff (hn.exec command)]
  rw [followsPeers_iff hn] at h
  cases command with
  | addPeer peerId peer time => exact memberStake_addPeer_iff h peerId peer time
  | removePeer peerId => exact memberStake_removePeer_iff h peerId

/-- The registry follows the peers through a whole run exactly when no current peer is ever removed
(and no peer takes the id of the node with another stake). -/
theorem followsPeers_runs_iff (validatorId : Bytes) (config : ValidatorConfig F)
    (commands : List (Command F)) :
    (∀ earlier later, commands = earlier ++ later →
        (runs exec earlier (new validatorId config)).FollowsPeers) ↔
      ∀ earlier command later, commands = earlier ++ command :: later →
        (runs exec earlier (new validatorId config)).KeepsMembership command := by
  have hinit : (new validatorId config).FollowsPeers := by
    rw [followsPeers_iff (inv_new validatorId config)]
    intro v
    change (OrderedDict.set ∅ validatorId config.stake).get? v = if v = validatorId then _ else _
    rw [OrderedDict.get?_set]
    split_ifs
    · rfl
    · rfl
  exact throughout_iff exec (I := FollowsPeers) (J := Inv) (K := fun command n =>
    n.KeepsMembership command) (fun command _ hn => hn.exec command)
    (fun command _ hn h => followsPeers_exec_iff hn h command) (inv_new validatorId config) hinit
    commands

/-- The targets of the measurements follow the peers through every run. -/
theorem measurementPeers_follow (validatorId : Bytes) (config : ValidatorConfig F)
    (commands : List (Command F)) (v : Bytes) :
    let n := runs exec commands (new validatorId config)
    n.measurementPeers.contains v = n.peers.contains v := by
  induction commands using List.reverseRecOn with
  | nil => rfl
  | append_singleton commands command ih =>
    simp only [OrderedDict.contains, runs_append_singleton] at ih ⊢
    cases command with
    | addPeer peerId peer time =>
      rw [exec, addPeer, OrderedDict.get?_set, OrderedDict.get?_set]
      split_ifs
      · rfl
      · exact ih
    | removePeer peerId =>
      rw [exec, removePeer, OrderedDict.get?_erase, OrderedDict.get?_erase]
      split_ifs
      · rfl
      · exact ih

/-- Where the registry follows the peers, the vote of anybody else is refused. -/
theorem FollowsPeers.not_admits {n : PeeredNode F} (h : n.FollowsPeers) {vote : ConsensusVote}
    (hother : vote.voterId ≠ n.validatorId) (hpeer : n.peers.contains vote.voterId = false)
    (voteType : VoteType) (choices : OrderedDict Bytes Bytes) :
    ¬ n.consensus.Admits voteType choices vote := by
  intro hadmits
  rcases (h.keys vote.voterId).mp hadmits.known with hown | hcontains
  · exact hother hown
  · rw [hpeer] at hcontains
    cases hcontains

/-- A removed peer with 70 of 100 units still counts, and its pre-vote is accepted. -/
theorem removed_peer_counts :
    let n := runs exec [.addPeer BFTConsensus.proposerId ⟨0, 70, (0, 0)⟩ (0 : ℚ),
      .removePeer BFTConsensus.proposerId] (new BFTConsensus.voterId ⟨0, 30, (0, 0)⟩)
    let vote : ConsensusVote :=
      { voterId := BFTConsensus.proposerId, epoch := 0, round := 0,
        proposalHash := BFTConsensus.roundHash, voteType := .preVote, stake := 70, timestamp := 0 }
    ¬ n.FollowsPeers ∧ n.peers.contains BFTConsensus.proposerId = false ∧
      n.consensus.validators.contains BFTConsensus.proposerId = true ∧
      n.consensus.totalStake = 100 ∧ (n.consensus.receivePreVote vote).1 = .ok () := by
  intro n vote
  have hfacts : n.peers.contains BFTConsensus.proposerId = false ∧
      n.consensus.validators.contains BFTConsensus.proposerId = true ∧
      n.consensus.totalStake = 100 ∧ BFTConsensus.proposerId ≠ n.validatorId := by
    decide
  obtain ⟨hpeer, hknown, htotal, hother⟩ := hfacts
  refine ⟨?_, hpeer, hknown, htotal, ?_⟩
  · intro h
    rcases (h.keys _).mp hknown with hown | hcontains
    · exact hother hown
    · rw [hpeer] at hcontains
      cases hcontains
  · have hadmits : n.consensus.Admits .preVote n.consensus.preVoteChoices vote :=
      ⟨rfl, rfl, hknown, fun _ hget => by cases hget⟩
    rw [BFTConsensus.receivePreVote_of_admits hadmits]

end PeeredNode

end Qrtb
