import Qrtb.Lib.TwoPhase
import Qrtb.Simulation.RoutedRound

/-!
# The voting of the routed network on one proposal

The nodes with their messages in transit refine the two rounds of voting on one
proposal: what a node does with a message is, seen from there, the handling of a
letter, and what is not about the voting is not seen.
-/

namespace Qrtb.Routed

open PyFloat Stateful Mailbox AsyncNetwork Transition BFTConsensus
open Testnet (EngineOf Cast Selected Proposed)

variable {F : Type} {R : Round} {hash : Bytes}

/-- A message that is a letter of the voting on the proposal. -/
def Carries (R : Round) (hash : Bytes) : TwoPhase.Letter Bytes → Message F → Prop
  | .proposal, .proposal p => Proposed R.epoch R.proposer hash p
  | .preVote v, .vote vote => Cast R.registry R.epoch hash .preVote v vote
  | .preCommit v, .vote vote => Cast R.registry R.epoch hash .preCommit v vote
  | _, _ => False

def observe (R : Round) (hash : Bytes) (c : Config Bytes (NodeState F) (Message F)) :
    TwoPhase.State Bytes where
  informed := {v | informed hash (voters c v).consensus}
  preVotes w := {v | v ∈ preVoters hash (voters c w).consensus}
  preCommits w := {v | v ∈ preCommitters hash (voters c w).consensus}
  decided := {v | Decided R hash (voters c v).blocksFinalized}
  transit := {l | ∃ m, (l.1, m) ∈ c.bag ∧ Carries R hash l.2 m}

variable {c c' : Config Bytes (NodeState F) (Message F)} {k : Bytes} {s : NodeState F}
  {r : NodeState F × List (Bytes × Message F)} {done : Set (Bytes × Message F)}

theorem sent_announced (k : Bytes) (voteType : VoteType) {n' : Qrtb.ValidatorNode F}
    (hfollows : Follows r n')
    (h : n'.outbox = s.voting.outbox ∨ Announced R hash k voteType s.voting n') :
    ∀ l ∈ r.2, (∃ x, Carries R hash x l.2) ∨ l.2.Measures := by
  rw [hfollows.out]
  rcases h with hnone | ⟨vote, hcast, hout⟩
  · rw [hnone]
    exact List.forall_mem_nil _
  · rw [hout]
    intro l hl
    obtain ⟨_, hmem, rfl⟩ := List.mem_map.mp hl
    obtain ⟨peer, -, rfl⟩ := List.mem_map.mp hmem
    cases voteType with
    | preVote => exact Or.inl ⟨.preVote k, hcast⟩
    | preCommit => exact Or.inl ⟨.preCommit k, hcast⟩

section

variable (hmoves : Moves c k r done c')
include hmoves

theorem voters_of_ne {v : Bytes} (hne : v ≠ k) : voters c' v = voters c v := by
  rw [voters_set hmoves.nodes, Function.update_of_ne hne]

theorem voters_self : voters c' k = r.1.voting := by
  rw [voters_set hmoves.nodes, Function.update_self]

theorem bag_announced {n' : Qrtb.ValidatorNode F} (hfollows : Follows r n')
    {voteType : VoteType} (h : Announced R hash k voteType s.voting n') {w : Bytes}
    (hpeer : w ∈ s.voting.peers) (hknown : c.nodes.contains w = true) :
    ∃ vote, (w, Message.vote vote) ∈ c'.bag ∧ Cast R.registry R.epoch hash voteType k vote := by
  obtain ⟨vote, hcast, hout⟩ := h
  refine ⟨vote, hmoves.posted _ ?_ hknown, hcast⟩
  rw [hfollows.out, hout]
  exact List.mem_map.mpr ⟨(w, .vote vote), List.mem_map.mpr ⟨w, hpeer, rfl⟩, rfl⟩

variable (hget : c.nodes.get? k = some s)
include hget

theorem voters_keep {P : Bytes → Qrtb.ValidatorNode F → Prop}
    (hk : P k s.voting → P k r.1.voting) (v : Bytes) (hv : P v (voters c v)) :
    P v (voters c' v) := by
  by_cases hvk : v = k
  · subst hvk
    rw [voters_self hmoves]
    rw [voters_of_get? hget] at hv
    exact hk hv
  · rwa [voters_of_ne hmoves hvk]

theorem voters_new {P : Bytes → Qrtb.ValidatorNode F → Prop}
    (hk : P k r.1.voting → P k s.voting) (v : Bytes) (hv : P v (voters c' v)) :
    P v (voters c v) := by
  by_cases hvk : v = k
  · subst hvk
    rw [voters_self hmoves] at hv
    rw [voters_of_get? hget]
    exact hk hv
  · rwa [voters_of_ne hmoves hvk] at hv

theorem observe_grows (hadvances : Advances R hash k s.voting.consensus r.1.voting.consensus)
    (hblocks : s.blocks ⊆ r.1.blocks) {handled : Set (Bytes × TwoPhase.Letter Bytes)}
    (hdone : ∀ l x, l ∈ done → Carries R hash x l.2 → (l.1, x) ∈ handled) :
    TwoPhase.Grows (observe R hash c) (observe R hash c') handled where
  informed v hv := voters_keep hmoves hget (P := fun _ n => informed hash n.consensus)
    hadvances.informed v hv
  preVotes w v hv := voters_keep hmoves hget (P := fun _ n => v ∈ preVoters hash n.consensus)
    (fun h => hadvances.preVoters h) w hv
  preCommits w v hv := voters_keep hmoves hget
    (P := fun _ n => v ∈ preCommitters hash n.consensus) (fun h => hadvances.preCommitters h) w hv
  decided v hv := voters_keep hmoves hget (P := fun _ n => Decided R hash n.blocksFinalized)
    (fun ⟨b, hb, hdecided⟩ => ⟨b, hblocks hb, hdecided⟩) v hv
  transit := by
    rintro l ⟨m, hm, hcarries⟩ hnot
    exact ⟨m, hmoves.kept _ hm fun hd => hnot (hdone (l.1, m) l.2 hd hcarries), hcarries⟩

theorem observe_unvoted
    (h : ∀ v ∈ preVoters hash r.1.voting.consensus, v = k ∨ v ∈ preVoters hash s.voting.consensus)
    (w : Bytes) :
    TwoPhase.Unvoted R.members R.proposer (observe R hash c) (observe R hash c') w := by
  intro v hv hnew
  exact voters_new hmoves hget (P := fun w n => v ≠ w → v ∈ preVoters hash n.consensus)
    (fun hk hne => (h v (hk hne)).resolve_left hne) w (fun _ => hnew) hv.2.2

theorem observe_informed
    (h : r.1.voting.consensus.receivedProposals = s.voting.consensus.receivedProposals) :
    (observe R hash c').informed ⊆ (observe R hash c).informed := fun v hv =>
  voters_new hmoves hget (P := fun _ n => informed hash n.consensus)
    (fun hk => by rwa [informed, h] at hk) v hv

end

/-- The members have the round in common, and what is in transit belongs to the voting on the
proposal. -/
structure Live (R : Round) (hash : Bytes) (c : Config Bytes (NodeState F) (Message F)) : Prop where
  members : ∀ v, v ∈ R.members ↔ c.nodes.contains v = true
  listening : ∀ v ∈ R.members, Listening R hash v (voters c v).consensus
  peers : ∀ v ∈ R.members, ∀ w, w ∈ (voters c v).peers ↔ w ∈ R.members ∧ w ≠ v
  letters : ∀ k m, (k, m) ∈ c.bag → (∃ x, Carries R hash x m) ∨ m.Measures
  progress : TwoPhase.Inv R.members R.proposer (observe R hash c)

theorem Live.move (hc : Live R hash c) (hget : c.nodes.get? k = some s)
    (hmoves : Moves c k r done c')
    (hadvances : Advances R hash k s.voting.consensus r.1.voting.consensus)
    (hpeers : r.1.voting.peers = s.voting.peers)
    (hsent : ∀ l ∈ r.2, (∃ x, Carries R hash x l.2) ∨ l.2.Measures)
    (hprogress : TwoPhase.Inv R.members R.proposer (observe R hash c')) : Live R hash c' where
  members := by
    rw [hmoves.nodes, OrderedDict.contains_set_of_get? hget]
    exact hc.members
  listening v hv := voters_keep hmoves hget (P := fun v n => Listening R hash v n.consensus)
    (fun _ => hadvances.listening) v (hc.listening v hv)
  peers v hv := voters_keep hmoves hget
    (P := fun v n => ∀ w, w ∈ n.peers ↔ w ∈ R.members ∧ w ≠ v) (fun h => by rwa [hpeers]) v
    (hc.peers v hv)
  letters k m hm := (hmoves.bag _ hm).elim (hc.letters k m) (hsent (k, m))
  progress := hprogress

theorem Round.others_nonempty {w : Bytes} (hw : w ∈ R.members) :
    (TwoPhase.others (R.members : Set Bytes) R.proposer w).Nonempty := by
  have hstake := R.enough w hw
  have hpos := R.total.1
  have hne : ((R.members.erase R.proposer).erase w).Nonempty := by
    by_contra hempty
    rw [Finset.not_nonempty_iff_eq_empty] at hempty
    rw [hempty, Finset.sum_empty] at hstake
    omega
  obtain ⟨v, hv⟩ := hne
  obtain ⟨hvw, hv⟩ := Finset.mem_erase.mp hv
  obtain ⟨hvp, hv⟩ := Finset.mem_erase.mp hv
  exact ⟨v, hv, hvp, hvw⟩

theorem Round.stake_of_others {w : Bytes} (hw : w ∈ R.members) {S : Finset Bytes}
    (h : TwoPhase.others (R.members : Set Bytes) R.proposer w ⊆ {v | v ∈ S}) :
    67 * R.registry.values.sum ≤ 100 * ∑ v ∈ S, R.registry.getD v 0 := by
  have hsub : (R.members.erase R.proposer).erase w ⊆ S := by
    intro v hv
    obtain ⟨hvw, hv⟩ := Finset.mem_erase.mp hv
    obtain ⟨hvp, hv⟩ := Finset.mem_erase.mp hv
    exact h ⟨hv, hvp, hvw⟩
  have hle := Finset.sum_le_sum_of_subset_of_nonneg hsub fun v _ _ => R.nonneg v
  have hstake := R.enough w hw
  omega

section

variable [PyFloat F] {time : F}

theorem Live.proposal (hc : Live R hash c) (hk : k ∈ R.members) (hget : c.nodes.get? k = some s)
    {p : ConsensusProposal F} (hp : Proposed R.epoch R.proposer hash p)
    (hmoves : Moves c k (system.handle (.proposal p) time s) {(k, .proposal p)} c') :
    Live R hash c' := by
  have hself := voters_of_get? hget
  have hlistening := hc.listening k hk
  rw [hself] at hlistening
  have hfollows := follows_receiveProposal p time s
  have heffect := proposal_effect hlistening hp time
  have hconsensus : (system.handle (.proposal p) time s).1.voting.consensus =
      (s.voting.receiveProposal p time).2.consensus := hfollows.consensus
  have hadvances : Advances R hash k s.voting.consensus
      (system.handle (.proposal p) time s).1.voting.consensus := hconsensus ▸ heffect.advances
  have hblocks : s.blocks ⊆ (system.handle (.proposal p) time s).1.blocks := by
    rw [show (system.handle (.proposal p) time s).1.blocks = s.blocks from
      hfollows.blocks.trans heffect.blocks]
    exact fun _ h => h
  refine hc.move hget hmoves hadvances (hfollows.peers.trans heffect.peers)
    (sent_announced k .preVote hfollows (Or.inr heffect.announced)) ?_
  · refine hc.progress.step (fun u hu => R.others_nonempty hu) (.proposal k ?_ ?_ ?_ ?_ ?_)
    · refine observe_grows hmoves hget hadvances hblocks ?_
      rintro l x rfl hcarries
      cases x with
      | proposal => rfl
      | preVote => exact absurd hcarries id
      | preCommit => exact absurd hcarries id
    · change informed hash (voters c' k).consensus
      rw [voters_self hmoves, hconsensus]
      exact heffect.informed
    · intro u hu hne
      change informed hash (voters c u).consensus
      rw [← voters_of_ne hmoves hne]
      exact hu
    · apply observe_unvoted hmoves hget
      rw [hconsensus]
      exact heffect.preVoters
    · intro w hw hne
      obtain ⟨vote, hbag, hcast⟩ := bag_announced hmoves hfollows heffect.announced
        (hself ▸ (hc.peers k hk w).mpr ⟨hw, hne⟩) ((hc.members w).mp hw)
      exact ⟨_, hbag, hcast⟩

theorem Live.preVote (hreached : ThresholdReached F) (hc : Live R hash c) (hk : k ∈ R.members)
    (hget : c.nodes.get? k = some s) {vote : ConsensusVote} {v : Bytes}
    (hvote : Cast R.registry R.epoch hash .preVote v vote)
    (hmoves : Moves c k (system.handle (.vote vote) time s) {(k, .vote vote)} c') :
    Live R hash c' := by
  have hself := voters_of_get? hget
  have hlistening := hc.listening k hk
  rw [hself] at hlistening
  have hfollows := follows_receiveVote vote time s
  have heffect := preVote_effect hlistening hreached hvote time
  have hconsensus : (system.handle (.vote vote) time s).1.voting.consensus =
      (s.voting.receiveVote vote time).2.consensus := hfollows.consensus
  have hadvances : Advances R hash k s.voting.consensus
      (system.handle (.vote vote) time s).1.voting.consensus := hconsensus ▸ heffect.advances
  have hblocks : s.blocks ⊆ (system.handle (.vote vote) time s).1.blocks := by
    rw [show (system.handle (.vote vote) time s).1.blocks = s.blocks from
      hfollows.blocks.trans heffect.blocks]
    exact fun _ h => h
  refine hc.move hget hmoves hadvances (hfollows.peers.trans heffect.peers)
    (sent_announced k .preCommit hfollows heffect.out) ?_
  refine hc.progress.step (fun u hu => R.others_nonempty hu) (.preVote k v ?_ ?_ ?_ ?_ ?_)
  · refine observe_grows hmoves hget hadvances hblocks ?_
    rintro l x rfl hcarries
    cases x with
    | proposal => exact absurd hcarries id
    | preVote u =>
      obtain rfl : u = v := hcarries.voterId.symm.trans hvote.voterId
      rfl
    | preCommit =>
      have htype := hcarries.voteType
      rw [hvote.voteType] at htype
      cases htype
  · apply observe_informed hmoves hget
    rw [hconsensus]
    exact heffect.proposals
  · change v ∈ preVoters hash (voters c' k).consensus
    rw [voters_self hmoves, hconsensus]
    exact heffect.recorded
  · intro w hne u _ hu
    change u ∈ preVoters hash (voters c w).consensus
    rw [← voters_of_ne hmoves hne]
    exact hu
  · intro hall u hu hne
    have hstake := R.stake_of_others hk (S := preVoters hash (voters c' k).consensus) hall
    rw [voters_self hmoves, hconsensus] at hstake
    obtain ⟨commit, hbag, hcast⟩ := bag_announced hmoves hfollows (heffect.enough hstake)
      (hself ▸ (hc.peers k hk u).mpr ⟨hu, hne⟩) ((hc.members u).mp hu)
    exact ⟨_, hbag, hcast⟩

theorem Live.preCommit (hreached : ThresholdReached F) (hc : Live R hash c) (hk : k ∈ R.members)
    (hget : c.nodes.get? k = some s) {vote : ConsensusVote} {v : Bytes}
    (hvote : Cast R.registry R.epoch hash .preCommit v vote)
    (htime : 0 ≤ milliseconds time ∧ milliseconds time < 256 ^ 8)
    (hmoves : Moves c k (system.handle (.vote vote) time s) {(k, .vote vote)} c') :
    Live R hash c' := by
  have hself := voters_of_get? hget
  have hlistening := hc.listening k hk
  rw [hself] at hlistening
  have hfollows := follows_receiveVote vote time s
  have heffect := preCommit_effect hlistening hreached hvote htime
  have hconsensus : (system.handle (.vote vote) time s).1.voting.consensus =
      (s.voting.receiveVote vote time).2.consensus := hfollows.consensus
  have hadvances : Advances R hash k s.voting.consensus
      (system.handle (.vote vote) time s).1.voting.consensus := hconsensus ▸ heffect.advances
  have hfinalized : (system.handle (.vote vote) time s).1.voting.blocksFinalized =
      (s.voting.receiveVote vote time).2.blocksFinalized := hfollows.blocks
  have hblocks : s.blocks ⊆ (system.handle (.vote vote) time s).1.blocks := by
    rw [show (system.handle (.vote vote) time s).1.blocks = _ from hfinalized]
    exact heffect.blocks
  refine hc.move hget hmoves hadvances (hfollows.peers.trans heffect.peers)
    (sent_announced k .preCommit hfollows (Or.inl heffect.out)) ?_
  refine hc.progress.step (fun u hu => R.others_nonempty hu) (.preCommit k v ?_ ?_ ?_ ?_ ?_)
  · refine observe_grows hmoves hget hadvances hblocks ?_
    rintro l x rfl hcarries
    cases x with
    | proposal => exact absurd hcarries id
    | preVote =>
      have htype := hcarries.voteType
      rw [hvote.voteType] at htype
      cases htype
    | preCommit u =>
      obtain rfl : u = v := hcarries.voterId.symm.trans hvote.voterId
      rfl
  · apply observe_informed hmoves hget
    rw [hconsensus]
    exact heffect.proposals
  · change v ∈ preCommitters hash (voters c' k).consensus
    rw [voters_self hmoves, hconsensus]
    exact heffect.recorded
  · apply observe_unvoted hmoves hget
    intro u hu
    rw [hconsensus, preVoters, heffect.preVotes] at hu
    exact Or.inr hu
  · intro hinformed hall
    have hstake := R.stake_of_others hk (S := preCommitters hash (voters c' k).consensus) hall
    rw [voters_self hmoves, hconsensus] at hstake
    have hinformed' : informed hash s.voting.consensus := hself ▸ hinformed
    change Decided R hash (voters c' k).blocksFinalized
    rw [voters_self hmoves, hfinalized]
    exact heffect.enough hinformed' hstake

end

/-- What touches nothing of the voting but the proposal that is called current is not seen. -/
theorem Live.quiet (hc : Live R hash c) (hk : k ∈ R.members) (hget : c.nodes.get? k = some s)
    (hmoves : Moves c k r done c') {current : Option (ConsensusProposal F)}
    (hvoting : r.1.voting = { s.voting with
      consensus := { s.node.consensus with currentProposal := current } })
    (hsent : ∀ l ∈ r.2, l.2.Measures) (hdone : ∀ l x, l ∈ done → ¬ Carries R hash x l.2) :
    Live R hash c' := by
  have hlistening := hc.listening k hk
  rw [voters_of_get? hget] at hlistening
  have hadvances : Advances R hash k s.voting.consensus r.1.voting.consensus := by
    rw [hvoting]
    exact hlistening.same rfl rfl rfl rfl rfl rfl ⟨rfl, rfl⟩ ⟨rfl, rfl⟩
  have hblocks : s.blocks ⊆ r.1.blocks := by
    rw [show r.1.blocks = s.blocks from congrArg (·.blocksFinalized) hvoting]
    exact fun _ h => h
  refine hc.move hget hmoves hadvances (by rw [hvoting]) (fun l hl => Or.inr (hsent l hl)) ?_
  refine hc.progress.step (fun u hu => R.others_nonempty hu) (.quiet ?_ ?_ ?_)
  · exact observe_grows hmoves hget hadvances hblocks fun l x hl hx => absurd hx (hdone l x hl)
  · apply observe_informed hmoves hget
    rw [hvoting]
    rfl
  · apply observe_unvoted hmoves hget
    rw [hvoting]
    exact fun _ h => Or.inr h

end Qrtb.Routed
