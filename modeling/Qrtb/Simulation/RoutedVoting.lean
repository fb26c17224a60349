import Qrtb.Simulation.Routing
import Qrtb.Consensus.Agreement

/-!
# A node on messages votes as a node that is called

What a node does with the proposals and votes of its inbox is what the voting node
does that is handed them directly: the same engine, the same own votes, the same
blocks, and the same messages to the same peers. Commitments and reveals do not
touch the voting.
-/

namespace Qrtb.Routed

open PyFloat Stateful Mailbox AsyncNetwork

variable {F : Type}

def NodeState.voting (s : NodeState F) : Qrtb.ValidatorNode F where
  consensus := s.node.consensus
  peers := s.node.peers.keys
  votesCast := s.votes
  blocksFinalized := s.blocks

def Message.ofVoting : Qrtb.Message F → Message F
  | .proposal p => .proposal p
  | .vote v => .vote v

/-- The node has done what the voting node has done, and sent the same. -/
structure Follows (r : NodeState F × List (Bytes × Message F)) (v : Qrtb.ValidatorNode F) :
    Prop where
  consensus : r.1.node.consensus = v.consensus
  peers : r.1.node.peers.keys = v.peers
  votes : r.1.votes = v.votesCast
  blocks : r.1.blocks = v.blocksFinalized
  out : r.2 = v.outbox.map fun l => (l.1, Message.ofVoting l.2)

def withConsensus (c : BFTConsensus F) (n : ValidatorNode F) : ValidatorNode F :=
  { n with state := { n.state with node := { n.state.node with consensus := c } } }

theorem look_bind {α β : Type} (f : NodeState F → α) (g : α → Stateful (ValidatorNode F) β)
    (n : ValidatorNode F) : (look f >>= g) n = g (f n.state) n := rfl

theorem consensus_withConsensus (c : BFTConsensus F) (n : ValidatorNode F) :
    (withConsensus c n).state.node.consensus = c := rfl

theorem onConsensus_bind_of_ok {α β : Type} {x : Stateful (BFTConsensus F) α} {n : ValidatorNode F}
    {a : α} {c : BFTConsensus F} (h : x n.state.node.consensus = (.ok a, c))
    (f : α → Stateful (ValidatorNode F) β) : (onConsensus x >>= f) n = f a (withConsensus c n) := by
  have hcall : onConsensus x n = (.ok a, withConsensus c n) := by
    simp only [onConsensus, onNode, onState, Testnet.ValidatorNode.onConsensus, on, h,
      withConsensus]
  rw [bind_of_ok (by rw [hcall]), hcall]

theorem onConsensus_bind_of_error {α β : Type} {x : Stateful (BFTConsensus F) α}
    {n : ValidatorNode F} {e : PyError} {c : BFTConsensus F}
    (h : x n.state.node.consensus = (.error e, c)) (f : α → Stateful (ValidatorNode F) β) :
    (onConsensus x >>= f) n = (.error e, withConsensus c n) := by
  have hcall : onConsensus x n = (.error e, withConsensus c n) := by
    simp only [onConsensus, onNode, onState, Testnet.ValidatorNode.onConsensus, on, h,
      withConsensus]
  rw [bind_of_error (by rw [hcall]), hcall]

theorem checked_of_ok {f : BFTConsensus F → Check Unit × BFTConsensus F} {n : ValidatorNode F}
    {c : BFTConsensus F} (h : f n.state.node.consensus = (.ok (), c))
    (x : Stateful (ValidatorNode F) Unit) :
    (onConsensus (checking f) >>= fun valid => if valid then x else pure ()) n =
      x (withConsensus c n) := by
  have hcheck : checking f n.state.node.consensus = (.ok true, c) := by rw [checking, h]
  rw [onConsensus_bind_of_ok hcheck, if_pos rfl]

/-- After a check that does not pass, whether it rejects or raises, nothing. -/
theorem checked_of_error {f : BFTConsensus F → Check Unit × BFTConsensus F} {n : ValidatorNode F}
    {e : Halt} {c : BFTConsensus F} (h : f n.state.node.consensus = (.error e, c))
    (x : Stateful (ValidatorNode F) Unit) :
    ((onConsensus (checking f) >>= fun valid => if valid then x else pure ()) n).2 =
      withConsensus c n := by
  cases e with
  | reject reason =>
    have hcheck : checking f n.state.node.consensus = (.ok false, c) := by rw [checking, h]
    rw [onConsensus_bind_of_ok hcheck, if_neg Bool.false_ne_true, pure_apply]
  | raised error =>
    have hcheck : checking f n.state.node.consensus = (.error error, c) := by rw [checking, h]
    rw [onConsensus_bind_of_error hcheck]

variable [PyFloat F]

omit [PyFloat F] in
theorem follows_castVote (vote : ConsensusVote) (c : BFTConsensus F) (s : NodeState F) :
    Follows ((castVote vote (withConsensus c { state := s })).2.state,
        (castVote vote (withConsensus c { state := s })).2.outbox)
      ({ s.voting with consensus := c }.castVote vote) := by
  refine ⟨rfl, rfl, rfl, rfl, ?_⟩
  simp only [Qrtb.ValidatorNode.castVote, Qrtb.ValidatorNode.broadcast, NodeState.voting,
    List.nil_append, List.map_map]
  rfl

omit [PyFloat F] in
theorem follows_withConsensus (c : BFTConsensus F) (s : NodeState F) :
    Follows ((withConsensus c { state := s }).state,
        (withConsensus c { state := s } : ValidatorNode F).outbox)
      { s.voting with consensus := c } :=
  ⟨rfl, rfl, rfl, rfl, rfl⟩

theorem follows_receiveProposal (proposal : ConsensusProposal F) (time : F) (s : NodeState F) :
    Follows (reaction (receiveProposal proposal time) s)
      (s.voting.receiveProposal proposal time).2 := by
  rcases s.node.consensus.receiveProposal_cases proposal with ⟨e, h⟩ | ⟨hash, -, hhash, h⟩
  · rw [reaction, receiveProposal, checked_of_error (n := { state := s }) h]
    simp only [Qrtb.ValidatorNode.receiveProposal, NodeState.voting, h]
    exact follows_withConsensus s.node.consensus s
  · rw [reaction, receiveProposal, checked_of_ok (n := { state := s }) h, hhash, ofExcept_ok_bind]
    simp only [Qrtb.ValidatorNode.receiveProposal, NodeState.voting, h, hhash]
    exact follows_castVote _ _ s

theorem follows_afterPreVote (proposalHash : Bytes) (time : F) (c : BFTConsensus F)
    (s : NodeState F) :
    Follows ((afterPreVote proposalHash time (withConsensus c { state := s })).2.state,
        (afterPreVote proposalHash time (withConsensus c { state := s })).2.outbox)
      ({ s.voting with consensus := c }.afterPreVote proposalHash time) := by
  rw [afterPreVote, look_bind, consensus_withConsensus, Qrtb.ValidatorNode.afterPreVote]
  rcases c.createPreCommit_cases proposalHash time with ⟨hthreshold, -⟩ | ⟨hthreshold, hcreate⟩
  · simp only [hthreshold, Bool.false_eq_true, if_false, pure_apply]
    exact follows_withConsensus c s
  · have hcall : total (BFTConsensus.createPreCommit proposalHash time)
        (withConsensus c { state := s }).state.node.consensus =
          (.ok (c.createPreCommit proposalHash time).1, (c.createPreCommit proposalHash time).2) :=
      rfl
    simp only [hthreshold, if_true, onConsensus_bind_of_ok hcall, hcreate]
    exact follows_castVote _ _ s

omit [PyFloat F] in
theorem follows_onBlockFinalized (block : ConsensusBlock F) (c : BFTConsensus F)
    (s : NodeState F) :
    Follows ((onBlockFinalized block (withConsensus c { state := s })).2.state,
        (onBlockFinalized block (withConsensus c { state := s })).2.outbox)
      ({ s.voting with consensus := c }.onBlockFinalized block) :=
  ⟨rfl, rfl, rfl, rfl, rfl⟩

theorem follows_afterPreCommit (proposalHash : Bytes) (time : F) (c : BFTConsensus F)
    (s : NodeState F) :
    Follows ((afterPreCommit proposalHash time (withConsensus c { state := s })).2.state,
        (afterPreCommit proposalHash time (withConsensus c { state := s })).2.outbox)
      ({ s.voting with consensus := c }.afterPreCommit proposalHash time).2 := by
  rw [afterPreCommit, look_bind, consensus_withConsensus, Qrtb.ValidatorNode.afterPreCommit]
  cases hthreshold : (c.checkPreCommitThreshold proposalHash).1 with
  | false =>
    simp only [Bool.false_eq_true, if_false, pure_apply]
    exact follows_withConsensus c s
  | true =>
    simp only [if_true]
    generalize hfinalize : c.tryFinalize proposalHash time = r
    obtain ⟨result, c'⟩ := r
    cases result with
    | error e =>
      rw [onConsensus_bind_of_error (n := withConsensus c { state := s }) hfinalize]
      exact follows_withConsensus c' s
    | ok block =>
      rw [onConsensus_bind_of_ok (n := withConsensus c { state := s }) hfinalize]
      cases block with
      | none => exact follows_withConsensus c' s
      | some block => exact follows_onBlockFinalized block c' s

theorem silent_afterPreCommit (n : Qrtb.ValidatorNode F) (proposalHash : Bytes) (time : F) :
    (n.afterPreCommit proposalHash time).2.peers = n.peers ∧
      (n.afterPreCommit proposalHash time).2.outbox = n.outbox := by
  rw [Qrtb.ValidatorNode.afterPreCommit]
  split_ifs
  · split
    next => exact ⟨rfl, rfl⟩
    next => exact ⟨rfl, rfl⟩
    next => exact ⟨rfl, rfl⟩
  · exact ⟨rfl, rfl⟩

theorem follows_receiveVote (vote : ConsensusVote) (time : F) (s : NodeState F) :
    Follows (reaction (receiveVote vote time) s) (s.voting.receiveVote vote time).2 := by
  rw [reaction, receiveVote, Qrtb.ValidatorNode.receiveVote]
  cases vote.voteType with
  | preVote =>
    generalize hreceive : s.node.consensus.receivePreVote vote = r
    obtain ⟨result, c⟩ := r
    simp only [NodeState.voting, hreceive]
    cases result with
    | error e =>
      rw [checked_of_error (n := { state := s }) hreceive]
      exact follows_withConsensus c s
    | ok _ =>
      rw [checked_of_ok (n := { state := s }) hreceive]
      exact follows_afterPreVote _ time c s
  | preCommit =>
    generalize hreceive : s.node.consensus.receivePreCommit vote = r
    obtain ⟨result, c⟩ := r
    simp only [NodeState.voting, hreceive]
    cases result with
    | error e =>
      rw [checked_of_error (n := { state := s }) hreceive]
      exact follows_withConsensus c s
    | ok _ =>
      rw [checked_of_ok (n := { state := s }) hreceive]
      exact follows_afterPreCommit _ time c s

theorem follows_runConsensusPhase (time : F) (s : NodeState F) :
    Follows (reaction (runConsensusPhase time) s)
      (s.voting.runConsensusPhase s.node.measurementProtocol.getAllMeasurements time).2 := by
  rw [reaction, runConsensusPhase, Qrtb.ValidatorNode.runConsensusPhase]
  have hstart : ∀ f : Unit → Stateful (ValidatorNode F) Unit,
      (change (fun n => { n with node := { n.node with state := .voting } }) >>= f)
          { state := s } =
        f () { state := { s with node := { s.node with state := .voting } } } := fun _ => rfl
  rw [hstart, look_bind, look_bind]
  simp only [NodeState.voting]
  cases hmine : s.node.consensus.amIProposer with
  | error e => exact ⟨rfl, rfl, rfl, rfl, rfl⟩
  | ok mine =>
    cases mine with
    | false => exact ⟨rfl, rfl, rfl, rfl, rfl⟩
    | true =>
      rw [ofExcept_ok_bind, if_pos rfl, proposeBlock]
      generalize hcreate : s.node.consensus.createProposal
        s.node.measurementProtocol.getAllMeasurements [] [] time = r
      obtain ⟨result, c⟩ := r
      cases result with
      | error e =>
        rw [onConsensus_bind_of_error
          (n := { state := { s with node := { s.node with state := .voting } } }) hcreate]
        exact ⟨rfl, rfl, rfl, rfl, rfl⟩
      | ok proposal =>
        rw [onConsensus_bind_of_ok
          (n := { state := { s with node := { s.node with state := .voting } } }) hcreate]
        refine ⟨rfl, rfl, rfl, rfl, ?_⟩
        simp only [Qrtb.ValidatorNode.broadcast, List.nil_append, List.map_map]
        rfl

theorem follows_startEpoch (epoch : ℤ) (time : F) (s : NodeState F) :
    Follows (reaction (perform (.startEpoch epoch time)) s) s.voting ∨
      Follows (reaction (perform (.startEpoch epoch time)) s)
        (s.voting.handle (.start epoch 0)) := by
  have hnode : reaction (perform (.startEpoch epoch time)) s =
      ({ s with node := { s.node with toValidatorNode :=
        (Epochs.ValidatorNode.startEpoch epoch time s.node.toValidatorNode).2 } }, []) := rfl
  have hconsensus :
      (Epochs.ValidatorNode.startEpoch epoch time s.node.toValidatorNode).2.consensus =
          s.node.consensus ∨
        (Epochs.ValidatorNode.startEpoch epoch time s.node.toValidatorNode).2.consensus =
          s.node.consensus.startRound epoch 0 := by
    rw [Epochs.ValidatorNode.startEpoch]
    dsimp only
    split
    next => exact Or.inl rfl
    next => exact Or.inr rfl
  rw [hnode]
  rcases hconsensus with hsame | hstart
  · exact Or.inl ⟨hsame, rfl, rfl, rfl, rfl⟩
  · exact Or.inr ⟨hstart, rfl, rfl, rfl, rfl⟩

def Message.Measures (m : Message F) : Prop := (∃ c, m = .commitment c) ∨ ∃ reveal, m = .reveal reveal

/-- Nothing of the voting is touched and nothing of it is sent. -/
structure Outside (s : NodeState F) (r : NodeState F × List (Bytes × Message F)) : Prop where
  voting : r.1.voting = s.voting
  out : ∀ l ∈ r.2, l.2.Measures

omit [PyFloat F] in
theorem outside_onNode {α : Type} {x : Stateful (Testnet.ValidatorNode F) α}
    (hx : ∀ c ps, Preserves (fun n => n.consensus = c ∧ n.peers = ps) x) (s : NodeState F) :
    Outside s (reaction (onNode x) s) := by
  obtain ⟨hconsensus, hpeers⟩ := hx _ _ s.node ⟨rfl, rfl⟩
  have hnode : reaction (onNode x) s = ({ s with node := (x s.node).2 }, []) := rfl
  rw [hnode]
  refine ⟨?_, List.forall_mem_nil _⟩
  rw [NodeState.voting, hconsensus, hpeers]
  rfl

omit [PyFloat F] in
theorem keeps_onMeasurement {α : Type} (x : Stateful (MeasurementProtocol F) α)
    (c : BFTConsensus F) (ps : OrderedDict Bytes (ValidatorConfig F)) :
    Preserves (fun n => n.consensus = c ∧ n.peers = ps)
      (Testnet.ValidatorNode.onMeasurement x) :=
  fun _ hn => hn

theorem outside_perform {a : Action F} (hstart : ∀ epoch time, a ≠ .startEpoch epoch time)
    (hconsensus : ∀ time, a ≠ .runConsensusPhase time) (s : NodeState F) :
    Outside s (reaction (perform a) s) := by
  cases a with
  | startEpoch epoch time => exact absurd rfl (hstart epoch time)
  | runConsensusPhase time => exact absurd rfl (hconsensus time)
  | runMeasurementPhase readings =>
    refine outside_onNode (fun c ps => ?_) s
    refine (preserves_modify fun n hn => ?_).bind fun _ => Preserves.bind ?_ fun _ =>
      Preserves.bind ?_ fun measurements => preserves_modify fun n hn => ?_
    · exact hn
    · exact (preserves_reads _).bind fun _ => (preserves_ofExcept _).bind fun _ =>
        keeps_onMeasurement _ c ps
    · exact (preserves_reads _).bind fun _ => (keeps_onMeasurement _ c ps).bind fun _ =>
        preserves_pure _
    · exact hn
  | createMeasurementCommitment time =>
    refine outside_onNode (fun c ps => ?_) s
    refine (keeps_onMeasurement _ c ps).bind fun _ => preserves_modify fun n hn => ?_
    exact hn
  | broadcastCommitment =>
    rw [reaction, perform, Routed.broadcastCommitment, look_bind]
    cases hc : s.node.currentCommitment with
    | none => exact ⟨rfl, List.forall_mem_nil _⟩
    | some c =>
      refine ⟨rfl, fun l hl => Or.inl ?_⟩
      obtain ⟨peer, -, rfl⟩ := List.mem_map.mp hl
      exact ⟨c, rfl⟩
  | broadcastReveal =>
    refine ⟨rfl, fun l hl => Or.inr ?_⟩
    obtain ⟨peer, -, rfl⟩ := List.mem_map.mp hl
    exact ⟨_, rfl⟩

/-- What a message is to the voting node. -/
def Message.Is (message : Message F) (time : F) (event : Qrtb.ValidatorNode.Event F) : Prop :=
  (∃ p, message = .proposal p ∧ event = .proposal p time) ∨
    ∃ v, message = .vote v ∧ event = .vote v time

theorem outside_measures {m : Message F} (hm : m.Measures) (time : F) (s : NodeState F) :
    Outside s (system.handle m time s) := by
  rcases hm with ⟨c, rfl⟩ | ⟨reveal, rfl⟩
  · have hbind : system.handle (.commitment c) time s =
        reaction (onNode (Testnet.ValidatorNode.receiveCommitment c)) s := rfl
    rw [hbind]
    exact outside_onNode (keeps_onMeasurement _) s
  · have hbind : system.handle (.reveal reveal) time s =
        reaction (onNode (Testnet.ValidatorNode.receiveReveal reveal)) s :=
      reaction_bind_pure _ _ s
    rw [hbind]
    exact outside_onNode (keeps_onMeasurement _) s

theorem handle_cases (message : Message F) (time : F) (s : NodeState F) :
    Outside s (system.handle message time s) ∨
      ∃ event, message.Is time event ∧
        Follows (system.handle message time s) (s.voting.handle event) := by
  cases message with
  | commitment c => exact Or.inl (outside_measures (Or.inl ⟨c, rfl⟩) time s)
  | reveal r => exact Or.inl (outside_measures (Or.inr ⟨r, rfl⟩) time s)
  | proposal p =>
    exact Or.inr ⟨.proposal p time, Or.inl ⟨p, rfl, rfl⟩, follows_receiveProposal p time s⟩
  | vote v => exact Or.inr ⟨.vote v time, Or.inr ⟨v, rfl, rfl⟩, follows_receiveVote v time s⟩

/-- The voting nodes; a name without a node stands for one that does nothing. -/
def voters (c : Config Bytes (NodeState F) (Message F)) (h : Bytes) : Qrtb.ValidatorNode F :=
  ((c.nodes.get? h).map NodeState.voting).getD { consensus := .init h 0 }

omit [PyFloat F] in
theorem voters_of_get? {c : Config Bytes (NodeState F) (Message F)} {h : Bytes} {s : NodeState F}
    (hget : c.nodes.get? h = some s) : voters c h = s.voting := by
  rw [voters, hget, Option.map_some, Option.getD_some]

omit [PyFloat F] in
theorem voters_set {c c' : Config Bytes (NodeState F) (Message F)} {h : Bytes} {s : NodeState F}
    (hnodes : c'.nodes = c.nodes.set h s) : voters c' = Function.update (voters c) h s.voting := by
  funext k
  rw [voters, hnodes, OrderedDict.get?_set, Function.update_apply]
  split_ifs with hk
  · rfl
  · rfl

end Qrtb.Routed
