import Qrtb.Consensus.NodeVotes

/-!
# What a step of a node does (`src/node.py`)

Whatever a node does goes through calls of its engine, and the blocks that the calls
finalize are the blocks it has. Beside that it broadcasts one message at most: a proposal it
has just made, a vote, or the hash of a block. A pre-commit is broadcast only by the epoch
loop, for the proposal that the same loop has made and broadcast before.
-/

namespace Qrtb

open PyFloat

namespace EpochTask

variable {F : Type}

/-- The own proposal of the running epoch. -/
def current : EpochTask F → Option (ConsensusProposal F)
  | .proposed proposal => some proposal
  | .preVoted proposal => some proposal
  | .preCommitted proposal => some proposal
  | _ => none

end EpochTask

namespace Node

variable {F : Type}

/-- The engine with the blocks the node has finalized. -/
def outcome (n : Node F) : BFTConsensus F × List (ConsensusBlock F) :=
  (n.engine, n.validator.blocksFinalized)

variable [PyFloat F]

def call (s : BFTConsensus F × List (ConsensusBlock F)) (op : BFTConsensus.Operation F) :
    BFTConsensus F × List (ConsensusBlock F) :=
  (s.1.next op, s.2 ++ s.1.finalized op)

/-- The engine calls a step can lead to: the peers of the step are registered, proposals are made
over empty roots, and what is received was read from the message. -/
def Event.LeadsTo (e : Event F) : BFTConsensus.Operation F → Prop
  | .registerValidator w stake => ∃ peers, (w, stake) ∈ peers ∧
      (e = .start peers ∨ ∃ epoch, e = .startEpoch epoch peers)
  | .createProposal _ transactionRoot stateRoot _ => transactionRoot = [] ∧ stateRoot = []
  | .receiveProposal proposal => ∃ payload time time', e = .message .proposal payload time time' ∧
      deserializeProposal payload = some proposal
  | .receivePreCommit vote => ∃ payload time time', e = .message .preCommit payload time time' ∧
      deserializeVote payload .preCommit = some vote
  | _ => True

/-- The node has come to what the calls make of its engine. -/
def Calls (n : Node F) (ops : List (BFTConsensus.Operation F)) (n' : Node F) : Prop :=
  n'.outcome = ops.foldl call n.outcome

theorem calls_syncPeersFromP2p (peers : List (Bytes × ℤ)) (n : Node F) :
    Calls n ((peers.filter fun p => p.1 ∉ n.validator.peers).map fun p =>
      .registerValidator p.1 p.2) (n.syncPeersFromP2p peers) := by
  have hfold : ∀ (ps : List (Bytes × ℤ)) (c : BFTConsensus F) (blocks : List (ConsensusBlock F)),
      (ps.foldl (fun c p => c.registerValidator p.1 p.2) c, blocks) =
        (ps.map fun p => BFTConsensus.Operation.registerValidator p.1 p.2).foldl call
          (c, blocks) := by
    intro ps
    induction ps with
    | nil => exact fun _ _ => rfl
    | cons p ps ih =>
      intro c blocks
      have hcall : call (c, blocks) (.registerValidator p.1 p.2) =
          (c.registerValidator p.1 p.2, blocks) := by
        rw [call]
        exact congrArg (Prod.mk _) (List.append_nil blocks)
      rw [List.map_cons, List.foldl_cons, List.foldl_cons, hcall]
      exact ih _ _
  exact hfold _ n.engine n.validator.blocksFinalized

theorem calls_startEpoch (epoch : ℤ) (peers : List (Bytes × ℤ)) (n : Node F) :
    Calls n [] (n.startEpoch epoch peers) ∨
      Calls n (.startRound epoch 0 :: (peers.filter fun p => p.1 ∉ n.validator.peers).map fun p =>
        .registerValidator p.1 p.2) (n.startEpoch epoch peers) := by
  rw [startEpoch]
  split
  next =>
    right
    rw [Calls, List.foldl_cons]
    have hcall : call n.outcome (.startRound epoch 0) =
        (n.engine.startRound epoch 0, n.validator.blocksFinalized) := by
      rw [call]
      exact congrArg (Prod.mk _) (List.append_nil _)
    rw [hcall]
    exact calls_syncPeersFromP2p peers _
  next => exact Or.inl rfl

theorem calls_of_engine {n n' : Node F} {op : BFTConsensus.Operation F}
    (hfinalized : n.engine.finalized op = []) (hengine : n'.engine = n.engine.next op)
    (hblocks : n'.validator.blocksFinalized = n.validator.blocksFinalized) : Calls n [op] n' := by
  rw [Calls, outcome, hengine, hblocks, List.foldl_cons, List.foldl_nil, call, outcome, hfinalized,
    List.append_nil]

omit [PyFloat F] in
theorem validator_broadcastVote (vote : ConsensusVote) (n : Node F) :
    (n.broadcastVote vote).2.validator = n.validator := by
  unfold broadcastVote
  cases serializeVote vote with
  | error e => rfl
  | ok payload => rfl

theorem calls_proposeOrWait (measurements : MeasurementGraph F) (time : F) (n : Node F) :
    Calls n [] (n.proposeOrWait measurements time) ∨
      Calls n [.createProposal measurements [] [] time] (n.proposeOrWait measurements time) := by
  rw [proposeOrWait]
  split
  next => exact Or.inl rfl
  next => exact Or.inl rfl
  next =>
    right
    split
    next e c h =>
      refine calls_of_engine rfl ?_ rfl
      rw [BFTConsensus.next, h]
      rfl
    next proposal c h =>
      have hnext : c = n.engine.next (.createProposal measurements [] [] time) := by
        rw [BFTConsensus.next, h]
      dsimp only
      split
      next => exact calls_of_engine rfl hnext rfl
      next => exact calls_of_engine rfl hnext rfl

theorem calls_selfPreVote (proposal : ConsensusProposal F) (time : F) (n : Node F) :
    Calls n [] (n.selfPreVote proposal time) ∨
      ∃ hash, Calls n [.createPreVote hash time] (n.selfPreVote proposal time) := by
  cases hhash : proposal.proposalHash with
  | error e =>
    rw [selfPreVote, hhash]
    exact Or.inl rfl
  | ok hash =>
    refine Or.inr ⟨hash, calls_of_engine rfl (selfPreVote_spec time hhash).1 ?_⟩
    have hvalidator := validator_broadcastVote (n.engine.createPreVote hash time).1
      (n.withEngine (n.engine.createPreVote hash time).2)
    rw [selfPreVote, hhash]
    dsimp only
    split
    next m h =>
      rw [h] at hvalidator
      exact (congrArg ValidatorNode.blocksFinalized hvalidator :)
    next m h =>
      rw [h] at hvalidator
      exact (congrArg ValidatorNode.blocksFinalized hvalidator :)

theorem calls_tryPreCommit (proposal : ConsensusProposal F) (time : F) (n : Node F) :
    Calls n [] (n.tryPreCommit proposal time) ∨
      ∃ hash, Calls n [.createPreCommit hash time] (n.tryPreCommit proposal time) := by
  cases hhash : proposal.proposalHash with
  | error e =>
    rw [tryPreCommit, hhash]
    exact Or.inl rfl
  | ok hash =>
    refine Or.inr ⟨hash, calls_of_engine rfl (tryPreCommit_spec time hhash).1 ?_⟩
    rw [tryPreCommit, hhash]
    dsimp only
    split
    next c h => rfl
    next vote c h =>
      have hvalidator := validator_broadcastVote vote (n.withEngine c)
      split
      next m hm =>
        rw [hm] at hvalidator
        exact (congrArg ValidatorNode.blocksFinalized hvalidator :)
      next m hm =>
        rw [hm] at hvalidator
        exact (congrArg ValidatorNode.blocksFinalized hvalidator :)

theorem calls_finalizeFirst (time : F) (hashes : List Bytes) (n : Node F) :
    ∃ tried : List Bytes, Calls n (tried.map fun hash => .tryFinalize hash time)
      (n.finalizeFirst time hashes) := by
  induction hashes generalizing n with
  | nil => exact ⟨[], rfl⟩
  | cons hash hashes ih =>
    have hcall : call n.outcome (.tryFinalize hash time) =
        ((n.engine.tryFinalize hash time).2,
          n.validator.blocksFinalized ++ n.engine.finalized (.tryFinalize hash time)) := rfl
    rw [finalizeFirst]
    split
    next e c h =>
      refine ⟨[hash], ?_⟩
      rw [Calls, List.map_singleton, List.foldl_cons, List.foldl_nil, hcall,
        BFTConsensus.finalized, h]
      exact congrArg (Prod.mk _) (List.append_nil _).symm
    next c h =>
      obtain ⟨tried, htried⟩ := ih (n.withEngine c)
      refine ⟨hash :: tried, ?_⟩
      rw [Calls, List.map_cons, List.foldl_cons, hcall, BFTConsensus.finalized, h]
      dsimp only
      rw [List.append_nil]
      exact htried
    next block c h =>
      refine ⟨[hash], ?_⟩
      rw [Calls, List.map_singleton, List.foldl_cons, List.foldl_nil, hcall,
        BFTConsensus.finalized, h]
      rfl

theorem calls_handleProposal (payload : Bytes) (validatorTime time : F) (n : Node F) :
    Calls n [] (n.handleProposal payload validatorTime time) ∨
      ∃ proposal hash, deserializeProposal payload = some proposal ∧
        Calls n [.receiveProposal proposal, .createPreVote hash validatorTime,
          .createPreVote hash time] (n.handleProposal payload validatorTime time) := by
  by_cases hvalid : ∃ proposal hash, deserializeProposal payload = some proposal ∧
      n.engine.checkProposal proposal = .ok hash
  · obtain ⟨proposal, hash, hproposal, hcheck⟩ := hvalid
    refine Or.inr ⟨proposal, hash, hproposal, ?_⟩
    have hhash := BFTConsensus.proposalHash_of_checkProposal hcheck
    have hengine := (handleProposal_spec validatorTime time hproposal hcheck).1
    have hblocks : (n.handleProposal payload validatorTime time).validator.blocksFinalized =
        n.validator.blocksFinalized := by
      have hreceive : (n.validator.receiveProposal proposal validatorTime).2.blocksFinalized =
          n.validator.blocksFinalized := by
        unfold ValidatorNode.receiveProposal
        split
        · rfl
        · rfl
        · rfl
      rw [handleProposal, hproposal]
      dsimp only
      split
      next validator hash' h _ =>
        rw [h] at hreceive
        rw [validator_broadcastVote]
        exact hreceive
      next r validator _ h _ =>
        rw [h] at hreceive
        exact hreceive
    rw [Calls, outcome, hengine, hblocks]
    change _ = (_, ((n.validator.blocksFinalized ++ []) ++ []) ++ [])
    rw [List.append_nil, List.append_nil, List.append_nil]
    rfl
  · left
    rw [handleProposal_of_rejected validatorTime time
      fun proposal hash hp hc => hvalid ⟨proposal, hash, hp, hc⟩]
    exact rfl

theorem calls_handleVote (voteType : VoteType) (payload : Bytes) (time : F) (n : Node F) :
    Calls n [] (n.handleVote voteType payload time) ∨
      ∃ vote, deserializeVote payload voteType = some vote ∧
        (Calls n [.receivePreVote vote, .createPreCommit vote.proposalHash time]
            (n.handleVote voteType payload time) ∨
          voteType = .preCommit ∧
            Calls n [.receivePreCommit vote, .tryFinalize vote.proposalHash time]
              (n.handleVote voteType payload time)) := by
  rw [handleVote]
  cases hvote : deserializeVote payload voteType with
  | none => exact Or.inl rfl
  | some vote =>
    have houtcome : ∀ n' : Node F,
        n'.outcome = (n'.validator.party.engine, n'.validator.party.blocks) := fun _ => rfl
    rcases n.validator.party_receiveVote vote time with h | ⟨-, h⟩ | ⟨hadmits, h⟩
    · left
      rw [Calls, houtcome, h]
      rfl
    · refine Or.inr ⟨vote, rfl, Or.inl ?_⟩
      rw [Calls, houtcome, h]
      rfl
    · refine Or.inr ⟨vote, rfl, Or.inr ⟨?_, ?_⟩⟩
      · rw [← deserializeVote_type hvote, hadmits.type]
      · rw [Calls, houtcome, h]
        rfl

/-- The event explains the step: the engine and the blocks went through calls it leads to. -/
def Event.Explains (e : Event F) (n n' : Node F) : Prop :=
  ∃ ops, (∀ op ∈ ops, e.LeadsTo op) ∧ Calls n ops n'

theorem explains_nil {e : Event F} {n n' : Node F} (h : Calls n [] n') : e.Explains n n' :=
  ⟨[], fun _ hop => absurd hop List.not_mem_nil, h⟩

theorem explains_singleton {e : Event F} {n n' : Node F} {op : BFTConsensus.Operation F}
    (hop : e.LeadsTo op) (h : Calls n [op] n') : e.Explains n n' :=
  ⟨[op], List.forall_mem_singleton.mpr hop, h⟩

omit [PyFloat F] in
theorem leadsTo_registered {e : Event F} {peers : List (Bytes × ℤ)}
    (he : e = .start peers ∨ ∃ epoch, e = .startEpoch epoch peers) (known : List Bytes) :
    ∀ op ∈ (peers.filter fun p => p.1 ∉ known).map fun p =>
      (BFTConsensus.Operation.registerValidator p.1 p.2 : BFTConsensus.Operation F),
      e.LeadsTo op := by
  intro op hop
  obtain ⟨p, hp, rfl⟩ := List.mem_map.mp hop
  exact ⟨peers, List.mem_of_mem_filter hp, he⟩

theorem explains_finalizeFirst (measurements : MeasurementGraph F) (time : F)
    (hashes : List Bytes) (n : Node F) :
    (Event.resumeEpoch measurements time).Explains n (n.finalizeFirst time hashes) := by
  obtain ⟨tried, htried⟩ := calls_finalizeFirst time hashes n
  refine ⟨_, fun op hop => ?_, htried⟩
  obtain ⟨hash, -, rfl⟩ := List.mem_map.mp hop
  exact trivial

theorem explains_resumeEpoch (measurements : MeasurementGraph F) (time : F) (n : Node F) :
    (Event.resumeEpoch measurements time).Explains n (n.resumeEpoch measurements time) := by
  rw [resumeEpoch]
  cases n.epochTask with
  | idle => exact explains_nil rfl
  | measuring =>
    rcases calls_proposeOrWait measurements time n with h | h
    · exact explains_nil h
    · exact explains_singleton (by exact ⟨rfl, rfl⟩) h
  | proposed proposal =>
    rcases calls_selfPreVote proposal time n with h | ⟨hash, h⟩
    · exact explains_nil h
    · exact explains_singleton (by exact trivial) h
  | preVoted proposal =>
    rcases calls_tryPreCommit proposal time n with h | ⟨hash, h⟩
    · exact explains_nil h
    · exact explains_singleton (by exact trivial) h
  | preCommitted proposal =>
    dsimp only
    split
    next => exact explains_nil rfl
    next hash _ => exact explains_finalizeFirst measurements time [hash] n
  | waiting => exact explains_finalizeFirst measurements time _ n

theorem explains_handleProposal (payload : Bytes) (validatorTime time : F) (n : Node F) :
    (Event.message .proposal payload validatorTime time).Explains n
      (n.handleProposal payload validatorTime time) := by
  rcases calls_handleProposal payload validatorTime time n with h | ⟨proposal, hash, hp, h⟩
  · exact explains_nil h
  · refine ⟨_, ?_, h⟩
    simp only [List.forall_mem_cons, List.not_mem_nil, false_imp_iff, implies_true, and_true]
    exact ⟨⟨payload, validatorTime, time, rfl, hp⟩, trivial, trivial⟩

theorem explains_handlePreVote (payload : Bytes) (validatorTime time : F) (n : Node F) :
    (Event.message .preVote payload validatorTime time).Explains n
      (n.handleVote .preVote payload validatorTime) := by
  rcases calls_handleVote .preVote payload validatorTime n with h | ⟨vote, hv, h | ⟨ht, -⟩⟩
  · exact explains_nil h
  · refine ⟨_, ?_, h⟩
    simp only [List.forall_mem_cons, List.not_mem_nil, false_imp_iff, implies_true, and_true]
    exact ⟨trivial, trivial⟩
  · cases ht

theorem explains_handlePreCommit (payload : Bytes) (validatorTime time : F) (n : Node F) :
    (Event.message .preCommit payload validatorTime time).Explains n
      (n.handleVote .preCommit payload validatorTime) := by
  rcases calls_handleVote .preCommit payload validatorTime n with h | ⟨vote, hv, h | ⟨-, h⟩⟩
  · exact explains_nil h
  · refine ⟨_, ?_, h⟩
    simp only [List.forall_mem_cons, List.not_mem_nil, false_imp_iff, implies_true, and_true]
    exact ⟨trivial, trivial⟩
  · refine ⟨_, ?_, h⟩
    simp only [List.forall_mem_cons, List.not_mem_nil, false_imp_iff, implies_true, and_true]
    exact ⟨⟨payload, validatorTime, time, rfl, hv⟩, trivial⟩

theorem explains_step (e : Event F) (n : Node F) : e.Explains n (step e n) := by
  cases e with
  | start peers =>
    exact ⟨_, leadsTo_registered (Or.inl rfl) _, calls_syncPeersFromP2p peers n⟩
  | startEpoch epoch peers =>
    rcases calls_startEpoch epoch peers n with h | h
    · exact explains_nil h
    · refine ⟨_, ?_, h⟩
      exact List.forall_mem_cons.mpr ⟨trivial, leadsTo_registered (Or.inr ⟨epoch, rfl⟩) _⟩
  | resumeEpoch measurements time => exact explains_resumeEpoch measurements time n
  | message type payload validatorTime time =>
    cases type with
    | proposal => exact explains_handleProposal payload validatorTime time n
    | preVote => exact explains_handlePreVote payload validatorTime time n
    | preCommit => exact explains_handlePreCommit payload validatorTime time n
    | _ => exact explains_nil rfl

/-- What a step does to the broadcasts and to the own proposal of the epoch. -/
inductive Moves (n n' : Node F) : Prop
  | quiet (broadcasts : n'.broadcasts = n.broadcasts)
      (task : ∀ p, n'.epochTask.current = some p → n.epochTask.current = some p)
  | propose (measurements : MeasurementGraph F) (time : F) (proposal : ConsensusProposal F)
      (payload : Bytes)
      (created : (n.engine.createProposal measurements [] [] time).1 = .ok proposal)
      (serialized : serializeProposal proposal = .ok payload)
      (broadcasts : n'.broadcasts = n.broadcasts ++ [(.proposal, payload)])
      (task : ∀ p, n'.epochTask.current = some p → p = proposal)
  | preVote (payload : Bytes) (broadcasts : n'.broadcasts = n.broadcasts ++ [(.preVote, payload)])
      (task : ∀ p, n'.epochTask.current = some p → n.epochTask.current = some p)
  | preCommit (proposal : ConsensusProposal F) (hash : Bytes) (time : F) (payload : Bytes)
      (own : n.epochTask.current = some proposal) (named : proposal.proposalHash = .ok hash)
      (serialized : serializeVote (n.engine.ownVote .preCommit hash time) = .ok payload)
      (broadcasts : n'.broadcasts = n.broadcasts ++ [(.preCommit, payload)])
      (task : ∀ p, n'.epochTask.current = some p → n.epochTask.current = some p)
  | block (payload : Bytes) (broadcasts : n'.broadcasts = n.broadcasts ++ [(.block, payload)])
      (task : ∀ p, n'.epochTask.current = some p → n.epochTask.current = some p)

variable {n : Node F}

theorem Moves.subset {n' : Node F} (h : Moves n n') : n.broadcasts ⊆ n'.broadcasts := by
  cases h with
  | quiet broadcasts _ =>
    rw [broadcasts]
    exact List.Subset.refl _
  | propose _ _ _ _ _ _ broadcasts _ =>
    rw [broadcasts]
    exact List.subset_append_left _ _
  | preVote _ broadcasts _ =>
    rw [broadcasts]
    exact List.subset_append_left _ _
  | preCommit _ _ _ _ _ _ _ broadcasts _ =>
    rw [broadcasts]
    exact List.subset_append_left _ _
  | block _ broadcasts _ =>
    rw [broadcasts]
    exact List.subset_append_left _ _

/-- The own proposal was there before, or the step has made and broadcast it. -/
theorem Moves.task_cases {n' : Node F} (h : Moves n n') {p : ConsensusProposal F}
    (hp : n'.epochTask.current = some p) : n.epochTask.current = some p ∨
      ∃ measurements time payload, (n.engine.createProposal measurements [] [] time).1 = .ok p ∧
        serializeProposal p = .ok payload ∧ (.proposal, payload) ∈ n'.broadcasts := by
  cases h with
  | propose measurements time proposal payload created serialized broadcasts task =>
    obtain rfl := task p hp
    refine Or.inr ⟨measurements, time, payload, created, serialized, ?_⟩
    rw [broadcasts]
    exact List.mem_append_right _ (List.mem_singleton_self _)
  | quiet _ task => exact Or.inl (task p hp)
  | preVote _ _ task => exact Or.inl (task p hp)
  | preCommit _ _ _ _ _ _ _ _ task => exact Or.inl (task p hp)
  | block _ _ task => exact Or.inl (task p hp)

theorem Moves.proposal_cases {n' : Node F} (h : Moves n n') {payload : Bytes}
    (hmem : (.proposal, payload) ∈ n'.broadcasts) : (.proposal, payload) ∈ n.broadcasts ∨
      ∃ measurements time proposal,
        (n.engine.createProposal measurements [] [] time).1 = .ok proposal ∧
          serializeProposal proposal = .ok payload := by
  cases h with
  | propose measurements time proposal sent created serialized broadcasts _ =>
    rw [broadcasts, List.mem_append, List.mem_singleton] at hmem
    refine hmem.imp_right fun hlast => ?_
    obtain rfl := congrArg Prod.snd hlast
    exact ⟨measurements, time, proposal, created, serialized⟩
  | quiet broadcasts _ => exact Or.inl (broadcasts ▸ hmem)
  | preVote _ broadcasts _ => exact Or.inl (by simpa [broadcasts] using hmem)
  | preCommit _ _ _ _ _ _ _ broadcasts _ => exact Or.inl (by simpa [broadcasts] using hmem)
  | block _ broadcasts _ => exact Or.inl (by simpa [broadcasts] using hmem)

theorem Moves.preCommit_cases {n' : Node F} (h : Moves n n') {payload : Bytes}
    (hmem : (.preCommit, payload) ∈ n'.broadcasts) : (.preCommit, payload) ∈ n.broadcasts ∨
      ∃ proposal hash time, n.epochTask.current = some proposal ∧
        proposal.proposalHash = .ok hash ∧
        serializeVote (n.engine.ownVote .preCommit hash time) = .ok payload := by
  cases h with
  | preCommit proposal hash time sent own named serialized broadcasts _ =>
    rw [broadcasts, List.mem_append, List.mem_singleton] at hmem
    refine hmem.imp_right fun hlast => ?_
    obtain rfl := congrArg Prod.snd hlast
    exact ⟨proposal, hash, time, own, named, serialized⟩
  | quiet broadcasts _ => exact Or.inl (broadcasts ▸ hmem)
  | propose _ _ _ _ _ _ broadcasts _ => exact Or.inl (by simpa [broadcasts] using hmem)
  | preVote _ broadcasts _ => exact Or.inl (by simpa [broadcasts] using hmem)
  | block _ broadcasts _ => exact Or.inl (by simpa [broadcasts] using hmem)

theorem moves_startEpoch (epoch : ℤ) (peers : List (Bytes × ℤ)) (n : Node F) :
    Moves n (n.startEpoch epoch peers) := by
  rw [startEpoch]
  split
  next => exact .quiet rfl fun p hp => by cases hp
  next => exact .quiet rfl fun _ hp => hp

theorem moves_proposeOrWait (measurements : MeasurementGraph F) (time : F) (n : Node F) :
    Moves n (n.proposeOrWait measurements time) := by
  rw [proposeOrWait]
  split
  next => exact .quiet rfl fun p hp => by cases hp
  next => exact .quiet rfl fun p hp => by cases hp
  next =>
    split
    next => exact .quiet rfl fun p hp => by cases hp
    next proposal c h =>
      dsimp only
      split
      next => exact .quiet rfl fun p hp => by cases hp
      next payload hpayload =>
        refine .propose measurements time proposal payload ?_ hpayload rfl
          fun p hp => (Option.some.inj hp).symm
        rw [h]

theorem moves_selfPreVote {proposal : ConsensusProposal F} (time : F)
    (htask : n.epochTask = .proposed proposal) : Moves n (n.selfPreVote proposal time) := by
  cases hhash : proposal.proposalHash with
  | error e =>
    rw [selfPreVote, hhash]
    exact .quiet rfl fun p hp => by cases hp
  | ok hash =>
    have hcurrent : ∀ p, (n.selfPreVote proposal time).epochTask.current = some p →
        n.epochTask.current = some p := by
      intro p hp
      rw [selfPreVote, hhash] at hp
      dsimp only at hp
      rw [htask]
      split at hp
      next => cases hp
      next => exact hp
    have hbroadcasts := (selfPreVote_spec (n := n) time hhash).2
    rcases n.broadcastVote_cases (n.engine.ownVote .preVote hash time) with
      ⟨-, h⟩ | ⟨payload, -, h⟩
    · exact .quiet (hbroadcasts.trans h) hcurrent
    · exact .preVote payload (hbroadcasts.trans h) hcurrent

theorem moves_tryPreCommit {proposal : ConsensusProposal F} (time : F)
    (htask : n.epochTask = .preVoted proposal) : Moves n (n.tryPreCommit proposal time) := by
  cases hhash : proposal.proposalHash with
  | error e =>
    rw [tryPreCommit, hhash]
    exact .quiet rfl fun p hp => by cases hp
  | ok hash =>
    have hown : n.epochTask.current = some proposal := by rw [htask, EpochTask.current]
    have hcurrent : ∀ p, (n.tryPreCommit proposal time).epochTask.current = some p →
        n.epochTask.current = some p := by
      intro p hp
      rw [tryPreCommit, hhash] at hp
      dsimp only at hp
      rw [hown]
      split at hp
      next => exact hp
      next =>
        split at hp
        next => cases hp
        next => exact hp
    have hbroadcasts := (tryPreCommit_spec (n := n) time hhash).2
    split_ifs at hbroadcasts
    · rcases n.broadcastVote_cases (n.engine.ownVote .preCommit hash time) with
        ⟨-, h⟩ | ⟨payload, hpayload, h⟩
      · exact .quiet (hbroadcasts.trans h) hcurrent
      · exact .preCommit proposal hash time payload hown hhash hpayload (hbroadcasts.trans h)
          hcurrent
    · exact .quiet hbroadcasts hcurrent

/-- The epoch is over, whatever was tried, and the hash of a block may have been broadcast. -/
theorem finalizeFirst_spec (time : F) (hashes : List Bytes) (n : Node F) :
    (n.finalizeFirst time hashes).epochTask = .idle ∧
      ((n.finalizeFirst time hashes).broadcasts = n.broadcasts ∨ ∃ payload,
        (n.finalizeFirst time hashes).broadcasts = n.broadcasts ++ [(.block, payload)]) := by
  induction hashes generalizing n with
  | nil => exact ⟨rfl, Or.inl rfl⟩
  | cons hash hashes ih =>
    rw [finalizeFirst]
    split
    next => exact ⟨rfl, Or.inl rfl⟩
    next c _ => exact ih (n.withEngine c)
    next block c _ => exact ⟨rfl, Or.inr ⟨block.blockHash, rfl⟩⟩

theorem moves_finalizeFirst (time : F) (hashes : List Bytes) (n : Node F) :
    Moves n (n.finalizeFirst time hashes) := by
  obtain ⟨hidle, hbroadcasts⟩ := finalizeFirst_spec time hashes n
  have htask : ∀ p, (n.finalizeFirst time hashes).epochTask.current = some p →
      n.epochTask.current = some p := by
    intro p hp
    rw [hidle] at hp
    cases hp
  rcases hbroadcasts with h | ⟨payload, h⟩
  · exact .quiet h htask
  · exact .block payload h htask

omit [PyFloat F] in
theorem epochTask_broadcastVote (vote : ConsensusVote) (n : Node F) :
    (n.broadcastVote vote).2.epochTask = n.epochTask := by
  unfold broadcastVote
  cases serializeVote vote with
  | error e => rfl
  | ok payload => rfl

theorem epochTask_handleProposal (payload : Bytes) (validatorTime time : F) (n : Node F) :
    (n.handleProposal payload validatorTime time).epochTask = n.epochTask := by
  rw [handleProposal]
  split
  next => rfl
  next =>
    split
    next => exact epochTask_broadcastVote _ _
    next => rfl

theorem moves_handleProposal (payload : Bytes) (validatorTime time : F) (n : Node F) :
    Moves n (n.handleProposal payload validatorTime time) := by
  by_cases hvalid : ∃ proposal hash, deserializeProposal payload = some proposal ∧
      n.engine.checkProposal proposal = .ok hash
  · obtain ⟨proposal, hash, hproposal, hcheck⟩ := hvalid
    have htask : ∀ p, (n.handleProposal payload validatorTime time).epochTask.current = some p →
        n.epochTask.current = some p := by
      rw [epochTask_handleProposal]
      exact fun _ hp => hp
    have hbroadcasts := (handleProposal_spec validatorTime time hproposal hcheck).2
    rcases n.broadcastVote_cases (n.engine.ownVote .preVote hash time) with
      ⟨-, h⟩ | ⟨packed, -, h⟩
    · exact .quiet (hbroadcasts.trans h) htask
    · exact .preVote packed (hbroadcasts.trans h) htask
  · rw [handleProposal_of_rejected validatorTime time
      fun proposal hash hp hc => hvalid ⟨proposal, hash, hp, hc⟩]
    exact .quiet rfl fun _ hp => hp

theorem moves_handleVote (voteType : VoteType) (payload : Bytes) (time : F) (n : Node F) :
    Moves n (n.handleVote voteType payload time) := by
  rw [handleVote]
  split
  next => exact .quiet rfl fun _ hp => hp
  next => exact .quiet rfl fun _ hp => hp

theorem moves_step (e : Event F) (n : Node F) : Moves n (step e n) := by
  have hidle : ∀ n' : Node F, n'.broadcasts = n.broadcasts → n'.epochTask = n.epochTask →
      Moves n n' := fun n' h h' => .quiet h fun p hp => by rwa [h'] at hp
  cases e with
  | start peers => exact hidle _ rfl rfl
  | startEpoch epoch peers => exact moves_startEpoch epoch peers n
  | resumeEpoch measurements time =>
    rw [step, resumeEpoch]
    cases htask : n.epochTask with
    | idle => exact hidle _ rfl rfl
    | measuring => exact moves_proposeOrWait measurements time n
    | proposed proposal => exact moves_selfPreVote time htask
    | preVoted proposal => exact moves_tryPreCommit time htask
    | preCommitted proposal =>
      dsimp only
      split
      next => exact .quiet rfl fun p hp => by cases hp
      next hash _ => exact moves_finalizeFirst time [hash] n
    | waiting => exact moves_finalizeFirst time _ n
  | message type payload validatorTime time =>
    change Moves n (n.handleMessage type payload validatorTime time)
    cases type with
    | proposal => exact moves_handleProposal payload validatorTime time n
    | preVote => exact moves_handleVote .preVote payload validatorTime n
    | preCommit => exact moves_handleVote .preCommit payload validatorTime n
    | _ => exact hidle _ rfl rfl

end Node

end Qrtb
