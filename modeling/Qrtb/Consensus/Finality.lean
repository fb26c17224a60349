import Qrtb.Consensus.BlockHash

/-!
# Finalizing again

Nothing stops an engine from finalizing an epoch a second time: a later call
replaces the recorded block by one with the new time and the stake recorded by
then. The block hash survives exactly the calls that repeat all it is taken over.
-/

namespace Qrtb

open Keccak PyFloat Transition

namespace BFTConsensus

variable {F : Type} [PyFloat F]

def after (c : BFTConsensus F) (ops : List (Operation F)) : BFTConsensus F := ops.foldl next c

theorem Reachable.after {c : BFTConsensus F} (hc : c.Reachable) (ops : List (Operation F)) :
    (c.after ops).Reachable := by
  induction ops generalizing c with
  | nil => exact hc
  | cons op ops ih => exact ih (hc.next op)

theorem after_append (c : BFTConsensus F) (ops ops' : List (Operation F)) :
    c.after (ops ++ ops') = (c.after ops).after ops' :=
  List.foldl_append

theorem finalizedBlocks_next (c : BFTConsensus F) {op : Operation F}
    (hop : ∀ proposalHash time, op ≠ .tryFinalize proposalHash time) :
    (c.next op).finalizedBlocks = c.finalizedBlocks := by
  cases op with
  | registerValidator | startRound | createPreVote => rfl
  | createProposal measurements transactionRoot stateRoot time =>
    rcases c.createProposal_cases measurements transactionRoot stateRoot time with
      ⟨e, current, h⟩ | ⟨root, hash, proposal, -, -, -, h⟩
    · rw [next, h]
    · rw [next, h]
  | receiveProposal proposal =>
    rcases c.receiveProposal_cases proposal with ⟨e, h⟩ | ⟨hash, -, -, h⟩
    · rw [next, h]
    · rw [next, h]
  | receivePreVote vote =>
    rcases c.receivePreVote_cases vote with ⟨e, h⟩ | ⟨-, h⟩
    · rw [next, h]
    · rw [next, h]
  | createPreCommit proposalHash time =>
    rcases c.createPreCommit_cases proposalHash time with ⟨-, h⟩ | ⟨-, h⟩
    · rw [next, h]
    · rw [next, h]
  | receivePreCommit vote =>
    rcases c.receivePreCommit_cases vote with ⟨e, h⟩ | ⟨-, h⟩
    · rw [next, h]
    · rw [next, h]
  | tryFinalize proposalHash time => exact absurd rfl (hop proposalHash time)

/-- Every recorded block carries the hash of its own bytes. -/
def BlocksHashed (c : BFTConsensus F) : Prop :=
  ∀ epoch block, c.finalizedBlocks.get? epoch = some block →
    ∃ data, block.hashedBytes = .ok data ∧ block.blockHash = sha3_256 data

theorem BlocksHashed.next {c : BFTConsensus F} (hc : c.BlocksHashed) (op : Operation F) :
    (c.next op).BlocksHashed := by
  by_cases hop : ∀ proposalHash time, op ≠ .tryFinalize proposalHash time
  · intro epoch block hget
    rw [c.finalizedBlocks_next hop] at hget
    exact hc epoch block hget
  · push Not at hop
    obtain ⟨proposalHash, time, rfl⟩ := hop
    rcases c.tryFinalize_cases proposalHash time with ⟨r, h, -⟩ | ⟨proposal, b, -, -, hpost, h⟩
    · rwa [BFTConsensus.next, h]
    · intro epoch block hget
      rw [BFTConsensus.next, h] at hget
      rcases OrderedDict.get?_set_eq_some.mp hget with ⟨-, rfl⟩ | ⟨-, hget⟩
      · obtain ⟨data, hdata, rfl⟩ := (ConsensusBlock.postInit_eq_ok _).mp hpost
        exact ⟨data, hdata, rfl⟩
      · exact hc epoch block hget

theorem Reachable.blocksHashed {c : BFTConsensus F} (h : c.Reachable) : c.BlocksHashed := by
  obtain ⟨validatorId, stake, ops, hrun⟩ := h
  refine hrun.invariant (I := BlocksHashed) ?_ (fun epoch block hget => by cases hget)
  intro c op c' hc hstep
  rw [hstep]
  exact hc.next op

/-- Every recorded block is still there, or one with the same hash in its place. -/
def KeepsHashes (c c' : BFTConsensus F) : Prop :=
  ∀ epoch block, c.finalizedBlocks.get? epoch = some block →
    ∃ block', c'.finalizedBlocks.get? epoch = some block' ∧ block'.blockHash = block.blockHash

omit [PyFloat F] in
theorem KeepsHashes.of_eq {c c' : BFTConsensus F} (h : c'.finalizedBlocks = c.finalizedBlocks) :
    KeepsHashes c c' := by
  intro epoch block hget
  exact ⟨block, h ▸ hget, rfl⟩

omit [PyFloat F] in
theorem KeepsHashes.trans {c c' c'' : BFTConsensus F} (h : KeepsHashes c c')
    (h' : KeepsHashes c' c'') : KeepsHashes c c'' := by
  intro epoch block hget
  obtain ⟨block', hget', heq⟩ := h epoch block hget
  obtain ⟨block'', hget'', heq'⟩ := h' epoch block' hget'
  exact ⟨block'', hget'', heq'.trans heq⟩

/-- The call finalizes: threshold, proposal, and numbers that can be packed. -/
structure Finalizes (proposalHash : Bytes) (time : F) (c : BFTConsensus F) : Prop where
  threshold : (c.checkPreCommitThreshold proposalHash).1 = true
  proposal : (c.receivedProposals.get? proposalHash).isSome
  total : 0 ≤ c.totalStake ∧ c.totalStake < 256 ^ 8
  supporting : 0 ≤ c.registeredStake (c.supporters proposalHash) ∧
    c.registeredStake (c.supporters proposalHash) < 256 ^ 8
  time : 0 ≤ milliseconds time ∧ milliseconds time < 256 ^ 8

/-- The call is made over the same proposal, total stake, supporting stake and millisecond as the
recorded block. -/
structure Repeats (proposalHash : Bytes) (time : F) (block : ConsensusBlock F)
    (c : BFTConsensus F) : Prop where
  proposal : block.proposal.proposalHash = .ok proposalHash
  total : block.totalStake = c.totalStake
  supporting : block.supportingStake = c.registeredStake (c.supporters proposalHash)
  time : milliseconds block.finalizationTime = milliseconds time

/-- The bytes of the recorded block and of the new one are different and have the same digest. -/
def BlocksCollide (proposalHash : Bytes) (time : F) (block : ConsensusBlock F)
    (c : BFTConsensus F) : Prop :=
  ∃ proposal m n, c.receivedProposals.get? proposalHash = some proposal ∧
    block.hashedBytes = .ok m ∧ (c.blockOver proposalHash proposal time).hashedBytes = .ok n ∧
    Collision m n

/-- The calls that keep all hashes: a call that finalizes an epoch which has a block repeats it. -/
def Reaffirms (c : BFTConsensus F) : Operation F → Prop
  | .tryFinalize proposalHash time =>
    ∀ block, c.finalizedBlocks.get? c.currentEpoch = some block → c.Finalizes proposalHash time →
      c.Repeats proposalHash time block ∨ c.BlocksCollide proposalHash time block
  | _ => True

theorem finalizes_iff {c : BFTConsensus F} (hc : c.Reachable) {proposalHash : Bytes} {time : F} :
    c.Finalizes proposalHash time ↔ ∃ b, (c.tryFinalize proposalHash time).1 = .ok (some b) := by
  constructor
  · intro h
    have htotal := h.total
    rw [hc.inv.totalStake_eq] at htotal
    exact exists_block_of_tryFinalize hc h.threshold h.proposal htotal h.supporting h.time
  · intro h
    obtain ⟨b, hb⟩ := h
    obtain ⟨proposal, hthreshold, hproposal, hpost⟩ := tryFinalize_eq_ok_some hb
    obtain ⟨data, hdata, -⟩ := (ConsensusBlock.postInit_eq_ok _).mp hpost
    obtain ⟨_, -, htotal, hsupporting, htime, -⟩ := (ConsensusBlock.hashedBytes_eq_ok _).mp hdata
    rw [supportingStake_blockOver] at hsupporting
    exact ⟨hthreshold, by simp [hproposal], htotal, hsupporting, htime⟩

/-- The new block has the hash of a recorded one exactly when it repeats it, or bytes collide. -/
theorem blockHash_eq_iff {c : BFTConsensus F} (hc : c.Reachable) {proposalHash : Bytes} {time : F}
    {epoch : ℤ} {old new : ConsensusBlock F} (hold : c.finalizedBlocks.get? epoch = some old)
    (hnew : (c.tryFinalize proposalHash time).1 = .ok (some new)) :
    new.blockHash = old.blockHash ↔
      c.Repeats proposalHash time old ∨ c.BlocksCollide proposalHash time old := by
  obtain ⟨m, hm, hblock⟩ := hc.blocksHashed epoch old hold
  obtain ⟨proposal, -, hproposal, hpost⟩ := tryFinalize_eq_ok_some hnew
  obtain ⟨n, hn, rfl⟩ := (ConsensusBlock.postInit_eq_ok _).mp hpost
  have hfiled := hc.inv.filed proposalHash proposal hproposal
  have hrepeats : c.Repeats proposalHash time old ↔ m = n := by
    rw [ConsensusBlock.hashedBytes_inj hm hn, supportingStake_blockOver]
    constructor
    · intro h
      exact ⟨h.proposal.trans hfiled.symm, h.total, h.supporting, h.time⟩
    · intro h
      exact ⟨h.1.trans hfiled, h.2.1, h.2.2.1, h.2.2.2⟩
  have hcollide : c.BlocksCollide proposalHash time old ↔ Collision m n := by
    simp [BlocksCollide, hproposal, hm, hn]
  rw [hrepeats, hcollide, hblock, eq_comm, sha3_256_eq_iff]

theorem keepsHashes_next_iff {c : BFTConsensus F} (hc : c.Reachable) (op : Operation F) :
    KeepsHashes c (c.next op) ↔ c.Reaffirms op := by
  by_cases hop : ∀ proposalHash time, op ≠ .tryFinalize proposalHash time
  · have hkeeps := KeepsHashes.of_eq (c.finalizedBlocks_next hop)
    cases op with
    | tryFinalize proposalHash time => exact absurd rfl (hop proposalHash time)
    | _ => exact iff_of_true hkeeps trivial
  · push Not at hop
    obtain ⟨proposalHash, time, rfl⟩ := hop
    rcases c.tryFinalize_cases proposalHash time with ⟨r, h, hr⟩ | ⟨proposal, new, -, -, -, h⟩
    · refine iff_of_true (.of_eq (by rw [next, h])) ?_
      intro block _ hfinalizes
      obtain ⟨b, hb⟩ := (finalizes_iff hc).mp hfinalizes
      rw [h] at hb
      exact absurd hb (hr b)
    · have hnew : (c.tryFinalize proposalHash time).1 = .ok (some new) := by rw [h]
      have hfinalizes := (finalizes_iff hc).mpr ⟨new, hnew⟩
      constructor
      · intro hkeeps old hold _
        obtain ⟨block, hget, heq⟩ := hkeeps c.currentEpoch old hold
        rw [next, h, OrderedDict.get?_set_self] at hget
        obtain rfl := Option.some.inj hget
        exact (blockHash_eq_iff hc hold hnew).mp heq
      · intro hreaffirms epoch old hold
        rw [next, h]
        by_cases hepoch : epoch = c.currentEpoch
        · subst hepoch
          exact ⟨new, OrderedDict.get?_set_self .., (blockHash_eq_iff hc hold hnew).mpr
            (hreaffirms old hold hfinalizes)⟩
        · exact ⟨old, by rw [OrderedDict.get?_set_of_ne _ hepoch]; exact hold, rfl⟩

/-- The recorded hashes stand over a whole run exactly when every call that finalizes an epoch again
repeats the recorded block, or bytes collide. -/
theorem finality_iff {c : BFTConsensus F} (hc : c.Reachable) (ops : List (Operation F)) :
    (∀ earlier between later, ops = earlier ++ between ++ later →
        KeepsHashes (c.after earlier) (c.after (earlier ++ between))) ↔
      ∀ earlier op later, ops = earlier ++ op :: later → (c.after earlier).Reaffirms op := by
  constructor
  · intro h earlier op later hops
    have hstep := h earlier [op] later (by simp [hops])
    rw [after_append] at hstep
    exact (keepsHashes_next_iff (hc.after earlier) op).mp hstep
  · intro h earlier between later hops
    -- one call of the middle part after the other, from the left
    induction between generalizing earlier with
    | nil => exact .of_eq (by rw [List.append_nil])
    | cons op between ih =>
      have hstep := (keepsHashes_next_iff (hc.after earlier) op).mpr
        (h earlier op (between ++ later) (by simp [hops]))
      have hrest := ih (earlier ++ [op]) (by simp [hops])
      rw [List.append_assoc, List.singleton_append] at hrest
      rw [after_append] at hrest
      exact hstep.trans hrest

/-- A second call in the same millisecond, with nothing in between, repeats the first. -/
theorem Reachable.repeats {c : BFTConsensus F} (hc : c.Reachable) {proposalHash : Bytes} {time : F}
    {b : ConsensusBlock F} (hb : (c.tryFinalize proposalHash time).1 = .ok (some b)) :
    (c.next (.tryFinalize proposalHash time)).Repeats proposalHash time b ∧
      (c.next (.tryFinalize proposalHash time)).finalizedBlocks =
        c.finalizedBlocks.set c.currentEpoch b ∧
      (c.next (.tryFinalize proposalHash time)).currentEpoch = c.currentEpoch := by
  rcases c.tryFinalize_cases proposalHash time with
    ⟨r, h, hr⟩ | ⟨proposal, b', -, hproposal, hpost, h⟩
  · rw [h] at hb
    exact absurd hb (hr b)
  · rw [h] at hb
    obtain rfl := Option.some.inj (Except.ok.inj hb)
    obtain ⟨data, -, rfl⟩ := (ConsensusBlock.postInit_eq_ok _).mp hpost
    rw [BFTConsensus.next, h]
    exact ⟨⟨hc.inv.filed _ _ hproposal, rfl, c.supportingStake_blockOver proposalHash proposal time,
      rfl⟩, rfl, rfl⟩

theorem finalizedBlocks_proposerNode : proposerNode.finalizedBlocks = ∅ := by
  rw [proposerNode, finalizedBlocks_next _ (by simp), finalizedBlocks_next _ (by simp),
    finalizedBlocks_next _ (by simp), finalizedBlocks_next _ (by simp)]
  rfl

theorem finality_iff_same_time :
    KeepsHashes (proposerNode.after [.tryFinalize roundHash (1 : ℚ)])
      (proposerNode.after [.tryFinalize roundHash 1, .tryFinalize roundHash 1]) := by
  have hreaffirms : ∀ earlier op later,
      [Operation.tryFinalize roundHash (1 : ℚ), .tryFinalize roundHash 1] = earlier ++ op :: later →
      (proposerNode.after earlier).Reaffirms op := by
    intro earlier op later h
    obtain ⟨b, hb, -⟩ := proposerNode_decided.1.exists_block reachable_proposerNode milliseconds_one
    obtain ⟨hrepeats, hblocks, hepoch⟩ := reachable_proposerNode.repeats hb
    rcases earlier with _ | ⟨first, _ | ⟨second, earlier⟩⟩
    · obtain ⟨rfl, -⟩ := List.cons.inj h
      intro block hget
      rw [after, List.foldl_nil, finalizedBlocks_proposerNode] at hget
      cases hget
    · obtain ⟨rfl, htail⟩ := List.cons.inj h
      obtain ⟨rfl, -⟩ := List.cons.inj htail
      intro block hget _
      rw [after, List.foldl_cons, List.foldl_nil, hblocks, hepoch, OrderedDict.get?_set_self] at hget
      obtain rfl := Option.some.inj hget
      exact Or.inl hrepeats
    · simp at h
  exact (finality_iff reachable_proposerNode _).mpr hreaffirms [.tryFinalize roundHash 1]
    [.tryFinalize roundHash 1] [] rfl

theorem Decided.next_tryFinalize {c : BFTConsensus ℚ} (hc : c.Decided) (proposalHash : Bytes)
    (time : ℚ) : (c.next (.tryFinalize proposalHash time)).Decided := by
  rcases c.tryFinalize_cases proposalHash time with ⟨r, h, -⟩ | ⟨proposal, b, -, -, -, h⟩
  · rwa [next, h]
  · rw [next, h]
    exact hc

/-- One second later the recorded block is replaced by one with another hash. -/
theorem finality_lost : proposerNode.Reachable ∧ ∃ b b',
    (proposerNode.after [.tryFinalize roundHash 1]).finalizedBlocks.get? 0 = some b ∧
    (proposerNode.after [.tryFinalize roundHash 1, .tryFinalize roundHash 2]).finalizedBlocks.get? 0
      = some b' ∧
    b'.blockHash ≠ b.blockHash := by
  have hdecided := proposerNode_decided.1
  have hreachable := reachable_proposerNode
  obtain ⟨b, hb, hhash, -⟩ := hdecided.exists_block hreachable milliseconds_one
  have hdecided' := hdecided.next_tryFinalize roundHash 1
  have hreachable' := hreachable.next (.tryFinalize roundHash 1)
  obtain ⟨b', hb', hhash', -⟩ := hdecided'.exists_block hreachable' milliseconds_two
  refine ⟨hreachable, b, b', ?_, ?_, ?_⟩
  · rw [after, List.foldl_cons, List.foldl_nil, (hreachable.repeats hb).2.1, hdecided.1.1]
    exact OrderedDict.get?_set_self ..
  · rw [after, List.foldl_cons, List.foldl_cons, List.foldl_nil, (hreachable'.repeats hb').2.1,
      hdecided'.1.1]
    exact OrderedDict.get?_set_self ..
  · rw [hhash, hhash']
    exact blockHash_one_second_apart.symm

end BFTConsensus

end Qrtb
