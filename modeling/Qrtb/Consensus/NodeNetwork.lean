import Qrtb.Consensus.CommitmentWire
import Qrtb.Consensus.NodeCalls
import Qrtb.Consensus.Support
import Qrtb.Lib.Board

/-!
# A network of nodes (`src/node.py`)

Every node makes its proposals over empty roots, which are sent as zeros, so the others file a
proposal and vote for it under another hash than its maker. Only the maker broadcasts a
pre-commit, for the hash it has itself; the pre-commits of the others stay in their outboxes.
So nobody ever has the proposal and the pre-commit of somebody else under one hash, and what
a node finalizes rests on its own stake.
-/

namespace Qrtb

open Keccak PyFloat Transition

theorem BFTConsensus.exists_of_mem_finalized {F : Type} [PyFloat F] {c : BFTConsensus F}
    {op : Operation F} {b : ConsensusBlock F} (hb : b ∈ c.finalized op) :
    ∃ hash p time blockHash, (c.checkPreCommitThreshold hash).1 = true ∧
      c.receivedProposals.get? hash = some p ∧
      b = { c.blockOver hash p time with blockHash := blockHash } := by
  cases op with
  | tryFinalize hash time =>
    simp only [finalized] at hb
    split at hb
    next block hblock =>
      obtain rfl := List.mem_singleton.mp hb
      obtain ⟨p, hthreshold, hfile, hpost⟩ := tryFinalize_eq_ok_some hblock
      obtain ⟨data, -, rfl⟩ := (ConsensusBlock.postInit_eq_ok _).mp hpost
      exact ⟨hash, p, time, sha3_256 data, hthreshold, hfile, rfl⟩
    next => cases hb
  | _ => cases hb

namespace Node

variable {F : Type}

/-- A proposal as the node makes them. -/
structure MadeBy (v : Bytes) (p : ConsensusProposal F) : Prop where
  proposerId : p.proposerId = v
  measurementRoot : p.measurementRoot.length = 32
  transactionRoot : p.transactionRoot = []
  stateRoot : p.stateRoot = []

/-- What has been broadcast, each message with its sender. -/
abbrev Posts := Set (Bytes × (MessageType × Bytes))

variable {B B' : Posts} {v w : Bytes}

/-- A node of the network has broadcast a proposal of its own. -/
structure Posted (B : Posts) (v : Bytes) (p : ConsensusProposal F) : Prop where
  width : v.length = 32
  made : MadeBy v p
  sent : ∃ payload, serializeProposal p = .ok payload ∧ (v, .proposal, payload) ∈ B

/-- The hash is that of a proposal the node has broadcast. -/
def Announced (F : Type) (B : Posts) (v hash : Bytes) : Prop :=
  ∃ p : ConsensusProposal F, Posted B v p ∧ p.proposalHash = .ok hash

/-- A proposal that a node can have on file: its own, or one that came over the wire. -/
def Filed (B : Posts) (v : Bytes) (p : ConsensusProposal F) : Prop :=
  MadeBy v p ∨ ∃ w q, Posted B w q ∧ p = received q

/-- The bytes under the hash of a proposal collide with those of a broadcast one. -/
def Clash (B : Posts) (p : ConsensusProposal F) : Prop :=
  ∃ (w : Bytes) (q : ConsensusProposal F) (m n : Bytes), Posted B w q ∧
    p.hashedBytes = .ok m ∧ q.hashedBytes = .ok n ∧ Collision m n

theorem Posted.mono {p : ConsensusProposal F} (h : Posted B v p) (hB : B ⊆ B') :
    Posted B' v p := by
  obtain ⟨payload, hpayload, hmem⟩ := h.sent
  exact ⟨h.width, h.made, payload, hpayload, hB hmem⟩

theorem Announced.mono {hash : Bytes} (h : Announced F B v hash) (hB : B ⊆ B') :
    Announced F B' v hash := by
  obtain ⟨p, hp, hhash⟩ := h
  exact ⟨p, hp.mono hB, hhash⟩

theorem Filed.mono {p : ConsensusProposal F} (h : Filed B v p) (hB : B ⊆ B') : Filed B' v p := by
  rcases h with h | ⟨w, q, hq, rfl⟩
  · exact Or.inl h
  · exact Or.inr ⟨w, q, hq.mono hB, rfl⟩

theorem Clash.mono {p : ConsensusProposal F} (h : Clash B p) (hB : B ⊆ B') : Clash B' p := by
  obtain ⟨w, q, m, n, hq, hrest⟩ := h
  exact ⟨w, q, m, n, hq.mono hB, hrest⟩

theorem MadeBy.fixedWidth {p : ConsensusProposal F} (h : MadeBy v p) (hv : v.length = 32) :
    FixedWidth p :=
  ⟨h.proposerId ▸ hv, h.measurementRoot, Or.inl h.transactionRoot, Or.inl h.stateRoot⟩

/-- What is broadcast as the same bytes is hashed over the same bytes. -/
theorem MadeBy.not_clash {p : ConsensusProposal F} (hp : MadeBy v p) (hv : v.length = 32)
    (hsent : ∀ w payload, (w, .proposal, payload) ∈ B → serializeProposal p = .ok payload) :
    ¬ Clash B p := by
  rintro ⟨w, q, m, n, hq, hm, hn, hne, -⟩
  obtain ⟨payload, hpayload, hmem⟩ := hq.sent
  have hread : received p = received q := Option.some.inj
    ((deserializeProposal_of_serializeProposal (hp.fixedWidth hv) (hsent w payload hmem)).symm.trans
      (deserializeProposal_of_serializeProposal (hq.made.fixedWidth hq.width) hpayload))
  have hsame : p.hashedBytes = q.hashedBytes := by
    simp only [received, ConsensusProposal.mk.injEq] at hread
    obtain ⟨hid, hepoch, hround, hroot, -⟩ := hread
    rw [ConsensusProposal.hashedBytes, ConsensusProposal.hashedBytes, hid, hepoch, hround, hroot,
      hp.transactionRoot, hp.stateRoot, hq.made.transactionRoot, hq.made.stateRoot]
  exact hne (Except.ok.inj (hm.symm.trans (hsame.trans hn)))

theorem MadeBy.length_hashedBytes {p : ConsensusProposal F} (h : MadeBy v p)
    (hv : v.length = 32) {m : Bytes} (hm : p.hashedBytes = .ok m) : m.length = 80 := by
  obtain ⟨-, rfl⟩ := p.hashedBytes_eq_ok.mp hm
  simp [h.proposerId, hv, h.measurementRoot, h.transactionRoot, h.stateRoot]

theorem Posted.length_hashedBytes_received {p : ConsensusProposal F} (h : Posted B v p)
    {m : Bytes} (hm : (received p).hashedBytes = .ok m) : m.length = 144 := by
  obtain ⟨-, rfl⟩ := (received p).hashedBytes_eq_ok.mp hm
  have hid : p.proposerId.length = 32 := h.made.proposerId ▸ h.width
  simp [received, hid, h.made.measurementRoot, h.made.transactionRoot, h.made.stateRoot,
    rootOrZeros]

/-- A proposal on file and one that another node has broadcast are hashed over different bytes:
two own ones begin with different ids, and what came over the wire is longer. -/
theorem Filed.hashedBytes_ne {p q : ConsensusProposal F} (hv : v.length = 32) (hp : Filed B v p)
    (hq : Posted B w q) (hne : w ≠ v) {m n : Bytes} (hm : p.hashedBytes = .ok m)
    (hn : q.hashedBytes = .ok n) : m ≠ n := by
  rintro rfl
  rcases hp with hown | ⟨u, r, hr, rfl⟩
  · obtain ⟨-, hm'⟩ := p.hashedBytes_eq_ok.mp hm
    obtain ⟨-, hn'⟩ := q.hashedBytes_eq_ok.mp hn
    rw [hown.proposerId] at hm'
    rw [hq.made.proposerId] at hn'
    exact hne (List.append_inj (hn'.symm.trans hm') (hq.width.trans hv.symm)).1
  · have hlong := hr.length_hashedBytes_received hm
    have hshort := hq.made.length_hashedBytes hq.width hn
    omega

/-- What the engine of a node holds: its own registered stake, proposals of its own or from the
wire, and pre-commits of its own or for the hash of a proposal that their voter has broadcast. -/
structure Holds (B : Posts) (v : Bytes) (stake : ℤ) (c : BFTConsensus F) : Prop where
  id : c.validatorId = v
  registered : c.validators.get? v = some stake
  nonneg : ∀ w s, c.validators.get? w = some s → 0 ≤ s
  inv : c.Inv
  filed : ∀ hash p, c.receivedProposals.get? hash = some p → Filed B v p
  preVotes : ∀ hash, ∀ vote ∈ c.preVotes.getD hash [], vote.voteType = .preVote
  preCommits : ∀ hash, ∀ vote ∈ c.preCommits.getD hash [],
    vote.voterId = v ∨ Announced F B vote.voterId hash

variable {stake : ℤ} {c : BFTConsensus F}

theorem Holds.mono (h : Holds B v stake c) (hB : B ⊆ B') : Holds B' v stake c where
  id := h.id
  registered := h.registered
  nonneg := h.nonneg
  inv := h.inv
  filed hash p hp := (h.filed hash p hp).mono hB
  preVotes := h.preVotes
  preCommits hash vote hvote := (h.preCommits hash vote hvote).imp_right fun ha => ha.mono hB

/-- The calls that come with such proposals and pre-commits only. -/
def Fits (B : Posts) (v : Bytes) : BFTConsensus.Operation F → Prop
  | .registerValidator w stake => w ≠ v ∧ 0 ≤ stake
  | .createProposal _ transactionRoot stateRoot _ => transactionRoot = [] ∧ stateRoot = []
  | .receiveProposal p => Filed B v p
  | .receivePreCommit vote => Announced F B vote.voterId vote.proposalHash
  | _ => True

theorem Holds.addPreVote (h : Holds B v stake c) (vote : ConsensusVote)
    (htype : vote.voteType = .preVote) :
    ∀ hash, ∀ u ∈ (c.preVotes.add vote).getD hash [], u.voteType = .preVote := by
  intro hash u hu
  rcases VoteTable.mem_getD_add.mp hu with hold | ⟨-, rfl⟩
  · exact h.preVotes hash u hold
  · exact htype

theorem Holds.addPreCommit (h : Holds B v stake c) (vote : ConsensusVote)
    (hvote : vote.voterId = v ∨ Announced F B vote.voterId vote.proposalHash) :
    ∀ hash, ∀ u ∈ (c.preCommits.add vote).getD hash [],
      u.voterId = v ∨ Announced F B u.voterId hash := by
  intro hash u hu
  rcases VoteTable.mem_getD_add.mp hu with hold | ⟨rfl, rfl⟩
  · exact h.preCommits hash u hold
  · exact hvote

variable [PyFloat F]

theorem madeBy_of_createProposal {measurements : MeasurementGraph F} {time : F}
    {p : ConsensusProposal F} (hid : c.validatorId = v)
    (h : (c.createProposal measurements [] [] time).1 = .ok p) : MadeBy v p := by
  obtain ⟨root, -, hroot, rfl, -⟩ := BFTConsensus.createProposal_eq_ok.mp h
  exact ⟨hid, BFTConsensus.length_measurementRoot hroot, rfl, rfl⟩

theorem Holds.next (h : Holds B v stake c) {op : BFTConsensus.Operation F} (hop : Fits B v op) :
    Holds B v stake (c.next op) := by
  have hinv := h.inv.next op
  cases op with
  | registerValidator w s =>
    refine ⟨h.id, ?_, ?_, hinv, h.filed, h.preVotes, h.preCommits⟩
    · change (c.validators.set w s).get? v = some stake
      rw [OrderedDict.get?_set_of_ne _ hop.1.symm]
      exact h.registered
    · exact OrderedDict.forall_get?_set hop.2 h.nonneg
  | startRound epoch roundNum =>
    exact ⟨h.id, h.registered, h.nonneg, hinv, fun _ _ hp => (by cases hp),
      fun _ _ hvote => (by cases hvote), fun _ _ hvote => (by cases hvote)⟩
  | createProposal measurements transactionRoot stateRoot time =>
    obtain ⟨rfl, rfl⟩ := hop
    rcases c.createProposal_cases measurements [] [] time with
      ⟨e, current, heq⟩ | ⟨root, hash, proposal, -, -, -, heq⟩
    · rw [BFTConsensus.next, heq] at hinv ⊢
      exact ⟨h.id, h.registered, h.nonneg, hinv, h.filed, h.preVotes, h.preCommits⟩
    · have hmade : MadeBy v proposal :=
        madeBy_of_createProposal h.id (congrArg Prod.fst heq)
      rw [BFTConsensus.next, heq] at hinv ⊢
      exact ⟨h.id, h.registered, h.nonneg, hinv,
        OrderedDict.forall_get?_set (Or.inl hmade) h.filed, h.preVotes, h.preCommits⟩
  | receiveProposal proposal =>
    rcases c.receiveProposal_cases proposal with ⟨e, heq⟩ | ⟨hash, -, -, heq⟩
    · rwa [BFTConsensus.next, heq]
    · rw [BFTConsensus.next, heq] at hinv ⊢
      exact ⟨h.id, h.registered, h.nonneg, hinv, OrderedDict.forall_get?_set hop h.filed,
        h.preVotes, h.preCommits⟩
  | createPreVote proposalHash time =>
    exact ⟨h.id, h.registered, h.nonneg, hinv, h.filed, h.addPreVote _ rfl, h.preCommits⟩
  | receivePreVote vote =>
    rcases c.receivePreVote_cases vote with ⟨e, heq⟩ | ⟨hadmits, heq⟩
    · rwa [BFTConsensus.next, heq]
    · rw [BFTConsensus.next, heq] at hinv ⊢
      exact ⟨h.id, h.registered, h.nonneg, hinv, h.filed, h.addPreVote _ hadmits.type,
        h.preCommits⟩
  | createPreCommit proposalHash time =>
    rcases c.createPreCommit_cases proposalHash time with ⟨-, heq⟩ | ⟨-, heq⟩
    · rwa [BFTConsensus.next, heq]
    · rw [BFTConsensus.next, heq] at hinv ⊢
      exact ⟨h.id, h.registered, h.nonneg, hinv, h.filed, h.preVotes,
        h.addPreCommit _ (Or.inl h.id)⟩
  | receivePreCommit vote =>
    rcases c.receivePreCommit_cases vote with ⟨e, heq⟩ | ⟨-, heq⟩
    · rwa [BFTConsensus.next, heq]
    · rw [BFTConsensus.next, heq] at hinv ⊢
      exact ⟨h.id, h.registered, h.nonneg, hinv, h.filed, h.preVotes,
        h.addPreCommit _ (Or.inr hop)⟩
  | tryFinalize proposalHash time =>
    rcases c.tryFinalize_cases proposalHash time with ⟨r, heq, -⟩ | ⟨p, b, -, -, -, heq⟩
    · rwa [BFTConsensus.next, heq]
    · rw [BFTConsensus.next, heq] at hinv ⊢
      exact ⟨h.id, h.registered, h.nonneg, hinv, h.filed, h.preVotes, h.preCommits⟩

omit [PyFloat F] in
/-- All the pre-commits of a block are of one validator, whose stake is enough. -/
structure Alone (v : Bytes) (stake : ℤ) (b : ConsensusBlock F) : Prop where
  votes : ∀ vote ∈ b.votes, vote.voteType = .preCommit → vote.voterId = v
  threshold : 67 * b.totalStake ≤ 100 * stake

/-- A block that the engine finalizes rests on its own pre-commits: one of somebody else is for the
hash of a proposal that is not the one on file. -/
theorem Holds.alone_or_clash (hexact : ThresholdExact F) (hv : v.length = 32)
    (h : Holds B v stake c) {op : BFTConsensus.Operation F} {b : ConsensusBlock F}
    (hb : b ∈ c.finalized op) : Alone v stake b ∨ Clash B b.proposal := by
  obtain ⟨hash, p, time, blockHash, hthreshold, hfile, rfl⟩ :=
    BFTConsensus.exists_of_mem_finalized hb
  by_cases hclash : Clash B p
  · exact Or.inr hclash
  · left
    have hvoters : ∀ vote ∈ c.preCommits.getD hash [], vote.voterId = v := by
      intro vote hvote
      rcases h.preCommits hash vote hvote with hown | ⟨q, hq, hqhash⟩
      · exact hown
      · by_contra hne
        obtain ⟨m, hm, hsame⟩ := p.proposalHash_eq_ok.mp (h.inv.filed hash p hfile)
        obtain ⟨n, hn, hsame'⟩ := q.proposalHash_eq_ok.mp hqhash
        exact hclash ⟨vote.voterId, q, m, n, hq, hm, hn,
          (h.filed hash p hfile).hashedBytes_ne hv hq hne hm hn, hsame.symm.trans hsame'⟩
    constructor
    · intro vote hvote htype
      rcases List.mem_append.mp hvote with hpre | hcommit
      · rw [h.preVotes hash vote hpre] at htype
        cases htype
      · exact hvoters vote hcommit
    · have hmet := BFTConsensus.threshold_le_of_met hexact (BFTConsensus.getD_nonneg h.nonneg)
        hthreshold
      have hsub : ((c.preCommits.getD hash []).map ConsensusVote.voterId).toFinset ⊆ {v} := by
        intro w hw
        obtain ⟨vote, hvote, rfl⟩ := VoteTable.mem_voters.mp hw
        exact Finset.mem_singleton.mpr (hvoters vote hvote)
      have hle : c.registeredStake ((c.preCommits.getD hash []).map
          ConsensusVote.voterId).toFinset ≤ c.registeredStake {v} :=
        Finset.sum_le_sum_of_subset_of_nonneg hsub
          fun w _ _ => BFTConsensus.getD_nonneg h.nonneg w
      have hown : c.registeredStake {v} = stake := by
        rw [BFTConsensus.registeredStake, Finset.sum_singleton, OrderedDict.getD, h.registered,
          Option.getD_some]
      change 67 * c.totalStake ≤ 100 * stake
      omega

/-- What holds of a node, given what all nodes have broadcast. -/
structure Sound (B : Posts) (v : Bytes) (stake : ℤ) (n : Node F) : Prop where
  engine : Holds B v stake n.engine
  blocks : ∀ b ∈ n.validator.blocksFinalized, Alone v stake b ∨ Clash B b.proposal
  task : ∀ p, n.epochTask.current = some p → Posted B v p
  proposals : ∀ payload, (.proposal, payload) ∈ n.broadcasts →
    ∃ p : ConsensusProposal F, MadeBy v p ∧ serializeProposal p = .ok payload
  preCommits : ∀ payload, (.preCommit, payload) ∈ n.broadcasts →
    ∃ vote, VoteWidths vote ∧ vote.voterId = v ∧ Announced F B v vote.proposalHash ∧
      vote.voteType = .preCommit ∧ serializeVote vote = .ok payload

variable {n n' : Node F}

omit [PyFloat F] in
theorem Sound.mono (h : Sound B v stake n) (hB : B ⊆ B') : Sound B' v stake n where
  engine := h.engine.mono hB
  blocks b hb := (h.blocks b hb).imp_right fun hc => hc.mono hB
  task p hp := (h.task p hp).mono hB
  proposals := h.proposals
  preCommits payload hmem := by
    obtain ⟨vote, hwidths, hid, hannounced, hrest⟩ := h.preCommits payload hmem
    exact ⟨vote, hwidths, hid, hannounced.mono hB, hrest⟩

theorem Sound.calls (hexact : ThresholdExact F) (hv : v.length = 32) (h : Sound B v stake n)
    {ops : List (BFTConsensus.Operation F)} (hops : ∀ op ∈ ops, Fits B v op)
    (hcalls : Calls n ops n') : Holds B v stake n'.engine ∧
      ∀ b ∈ n'.validator.blocksFinalized, Alone v stake b ∨ Clash B b.proposal := by
  have hfold : ∀ (ops : List (BFTConsensus.Operation F))
      (s : BFTConsensus F × List (ConsensusBlock F)), (∀ op ∈ ops, Fits B v op) →
      (Holds B v stake s.1 ∧ ∀ b ∈ s.2, Alone v stake b ∨ Clash B b.proposal) →
        Holds B v stake (ops.foldl call s).1 ∧
          ∀ b ∈ (ops.foldl call s).2, Alone v stake b ∨ Clash B b.proposal := by
    intro ops
    induction ops with
    | nil => exact fun _ _ hs => hs
    | cons op ops ih =>
      intro s hops hs
      refine ih (call s op) (fun op' hop' => hops op' (List.mem_cons_of_mem _ hop')) ⟨?_, ?_⟩
      · exact hs.1.next (hops op List.mem_cons_self)
      · intro b hb
        rcases List.mem_append.mp hb with hold | hnew
        · exact hs.2 b hold
        · exact hs.1.alone_or_clash hexact hv hnew
  have hend := hfold ops n.outcome hops ⟨h.engine, h.blocks⟩
  rw [← hcalls] at hend
  exact hend

/-- A message of a step was broadcast; the peers of a step are others, with the stake they told. -/
def Event.reads : Event F → Option (MessageType × Bytes)
  | .message type payload _ _ => some (type, payload)
  | _ => none

def Event.Allowed (v : Bytes) : Event F → Prop
  | .start peers => ∀ p ∈ peers, p.1 ≠ v ∧ 0 ≤ p.2
  | .startEpoch _ peers => ∀ p ∈ peers, p.1 ≠ v ∧ 0 ≤ p.2
  | _ => True

def rules (F : Type) [PyFloat F] : Board.Rules Bytes (Node F) (Event F) (MessageType × Bytes) where
  step := step
  written := broadcasts
  reads := Event.reads
  allowed := Event.Allowed

omit [PyFloat F] in
/-- The calls of a step fit when what it reads was broadcast by a sound node. -/
theorem fits_of_leadsTo {e : Event F} (hallowed : e.Allowed v)
    (hread : ∀ m, e.reads = some m → ∃ w s, ∃ t : Node F, w.length = 32 ∧ (w, m) ∈ B ∧
      Sound B w s t ∧ m ∈ t.broadcasts) {op : BFTConsensus.Operation F} (hop : e.LeadsTo op) :
    Fits B v op := by
  cases op with
  | registerValidator w s =>
    obtain ⟨peers, hmem, rfl | ⟨epoch, rfl⟩⟩ := hop
    · exact hallowed _ hmem
    · exact hallowed _ hmem
  | createProposal measurements transactionRoot stateRoot time => exact hop
  | receiveProposal proposal =>
    obtain ⟨payload, time, time', rfl, hproposal⟩ := hop
    obtain ⟨w, s, t, hw, hposted, ht, hmem⟩ := hread _ rfl
    obtain ⟨q, hmade, hq⟩ := ht.proposals payload hmem
    have hreceived := deserializeProposal_of_serializeProposal (hmade.fixedWidth hw) hq
    exact Or.inr ⟨w, q, ⟨hw, hmade, payload, hq, hposted⟩,
      Option.some.inj (hproposal.symm.trans hreceived)⟩
  | receivePreCommit vote =>
    obtain ⟨payload, time, time', rfl, hvote⟩ := hop
    obtain ⟨w, s, t, hw, hposted, ht, hmem⟩ := hread _ rfl
    obtain ⟨sent, hwidths, rfl, hannounced, htype, hsent⟩ := ht.preCommits payload hmem
    have hreceived := deserializeVote_of_serializeVote hwidths hsent
    rw [htype] at hreceived
    obtain rfl := Option.some.inj (hvote.symm.trans hreceived)
    exact hannounced
  | _ => exact trivial

theorem Sound.step (hexact : ThresholdExact F) (hv : v.length = 32) (h : Sound B v stake n)
    {e : Event F} (hallowed : e.Allowed v)
    (hread : ∀ m, e.reads = some m → ∃ w s, ∃ t : Node F, w.length = 32 ∧ (w, m) ∈ B ∧
      Sound B w s t ∧ m ∈ t.broadcasts) (hB : B ⊆ B')
    (hposts : ∀ m ∈ (Node.step e n).broadcasts, (v, m) ∈ B') :
    Sound B' v stake (Node.step e n) := by
  obtain ⟨ops, hops, hcalls⟩ := explains_step e n
  obtain ⟨hengine, hblocks⟩ := h.calls hexact hv
    (fun op hop => fits_of_leadsTo hallowed hread (hops op hop)) hcalls
  have h' := h.mono hB
  have hmoves := moves_step e n
  refine ⟨hengine.mono hB, fun b hb => (hblocks b hb).imp_right fun hc => hc.mono hB, ?_, ?_, ?_⟩
  · intro p hp
    rcases hmoves.task_cases hp with hp | ⟨measurements, time, payload, hmade, hsent, hmem⟩
    · exact h'.task p hp
    · exact ⟨hv, madeBy_of_createProposal h.engine.id hmade, payload, hsent, hposts _ hmem⟩
  · intro payload hmem
    rcases hmoves.proposal_cases hmem with hmem | ⟨measurements, time, proposal, hmade, hsent⟩
    · exact h'.proposals payload hmem
    · exact ⟨proposal, madeBy_of_createProposal h.engine.id hmade, hsent⟩
  · intro payload hmem
    rcases hmoves.preCommit_cases hmem with hmem | ⟨proposal, hash, time, hown, hnamed, hsent⟩
    · exact h'.preCommits payload hmem
    · have hid : (n.engine.ownVote .preCommit hash time).voterId = v := h.engine.id
      exact ⟨n.engine.ownVote .preCommit hash time,
        ⟨hid ▸ hv, proposal.length_proposalHash hnamed, rfl⟩, hid,
        ⟨proposal, h'.task proposal hown, hnamed⟩, rfl, hsent⟩

theorem keeps_sound (hexact : ThresholdExact F) (members : Finset Bytes)
    (hwidth : ∀ v ∈ members, v.length = 32) (stakes : Bytes → ℤ) :
    Board.Keeps (rules F) members fun B v n => Sound B v (stakes v) n where
  grows e n := (moves_step e n).subset
  mono hB h := h.mono hB
  step hv h hallowed hread hB hposts := by
    refine h.step hexact (hwidth _ hv) hallowed (fun m hm => ?_) hB hposts
    obtain ⟨w, t, hw, hposted, ht, hmem⟩ := hread m hm
    exact ⟨w, stakes w, t, hwidth w hw, hposted, ht, hmem⟩

omit [PyFloat F] in
theorem sound_new (B : Posts) (v : Bytes) {stake : ℤ} (hstake : 0 ≤ stake) :
    Sound B v stake (Node.new v stake : Node F) where
  engine :=
    { id := rfl
      registered := by
        change (OrderedDict.set ∅ v stake).get? v = some stake
        exact OrderedDict.get?_set_self _ _ _
      nonneg := OrderedDict.forall_get?_set hstake fun _ _ h => by cases h
      inv := BFTConsensus.inv_init v stake
      filed := fun _ _ h => by cases h
      preVotes := fun _ _ h => by cases h
      preCommits := fun _ _ h => by cases h }
  blocks _ h := by cases h
  task _ h := by cases h
  proposals _ h := by cases h
  preCommits _ h := by cases h

/-- In a network of nodes every block that a node finalizes rests on its own pre-commits and its own
stake, which is at least 67/100 of all the stake it has registered; unless two different proposals
of the run have one hash. -/
theorem finalized_alone (hexact : ThresholdExact F) (members : Finset Bytes)
    (hwidth : ∀ v ∈ members, v.length = 32) (stakes : Bytes → ℤ)
    (hstakes : ∀ v ∈ members, 0 ≤ stakes v) {labels : List (Bytes × Event F)}
    {N : Bytes → Node F}
    (hrun : Run (Board.Step (rules F) members) (fun v => Node.new v (stakes v)) labels N)
    {v : Bytes} (hv : v ∈ members) {b : ConsensusBlock F}
    (hb : b ∈ (N v).validator.blocksFinalized) :
    ((∀ vote ∈ b.votes, vote.voteType = .preCommit → vote.voterId = v) ∧
      67 * b.totalStake ≤ 100 * stakes v) ∨
    Clash (Board.board (rules F) members N) b.proposal := by
  have hsound := (keeps_sound hexact members hwidth stakes).of_run hrun
    (fun w hw => sound_new _ w (hstakes w hw)) v hv
  exact (hsound.blocks b hb).imp_left fun h => ⟨h.votes, h.threshold⟩

/-- A message that a node has broadcast, as another one gets it. -/
def heard (n : Node ℚ) (i : ℕ) : Event ℚ :=
  match n.broadcasts[i]? with
  | some m => .message m.1 m.2 0 0
  | none => .resumeEpoch ∅ 0

/-- A proposal of the greater of two nodes, the pre-vote of the other for what it has heard, the
end of the epoch of the first, and its two votes at the other. -/
def proposer : Node ℚ := runs step [.startEpoch 0 [(peerId, 30)], .resumeEpoch ∅ 0] (new ownId 70)

def voter : Node ℚ := runs step [.startEpoch 0 [(ownId, 70)], heard proposer 0] (new peerId 30)

def finalizer : Node ℚ :=
  runs step [heard voter 0, .resumeEpoch ∅ 0, .resumeEpoch ∅ 0, .resumeEpoch ∅ 0] proposer

def follower : Node ℚ := runs step [heard finalizer 1, heard finalizer 2] voter

def pairOf (own peer : Node ℚ) (v : Bytes) : Node ℚ :=
  if v = ownId then own else if v = peerId then peer else new v 30

theorem peerId_ne_ownId : peerId ≠ ownId := by decide

theorem update_pairOf_own (own peer n : Node ℚ) :
    Function.update (pairOf own peer) ownId n = pairOf n peer := by
  funext v
  by_cases hv : v = ownId
  · rw [hv, Function.update_self, pairOf, if_pos rfl]
  · rw [Function.update_of_ne hv, pairOf, pairOf, if_neg hv, if_neg hv]

theorem update_pairOf_peer (own peer n : Node ℚ) :
    Function.update (pairOf own peer) peerId n = pairOf own n := by
  funext v
  by_cases hv : v = peerId
  · rw [hv, Function.update_self, pairOf, if_neg peerId_ne_ownId, if_pos rfl]
  · rw [Function.update_of_ne hv, pairOf, pairOf, if_neg hv, if_neg hv]

/-- What a node can do when it hears one other node. -/
def Hears (n : Node ℚ) (v : Bytes) (e : Event ℚ) : Prop :=
  e.Allowed v ∧ ∀ m, e.reads = some m → m ∈ n.broadcasts

theorem hears_heard (n : Node ℚ) (v : Bytes) (i : ℕ) : Hears n v (heard n i) := by
  rw [heard]
  split
  next m hm =>
    refine ⟨trivial, fun m' hm' => ?_⟩
    obtain rfl := Option.some.inj hm'
    exact List.mem_of_getElem? hm
  next => exact ⟨trivial, fun _ hm => by cases hm⟩

theorem hears_resumeEpoch (n : Node ℚ) (v : Bytes) : Hears n v (.resumeEpoch ∅ 0) :=
  ⟨trivial, fun _ hm => by cases hm⟩

theorem hears_startEpoch (n : Node ℚ) {v w : Bytes} (hw : w ≠ v) {stake : ℤ} (hstake : 0 ≤ stake) :
    Hears n v (.startEpoch 0 [(w, stake)]) :=
  ⟨List.forall_mem_singleton.mpr ⟨hw, hstake⟩, fun _ hm => by cases hm⟩

theorem run_own {own peer : Node ℚ} {es : List (Event ℚ)}
    (h : ∀ e ∈ es, Hears peer ownId e) :
    Run (Board.Step (rules ℚ) {ownId, peerId}) (pairOf own peer) (es.map fun e => (ownId, e))
      (pairOf (runs step es own) peer) := by
  have hrun := @Board.run_hearing _ _ _ _ _ (rules ℚ) {ownId, peerId} ownId
    (Finset.mem_insert_self _ _) (pairOf own peer) es fun e he => ⟨(h e he).1, fun m hm =>
      ⟨peerId, peerId_ne_ownId, by simp, (h e he).2 m hm⟩⟩
  rwa [update_pairOf_own] at hrun

theorem run_peer {own peer : Node ℚ} {es : List (Event ℚ)}
    (h : ∀ e ∈ es, Hears own peerId e) :
    Run (Board.Step (rules ℚ) {ownId, peerId}) (pairOf own peer) (es.map fun e => (peerId, e))
      (pairOf own (runs step es peer)) := by
  have hrun := @Board.run_hearing _ _ _ _ _ (rules ℚ) {ownId, peerId} peerId
    (by simp) (pairOf own peer) es fun e he => ⟨(h e he).1, fun m hm =>
      ⟨ownId, peerId_ne_ownId.symm, by simp, (h e he).2 m hm⟩⟩
  rwa [update_pairOf_peer] at hrun

theorem run_exchange : ∃ labels, Run (Board.Step (rules ℚ) {ownId, peerId})
    (pairOf (new ownId 70) (new peerId 30)) labels (pairOf finalizer follower) := by
  have hproposes := @run_own (new ownId 70) (new peerId 30)
    [.startEpoch 0 [(peerId, 30)], .resumeEpoch ∅ 0] (by
      simp [hears_startEpoch, hears_resumeEpoch, peerId_ne_ownId])
  have hvotes := @run_peer proposer (new peerId 30)
    [.startEpoch 0 [(ownId, 70)], heard proposer 0] (by
      simp [hears_startEpoch, hears_heard, peerId_ne_ownId.symm])
  have hfinalizes := @run_own proposer voter
    [heard voter 0, .resumeEpoch ∅ 0, .resumeEpoch ∅ 0, .resumeEpoch ∅ 0] (by
      simp [hears_heard, hears_resumeEpoch])
  have hfollows := @run_peer finalizer voter [heard finalizer 1, heard finalizer 2] (by
    simp [hears_heard])
  exact ⟨_, ((hproposes.append hvotes).append hfinalizes).append hfollows⟩

theorem madeBy_finalized : ∀ b ∈ finalizer.validator.blocksFinalized, MadeBy ownId b.proposal := by
  have hfields : ∀ b ∈ finalizer.validator.blocksFinalized, b.proposal.proposerId = ownId ∧
      b.proposal.measurementRoot.length = 32 ∧ b.proposal.transactionRoot = [] ∧
      b.proposal.stateRoot = [] := by
    decide +kernel
  intro b hb
  obtain ⟨hid, hroot, htx, hst⟩ := hfields b hb
  exact ⟨hid, hroot, htx, hst⟩

/-- There is one proposal among the broadcasts, the one of the finalized block. -/
theorem sent_finalized : ∀ b ∈ finalizer.validator.blocksFinalized,
    ∀ m ∈ finalizer.broadcasts ++ follower.broadcasts, m.1 = .proposal →
      serializeProposal b.proposal = .ok m.2 := by
  decide +kernel

/-- Each has recorded a vote of the other, and the block of the first counts its own alone. -/
theorem finalized_alone_pair :
    (∃ votes ∈ finalizer.engine.preVotes.values, ∃ vote ∈ votes, vote.voterId = peerId) ∧
    (∃ votes ∈ follower.engine.preCommits.values, ∃ vote ∈ votes, vote.voterId = ownId) ∧
    ∃ b ∈ finalizer.validator.blocksFinalized,
      (∀ vote ∈ b.votes, vote.voteType = .preCommit → vote.voterId = ownId) ∧
        67 * b.totalStake ≤ 100 * 70 := by
  have hwidth : ∀ v ∈ ({ownId, peerId} : Finset Bytes), v.length = 32 := by
    simp [ownId, peerId]
  have hstart : (fun v => new v (if v = ownId then 70 else 30)) =
      pairOf (new ownId 70) (new peerId 30) := by
    funext v
    rw [pairOf]
    split_ifs with hown hpeer
    · rw [hown]
    · rw [hpeer]
    · rfl
  have hone : finalizer.validator.blocksFinalized.length = 1 := by decide +kernel
  obtain ⟨b, hb⟩ := List.exists_mem_of_length_pos (hone.symm ▸ Nat.one_pos)
  have hnone : ¬ Clash (Board.board (rules ℚ) {ownId, peerId} (pairOf finalizer follower))
      b.proposal := by
    refine (madeBy_finalized b hb).not_clash (by simp [ownId]) ?_
    rintro w payload ⟨hw, hsent⟩
    refine sent_finalized b hb (.proposal, payload) (List.mem_append.mpr ?_) rfl
    rcases List.mem_pair.mp (by simpa using hw) with rfl | rfl
    · exact Or.inl hsent
    · exact Or.inr hsent
  refine ⟨by decide +kernel, by decide +kernel, b, hb, ?_⟩
  obtain ⟨labels, hrun⟩ := run_exchange
  rw [← hstart] at hrun
  have halone := finalized_alone thresholdExact_rat {ownId, peerId} hwidth _
    (fun v _ => by split_ifs <;> decide) hrun (by simp : ownId ∈ _) hb
  exact halone.resolve_right hnone

end Node

end Qrtb
