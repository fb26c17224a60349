import Qrtb.Consensus.Network

/-!
# Agreement of validator nodes

Honest nodes with one registry, and Byzantine validators of less than a third of
the stake who send what they like. What the nodes do is a run of their parties,
so they do not finalize different proposals in an epoch that each of them starts
once.
-/

namespace Qrtb

open Keccak PyFloat Transition

variable {F : Type} [PyFloat F]

namespace ValidatorNode

def parties (N : Bytes → ValidatorNode F) : Network F := fun h => (N h).party

variable (K : Committee) (epoch roundNum : ℤ)

/-- The node of an honest validator that has just started the round, with nothing cast or
finalized in the epoch before. -/
structure Started (h : Bytes) (n : ValidatorNode F) : Prop where
  start : ∃ c : BFTConsensus F, c.Reachable ∧ c.validatorId = h ∧
    (∀ v, c.validators.get? v = K.registry.get? v) ∧
    n.consensus = c.startRound epoch roundNum
  votes : ∀ vote ∈ n.votesCast, vote.epoch ≠ epoch
  blocks : ∀ block ∈ n.blocksFinalized, block.epoch ≠ epoch

/-- Any proposal may arrive, any vote in the name of a Byzantine voter and any repeated vote of an
honest one, at any time and in any order. Nodes may move on to other epochs. -/
def Delivers (N : Bytes → ValidatorNode F) : Event F → Prop
  | .start epoch' _ => epoch' ≠ epoch
  | .vote received _ => Network.Authentic K epoch (parties N) received
  | _ => True

def Step (N : Bytes → ValidatorNode F) (label : Bytes × Event F) (N' : Bytes → ValidatorNode F) :
    Prop :=
  label.1 ∈ K.honest ∧ Delivers K epoch N label.2 ∧
    N' = Function.update N label.1 ((N label.1).handle label.2)

variable {K epoch roundNum} {N N' : Bytes → ValidatorNode F}

omit [PyFloat F] in
theorem Delivers.permitted {event : Event F} (h : Delivers K epoch N event)
    {op : BFTConsensus.Operation F} (hallows : event.Allows op) :
    Network.Permitted K epoch (parties N) op := by
  cases op with
  | registerValidator => exact hallows
  | startRound epoch' roundNum =>
    obtain rfl : event = .start epoch' roundNum := hallows
    exact h
  | receivePreVote vote =>
    obtain ⟨time, rfl⟩ := hallows
    exact h
  | receivePreCommit vote =>
    obtain ⟨time, rfl⟩ := hallows
    exact h
  | createProposal | receiveProposal | createPreVote | createPreCommit | tryFinalize => trivial

theorem run_network {event : Event F} {p p' : Party F} {ops : List (BFTConsensus.Operation F)}
    (hrun : Run event.Step p ops p') {h : Bytes} (hh : h ∈ K.honest) {M : Network F}
    (hM : M h = p) (hop : ∀ op, event.Allows op → Network.Permitted K epoch M op) :
    Run (Network.Step K epoch) M (ops.map fun op => (h, op)) (Function.update M h p') := by
  induction hrun generalizing M with
  | nil p =>
    subst hM
    rw [Function.update_eq_self]
    exact .nil _
  | cons hstep _ ih =>
    obtain ⟨hallows, rfl⟩ := hstep
    subst hM
    have hfirst : Network.Step K epoch M (h, _) (Function.update M h ((M h).next _)) :=
      ⟨hh, hop _ hallows, rfl⟩
    have hrest := ih (Function.update_self ..) fun op' h' => hfirst.permitted (hop op' h')
    rw [Function.update_idem] at hrest
    exact .cons hfirst hrest

theorem Step.refines {label : Bytes × Event F} (hstep : Step K epoch N label N') :
    ∃ labels, Run (Network.Step K epoch) (parties N) labels (parties N') := by
  obtain ⟨hh, hdelivers, rfl⟩ := hstep
  obtain ⟨ops, hrun⟩ := (N label.1).party_handle label.2
  have hnetwork := run_network hrun hh (M := parties N) rfl fun op h => hdelivers.permitted h
  have hupdate : Function.update (parties N) label.1 ((N label.1).handle label.2).party =
      parties (Function.update N label.1 ((N label.1).handle label.2)) := by
    funext h
    by_cases hne : h = label.1
    · subst hne
      simp [parties]
    · simp [parties, Function.update_of_ne hne]
  rw [hupdate] at hnetwork
  exact ⟨_, hnetwork⟩

theorem Started.sound {h : Bytes} (hstart : Started K epoch roundNum h (N h)) :
    Network.Sound K epoch (parties N) h := by
  obtain ⟨c, hreachable, hid, hregistry, hc⟩ := hstart.start
  have hinv := (hreachable.next (.startRound epoch roundNum)).inv
  have hcommitted : ∀ hash, ¬ Network.Committed epoch (parties N) h hash := by
    rintro hash ⟨vote, hvote, -, hepoch, -⟩
    exact hstart.votes vote hvote hepoch
  have hengine : (parties N h).engine = c.startRound epoch roundNum := hc
  constructor
  · rw [hengine]
    exact hid
  · rw [hengine]
    exact hregistry
  · rw [hengine]
    exact hinv
  · rw [hengine]
    intro hash vote hvote
    cases hvote
  · intro _ hash hcommits
    exact absurd hcommits (hcommitted hash)
  · intro hash _ hcommits
    exact absurd hcommits (hcommitted hash)
  · rw [hengine]
    intro _ hash vote hvote
    cases hvote
  · intro block hblock hepoch
    exact absurd hepoch (hstart.blocks block hblock)

/-- No two honest nodes finalize different proposals in the epoch, in any run in which each has
started the round once. -/
theorem agreement (hexact : ThresholdExact F) (K : Committee) (epoch roundNum : ℤ)
    {N N' : Bytes → ValidatorNode F} {labels : List (Bytes × Event F)}
    (hstart : ∀ h ∈ K.honest, Started K epoch roundNum h (N h))
    (hrun : Run (Step K epoch) N labels N') {h₁ h₂ : Bytes} (hh₁ : h₁ ∈ K.honest)
    (hh₂ : h₂ ∈ K.honest) {b₁ b₂ : ConsensusBlock F} (hb₁ : b₁ ∈ (N' h₁).blocksFinalized)
    (hb₂ : b₂ ∈ (N' h₂).blocksFinalized) (he₁ : b₁.epoch = epoch) (he₂ : b₂.epoch = epoch) :
    ∃ hash, b₁.proposal.proposalHash = .ok hash ∧ b₂.proposal.proposalHash = .ok hash := by
  have hsound := hrun.invariant
    (I := fun N => ∀ h ∈ K.honest, Network.Sound K epoch (parties N) h)
    (fun N label N' hs hstep => by
      obtain ⟨labels, hnetwork⟩ := hstep.refines
      exact hnetwork.invariant (fun _ _ _ hs hst => Network.Sound.step hexact hst hs) hs)
    fun h hh => (hstart h hh).sound
  exact Network.agreement_of_sound hsound hh₁ hh₂ hb₁ hb₂ he₁ he₂

theorem Step.delivers {label : Bytes × Event F} (hstep : Step K epoch N label N') {event : Event F}
    (h : Delivers K epoch N event) : Delivers K epoch N' event := by
  cases event with
  | vote received time =>
    obtain ⟨labels, hrun⟩ := hstep.refines
    exact hrun.invariant (I := fun M => Network.Permitted K epoch M (.receivePreVote received))
      (fun _ _ _ hop hst => hst.permitted hop) h
  | _ => exact h

theorem run_handle {h : Bytes} (hh : h ∈ K.honest) (events : List (Event F))
    (hevents : ∀ event ∈ events, Delivers K epoch N event) :
    Run (Step K epoch) N (events.map fun event => (h, event))
      (Function.update N h (events.foldl handle (N h))) := by
  induction events generalizing N with
  | nil =>
    rw [List.foldl_nil, Function.update_eq_self]
    exact .nil _
  | cons event events ih =>
    obtain ⟨hfirst, hrest⟩ := List.forall_mem_cons.mp hevents
    have hstep : Step K epoch N (h, event) (Function.update N h ((N h).handle event)) :=
      ⟨hh, hfirst, rfl⟩
    have hrun := ih fun event' h' => hstep.delivers (hrest event' h')
    rw [Function.update_self, Function.update_idem] at hrun
    exact .cons hstep hrun

section Example

def nodeA : Bytes := List.replicate 32 1
def nodeB : Bytes := List.replicate 32 2
def nodeC : Bytes := List.replicate 32 3
def byzantineNode : Bytes := List.replicate 32 4

def exampleRegistry : OrderedDict Bytes ℤ :=
  (((OrderedDict.set ∅ nodeA 33).set nodeB 33).set nodeC 1).set byzantineNode 33

theorem exampleRegistry_nonneg (v : Bytes) : 0 ≤ exampleRegistry.getD v 0 := by
  simp only [OrderedDict.getD, exampleRegistry, OrderedDict.get?_set, OrderedDict.get?_empty]
  split_ifs <;> decide

def exampleCommittee : Committee where
  registry := exampleRegistry
  honest := {nodeA, nodeB, nodeC}
  nonneg := exampleRegistry_nonneg
  total_pos := by decide
  byzantine := by decide +kernel
  ownStake := by decide +kernel

/-- A new engine that has learned the registry, in round zero of epoch two. -/
def exampleEngine (me : Bytes) : BFTConsensus ℚ :=
  (((((BFTConsensus.init me (exampleRegistry.getD me 0)).registerValidator nodeA 33).registerValidator
    nodeB 33).registerValidator nodeC 1).registerValidator byzantineNode 33)

def exampleNode (me : Bytes) : ValidatorNode ℚ where
  consensus := (exampleEngine me).startRound 2 0

theorem started_exampleNode {me : Bytes} (hme : me ∈ exampleCommittee.honest) :
    Started exampleCommittee 2 0 me (exampleNode me) where
  start := by
    refine ⟨exampleEngine me, ?_, rfl, ?_, rfl⟩
    · exact ((((BFTConsensus.reachable_init me _).next (.registerValidator nodeA 33)).next
        (.registerValidator nodeB 33)).next (.registerValidator nodeC 1)).next
        (.registerValidator byzantineNode 33)
    · intro v
      simp only [exampleEngine, BFTConsensus.registerValidator, BFTConsensus.init,
        exampleCommittee, exampleRegistry, OrderedDict.get?_set, OrderedDict.get?_empty]
      simp only [exampleCommittee, Finset.mem_insert, Finset.mem_singleton] at hme
      split_ifs <;> simp_all
  votes := by simp [exampleNode]
  blocks := by simp [exampleNode]

def exampleProposal : ConsensusProposal ℚ where
  proposerId := byzantineNode
  epoch := 2
  round := 0
  measurementRoot := []

def exampleHash : Bytes :=
  sha3_256 (byzantineNode ++ (Bytes.bigEndian 8 2 ++ (Bytes.bigEndian 8 0 ++ [])))

def exampleVote (voter : Bytes) (voteType : VoteType) : ConsensusVote where
  voterId := voter
  epoch := 2
  round := 0
  proposalHash := exampleHash
  voteType := voteType
  stake := 33
  timestamp := 0

/-- The votes of one kind by the Byzantine validator and by the other node. -/
def exampleVotes (other : Bytes) (voteType : VoteType) : List (Event ℚ) :=
  [.vote (exampleVote byzantineNode voteType) 0, .vote (exampleVote other voteType) 0]

def votedNode (me : Bytes) : ValidatorNode ℚ := (exampleNode me).handle (.proposal exampleProposal 0)

def committedNode (me other : Bytes) : ValidatorNode ℚ :=
  (exampleVotes other .preVote).foldl handle (votedNode me)

def finalizedNode (me other : Bytes) : ValidatorNode ℚ :=
  (exampleVotes other .preCommit).foldl handle (committedNode me other)

theorem example_progress : ∀ pair ∈ [(nodeA, nodeB), (nodeB, nodeA)],
    (votedNode pair.1).votesCast = [exampleVote pair.1 .preVote] ∧
    (committedNode pair.1 pair.2).votesCast =
      [exampleVote pair.1 .preVote, exampleVote pair.1 .preCommit] ∧
    (finalizedNode pair.1 pair.2).votesCast =
      [exampleVote pair.1 .preVote, exampleVote pair.1 .preCommit] ∧
    ((finalizedNode pair.1 pair.2).blocksFinalized.map ConsensusBlock.epoch) = [2] := by
  decide +kernel

/-- The network with the given states of the first two nodes. -/
def exampleNetwork (a b : ValidatorNode ℚ) : Bytes → ValidatorNode ℚ :=
  Function.update (Function.update exampleNode nodeB b) nodeA a

theorem update_exampleNetwork (a b n : ValidatorNode ℚ) :
    Function.update (exampleNetwork a b) nodeA n = exampleNetwork n b ∧
      Function.update (exampleNetwork a b) nodeB n = exampleNetwork a n := by
  have hne : nodeA ≠ nodeB := by decide
  refine ⟨Function.update_idem .., ?_⟩
  rw [exampleNetwork, Function.update_comm hne, Function.update_idem]
  rfl

theorem exampleNetwork_apply (a b : ValidatorNode ℚ) :
    exampleNetwork a b nodeA = a ∧ exampleNetwork a b nodeB = b := by
  have hne : nodeB ≠ nodeA := by decide
  simp [exampleNetwork, Function.update_of_ne hne]

/-- Votes that the other node has cast can be delivered, and so can those of the Byzantine one. -/
theorem delivers_exampleVotes {N : Bytes → ValidatorNode ℚ} {other : Bytes} {voteType : VoteType}
    (hcast : exampleVote other voteType ∈ (N other).votesCast) :
    ∀ event ∈ exampleVotes other voteType, Delivers exampleCommittee 2 N event := by
  have hbyzantine : byzantineNode ∉ exampleCommittee.honest := by decide
  intro event hevent
  rcases List.mem_pair.mp hevent with rfl | rfl
  · intro hhonest
    exact absurd hhonest hbyzantine
  · intro _ _
    exact ⟨_, hcast, rfl, rfl, rfl⟩

/-- Each node handles its events in turn, the other one keeping its state. -/
theorem example_turnA (a b : ValidatorNode ℚ) (events : List (Event ℚ))
    (hevents : ∀ event ∈ events, Delivers exampleCommittee 2 (exampleNetwork a b) event) :
    Run (Step exampleCommittee 2) (exampleNetwork a b) (events.map fun event => (nodeA, event))
      (exampleNetwork (events.foldl handle a) b) := by
  have hrun := run_handle (h := nodeA) (by decide) events hevents
  rwa [(exampleNetwork_apply a b).1, (update_exampleNetwork a b _).1] at hrun

theorem example_turnB (a b : ValidatorNode ℚ) (events : List (Event ℚ))
    (hevents : ∀ event ∈ events, Delivers exampleCommittee 2 (exampleNetwork a b) event) :
    Run (Step exampleCommittee 2) (exampleNetwork a b) (events.map fun event => (nodeB, event))
      (exampleNetwork a (events.foldl handle b)) := by
  have hrun := run_handle (h := nodeB) (by decide) events hevents
  rwa [(exampleNetwork_apply a b).2, (update_exampleNetwork a b _).2] at hrun

theorem example_run : ∃ labels,
    Run (Step exampleCommittee 2) (exampleNetwork (exampleNode nodeA) (exampleNode nodeB)) labels
      (exampleNetwork (finalizedNode nodeA nodeB) (finalizedNode nodeB nodeA)) := by
  obtain ⟨-, commitA, finalA, -⟩ := example_progress (nodeA, nodeB) (by decide)
  obtain ⟨voteB, commitB, -, -⟩ := example_progress (nodeB, nodeA) (by decide)
  have hproposal : ∀ N : Bytes → ValidatorNode ℚ,
      ∀ event ∈ [Event.proposal exampleProposal 0], Delivers exampleCommittee 2 N event := by
    intro N event hevent
    obtain rfl := List.mem_singleton.mp hevent
    trivial
  have run₁ := (example_turnA _ (exampleNode nodeB) _ (hproposal _)).append
    (example_turnB (votedNode nodeA) _ _ (hproposal _))
  have run₂ := run₁.append (example_turnA _ (votedNode nodeB) (exampleVotes nodeB .preVote)
    (delivers_exampleVotes (by rw [(exampleNetwork_apply _ _).2, voteB]; simp)))
  have run₃ := run₂.append (example_turnB (committedNode nodeA nodeB) _
    (exampleVotes nodeA .preVote)
    (delivers_exampleVotes (by rw [(exampleNetwork_apply _ _).1, commitA]; simp)))
  have run₄ := run₃.append (example_turnA _ (committedNode nodeB nodeA)
    (exampleVotes nodeB .preCommit)
    (delivers_exampleVotes (by rw [(exampleNetwork_apply _ _).2, commitB]; simp)))
  exact ⟨_, run₄.append (example_turnB (finalizedNode nodeA nodeB) _
    (exampleVotes nodeA .preCommit)
    (delivers_exampleVotes (by rw [(exampleNetwork_apply _ _).1, finalA]; simp)))⟩

theorem agreement_two_nodes : ∃ (N' : Bytes → ValidatorNode ℚ) (labels : List (Bytes × Event ℚ))
    (b₁ b₂ : ConsensusBlock ℚ),
      Run (Step exampleCommittee 2) (exampleNetwork (exampleNode nodeA) (exampleNode nodeB)) labels
        N' ∧
      b₁ ∈ (N' nodeA).blocksFinalized ∧ b₂ ∈ (N' nodeB).blocksFinalized ∧
      ∃ hash, b₁.proposal.proposalHash = .ok hash ∧ b₂.proposal.proposalHash = .ok hash := by
  obtain ⟨labels, hrun⟩ := example_run
  obtain ⟨-, -, -, epochA⟩ := example_progress (nodeA, nodeB) (by decide)
  obtain ⟨-, -, -, epochB⟩ := example_progress (nodeB, nodeA) (by decide)
  obtain ⟨b₁, hb₁, he₁⟩ := List.mem_map.mp (epochA ▸ List.mem_singleton_self (2 : ℤ))
  obtain ⟨b₂, hb₂, he₂⟩ := List.mem_map.mp (epochB ▸ List.mem_singleton_self (2 : ℤ))
  rw [← (exampleNetwork_apply (finalizedNode nodeA nodeB) (finalizedNode nodeB nodeA)).1] at hb₁
  rw [← (exampleNetwork_apply (finalizedNode nodeA nodeB) (finalizedNode nodeB nodeA)).2] at hb₂
  have hstart : ∀ h ∈ exampleCommittee.honest, Started exampleCommittee 2 0 h
      (exampleNetwork (exampleNode nodeA) (exampleNode nodeB) h) := by
    intro h hh
    rw [exampleNetwork, Function.update_eq_self, Function.update_eq_self]
    exact started_exampleNode hh
  exact ⟨_, labels, b₁, b₂, hrun, hb₁, hb₂, agreement thresholdExact_rat exampleCommittee 2 0 hstart
    hrun (by decide) (by decide) hb₁ hb₂ he₁ he₂⟩

end Example

end ValidatorNode

end Qrtb
