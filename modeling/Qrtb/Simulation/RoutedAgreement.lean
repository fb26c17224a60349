import Qrtb.Simulation.Delivery
import Qrtb.Simulation.RoutedVoting

/-!
# Agreement in the routed network

A network that routes the messages of its nodes delivers votes only that a node of
the name has cast. So its runs are runs of the honest parties, with nothing assumed
of what arrives, and the registered validators without a node are silent.
-/

namespace Qrtb.Routed

open PyFloat Stateful Mailbox AsyncNetwork Transition

variable {F : Type}

/-- The votes a node has sent are its own and among those it has cast. -/
def Announces (id : Bytes) (n : Qrtb.ValidatorNode F) : Prop :=
  ∀ peer v, (peer, Qrtb.Message.vote v) ∈ n.outbox → v ∈ n.votesCast ∧ v.voterId = id

theorem announces_of_outbox {id : Bytes} {n : Qrtb.ValidatorNode F} (h : n.outbox = []) :
    Announces id n := by
  intro peer v hv
  rw [h] at hv
  exact absurd hv List.not_mem_nil

theorem Announces.castVote {id : Bytes} {n : Qrtb.ValidatorNode F} (h : Announces id n)
    {vote : ConsensusVote} (hvote : vote.voterId = id) : Announces id (n.castVote vote) := by
  intro peer v hv
  rcases List.mem_append.mp hv with hold | hnew
  · obtain ⟨hcast, hid⟩ := h peer v hold
    exact ⟨List.mem_append_left _ hcast, hid⟩
  · obtain ⟨p, -, hp⟩ := List.mem_map.mp hnew
    obtain ⟨rfl, hmessage⟩ := Prod.mk.inj hp
    obtain rfl := Qrtb.Message.vote.inj hmessage
    exact ⟨List.mem_append_right _ (List.mem_singleton_self _), hvote⟩

variable [PyFloat F]

theorem announces_receiveProposal {n : Qrtb.ValidatorNode F} (hn : n.outbox = [])
    (proposal : ConsensusProposal F) (time : F) :
    Announces n.consensus.validatorId (n.receiveProposal proposal time).2 := by
  rcases n.consensus.receiveProposal_cases proposal with ⟨e, h⟩ | ⟨hash, -, hhash, h⟩
  · simp only [Qrtb.ValidatorNode.receiveProposal, h]
    exact announces_of_outbox hn
  · simp only [Qrtb.ValidatorNode.receiveProposal, h, hhash]
    exact Announces.castVote (announces_of_outbox hn) rfl

theorem announces_afterPreVote {n : Qrtb.ValidatorNode F} (hn : n.outbox = [])
    (proposalHash : Bytes) (time : F) :
    Announces n.consensus.validatorId (n.afterPreVote proposalHash time) := by
  rw [Qrtb.ValidatorNode.afterPreVote]
  rcases n.consensus.createPreCommit_cases proposalHash time with
    ⟨hthreshold, -⟩ | ⟨hthreshold, hcreate⟩
  · rw [hthreshold, if_neg Bool.false_ne_true]
    exact announces_of_outbox hn
  · simp only [hthreshold, if_true, hcreate]
    exact Announces.castVote (announces_of_outbox hn) rfl

theorem announces_receiveVote {n : Qrtb.ValidatorNode F} (hn : n.outbox = [])
    (vote : ConsensusVote) (time : F) :
    Announces n.consensus.validatorId (n.receiveVote vote time).2 := by
  have hpreVote : ∀ c : BFTConsensus F, c.validatorId = n.consensus.validatorId →
      Announces n.consensus.validatorId
        ({ n with consensus := c }.afterPreVote vote.proposalHash time) := by
    intro c hc
    rw [← hc]
    exact announces_afterPreVote (n := { n with consensus := c }) hn _ time
  have hpreCommit : ∀ c : BFTConsensus F, Announces n.consensus.validatorId
      ({ n with consensus := c }.afterPreCommit vote.proposalHash time).2 := by
    intro c
    apply announces_of_outbox
    rw [(silent_afterPreCommit _ _ time).2]
    exact hn
  rw [Qrtb.ValidatorNode.receiveVote]
  cases vote.voteType with
  | preVote =>
    rcases n.consensus.receivePreVote_cases vote with ⟨e, h⟩ | ⟨-, h⟩
    · simp only [h]
      exact announces_of_outbox hn
    · simp only [h]
      exact hpreVote _ rfl
  | preCommit =>
    rcases n.consensus.receivePreCommit_cases vote with ⟨e, h⟩ | ⟨-, h⟩
    · simp only [h]
      exact announces_of_outbox hn
    · simp only [h]
      exact hpreCommit _

theorem announces_runConsensusPhase {n : Qrtb.ValidatorNode F} (hn : n.outbox = [])
    (measurements : MeasurementGraph F) (time : F) (id : Bytes) :
    Announces id (n.runConsensusPhase measurements time).2 := by
  rw [Qrtb.ValidatorNode.runConsensusPhase]
  split
  next => exact announces_of_outbox hn
  next => exact announces_of_outbox hn
  next =>
    split
    next => exact announces_of_outbox hn
    next =>
      intro peer v hv
      have hnew := List.mem_append.mp hv
      simp [hn] at hnew

theorem announces_handle {n : Qrtb.ValidatorNode F} (hn : n.outbox = [])
    (event : Qrtb.ValidatorNode.Event F) :
    Announces n.consensus.validatorId (n.handle event) := by
  cases event with
  | start epoch roundNum => exact announces_of_outbox hn
  | propose measurements time => exact announces_runConsensusPhase hn measurements time _
  | proposal proposal time => exact announces_receiveProposal hn proposal time
  | vote vote time => exact announces_receiveVote hn vote time

variable (K : Committee) (epoch : ℤ)

/-- The honest validators are those with a node, they are sound, and the votes in transit are
theirs. -/
structure Good (c : Config Bytes (NodeState F) (Message F)) : Prop where
  honest : ∀ h, h ∈ K.honest ↔ c.nodes.contains h = true
  sound : ∀ h ∈ K.honest, Network.Sound K epoch (Qrtb.ValidatorNode.parties (voters c)) h
  authentic : ∀ k v, (k, Message.vote v) ∈ c.bag →
    Network.Authentic K epoch (Qrtb.ValidatorNode.parties (voters c)) v

/-- What the node reacts to can be delivered to it, and its voting follows; or the voting is not
touched. -/
def Votes (c : Config Bytes (NodeState F) (Message F)) (s : NodeState F)
    (r : NodeState F × List (Bytes × Message F)) : Prop :=
  Outside s r ∨ ∃ event, Qrtb.ValidatorNode.Delivers K epoch (voters c) event ∧
    Follows r (s.voting.handle event)

variable {K epoch} {c c' : Config Bytes (NodeState F) (Message F)}

theorem Good.react (hexact : ThresholdExact F) (hc : Good K epoch c) {h : Bytes} {s : NodeState F}
    (hget : c.nodes.get? h = some s) {r : NodeState F × List (Bytes × Message F)}
    (hr : Votes K epoch c s r) {done : Set (Bytes × Message F)} (hmoves : Moves c h r done c') :
    Good K epoch c' := by
  have hcontains : c'.nodes.contains = c.nodes.contains := by
    rw [hmoves.nodes, OrderedDict.contains_set_of_get? hget]
  have hhonest : ∀ h, h ∈ K.honest ↔ c'.nodes.contains h = true := by
    rw [hcontains]
    exact hc.honest
  have hh : h ∈ K.honest := by
    rw [hc.honest, OrderedDict.contains, hget, Option.isSome_some]
  have hvoters := voters_set hmoves.nodes
  rcases hr with houtside | ⟨event, hdelivers, hfollows⟩
  · have hsame : voters c' = voters c := by
      rw [hvoters, houtside.voting, ← voters_of_get? hget, Function.update_eq_self]
    refine ⟨hhonest, hsame ▸ hc.sound, fun k v hv => ?_⟩
    rcases hmoves.bag _ hv with hold | hnew
    · rw [hsame]
      exact hc.authentic k v hold
    · obtain ⟨c, hv⟩ | ⟨r, hv⟩ := houtside.out _ hnew
      · cases hv
      · cases hv
  · have hparties : Qrtb.ValidatorNode.parties (voters c') =
        Function.update (Qrtb.ValidatorNode.parties (voters c)) h (s.voting.handle event).party := by
      funext k
      rw [Function.update_apply, Qrtb.ValidatorNode.parties, hvoters, Function.update_apply]
      split_ifs with hk
      · rw [Qrtb.ValidatorNode.party, Qrtb.ValidatorNode.party, ← hfollows.consensus,
          ← hfollows.votes, ← hfollows.blocks]
        rfl
      · rfl
    obtain ⟨ops, hops⟩ := s.voting.party_handle event
    have hself : Qrtb.ValidatorNode.parties (voters c) h = s.voting.party := by
      rw [Qrtb.ValidatorNode.parties, voters_of_get? hget]
    have hrun := Qrtb.ValidatorNode.run_network hops hh hself
      fun op hop => hdelivers.permitted hop
    rw [← hparties] at hrun
    have hsound := hrun.invariant (fun _ _ _ hs hst => Network.Sound.step hexact hst hs) hc.sound
    have hkept : ∀ v, Network.Authentic K epoch (Qrtb.ValidatorNode.parties (voters c)) v →
        Network.Authentic K epoch (Qrtb.ValidatorNode.parties (voters c')) v := fun v hv =>
      hrun.invariant (I := fun M => Network.Permitted K epoch M (.receivePreVote v))
        (fun _ _ _ hop hst => hst.permitted hop) hv
    refine ⟨hhonest, hsound, fun k v hv => ?_⟩
    rcases hmoves.bag _ hv with hold | hnew
    · exact hkept v (hc.authentic k v hold)
    · rw [hfollows.out] at hnew
      obtain ⟨⟨peer, message⟩, hletter, heq⟩ := List.mem_map.mp hnew
      obtain ⟨rfl, hmessage⟩ := Prod.mk.inj heq
      cases message with
      | proposal p => cases hmessage
      | vote vote =>
        obtain rfl := Message.vote.inj hmessage
        obtain ⟨hcast, hid⟩ := announces_handle rfl event peer vote hletter
        have hname : vote.voterId = h := by
          have hidentity := (hc.sound h hh).identity
          rw [hself] at hidentity
          exact hid.trans hidentity
        intro _ _
        refine ⟨vote, ?_, rfl, rfl, rfl⟩
        rw [hname, Qrtb.ValidatorNode.parties, hvoters, Function.update_self]
        have hvotes : r.1.voting.party.votes = (s.voting.handle event).votesCast := hfollows.votes
        rw [hvotes]
        exact hcast

/-- A label that starts no node again in the epoch. -/
def Label.Moves (epoch : ℤ) : Label Bytes (Message F) F (Action F) → Prop
  | .handle _ _ _ => True
  | .act _ action => ∀ time, action ≠ .startEpoch epoch time

theorem votes_perform (action : Action F) (hmoves : ∀ time, action ≠ .startEpoch epoch time)
    (s : NodeState F) : Votes K epoch c s (reaction (perform action) s) := by
  by_cases hstart : ∃ epoch' time, action = .startEpoch epoch' time
  · obtain ⟨epoch', time, rfl⟩ := hstart
    have hne : epoch' ≠ epoch := by
      rintro rfl
      exact hmoves time rfl
    rcases follows_startEpoch epoch' time s with hsame | hstarted
    · exact Or.inl ⟨by
        rw [NodeState.voting, hsame.consensus, hsame.peers, hsame.votes, hsame.blocks]
        rfl, by
        rw [hsame.out]
        exact List.forall_mem_nil _⟩
    · exact Or.inr ⟨.start epoch' 0, hne, hstarted⟩
  · by_cases hconsensus : ∃ time, action = .runConsensusPhase time
    · obtain ⟨time, rfl⟩ := hconsensus
      exact Or.inr ⟨.propose _ time, trivial, follows_runConsensusPhase time s⟩
    · push Not at hstart hconsensus
      exact Or.inl (outside_perform hstart hconsensus s)

theorem Good.step (hexact : ThresholdExact F) (hc : Good K epoch c)
    {l : Label Bytes (Message F) F (Action F)} (hl : Label.Moves epoch l)
    (hstep : Step system c l c') : Good K epoch c' := by
  obtain ⟨s, hget, ⟨m, time, -, hmem, hmoves⟩ | ⟨action, hact, hmoves⟩⟩ := hstep.moves
  · refine hc.react hexact hget ?_ hmoves
    rcases handle_cases m time s with houtside | ⟨event, hevent, hfollows⟩
    · exact Or.inl houtside
    · refine Or.inr ⟨event, ?_, hfollows⟩
      rcases hevent with ⟨p, -, rfl⟩ | ⟨v, rfl, rfl⟩
      · trivial
      · exact hc.authentic _ v hmem
  · rw [hact] at hl
    exact hc.react hexact hget (votes_perform action hl s) hmoves

theorem Good.run (hexact : ThresholdExact F) (hc : Good K epoch c)
    {ls : List (Label Bytes (Message F) F (Action F))} (hls : ∀ l ∈ ls, Label.Moves epoch l)
    (hrun : Run (Step system) c ls c') : Good K epoch c' :=
  (hrun.restrict hls).invariant (I := Good K epoch)
    (fun _ _ _ hc hst => hc.step hexact hst.1 hst.2) hc

/-- No two validators of a network finalize different proposals in an epoch that none of them starts
again, whatever is commanded in whatever order, and whatever is late or raises on the way. -/
theorem routed_agreement (hexact : ThresholdExact F) (K : Committee) (epoch roundNum : ℤ)
    (messageDelayMs : F) {nodes : OrderedDict Bytes (NodeState F)}
    (hhonest : ∀ h, h ∈ K.honest ↔ nodes.contains h = true)
    (hstart : ∀ h s, nodes.get? h = some s →
      Qrtb.ValidatorNode.Started K epoch roundNum h s.voting)
    {commands : List (Command F)}
    (hcommands : ∀ v time, .act v (.startEpoch epoch time) ∉ commands)
    {v₁ v₂ : Bytes} {n₁ n₂ : ValidatorNode F} {b₁ b₂ : ConsensusBlock F}
    (hn₁ : (runs exec commands (QRTBTestnet.fresh messageDelayMs nodes)).validators.get? v₁ = some n₁)
    (hn₂ : (runs exec commands (QRTBTestnet.fresh messageDelayMs nodes)).validators.get? v₂ = some n₂)
    (hb₁ : b₁ ∈ n₁.state.blocks) (hb₂ : b₂ ∈ n₂.state.blocks) (he₁ : b₁.epoch = epoch)
    (he₂ : b₂.epoch = epoch) :
    ∃ hash, b₁.proposal.proposalHash = .ok hash ∧ b₂.proposal.proposalHash = .ok hash := by
  obtain ⟨labels, hlabels, hrun⟩ :=
    run_runs commands (QRTBTestnet.fresh messageDelayMs nodes)
  generalize runs exec commands (QRTBTestnet.fresh messageDelayMs nodes) = t at hn₁ hn₂ hrun
  rw [view_fresh] at hrun
  have hgood : Good K epoch (⟨nodes, 0, 0, 0⟩ : Config Bytes (NodeState F) (Message F)) := by
    refine ⟨hhonest, fun h hh => ?_, fun k v hv => absurd hv (Multiset.notMem_zero _)⟩
    obtain ⟨s, hs⟩ := Option.isSome_iff_exists.mp ((hhonest h).mp hh)
    apply Qrtb.ValidatorNode.Started.sound
    rw [voters_of_get? hs]
    exact hstart h s hs
  have hmoves : ∀ l ∈ labels, Label.Moves epoch l := by
    intro l hl
    cases l with
    | handle => trivial
    | act v action =>
      rintro time rfl
      obtain ⟨command, hmem, hcovers⟩ := hlabels _ hl
      cases command with
      | act v' action' =>
        obtain ⟨rfl, rfl⟩ := Label.act.inj hcovers
        exact hcommands v time hmem
      | process clock =>
        obtain ⟨_, _, _, hlabel⟩ := hcovers
        cases hlabel
      | route => exact hcovers
      | deliver => exact hcovers
  have hend := hgood.run hexact hmoves hrun
  have hparty : ∀ {v n}, t.validators.get? v = some n → v ∈ K.honest ∧
      (Qrtb.ValidatorNode.parties (voters t.view) v).blocks = n.state.blocks := by
    intro v n hn
    have hget : t.view.nodes.get? v = some n.state := by
      rw [QRTBTestnet.view, Mailbox.view, OrderedDict.get?_map, hn, Option.map_some]
    refine ⟨?_, ?_⟩
    · rw [hend.honest, OrderedDict.contains, hget, Option.isSome_some]
    · rw [Qrtb.ValidatorNode.parties, voters_of_get? hget]
      rfl
  obtain ⟨hh₁, hblocks₁⟩ := hparty hn₁
  obtain ⟨hh₂, hblocks₂⟩ := hparty hn₂
  exact Network.agreement_of_sound hend.sound hh₁ hh₂ (hblocks₁ ▸ hb₁) (hblocks₂ ▸ hb₂) he₁ he₂

theorem register_all (ids : List Bytes) (stake : Bytes → ℤ) {c : BFTConsensus F}
    (hc : c.Reachable) :
    (ids.foldl (fun c vid => c.registerValidator vid (stake vid)) c).Reachable ∧
      (ids.foldl (fun c vid => c.registerValidator vid (stake vid)) c).validatorId =
        c.validatorId ∧
      ∀ v, (ids.foldl (fun c vid => c.registerValidator vid (stake vid)) c).validators.get? v =
        if v ∈ ids then some (stake v) else c.validators.get? v := by
  induction ids generalizing c with
  | nil => exact ⟨hc, rfl, fun v => by simp⟩
  | cons vid ids ih =>
    obtain ⟨hreachable, hid, hget⟩ := ih (hc.next (.registerValidator vid (stake vid)))
    refine ⟨hreachable, hid, fun v => ?_⟩
    rw [List.foldl_cons]
    refine (hget v).trans ?_
    rw [BFTConsensus.next, BFTConsensus.registerValidator, OrderedDict.get?_set]
    by_cases hv : v = vid
    · simp [hv]
    · simp [hv]

section Example

def exampleRegistry : OrderedDict Bytes ℤ := .ofKeys exampleStake exampleIds

theorem exampleRegistry_nonneg (v : Bytes) : 0 ≤ exampleRegistry.getD v 0 := by
  rw [OrderedDict.getD, exampleRegistry, OrderedDict.get?_ofKeys, exampleStake]
  split_ifs <;> decide

def exampleCommittee : Committee where
  registry := exampleRegistry
  honest := exampleIds.toFinset
  nonneg := exampleRegistry_nonneg
  total_pos := by decide +kernel
  byzantine := by decide +kernel
  ownStake := by decide +kernel

theorem exampleEngine_registered {me : Bytes} (hme : me ∈ exampleIds) :
    (exampleEngine ℚ me).Reachable ∧ (exampleEngine ℚ me).validatorId = me ∧
      ∀ v, (exampleEngine ℚ me).validators.get? v = exampleRegistry.get? v := by
  obtain ⟨hreachable, hid, hget⟩ := register_all (F := ℚ) exampleIds exampleStake
    (BFTConsensus.reachable_init me (exampleStake me))
  refine ⟨hreachable, hid, fun v => (hget v).trans ?_⟩
  rw [exampleRegistry, OrderedDict.get?_ofKeys]
  by_cases hv : v ∈ exampleIds
  · rw [if_pos hv, if_pos hv]
  · rw [if_neg hv, if_neg hv]
    have hne : v ≠ me := by
      rintro rfl
      exact hv hme
    exact OrderedDict.get?_set_of_ne _ hne _

theorem started_exampleState {me : Bytes} (hme : me ∈ exampleIds) :
    Qrtb.ValidatorNode.Started exampleCommittee 88 0 me (exampleState ℚ me).voting where
  start := by
    obtain ⟨hreachable, hid, hget⟩ := exampleEngine_registered hme
    exact ⟨exampleEngine ℚ me, hreachable, hid, hget, rfl⟩
  votes := List.forall_mem_nil _
  blocks := List.forall_mem_nil _

theorem get?_exampleNodes {vid : Bytes} {s : NodeState ℚ} (h : (exampleNodes ℚ).get? vid = some s) :
    vid ∈ exampleIds ∧ s = exampleState ℚ vid := by
  rw [exampleNodes, OrderedDict.get?_ofKeys] at h
  split_ifs at h with hvid
  exact ⟨hvid, (Option.some.inj h).symm⟩

theorem contains_exampleNodes (vid : Bytes) :
    vid ∈ exampleIds.toFinset ↔ (exampleNodes ℚ).contains vid = true := by
  rw [List.mem_toFinset, OrderedDict.contains, exampleNodes, OrderedDict.get?_ofKeys]
  split_ifs with hvid <;> simp [hvid]

/-- What is sent is handed over and looked at. -/
def exampleRound : List (Command ℚ) := [.route exampleConditions, .deliver 1, .process fun _ _ => 0]

def exampleRun : List (Command ℚ) :=
  .act (exampleId 5) (.runConsensusPhase 0) :: (exampleRound ++ exampleRound ++ exampleRound)

def exampleEnd : QRTBTestnet ℚ := runs exec exampleRun (QRTBTestnet.fresh 0 (exampleNodes ℚ))

/-- The blocks that a validator has in the end. -/
def exampleBlocks (vid : Bytes) : List (ConsensusBlock ℚ) :=
  (exampleEnd.validators.get? vid).elim [] fun n => n.state.blocks

theorem exampleBlocks_epoch : (exampleBlocks (exampleId 1)).map ConsensusBlock.epoch =
      List.replicate 6 88 ∧
    (exampleBlocks (exampleId 5)).map ConsensusBlock.epoch = List.replicate 4 88 := by
  decide +kernel

theorem exists_exampleBlock {vid : Bytes} {k : ℕ}
    (h : (exampleBlocks vid).map ConsensusBlock.epoch = List.replicate (k + 1) 88) :
    ∃ n b, exampleEnd.validators.get? vid = some n ∧ b ∈ n.state.blocks ∧ b.epoch = 88 := by
  have hepoch : (88 : ℤ) ∈ (exampleBlocks vid).map ConsensusBlock.epoch := by
    rw [h]
    exact List.mem_cons_self
  obtain ⟨b, hb, hbepoch⟩ := List.mem_map.mp hepoch
  rw [exampleBlocks] at hb
  cases hget : exampleEnd.validators.get? vid with
  | none =>
    rw [hget] at hb
    exact absurd hb List.not_mem_nil
  | some n =>
    rw [hget] at hb
    exact ⟨n, b, rfl, hb, hbepoch⟩

theorem routed_agreement_five : ∃ b₁ ∈ exampleBlocks (exampleId 1),
    ∃ b₅ ∈ exampleBlocks (exampleId 5), ∃ hash,
      b₁.proposal.proposalHash = .ok hash ∧ b₅.proposal.proposalHash = .ok hash := by
  obtain ⟨n₁, b₁, hn₁, hb₁, he₁⟩ := exists_exampleBlock exampleBlocks_epoch.1
  obtain ⟨n₅, b₅, hn₅, hb₅, he₅⟩ := exists_exampleBlock exampleBlocks_epoch.2
  have hstart : ∀ h s, (exampleNodes ℚ).get? h = some s →
      Qrtb.ValidatorNode.Started exampleCommittee 88 0 h s.voting := by
    intro h s hs
    obtain ⟨hh, rfl⟩ := get?_exampleNodes hs
    exact started_exampleState hh
  have hcommands : ∀ v time, Command.act v (.startEpoch 88 time) ∉ exampleRun := by
    intro v time h
    simp [exampleRun, exampleRound] at h
  obtain ⟨hash, hhash⟩ := routed_agreement thresholdExact_rat exampleCommittee 88 0 0
    contains_exampleNodes hstart hcommands hn₁ hn₅ hb₁ hb₅ he₁ he₅
  refine ⟨b₁, ?_, b₅, ?_, hash, hhash⟩
  · rw [exampleBlocks, hn₁]
    exact hb₁
  · rw [exampleBlocks, hn₅]
    exact hb₅

end Example

end Qrtb.Routed
