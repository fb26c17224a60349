import Qrtb.Simulation.RoutedAgreement
import Qrtb.Simulation.RoutedProgress

/-!
# A proposal of the routed network is finalized by everybody

Before the proposer has proposed nothing is voted on. Once it has, and nothing is in
transit any more, in whatever order the messages came, every node has finalized the
proposal.
-/

namespace Qrtb.Routed

open PyFloat Stateful Mailbox AsyncNetwork Transition BFTConsensus
open Testnet (EngineOf Proposed Selected)

variable {F : Type} {R : Round} {hash k : Bytes} {c c' : Config Bytes (NodeState F) (Message F)}
  {s : NodeState F} {r : NodeState F × List (Bytes × Message F)} {done : Set (Bytes × Message F)}

section

variable [PyFloat F]

/-- A node that is asked to propose has made a proposal, or it has done nothing that is seen. -/
theorem runConsensusPhase_cases (time : F) (s : NodeState F) :
    let r := reaction (runConsensusPhase time) s
    (∃ current, r.1.voting = { s.voting with
        consensus := { s.node.consensus with currentProposal := current } } ∧ r.2 = [] ∧
      r.1.blocksProposed = s.blocksProposed) ∨
    s.node.consensus.amIProposer = .ok true ∧ ∃ root p h,
      p = s.node.consensus.proposalOver s.node.measurementProtocol.getAllMeasurements root [] []
        time ∧ p.proposalHash = .ok h ∧
      r.1.voting = { s.voting with
        consensus := { s.node.consensus with
          currentProposal := some p
          receivedProposals := s.node.consensus.receivedProposals.set h p
          phase := .preVote } } ∧
      r.2 = (s.voting.peers.map fun peer => (peer, .proposal p)) ∧
      r.1.blocksProposed = s.blocksProposed + 1 := by
  intro r
  have hr : r = reaction (runConsensusPhase time) s := rfl
  rw [reaction, runConsensusPhase] at hr
  have hstart : ∀ f : Unit → Stateful (ValidatorNode F) Unit,
      (change (fun n => { n with node := { n.node with state := .voting } }) >>= f)
          { state := s } =
        f () { state := { s with node := { s.node with state := .voting } } } := fun _ => rfl
  rw [hstart, look_bind, look_bind] at hr
  simp only at hr
  cases hmine : s.node.consensus.amIProposer with
  | error e =>
    rw [hmine] at hr
    exact Or.inl ⟨s.node.consensus.currentProposal, by rw [hr]; rfl, by rw [hr]; rfl, by rw [hr]; rfl⟩
  | ok mine =>
    rw [hmine, ofExcept_ok_bind] at hr
    cases mine with
    | false =>
      exact Or.inl ⟨s.node.consensus.currentProposal, by rw [hr]; rfl, by rw [hr]; rfl,
        by rw [hr]; rfl⟩
    | true =>
      rw [if_pos rfl, proposeBlock] at hr
      rcases s.node.consensus.createProposal_cases
          s.node.measurementProtocol.getAllMeasurements [] [] time with
        ⟨e, current, hcreate⟩ | ⟨root, h, p, -, hover, hhash, hcreate⟩
      · rw [onConsensus_bind_of_error
          (n := { state := { s with node := { s.node with state := .voting } } }) hcreate] at hr
        exact Or.inl ⟨current, by rw [hr]; rfl, by rw [hr]; rfl, by rw [hr]; rfl⟩
      · rw [onConsensus_bind_of_ok
          (n := { state := { s with node := { s.node with state := .voting } } }) hcreate] at hr
        exact Or.inr ⟨rfl, root, p, h, hover, hhash, by rw [hr]; rfl, by rw [hr]; rfl,
          by rw [hr]; rfl⟩

section

variable {α : Type} {count : ℕ}

omit [PyFloat F] in
theorem counts_onNode (x : Stateful (Testnet.ValidatorNode F) α) :
    Preserves (fun n : ValidatorNode F => n.state.blocksProposed = count) (onNode x) := fun _ h => h

omit [PyFloat F] in
theorem counts_castVote (vote : ConsensusVote) :
    Preserves (fun n : ValidatorNode F => n.state.blocksProposed = count) (castVote vote) :=
  Preserves.bind (preserves_modify fun _ h => h) fun _ => fun _ h => h

theorem counts_receiveVote (vote : ConsensusVote) (time : F) :
    Preserves (fun n => n.state.blocksProposed = count) (receiveVote vote time) := by
  rw [receiveVote]
  split
  next =>
    refine (counts_onNode _).bind fun _ => Preserves.ite ?_ (preserves_pure ())
    refine Preserves.bind (fun _ h => h) fun _ => Preserves.ite ?_ (preserves_pure ())
    refine (counts_onNode _).bind fun commitVote => ?_
    cases commitVote with
    | none => exact preserves_pure ()
    | some vote => exact counts_castVote vote
  next =>
    refine (counts_onNode _).bind fun _ => Preserves.ite ?_ (preserves_pure ())
    refine Preserves.bind (fun _ h => h) fun _ => Preserves.ite ?_ (preserves_pure ())
    refine (counts_onNode _).bind fun block => ?_
    cases block with
    | none => exact preserves_pure ()
    | some block => exact fun _ h => h

theorem blocksProposed_handle (m : Message F) (time : F) (s : NodeState F) :
    (system.handle m time s).1.blocksProposed = s.blocksProposed := by
  have hkept : Preserves (fun n => n.state.blocksProposed = s.blocksProposed) (receive m time) := by
    cases m with
    | commitment | reveal => exact (counts_onNode _).bind fun _ => preserves_pure ()
    | proposal p =>
      refine (counts_onNode _).bind fun _ => Preserves.ite ?_ (preserves_pure ())
      exact (preserves_ofExcept _).bind fun _ => (counts_onNode _).bind fun _ => counts_castVote _
    | vote vote => exact counts_receiveVote vote time
  exact hkept { state := s } rfl

theorem blocksProposed_act {a : Action F} (ha : ∀ time, a ≠ .runConsensusPhase time)
    (s : NodeState F) : (system.act a s).1.blocksProposed = s.blocksProposed := by
  have hkept : Preserves (fun n => n.state.blocksProposed = s.blocksProposed) (perform a) := by
    cases a with
    | startEpoch | runMeasurementPhase | createMeasurementCommitment => exact counts_onNode _
    | broadcastCommitment =>
      refine Preserves.bind (fun _ h => h) fun commitment => ?_
      cases commitment with
      | none => exact preserves_pure ()
      | some c => exact fun _ h => h
    | broadcastReveal => exact (counts_onNode _).bind fun _ => fun _ h => h
    | runConsensusPhase time => exact absurd rfl (ha time)
  exact hkept { state := s } rfl

end

/-- An engine at the start of the round, with empty tables. -/
structure Fresh (R : Round) (vid : Bytes) (c : BFTConsensus F) : Prop where
  engine : EngineOf R.registry vid c
  epoch : c.currentEpoch = R.epoch
  round : c.currentRound = 0
  proposals : ∀ h, c.receivedProposals.get? h = none
  preVotes : ∀ h, c.preVotes.voters h = ∅
  preVoteChoices : ∀ v, c.preVoteChoices.get? v = none
  preCommitChoices : ∀ v, c.preCommitChoices.get? v = none

omit [PyFloat F] in
theorem fresh_startRound {vid : Bytes} {e : BFTConsensus F} (h : EngineOf R.registry vid e) :
    Fresh R vid (e.startRound R.epoch 0) :=
  ⟨h.congr rfl rfl rfl, rfl, rfl, fun _ => rfl, fun _ => rfl, fun _ => rfl, fun _ => rfl⟩

omit [PyFloat F] in
theorem Fresh.listening {vid : Bytes} {e : BFTConsensus F} (h : Fresh R vid e) (hash : Bytes) :
    Listening R hash vid e where
  engine := h.engine
  epoch := h.epoch
  round := h.round
  filed p hp := by
    rw [h.proposals] at hp
    cases hp
  preVotes := ⟨List.forall_mem_nil _, fun v choice hv => by
    rw [h.preVoteChoices] at hv
    cases hv⟩
  preCommits := ⟨List.forall_mem_nil _, fun v choice hv => by
    rw [h.preCommitChoices] at hv
    cases hv⟩

/-- The members are at the start of the round, and only measurements are in transit. -/
structure Idle (R : Round) (c : Config Bytes (NodeState F) (Message F)) : Prop where
  members : ∀ v, v ∈ R.members ↔ c.nodes.contains v = true
  fresh : ∀ v ∈ R.members, Fresh R v (voters c v).consensus
  peers : ∀ v ∈ R.members, ∀ w, w ∈ (voters c v).peers ↔ w ∈ R.members ∧ w ≠ v
  letters : ∀ l ∈ c.bag, l.2.Measures

omit [PyFloat F] in
theorem Idle.move (hc : Idle R c) (hget : c.nodes.get? k = some s) (hmoves : Moves c k r done c')
    (hfresh : Fresh R k s.voting.consensus → Fresh R k r.1.voting.consensus)
    (hpeers : r.1.voting.peers = s.voting.peers) (hsent : ∀ l ∈ r.2, l.2.Measures) :
    Idle R c' where
  members := by
    rw [hmoves.nodes, OrderedDict.contains_set_of_get? hget]
    exact hc.members
  fresh v hv := voters_keep hmoves hget (P := fun v n => Fresh R v n.consensus) hfresh v
    (hc.fresh v hv)
  peers v hv := voters_keep hmoves hget
    (P := fun v n => ∀ w, w ∈ n.peers ↔ w ∈ R.members ∧ w ≠ v) (fun h => by rwa [hpeers]) v
    (hc.peers v hv)
  letters l hl := (hmoves.bag l hl).elim (hc.letters l) (hsent l)

theorem Idle.propose (hc : Idle R c) (hget : c.nodes.get? R.proposer = some s)
    (hmoves : Moves c R.proposer r done c') {p : ConsensusProposal F} {root : Bytes} {time : F}
    (hp : p = s.node.consensus.proposalOver s.node.measurementProtocol.getAllMeasurements root [] []
      time) (hhash : p.proposalHash = .ok hash)
    (hvoting : r.1.voting = { s.voting with
      consensus := { s.node.consensus with
        currentProposal := some p
        receivedProposals := s.node.consensus.receivedProposals.set hash p
        phase := .preVote } })
    (hsent : r.2 = s.voting.peers.map fun peer => (peer, .proposal p)) : Live R hash c' := by
  have hself := voters_of_get? hget
  have hfresh := hc.fresh _ R.proposes
  rw [hself] at hfresh
  have hproposed : Proposed R.epoch R.proposer hash p := by
    rw [hp] at hhash ⊢
    exact ⟨hfresh.engine.validatorId, hfresh.epoch, hfresh.round, hhash⟩
  have hconsensus := congrArg (·.consensus) hvoting
  have hfile := (hfresh.listening hash).file hhash
  have hadvances : Advances R hash R.proposer s.voting.consensus r.1.voting.consensus := by
    rw [hconsensus]
    exact hfile.trans (hfile.listening.same rfl rfl rfl rfl rfl rfl ⟨rfl, rfl⟩ ⟨rfl, rfl⟩)
  refine ⟨?_, fun v hv => ?_, fun v hv => ?_, fun k m hm => ?_, ?_⟩
  · rw [hmoves.nodes, OrderedDict.contains_set_of_get? hget]
    exact hc.members
  · exact voters_keep hmoves hget (P := fun v n => Listening R hash v n.consensus)
      (fun _ => hadvances.listening) v ((hc.fresh v hv).listening hash)
  · refine voters_keep hmoves hget
      (P := fun v n => ∀ w, w ∈ n.peers ↔ w ∈ R.members ∧ w ≠ v) (fun h => ?_) v (hc.peers v hv)
    rwa [hvoting]
  · rcases hmoves.bag _ hm with hold | hnew
    · exact Or.inr (hc.letters _ hold)
    · rw [hsent] at hnew
      obtain ⟨peer, -, heq⟩ := List.mem_map.mp hnew
      obtain ⟨-, rfl⟩ := Prod.mk.inj heq
      exact Or.inl ⟨.proposal, hproposed⟩
  · apply TwoPhase.Inv.start fun u hu => R.others_nonempty hu
    · intro u hu hin
      by_contra hne
      have hnone : informed hash (voters c u).consensus := voters_of_ne hmoves hne ▸ hin
      rw [informed, (hc.fresh u hu).proposals] at hnone
      cases hnone
    · intro u hu hne
      refine ⟨.proposal p, hmoves.posted _ ?_ ((hc.members u).mp hu), hproposed⟩
      rw [hsent]
      exact List.mem_map.mpr ⟨u, hself ▸ (hc.peers _ R.proposes u).mpr ⟨hu, hne⟩, rfl⟩
    · change informed hash (voters c' R.proposer).consensus
      rw [voters_self hmoves, hconsensus, informed]
      exact (congrArg Option.isSome (OrderedDict.get?_set_self ..)).trans rfl
    · intro w hw
      have hnone : preVoters hash (voters c' w).consensus = ∅ :=
        voters_keep hmoves hget (P := fun _ n => preVoters hash n.consensus = ∅)
          (fun h => by rwa [hconsensus]) w ((hc.fresh w hw).preVotes hash)
      change {v | v ∈ preVoters hash (voters c' w).consensus} = ∅
      rw [hnone]
      exact Set.eq_empty_of_forall_notMem fun v => Finset.notMem_empty v

def proposals (c : Config Bytes (NodeState F) (Message F)) (v : Bytes) : ℕ :=
  ((c.nodes.get? v).map NodeState.blocksProposed).getD 0

omit [PyFloat F] in
theorem proposals_of_get? (hget : c.nodes.get? k = some s) : proposals c k = s.blocksProposed := by
  rw [proposals, hget, Option.map_some, Option.getD_some]

omit [PyFloat F] in
theorem proposals_self (hmoves : Moves c k r done c') : proposals c' k = r.1.blocksProposed := by
  rw [proposals, hmoves.nodes, OrderedDict.get?_set_self, Option.map_some, Option.getD_some]

omit [PyFloat F] in
theorem proposals_of_ne (hmoves : Moves c k r done c') {v : Bytes} (hne : v ≠ k) :
    proposals c' v = proposals c v := by
  rw [proposals, hmoves.nodes, OrderedDict.get?_set_of_ne _ hne, proposals]

omit [PyFloat F] in
theorem proposals_same (hget : c.nodes.get? k = some s) (hmoves : Moves c k r done c')
    (h : r.1.blocksProposed = s.blocksProposed) (v : Bytes) : proposals c' v = proposals c v := by
  by_cases hvk : v = k
  · subst hvk
    rw [proposals_self hmoves, proposals_of_get? hget, h]
  · exact proposals_of_ne hmoves hvk

/-- The first proposal begins the voting; what a second one does is not said. -/
inductive Stage (R : Round) (c : Config Bytes (NodeState F) (Message F)) : Prop
  | idle (count : proposals c R.proposer = 0) (idle : Idle R c)
  | live (count : proposals c R.proposer = 1) (hash : Bytes) (live : Live R hash c)
  | again (count : 2 ≤ proposals c R.proposer)

/-- No epoch is started, and the times of a step can be packed. -/
def Timely : Label Bytes (Message F) F (Action F) → Prop
  | .handle _ _ time => 0 ≤ milliseconds time ∧ milliseconds time < 256 ^ 8
  | .act _ action => ∀ epoch time, action ≠ .startEpoch epoch time

theorem Live.handle (hreached : ThresholdReached F) (hc : Live R hash c)
    (hget : c.nodes.get? k = some s) {m : Message F} {time : F} (hmem : (k, m) ∈ c.bag)
    (htime : 0 ≤ milliseconds time ∧ milliseconds time < 256 ^ 8)
    (hmoves : Moves c k (system.handle m time s) {(k, m)} c') : Live R hash c' := by
  have hk : k ∈ R.members := by
    rw [hc.members, OrderedDict.contains, hget, Option.isSome_some]
  rcases hc.letters k m hmem with ⟨x, hx⟩ | hmeasures
  · cases m with
    | commitment => cases x <;> exact absurd hx id
    | reveal => cases x <;> exact absurd hx id
    | proposal p =>
      cases x with
      | proposal => exact hc.proposal hk hget hx hmoves
      | preVote => exact absurd hx id
      | preCommit => exact absurd hx id
    | vote vote =>
      cases x with
      | proposal => exact absurd hx id
      | preVote v => exact hc.preVote hreached hk hget hx hmoves
      | preCommit v => exact hc.preCommit hreached hk hget hx htime hmoves
  · have houtside := outside_measures hmeasures time s
    refine hc.quiet hk hget hmoves houtside.voting houtside.out ?_
    rintro l x rfl hx
    rcases hmeasures with ⟨_, rfl⟩ | ⟨_, rfl⟩
    · cases x <;> exact hx
    · cases x <;> exact hx

omit [PyFloat F] in
theorem Listening.eq_proposer {vid : Bytes} {e : BFTConsensus F} (h : Listening R hash vid e)
    (hmine : e.amIProposer = .ok true) : vid = R.proposer := by
  rw [(h.engine.holds h.epoch h.round).amIProposer R.total.1 h.selectedProposer,
    h.engine.validatorId] at hmine
  exact of_decide_eq_true (Except.ok.inj hmine)

theorem Stage.act (hc : Stage R c) (hget : c.nodes.get? k = some s) {a : Action F}
    (ha : ∀ epoch time, a ≠ .startEpoch epoch time) (hmoves : Moves c k (system.act a s) ∅ c') :
    Stage R c' := by
  -- what touches nothing but the current proposal keeps the stage
  have hquiet : ∀ current, (system.act a s).1.voting = { s.voting with
      consensus := { s.node.consensus with currentProposal := current } } →
      (∀ l ∈ (system.act a s).2, l.2.Measures) →
      (system.act a s).1.blocksProposed = s.blocksProposed → Stage R c' := by
    intro current hvoting hsent hcount
    have hsame := proposals_same hget hmoves hcount R.proposer
    rcases hc with ⟨hzero, hidle⟩ | ⟨hone, hash, hlive⟩ | hagain
    · refine .idle (hsame.trans hzero) (hidle.move hget hmoves (fun h => ?_) ?_ hsent)
      · rw [hvoting]
        exact ⟨h.engine.congr rfl rfl rfl, h.epoch, h.round, h.proposals, h.preVotes,
          h.preVoteChoices, h.preCommitChoices⟩
      · rw [hvoting]
    · have hk : k ∈ R.members := by
        rw [hlive.members, OrderedDict.contains, hget, Option.isSome_some]
      exact .live (hsame.trans hone) hash (hlive.quiet hk hget hmoves hvoting hsent
        fun l x hl _ => absurd hl (Set.notMem_empty l))
    · exact .again (hagain.trans hsame.ge)
  by_cases hconsensus : ∃ time, a = .runConsensusPhase time
  · obtain ⟨time, rfl⟩ := hconsensus
    rcases runConsensusPhase_cases time s with
      ⟨current, hvoting, hsent, hcount⟩ | ⟨hmine, root, p, h, hp, hhash, hvoting, hsent, hcount⟩
    · refine hquiet current hvoting (fun l hl => ?_) hcount
      have hnone : (system.act (.runConsensusPhase time) s).2 = [] := hsent
      rw [hnone] at hl
      exact absurd hl List.not_mem_nil
    · have hproposer : (∀ hash, Listening R hash k s.voting.consensus) → k = R.proposer :=
        fun hl => (hl []).eq_proposer hmine
      rcases hc with ⟨hzero, hidle⟩ | ⟨hone, hash, hlive⟩ | hagain
      · have hk : k ∈ R.members := by
          rw [hidle.members, OrderedDict.contains, hget, Option.isSome_some]
        have hfresh := hidle.fresh k hk
        rw [voters_of_get? hget] at hfresh
        obtain rfl := hproposer hfresh.listening
        rw [proposals_of_get? hget] at hzero
        refine .live ?_ h (hidle.propose hget hmoves hp hhash hvoting hsent)
        rw [proposals_self hmoves]
        exact hcount.trans (by rw [hzero])
      · have hk : k ∈ R.members := by
          rw [hlive.members, OrderedDict.contains, hget, Option.isSome_some]
        have hlistening := hlive.listening k hk
        rw [voters_of_get? hget] at hlistening
        obtain rfl := hlistening.eq_proposer hmine
        rw [proposals_of_get? hget] at hone
        refine .again ?_
        rw [proposals_self hmoves]
        exact (hcount.trans (by rw [hone])).ge
      · refine .again ?_
        by_cases hk : R.proposer = k
        · rw [hk] at hagain ⊢
          rw [proposals_of_get? hget] at hagain
          rw [proposals_self hmoves]
          exact (hagain.trans (Nat.le_succ _)).trans hcount.ge
        · rwa [proposals_of_ne hmoves hk]
  · push Not at hconsensus
    have houtside := outside_perform ha hconsensus s
    exact hquiet s.node.consensus.currentProposal houtside.voting houtside.out
      (blocksProposed_act hconsensus s)

theorem Stage.step (hreached : ThresholdReached F) (hc : Stage R c)
    {l : Label Bytes (Message F) F (Action F)} (hl : Timely l) (hstep : Step system c l c') :
    Stage R c' := by
  obtain ⟨s, hget, ⟨m, time, hhandle, hmem, hmoves⟩ | ⟨a, hact, hmoves⟩⟩ := hstep.moves
  · rw [hhandle] at hl
    have hsame := proposals_same hget hmoves (blocksProposed_handle m time s) R.proposer
    rcases hc with ⟨hzero, hidle⟩ | ⟨hone, hash, hlive⟩ | hagain
    · have houtside := outside_measures (hidle.letters _ hmem) time s
      refine .idle (hsame.trans hzero) (hidle.move hget hmoves (fun h => ?_) ?_ houtside.out)
      · rwa [houtside.voting]
      · rw [houtside.voting]
    · exact .live (hsame.trans hone) hash (hlive.handle hreached hget hmem hl hmoves)
    · exact .again (hagain.trans hsame.ge)
  · rw [hact] at hl
    exact hc.act hget hl hmoves

theorem Stage.run (hreached : ThresholdReached F) (hc : Stage R c)
    {ls : List (Label Bytes (Message F) F (Action F))} (hls : ∀ l ∈ ls, Timely l)
    (hrun : Run (Step system) c ls c') : Stage R c' :=
  (hrun.restrict hls).invariant (I := Stage R)
    (fun _ _ _ hc hst => hc.step hreached hst.1 hst.2) hc

/-- The members of a round with their nodes, in the round and connected, before any proposal. -/
structure Assembled (R : Round) (nodes : OrderedDict Bytes (NodeState F)) : Prop where
  members : ∀ v, v ∈ R.members ↔ nodes.contains v = true
  fresh : ∀ v s, nodes.get? v = some s → Fresh R v s.node.consensus
  peers : ∀ v s, nodes.get? v = some s → ∀ w, w ∈ s.node.peers.keys ↔ w ∈ R.members ∧ w ≠ v
  proposed : ∀ s, nodes.get? R.proposer = some s → s.blocksProposed = 0

/-- Commands that start no epoch and read times that can be packed. -/
def Command.Timely : Command F → Prop
  | .act _ action => ∀ epoch time, action ≠ .startEpoch epoch time
  | .process clock => ∀ v i, 0 ≤ milliseconds (clock v i) ∧ milliseconds (clock v i) < 256 ^ 8
  | _ => True

theorem Command.Timely.label {command : Command F} (h : command.Timely)
    {l : Label Bytes (Message F) F (Action F)} (hl : command.Covers l) : Routed.Timely l := by
  cases command with
  | act v action =>
    obtain rfl : l = .act v action := hl
    exact h
  | process clock =>
    obtain ⟨v, m, i, rfl⟩ := hl
    exact h v i
  | route => exact absurd hl id
  | deliver => exact absurd hl id

/-- Once the proposer has proposed and no message is in any outbox, queue or inbox any more, every
node has finalized the one proposal, whatever was commanded in whatever order, and however the
messages have overtaken each other. -/
theorem proposal_finalized (hreached : ThresholdReached F) (R : Round) (messageDelayMs : F)
    {nodes : OrderedDict Bytes (NodeState F)} (hnodes : Assembled R nodes)
    {commands : List (Command F)} (hcommands : ∀ command ∈ commands, command.Timely)
    {n : ValidatorNode F}
    (hproposer : (runs exec commands (QRTBTestnet.fresh messageDelayMs nodes)).validators.get?
      R.proposer = some n) (honce : n.state.blocksProposed = 1)
    (hquiet : (runs exec commands (QRTBTestnet.fresh messageDelayMs nodes)).view.bag = 0) :
    ∃ hash, ∀ v ∈ R.members, ∃ node,
      (runs exec commands (QRTBTestnet.fresh messageDelayMs nodes)).validators.get? v = some node ∧
        Decided R hash node.state.blocks := by
  obtain ⟨labels, hlabels, hrun⟩ := run_runs commands (QRTBTestnet.fresh messageDelayMs nodes)
  generalize runs exec commands (QRTBTestnet.fresh messageDelayMs nodes) = t at *
  rw [view_fresh] at hrun
  have hnode : ∀ v node, t.validators.get? v = some node →
      t.view.nodes.get? v = some node.state := by
    intro v node hget
    rw [QRTBTestnet.view, Mailbox.view, OrderedDict.get?_map, hget, Option.map_some]
  have hstart : Stage R (⟨nodes, 0, 0, 0⟩ : Config Bytes (NodeState F) (Message F)) := by
    have hmember : ∀ v ∈ R.members, ∃ s, nodes.get? v = some s :=
      fun v hv => Option.isSome_iff_exists.mp ((hnodes.members v).mp hv)
    obtain ⟨s, hs⟩ := hmember _ R.proposes
    refine .idle ((proposals_of_get? hs).trans (hnodes.proposed s hs))
      ⟨hnodes.members, fun v hv => ?_, fun v hv => ?_, fun l hl => absurd hl (Multiset.notMem_zero l)⟩
    · obtain ⟨s, hs⟩ := hmember v hv
      rw [voters_of_get? hs]
      exact hnodes.fresh v s hs
    · obtain ⟨s, hs⟩ := hmember v hv
      rw [voters_of_get? hs]
      exact hnodes.peers v s hs
  have hend := hstart.run hreached (fun l hl => by
    obtain ⟨command, hmem, hcovers⟩ := hlabels l hl
    exact (hcommands command hmem).label hcovers) hrun
  have hcount : proposals t.view R.proposer = 1 :=
    (proposals_of_get? (hnode _ _ hproposer)).trans honce
  rcases hend with ⟨hzero, -⟩ | ⟨-, hash, hlive⟩ | hagain
  · omega
  · have hdecided := hlive.progress.decided_of_quiet fun l hl => by
      obtain ⟨m, hm, -⟩ := hl
      rw [hquiet] at hm
      exact absurd hm (Multiset.notMem_zero _)
    refine ⟨hash, fun v hv => ?_⟩
    have hknown := (hlive.members v).mp hv
    rw [QRTBTestnet.view, Mailbox.view, OrderedDict.contains_map, OrderedDict.contains] at hknown
    obtain ⟨node, hget⟩ := Option.isSome_iff_exists.mp hknown
    have hv' : Decided R hash (voters t.view v).blocksFinalized := hdecided hv
    rw [voters_of_get? (hnode v node hget)] at hv'
    exact ⟨node, hget, hv'⟩
  · omega

end

section Example

theorem selected_example : Selected exampleRegistry 88 (exampleId 5) := by
  unfold Selected
  decide +kernel

theorem exampleRegistry_enough : ∀ w ∈ exampleIds.toFinset, 67 * exampleRegistry.values.sum ≤
    100 * ∑ v ∈ (exampleIds.toFinset.erase (exampleId 5)).erase w, exampleRegistry.getD v 0 := by
  decide +kernel

theorem exampleRegistry_total :
    0 < exampleRegistry.values.sum ∧ exampleRegistry.values.sum < 256 ^ 8 := by
  decide +kernel

theorem exampleRegistry_known : ∀ v ∈ exampleIds.toFinset, exampleRegistry.contains v = true := by
  decide +kernel

def fiveValidators : Round where
  registry := exampleRegistry
  epoch := 88
  proposer := exampleId 5
  members := exampleIds.toFinset
  packed := ⟨by decide, by decide⟩
  total := exampleRegistry_total
  nonneg := exampleRegistry_nonneg
  selected := selected_example
  proposes := List.mem_toFinset.mpr (List.mem_map_of_mem (by decide))
  known := exampleRegistry_known
  enough := exampleRegistry_enough

theorem assembled_exampleNodes : Assembled fiveValidators (exampleNodes ℚ) where
  members := contains_exampleNodes
  fresh v s hs := by
    obtain ⟨hv, rfl⟩ := get?_exampleNodes hs
    obtain ⟨hreachable, hid, hget⟩ := exampleEngine_registered hv
    exact fresh_startRound ⟨exampleRegistry_known v (List.mem_toFinset.mpr hv), hid, hget,
      (hreachable.inv.holds hget).totalStake⟩
  peers v s hs w := by
    obtain ⟨hv, rfl⟩ := get?_exampleNodes hs
    have hkeys : w ∈ (exampleState ℚ v).node.peers.keys ↔
        w ∈ exampleIds.filter fun vid => vid ≠ v := by
      rw [OrderedDict.mem_keys_iff, exampleState, OrderedDict.get?_ofKeys]
      by_cases hw : w ∈ exampleIds.filter fun vid => vid ≠ v
      · rw [if_pos hw]
        exact iff_of_true ⟨_, rfl⟩ hw
      · rw [if_neg hw]
        exact iff_of_false (fun ⟨_, h⟩ => by cases h) hw
    rw [hkeys, List.mem_filter, decide_eq_true_iff]
    exact and_congr_left fun _ => List.mem_toFinset.symm
  proposed s hs := by
    obtain ⟨-, rfl⟩ := get?_exampleNodes hs
    rfl

theorem proposal_finalized_five : ∃ hash, ∀ v ∈ fiveValidators.members, ∃ node,
    exampleEnd.validators.get? v = some node ∧ Decided fiveValidators hash node.state.blocks := by
  have htimely : ∀ command ∈ exampleRun, command.Timely := by
    have hzero : 0 ≤ milliseconds (0 : ℚ) ∧ milliseconds (0 : ℚ) < 256 ^ 8 := by decide +kernel
    have hround : ∀ command ∈ exampleRound, command.Timely := by
      refine List.forall_mem_cons.mpr ⟨trivial, List.forall_mem_cons.mpr ⟨trivial, ?_⟩⟩
      exact List.forall_mem_singleton.mpr fun _ _ => hzero
    have hpropose : (Command.act (exampleId 5) (.runConsensusPhase (0 : ℚ))).Timely := by
      intro epoch time h
      cases h
    refine List.forall_mem_cons.mpr ⟨hpropose, ?_⟩
    exact List.forall_mem_append.mpr ⟨List.forall_mem_append.mpr ⟨hround, hround⟩, hround⟩
  obtain ⟨n, hn, hproposed⟩ : ∃ n, exampleEnd.validators.get? (exampleId 5) = some n ∧
      n.state.blocksProposed = 1 := by
    have hcount : (exampleEnd.validators.get? (exampleId 5)).map
        (fun n => n.state.blocksProposed) = some 1 := by decide +kernel
    obtain ⟨n, hn, hproposed⟩ := Option.map_eq_some_iff.mp hcount
    exact ⟨n, hn, hproposed⟩
  have hquiet : exampleEnd.view.bag = 0 := by
    rw [← Multiset.card_eq_zero]
    decide +kernel
  exact proposal_finalized thresholdReached_rat fiveValidators 0 assembled_exampleNodes htimely hn
    hproposed hquiet

end Example

end Qrtb.Routed
