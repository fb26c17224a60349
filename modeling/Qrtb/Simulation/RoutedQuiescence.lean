import Qrtb.Simulation.Delivery
import Qrtb.Simulation.RoutedVoting
import Mathlib.Data.List.TakeWhile

/-!
# The routed network comes to rest

A proposal leads to one pre-vote for each peer, a pre-vote to one pre-commit for each
peer at most, and no other message is answered. So, when no node acts on its own, as
many rounds of routing, delivering and processing as the messages weigh leave nothing
in transit, even if processing is stopped by an exception in every one of them.
-/

namespace Qrtb.Routed

open PyFloat Stateful Mailbox AsyncNetwork Transition

variable {F : Type}

/-- What a message weighs among nodes with so many peers. -/
def Message.weight (peers : ℕ) : Message F → ℕ
  | .commitment _ => 1
  | .reveal _ => 1
  | .proposal _ => 1 + peers * (1 + peers)
  | .vote v =>
    match v.voteType with
    | .preVote => 1 + peers
    | .preCommit => 1

/-- A node with no more peers than that. -/
def Connected (peers : ℕ) (s : NodeState F) : Prop := s.voting.peers.length ≤ peers

variable [PyFloat F]

theorem outbox_receiveProposal {n : Qrtb.ValidatorNode F} (hn : n.outbox = [])
    (proposal : ConsensusProposal F) (time : F) :
    (n.receiveProposal proposal time).2.peers = n.peers ∧
      ((n.receiveProposal proposal time).2.outbox = [] ∨ ∃ v : ConsensusVote, v.voteType = .preVote ∧
        (n.receiveProposal proposal time).2.outbox = n.peers.map fun peer => (peer, .vote v)) := by
  rcases n.consensus.receiveProposal_cases proposal with ⟨e, h⟩ | ⟨hash, -, hhash, h⟩
  · simp only [Qrtb.ValidatorNode.receiveProposal, h]
    exact ⟨trivial, Or.inl hn⟩
  · simp only [Qrtb.ValidatorNode.receiveProposal, h, hhash, Qrtb.ValidatorNode.castVote,
      Qrtb.ValidatorNode.broadcast, hn, List.nil_append]
    exact ⟨trivial, Or.inr ⟨_, rfl, rfl⟩⟩

theorem outbox_afterPreVote {n : Qrtb.ValidatorNode F} (hn : n.outbox = []) (proposalHash : Bytes)
    (time : F) :
    (n.afterPreVote proposalHash time).peers = n.peers ∧
      ((n.afterPreVote proposalHash time).outbox = [] ∨ ∃ v : ConsensusVote,
        v.voteType = .preCommit ∧
        (n.afterPreVote proposalHash time).outbox = n.peers.map fun peer => (peer, .vote v)) := by
  rw [Qrtb.ValidatorNode.afterPreVote]
  rcases n.consensus.createPreCommit_cases proposalHash time with
    ⟨hthreshold, -⟩ | ⟨hthreshold, hcreate⟩
  · rw [hthreshold, if_neg Bool.false_ne_true]
    exact ⟨rfl, Or.inl hn⟩
  · simp only [hthreshold, if_true, hcreate, Qrtb.ValidatorNode.castVote,
      Qrtb.ValidatorNode.broadcast, hn, List.nil_append]
    exact ⟨trivial, Or.inr ⟨_, rfl, rfl⟩⟩

theorem outbox_receiveVote {n : Qrtb.ValidatorNode F} (hn : n.outbox = []) (vote : ConsensusVote)
    (time : F) :
    (n.receiveVote vote time).2.peers = n.peers ∧
      ((n.receiveVote vote time).2.outbox = [] ∨ vote.voteType = .preVote ∧
        ∃ v : ConsensusVote, v.voteType = .preCommit ∧
          (n.receiveVote vote time).2.outbox = n.peers.map fun peer => (peer, .vote v)) := by
  have hpreVote := fun c : BFTConsensus F =>
    outbox_afterPreVote (n := { n with consensus := c }) hn vote.proposalHash time
  have hpreCommit := fun c : BFTConsensus F =>
    silent_afterPreCommit { n with consensus := c } vote.proposalHash time
  rw [Qrtb.ValidatorNode.receiveVote]
  cases vote.voteType with
  | preVote =>
    rcases n.consensus.receivePreVote_cases vote with ⟨e, h⟩ | ⟨-, h⟩
    · simp only [h]
      exact ⟨trivial, Or.inl hn⟩
    · simp only [h]
      exact ⟨(hpreVote _).1, (hpreVote _).2.imp (fun h => h) fun h => ⟨trivial, h⟩⟩
  | preCommit =>
    rcases n.consensus.receivePreCommit_cases vote with ⟨e, h⟩ | ⟨-, h⟩
    · simp only [h]
      exact ⟨trivial, Or.inl hn⟩
    · simp only [h]
      exact ⟨(hpreCommit _).1, Or.inl ((hpreCommit _).2.trans hn)⟩

omit [PyFloat F] in
theorem sum_weight_broadcast (peers : ℕ) (ps : List Bytes) (v : ConsensusVote) :
    (((ps.map fun peer => (peer, Qrtb.Message.vote (F := F) v)).map fun l =>
      (l.1, Message.ofVoting l.2)).map fun l => l.2.weight peers).sum =
        ps.length * (Message.vote (F := F) v).weight peers := by
  induction ps with
  | nil => rw [List.map_nil, List.map_nil, List.map_nil, List.sum_nil, List.length_nil, zero_mul]
  | cons p ps ih =>
    rw [List.map_cons, List.map_cons, List.map_cons, List.sum_cons, ih, List.length_cons,
      Nat.succ_mul, add_comm]
    rfl

omit [PyFloat F] in
theorem weight_pos (peers : ℕ) (m : Message F) : 0 < m.weight peers := by
  cases m with
  | commitment | reveal => exact Nat.one_pos
  | proposal => exact Nat.add_pos_left Nat.one_pos _
  | vote v =>
    rw [Message.weight]
    cases v.voteType with
    | preVote => exact Nat.add_pos_left Nat.one_pos _
    | preCommit => exact Nat.one_pos

omit [PyFloat F] in
theorem weight_vote (peers : ℕ) {v : ConsensusVote} :
    (v.voteType = .preVote → (Message.vote (F := F) v).weight peers = 1 + peers) ∧
      (v.voteType = .preCommit → (Message.vote (F := F) v).weight peers = 1) := by
  refine ⟨fun h => ?_, fun h => ?_⟩
  · rw [Message.weight, h]
  · rw [Message.weight, h]

theorem outweighs (peers : ℕ) :
    Outweighs (system (F := F)) (fun _ s => Connected peers s) (Message.weight peers) := by
  have hboth : ∀ (m : Message F) (time : F) (s : NodeState F), Connected peers s →
      ((system.handle m time s).2.map fun l => l.2.weight peers).sum < m.weight peers ∧
        Connected peers (system.handle m time s).1 := by
    intro m time s hs
    have hpos := weight_pos peers m
    cases m with
    | commitment c =>
      have houtside := outside_measures (m := .commitment c) (Or.inl ⟨c, rfl⟩) time s
      refine ⟨hpos, ?_⟩
      rw [Connected, houtside.voting]
      exact hs
    | reveal reveal =>
      have houtside := outside_measures (m := .reveal reveal) (Or.inr ⟨reveal, rfl⟩) time s
      have hnone : (system.handle (.reveal reveal) time s).2 = [] :=
        congrArg Prod.snd (reaction_bind_pure _ _ s)
      refine ⟨by rwa [hnone], ?_⟩
      rw [Connected, houtside.voting]
      exact hs
    | proposal p =>
      have hfollows := follows_receiveProposal p time s
      obtain ⟨hpeers, hout⟩ := outbox_receiveProposal (n := s.voting) rfl p time
      refine ⟨?_, ?_⟩
      · change ((reaction (receiveProposal p time) s).2.map fun l => l.2.weight peers).sum < _
        rw [hfollows.out]
        rcases hout with hnone | ⟨v, htype, hall⟩
        · rwa [hnone]
        · rw [hall, sum_weight_broadcast, (weight_vote peers).1 htype, Message.weight]
          have hle := Nat.mul_le_mul_right (1 + peers) hs
          omega
      · rw [Connected, show (system.handle (.proposal p) time s).1.voting.peers = _ from
          hfollows.peers, hpeers]
        exact hs
    | vote vote =>
      have hfollows := follows_receiveVote vote time s
      obtain ⟨hpeers, hout⟩ := outbox_receiveVote (n := s.voting) rfl vote time
      refine ⟨?_, ?_⟩
      · change ((reaction (receiveVote vote time) s).2.map fun l => l.2.weight peers).sum < _
        rw [hfollows.out]
        rcases hout with hnone | ⟨hpreVote, v, htype, hall⟩
        · rwa [hnone]
        · rw [hall, sum_weight_broadcast, (weight_vote peers).2 htype,
            (weight_vote peers).1 hpreVote, mul_one]
          have hle : s.voting.peers.length ≤ peers := hs
          omega
      · rw [Connected, show (system.handle (.vote vote) time s).1.voting.peers = _ from
          hfollows.peers, hpeers]
        exact hs
  exact ⟨fun _ s m time hs => (hboth m time s hs).1, fun _ s m time hs => (hboth m time s hs).2⟩

/-- Rounds of routing, delivering at a time when everything is due, and processing. -/
inductive Rounds : QRTBTestnet F → ℕ → QRTBTestnet F → Prop
  | none (t : QRTBTestnet F) : Rounds t 0 t
  | more {t t' : QRTBTestnet F} {k : ℕ} (conditions : Conditions F) (now : F)
      (clock : Bytes → ℕ → F)
      (due : ∀ l ∈ (t.routeMessages conditions).messageQueue, l.Due now = true)
      (rest : Rounds (runs exec [.route conditions, .deliver now, .process clock] t) k t') :
      Rounds t (k + 1) t'

theorem outbox_deliverQueue (now : F) (queue : List (Letter F)) (validators : Validators F)
    (h : ∀ v n, validators.get? v = some n → n.outbox = []) :
    ∀ v n, (QRTBTestnet.deliverQueue now queue validators).2.2.get? v = some n → n.outbox = [] := by
  induction queue generalizing validators with
  | nil => exact h
  | cons l queue ih =>
    rw [QRTBTestnet.deliverQueue]
    split_ifs
    · cases hget : validators.get? l.target with
      | none => exact ih validators h
      | some target => exact ih _ (OrderedDict.forall_get?_set (h _ target hget) h)
    · exact h

theorem outbox_routeMessages (c : Conditions F) (t : QRTBTestnet F) :
    ∀ v n, (t.routeMessages c).validators.get? v = some n → n.outbox = [] := by
  intro v n h
  rw [QRTBTestnet.routeMessages, OrderedDict.get?_map, Option.map_eq_some_iff] at h
  obtain ⟨n', -, rfl⟩ := h
  rfl

/-- When the outboxes and the queue are empty and no message is handled in processing, there is
none to handle. -/
theorem bag_of_view_process {clock : Bytes → ℕ → F} {t : QRTBTestnet F}
    (hout : ∀ v n, t.validators.get? v = some n → n.outbox = []) (hqueue : t.messageQueue = [])
    (h : t.view = (exec (.process clock) t).view) : t.view.bag = 0 := by
  rw [QRTBTestnet.view, hqueue]
  refine bag_eq_zero (fun n hn => ?_) fun n hn => ?_
  · obtain ⟨v, hget⟩ := (OrderedDict.mem_values_iff _ n).mp hn
    exact hout v n hget
  · by_contra hbusy
    have hprogress := OrderedDict.lt_sum_forValues (f := fun vid => processInbox (clock vid))
      (g := fun n => n.handled.length) (B := fun n => n.inbox ≠ [])
      (fun vid n => (length_handled_drain (fun m i => local_receive m (clock vid i)) n).1)
      (fun vid n hidle => ⟨(), (length_handled_drain (fun m i => local_receive m (clock vid i))
        n).2.2 (not_not.mp hidle)⟩)
      (fun vid n => (length_handled_drain (fun m i => local_receive m (clock vid i)) n).2.1)
      ⟨n, hn, hbusy⟩
    have hcard := congrArg (fun c => Multiset.card c.handled) h
    rw [exec_process] at hcard
    simp only [QRTBTestnet.view, card_handled_view] at hcard
    exact absurd hcard hprogress.ne

theorem weight_round {peers : ℕ} {t : QRTBTestnet F}
    (ht : ∀ v s, t.view.nodes.get? v = some s → Connected peers s) (conditions : Conditions F)
    {now : F} (clock : Bytes → ℕ → F)
    (hdue : ∀ l ∈ (t.routeMessages conditions).messageQueue, l.Due now = true) :
    let t' := runs exec [.route conditions, .deliver now, .process clock] t
    t'.view.weight (Message.weight peers) ≤ t.view.weight (Message.weight peers) - 1 ∧
      ∀ v s, t'.view.nodes.get? v = some s → Connected peers s := by
  intro t'
  have hview : (exec (.deliver now) (exec (.route conditions) t)).view = t.view :=
    (view_deliverQueue now _ _).trans (view_routeMessages conditions t)
  have hqueue : (exec (.deliver now) (exec (.route conditions) t)).messageQueue = [] :=
    (deliverQueue_queue now _ _).trans (List.dropWhile_eq_nil_iff.mpr hdue)
  have hout : ∀ v n, (exec (.deliver now) (exec (.route conditions) t)).validators.get? v = some n →
      n.outbox = [] := outbox_deliverQueue now _ _ (outbox_routeMessages conditions t)
  obtain ⟨labels, hlabels, hrun⟩ :=
    run_exec (.process clock) (exec (.deliver now) (exec (.route conditions) t))
  have hhandle : ∀ l ∈ labels, ∃ k m r, l = .handle k m r := by
    intro l hl
    obtain ⟨v, m, i, rfl⟩ := hlabels l hl
    exact ⟨v, m, clock v i, rfl⟩
  obtain ⟨hcost, hconnected⟩ := (outweighs peers).run hhandle hrun (by rwa [hview])
  refine ⟨?_, hconnected⟩
  rw [hview] at hcost
  change _ + t'.view.weight _ ≤ _ at hcost
  cases labels with
  | nil =>
    have hbag := bag_of_view_process hout hqueue hrun.eq_of_nil
    rw [hview] at hbag
    have hzero : t.view.weight (Message.weight peers) = 0 := by rw [Config.weight, hbag]; rfl
    omega
  | cons l labels =>
    rw [List.length_cons] at hcost
    omega

/-- As many rounds as the messages in transit weigh leave none of them in transit and none of those
sent in answer, whatever the times and the exceptions. -/
theorem rounds_come_to_rest {peers k : ℕ} {t t' : QRTBTestnet F}
    (ht : ∀ v n, t.validators.get? v = some n → n.state.voting.peers.length ≤ peers)
    (hk : t.view.weight (Message.weight peers) ≤ k) (h : Rounds t k t') : t'.view.bag = 0 := by
  have hview : ∀ v s, t.view.nodes.get? v = some s → Connected peers s := by
    intro v s hs
    rw [QRTBTestnet.view, Mailbox.view, OrderedDict.get?_map, Option.map_eq_some_iff] at hs
    obtain ⟨n, hn, rfl⟩ := hs
    exact ht v n hn
  clear ht
  induction h with
  | none t => exact bag_eq_zero_of_weight (weight_pos peers) (Nat.le_zero.mp hk)
  | more conditions now clock due rest ih =>
    obtain ⟨hweight, hconnected⟩ := weight_round hview conditions clock due
    exact ih (by omega) hconnected

section Example

theorem exists_rounds_example (k : ℕ) {t : QRTBTestnet ℚ} (hdelay : t.messageDelayMs = 0)
    (hqueue : ∀ l ∈ t.messageQueue, l.Due 1 = true) : ∃ t', Rounds t k t' := by
  have hletters : ∀ t : QRTBTestnet ℚ, t.messageDelayMs = 0 → ∀ l ∈ t.letters exampleConditions,
      l.Due 1 = true := by
    intro t hdelay l hl
    obtain ⟨p, -, hl⟩ := List.mem_flatMap.mp hl
    obtain ⟨q, -, hq⟩ := List.mem_filterMap.mp hl
    obtain ⟨target, -, rfl⟩ := Option.map_eq_some_iff.mp hq
    have hzero : calculateDelay exampleConditions (exampleConditions.gauss p.1 q.2) 0 p.2 target =
        (0 : ℚ) :=
      have hactual : ¬ lt (0 : ℚ) (mul (div (Testnet.theoreticalRttMs 0) (literal 2)) (literal 1)) :=
        by decide +kernel
      if_neg hactual
    rw [Letter.Due, hdelay, hzero]
    change le (add (0 : ℚ) (div 0 (literal 1000))) 1 = true
    decide +kernel
  induction k generalizing t with
  | zero => exact ⟨t, .none t⟩
  | succ k ih =>
    have hdue : ∀ l ∈ (t.routeMessages exampleConditions).messageQueue, l.Due 1 = true := by
      intro l hl
      exact (List.mem_append.mp ((List.mem_insertionSort _).mp hl)).elim (hqueue l)
        (hletters t hdelay l)
    have hempty : (exec (.deliver 1) (exec (.route exampleConditions) t)).messageQueue = [] :=
      (deliverQueue_queue 1 _ _).trans (List.dropWhile_eq_nil_iff.mpr hdue)
    have hnext : (runs exec [.route exampleConditions, .deliver 1, .process fun _ _ => 1]
        t).messageQueue = [] := by
      rw [runs_cons, runs_cons, runs_cons, runs_nil, exec_process]
      exact hempty
    obtain ⟨t', ht'⟩ := ih (t := runs exec
      [.route exampleConditions, .deliver 1, .process fun _ _ => 1] t) (by
        rw [runs_cons, runs_cons, runs_cons, runs_nil, exec_process]
        exact hdelay) (by
        rw [hnext]
        exact List.forall_mem_nil _)
    exact ⟨t', .more exampleConditions 1 (fun _ _ => 1) hdue ht'⟩

theorem rounds_come_to_rest_proposal :
    ∃ t', Rounds (runs exec exampleProposing (QRTBTestnet.fresh 0 (exampleNodes ℚ))) 84 t' ∧
      t'.view.bag = 0 := by
  have hpeers : ∀ n ∈ (runs exec exampleProposing (QRTBTestnet.fresh 0 (exampleNodes ℚ))).validators.values,
      n.state.voting.peers.length ≤ 4 := by decide +kernel
  have hweight : (runs exec exampleProposing (QRTBTestnet.fresh 0 (exampleNodes ℚ))).view.weight
      (Message.weight 4) ≤ 84 := by decide +kernel
  have hqueue : ∀ l ∈ (runs exec exampleProposing
      (QRTBTestnet.fresh 0 (exampleNodes ℚ))).messageQueue, l.Due 1 = true := by decide +kernel
  obtain ⟨t', ht'⟩ := exists_rounds_example 84 (by decide +kernel) hqueue
  refine ⟨t', ht', rounds_come_to_rest (fun v n hget => ?_) hweight ht'⟩
  exact hpeers n ((OrderedDict.mem_values_iff _ n).mpr ⟨v, hget⟩)

end Example

end Qrtb.Routed
