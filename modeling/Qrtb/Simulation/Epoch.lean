import Qrtb.Simulation.Measurement
import Mathlib.Data.List.ReduceOption

/-!
# An epoch of the network

The contracts of the nodes put together, phase after phase. With positive total
stake one validator is selected and proposes to the others; everybody hears a vote
of everybody else, and the first node asked finalizes. Only a number that does not
fit its eight bytes can stop this.
-/

namespace Qrtb.Testnet

open PyFloat Stateful OrderedDict

variable {F α : Type} {registry : OrderedDict Bytes ℤ} {epoch : ℤ} {hash proposer : Bytes}
  {fits : Prop}

theorem contract_onConsensus {x : Stateful (BFTConsensus F) α} {pre : BFTConsensus F → Prop}
    {post : α → BFTConsensus F → Prop} (hx : Contract fits pre x post) :
    Contract fits (fun n : ValidatorNode F => pre n.consensus) (ValidatorNode.onConsensus x)
      fun a n => post a n.consensus := by
  rw [ValidatorNode.onConsensus]
  exact hx.on_part fun _ _ => rfl

/-- A message does to the other nodes what receiving it does; the sender is left alone. -/
theorem contract_deliver {P Q : Bytes → ValidatorNode F → Prop} {ks : List Bytes} {sender : Bytes}
    {receive : Stateful (ValidatorNode F) α}
    (hreceive : ∀ vid, vid ≠ sender → Contract fits (P vid) receive fun _ => Q vid)
    (hsender : ∀ n, P sender n → Q sender n) :
    Contract fits (Populated ks P) (deliver sender receive) fun _ => Populated ks Q := by
  have heach : ∀ vid, Contract fits (P vid)
      (if vid = sender then pure none else some <$> receive) fun _ n => True ∧ Q vid n := by
    intro vid
    refine Contract.ite (fun heq => contract_pure fun n hn => ?_) fun hne => ?_
    · subst heq
      exact ⟨trivial, hsender n hn⟩
    · exact Contract.map ((hreceive vid hne).weaken fun _ _ hn => ⟨trivial, hn⟩)
  exact (contract_forValues fun vid _ => heach vid).bind fun _ => contract_pure fun d hd => hd.2

theorem contract_forSenders {I : Validators F → Prop} {send : Bytes → Stateful (Validators F) Unit}
    (h : ∀ vid, Contract fits I (send vid) fun _ => I) :
    Contract fits I (forSenders send) fun _ => I := by
  refine (contract_look OrderedDict.keys).bind fun senders => ?_
  have hloop : Contract fits I (forEach send senders) fun _ => I :=
    contract_forEach (I := fun _ => I) fun done vid rest _ => h vid
  exact hloop.bind fun _ => contract_pure fun d hd => hd

section

variable [PyFloat F]

theorem contract_broadcastCommitment (sender : Bytes) :
    Contract fits (Populated registry.keys (Measured registry epoch) : Validators F → Prop)
      (broadcastCommitment sender) fun _ => Populated registry.keys (Measured registry epoch) := by
  refine (contract_look _).bind fun commitment => ?_
  cases commitment with
  | none => exact contract_pure fun d hd => hd
  | some c =>
    exact contract_deliver (fun vid _ => contract_receiveCommitment c) fun n hn => hn

theorem contract_broadcastReveal (sender : Bytes) :
    Contract fits (Populated registry.keys (Measured registry epoch) : Validators F → Prop)
      (broadcastReveal sender) fun _ => Populated registry.keys (Measured registry epoch) := by
  refine Contract.bind (contract_call contract_createReveal) fun reveal => ?_
  cases reveal with
  | none => exact contract_pure fun d hd => hd.2
  | some reveal =>
    refine contract_of_fact fun hreveal => ?_
    exact contract_deliver (fun vid _ => contract_receiveReveal (hreveal reveal rfl)) fun n hn => hn

/-- The proposer has its proposal filed, the other engines wait for it. -/
structure Proposing (registry : OrderedDict Bytes ℤ) (epoch : ℤ) (proposer : Bytes)
    (p : ConsensusProposal F) (vid : Bytes) (n : ValidatorNode F) : Prop where
  filed : vid = proposer → ∃ hash, Proposed epoch proposer hash p ∧
    Voting registry epoch hash [] [] vid n.consensus
  waiting : vid ≠ proposer → Ready registry epoch vid n.consensus

theorem contract_proposeIfMine (r : Readings F) (htotal : 0 < registry.values.sum)
    (hepoch : 0 ≤ epoch ∧ epoch < 256 ^ 8) (hselected : Selected registry epoch proposer)
    {measurements : MeasurementGraph F}
    (hroot : (BFTConsensus.measurementRoot measurements).Returns) :
    Contract fits (Measured registry epoch proposer) (proposeIfMine r measurements)
      fun made n => ∃ p, made = some p ∧ Proposing registry epoch proposer p proposer n := by
  intro n hn
  have hmine := hn.consensus.amIProposer htotal hepoch hselected
  obtain ⟨p, hash, hp, hproposed, hvoting⟩ :=
    hn.consensus.createProposal hepoch hroot r.proposeTime
  have hmade : (some <$> BFTConsensus.createProposal measurements [] [] r.proposeTime :
      Stateful (BFTConsensus F) _) n.consensus =
        (.ok (some p), (n.consensus.createProposal measurements [] [] r.proposeTime).2) :=
    bind_of_ok hp _
  have hstep : proposeIfMine r measurements n =
      (.ok (some p), { n with
        consensus := (n.consensus.createProposal measurements [] [] r.proposeTime).2 }) := by
    rw [proposeIfMine, reads_bind, id_eq, hmine, ofExcept_ok_bind, decide_eq_true rfl, if_pos rfl,
      createProposal, ValidatorNode.onConsensus, Stateful.on, hmade]
  rw [hstep]
  refine ⟨fun _ => ⟨_, rfl⟩, fun made h => ⟨p, (Except.ok.inj h).symm, ?_⟩⟩
  exact ⟨fun _ => ⟨hash, hproposed, hvoting⟩, fun hne => absurd rfl hne⟩

theorem contract_proposeIfMine_of_ne (r : Readings F) (htotal : 0 < registry.values.sum)
    (hepoch : 0 ≤ epoch ∧ epoch < 256 ^ 8) (hselected : Selected registry epoch proposer)
    {vid : Bytes} (hne : vid ≠ proposer) (measurements : MeasurementGraph F) :
    Contract fits (Measured registry epoch vid) (proposeIfMine r measurements)
      fun made n => made = none ∧ Measured registry epoch vid n := by
  have hstep : ∀ n, Measured registry epoch vid n →
      proposeIfMine r measurements n = (.ok none, n) := by
    intro n hn
    rw [proposeIfMine, reads_bind, id_eq, hn.consensus.amIProposer htotal hepoch hselected,
      decide_eq_false hne]
    rfl
  refine contract_of_returns (fun n hn => by rw [hstep n hn]) fun n hn => ⟨rfl, ?_⟩
  rwa [hstep n hn]

theorem contract_propose (r : Readings F) (htotal : 0 < registry.values.sum)
    (hepoch : 0 ≤ epoch ∧ epoch < 256 ^ 8) (hselected : Selected registry epoch proposer)
    (hknown : proposer ∈ registry.keys) :
    Contract fits (Populated registry.keys (Measured registry epoch)) (propose r)
      fun made d => made.1 = proposer ∧ (∃ hash, Proposed epoch proposer hash made.2) ∧
        Populated registry.keys (Proposing registry epoch proposer made.2) d := by
  have hread : Contract fits (Populated registry.keys (Measured registry epoch))
      (reads (allMeasurements (F := F))) fun measurements d =>
        (BFTConsensus.measurementRoot measurements).Returns ∧
          Populated registry.keys (Measured registry epoch) d := by
    refine contract_reads fun d hd => ⟨?_, hd⟩
    rw [measurementRoot_returns]
    intro ms hms
    obtain ⟨p, hp, rfl⟩ : ∃ p ∈ d.items, p.2.currentMeasurements = ms := by
      simpa [allMeasurements, OrderedDict.values, OrderedDict.map] using hms
    exact (hd.each p hp).current
  refine hread.bind fun measurements => contract_of_fact fun hroot => ?_
  obtain ⟨before, after, hkeys⟩ := List.append_of_mem hknown
  have hnodup : (before ++ proposer :: after).Nodup := hkeys ▸ registry.nodup
  rw [hkeys]
  refine Contract.bind (contract_firstValue (Q := Proposing registry epoch proposer)
    (fun vid hvid => contract_proposeIfMine_of_ne r htotal hepoch hselected ?_ measurements)
    (contract_proposeIfMine r htotal hepoch hselected hroot) ?_) fun made => ?_
  · rintro rfl
    exact List.disjoint_of_nodup_append hnodup hvid List.mem_cons_self
  · intro p _ _ vid n hne hn
    exact ⟨fun heq => absurd heq hne, fun _ => hn.consensus⟩
  · cases made with
    | none =>
      intro d hd
      obtain ⟨p, ⟨hmade, -⟩, -⟩ := hd
      cases hmade
    | some made =>
      refine contract_pure ?_
      rintro d ⟨p, ⟨hmade, n, hn⟩, hd⟩
      obtain rfl := Option.some.inj hmade
      obtain ⟨hash, hproposed, -⟩ := hn.filed rfl
      exact ⟨rfl, ⟨hash, hproposed⟩, hd⟩

omit [PyFloat F] in
theorem contract_receiveProposal (htotal : 0 < registry.values.sum)
    (hepoch : 0 ≤ epoch ∧ epoch < 256 ^ 8) (hselected : Selected registry epoch proposer)
    (hknown : proposer ∈ registry.keys) {p : ConsensusProposal F}
    (hp : Proposed epoch proposer hash p) :
    Contract fits (Populated registry.keys (Proposing registry epoch proposer p))
      (deliver proposer (ValidatorNode.onConsensus (checking (BFTConsensus.receiveProposal p))))
      fun _ => Populated registry.keys fun vid n =>
        Voting registry epoch hash [] [] vid n.consensus := by
  have hcontains : registry.contains proposer = true := 
    Option.isSome_iff_exists.mpr ((mem_keys_iff registry proposer).mp hknown)
  refine contract_deliver (fun vid hne => ?_) fun n hn => ?_
  · refine (contract_onConsensus (contract_accept fun c hc => ?_)).mono
      (fun n hn => hn.waiting hne) fun _ n hn => hn
    exact hc.receiveProposal htotal hepoch hselected hcontains hp
  · obtain ⟨hash', hp', hvoting⟩ := hn.filed rfl
    obtain rfl := Except.ok.inj (hp.proposalHash.symm.trans hp'.proposalHash)
    exact hvoting

theorem forall_reduceOption {κ : Type} {R : κ → α → Prop} {ks : List κ} {made : List (Option α)}
    (h : List.Forall₂ (fun k a => ∃ b, a = some b ∧ R k b) ks made) :
    List.Forall₂ R ks made.reduceOption := by
  induction h with
  | nil => exact .nil
  | cons ha _ ih =>
    obtain ⟨b, rfl, hb⟩ := ha
    rw [List.reduceOption_cons_of_some]
    exact .cons hb ih

omit [PyFloat F] in
theorem forall_cast {voteType : VoteType} {voters : List Bytes} {votes : List ConsensusVote}
    (h : List.Forall₂ (Cast registry epoch hash voteType) voters votes) :
    votes.map (fun vote => vote.voterId) = voters ∧
      ∀ vote ∈ votes, Cast registry epoch hash voteType vote.voterId vote := by
  induction h with
  | nil => exact ⟨rfl, List.forall_mem_nil _⟩
  | cons hvote _ ih =>
    obtain rfl := hvote.voterId
    exact ⟨by rw [List.map_cons, ih.1], List.forall_mem_cons.mpr ⟨hvote, ih.2⟩⟩

omit [PyFloat F] in
/-- With a vote of every validator handed around, every engine has heard all of them. The state of
an engine depends on the votes it was handed so far, among which its own counts as handed. -/
theorem contract_distribute {P : List Bytes → Bytes → BFTConsensus F → Prop} {voteType : VoteType}
    {receive : ConsensusVote → BFTConsensus F → Check Unit × BFTConsensus F}
    (hreceive : ∀ heard voter vote vid c, Cast registry epoch hash voteType voter vote →
      P heard vid c → (receive vote c).1 = .ok () ∧ P (heard ++ [voter]) vid (receive vote c).2)
    (hown : ∀ heard vid c, P heard vid c → P (heard ++ [vid]) vid c)
    {voters : List Bytes} {votes : List ConsensusVote}
    (hvotes : List.Forall₂ (Cast registry epoch hash voteType) voters votes) :
    Contract fits (Populated registry.keys fun vid n => P [] vid n.consensus)
      (distribute receive votes)
      fun _ => Populated registry.keys fun vid n => P voters vid n.consensus := by
  obtain ⟨rfl, hcast⟩ := forall_cast hvotes
  have hloop : Contract fits (Populated registry.keys fun vid n => P [] vid n.consensus)
      (forEach (fun vote => deliver vote.voterId
        (ValidatorNode.onConsensus (checking (receive vote)))) votes)
      fun _ => Populated registry.keys fun vid n =>
        P (votes.map fun vote => vote.voterId) vid n.consensus := by
    refine contract_forEach (I := fun (done : List ConsensusVote) =>
      Populated registry.keys fun vid (n : ValidatorNode F) =>
        P (done.map fun vote => vote.voterId) vid n.consensus) fun done vote rest heq => ?_
    have hvote := hcast vote (by rw [heq]; exact List.mem_append_right _ List.mem_cons_self)
    rw [List.map_append, List.map_singleton]
    refine contract_deliver (fun vid _ => ?_) fun n hn => hown _ _ _ hn
    exact contract_onConsensus (contract_accept fun c hc => hreceive _ _ _ _ c hvote hc)
  exact hloop.bind fun _ => contract_pure fun d hd => hd

/-- The nodes at one stage of the voting, by what each of them has heard. -/
abbrev Round (registry : OrderedDict Bytes ℤ) (epoch : ℤ) (hash : Bytes)
    (preVoters preCommitters : Bytes → List Bytes) : Validators F → Prop :=
  Populated registry.keys fun vid n =>
    Voting registry epoch hash (preVoters vid) (preCommitters vid) vid n.consensus

theorem contract_preVotes (time : Bytes → F) :
    Contract fits (Round registry epoch hash (fun _ => []) fun _ => [])
      (forValues fun vid =>
        ValidatorNode.onConsensus (total (BFTConsensus.createPreVote hash (time vid))))
      fun votes d => List.Forall₂ (Cast registry epoch hash .preVote) registry.keys votes ∧
        Round registry epoch hash (fun vid => [vid]) (fun _ => []) d := by
  refine contract_forValues fun vid _ => ?_
  have hvote : Contract fits (Voting registry epoch hash [] [] vid)
      (total (BFTConsensus.createPreVote hash (time vid))) fun vote c =>
        Cast registry epoch hash .preVote vid vote ∧ Voting registry epoch hash [vid] [] vid c :=
    contract_total fun c hc => hc.createPreVote (time vid)
  exact contract_onConsensus hvote

omit [PyFloat F] in
theorem contract_distributePreVotes {votes : List ConsensusVote}
    (hvotes : List.Forall₂ (Cast registry epoch hash .preVote) registry.keys votes) :
    Contract fits (Round registry epoch hash (fun vid => [vid]) fun _ => [] : Validators F → Prop)
      (distribute BFTConsensus.receivePreVote votes)
      fun _ => Round registry epoch hash (fun vid => vid :: registry.keys) fun _ => [] := by
  refine contract_distribute (P := fun heard vid c =>
    Voting registry epoch hash (vid :: heard) [] vid c) ?_ ?_ hvotes
  · exact fun heard voter vote vid c hvote hc => hc.receivePreVote hvote
  · intro heard vid c hc
    exact { hc with preVotes := hc.preVotes.subset (by grind) }

theorem contract_preCommits (hfull : FullQuorum F) (htotal : 0 < registry.values.sum)
    (time : Bytes → F) :
    Contract fits (Round registry epoch hash (fun vid => vid :: registry.keys) fun _ => [])
      (forValues fun vid =>
        ValidatorNode.onConsensus (total (BFTConsensus.createPreCommit hash (time vid))))
      fun votes d =>
        List.Forall₂ (Cast registry epoch hash .preCommit) registry.keys votes.reduceOption ∧
          Round registry epoch hash (fun vid => vid :: registry.keys) (fun vid => [vid]) d := by
  have hvote : ∀ vid ∈ registry.keys, Contract fits
      (Voting registry epoch hash (vid :: registry.keys) [] vid)
      (total (BFTConsensus.createPreCommit hash (time vid))) fun made c =>
        (∃ vote, made = some vote ∧ Cast registry epoch hash .preCommit vid vote) ∧
          Voting registry epoch hash (vid :: registry.keys) [vid] vid c := by
    intro vid _
    refine contract_total fun c hc => ?_
    exact hc.createPreCommit hfull htotal (fun v hv => List.mem_cons_of_mem _ hv) (time vid)
  refine (contract_forValues fun vid hvid => contract_onConsensus (hvote vid hvid)).weaken
    fun votes d hd => ⟨?_, hd.2⟩
  exact forall_reduceOption hd.1

omit [PyFloat F] in
theorem contract_distributePreCommits {votes : List ConsensusVote}
    (hvotes : List.Forall₂ (Cast registry epoch hash .preCommit) registry.keys votes) :
    Contract fits (Round registry epoch hash (fun vid => vid :: registry.keys) fun vid => [vid] :
        Validators F → Prop)
      (distribute BFTConsensus.receivePreCommit votes)
      fun _ => Round registry epoch hash (fun vid => vid :: registry.keys)
        fun vid => vid :: registry.keys := by
  refine contract_distribute (P := fun heard vid c =>
    Voting registry epoch hash (vid :: registry.keys) (vid :: heard) vid c) ?_ ?_ hvotes
  · exact fun heard voter vote vid c hvote hc => hc.receivePreCommit hvote
  · intro heard vid c hc
    exact { hc with preCommits := hc.preCommits.subset (by grind) }

theorem contract_tryFinalize (hfull : FullQuorum F) (htotal : 0 < registry.values.sum)
    (hknown : proposer ∈ registry.keys) (time : Bytes → F)
    (hfits : fits → registry.values.sum < 256 ^ 8 ∧
      ∀ vid ∈ registry.keys, 0 ≤ milliseconds (time vid) ∧ milliseconds (time vid) < 256 ^ 8) :
    Contract fits (Round registry epoch hash (fun vid => vid :: registry.keys)
        fun vid => vid :: registry.keys)
      (firstValue fun vid => ValidatorNode.onConsensus (BFTConsensus.tryFinalize hash (time vid)))
      fun made _ => ∃ vid b, made = some (vid, b) ∧ b.supportingStake = registry.values.sum := by
  obtain ⟨first, rest, hkeys⟩ := List.exists_cons_of_ne_nil (List.ne_nil_of_mem hknown)
  have hfirst : first ∈ registry.keys := by
    rw [hkeys]
    exact List.mem_cons_self
  have hengine : Contract fits (Voting registry epoch hash (first :: registry.keys)
      (first :: registry.keys) first) (BFTConsensus.tryFinalize hash (time first))
      fun made _ => ∃ b, made = some b ∧ b.supportingStake = registry.values.sum := by
    intro c hc
    obtain ⟨hreturns, hblock⟩ := hc.tryFinalize hfull htotal
      (fun v hv => List.mem_cons_of_mem _ hv) (time first)
    exact ⟨fun h => hreturns (hfits h).1 ((hfits h).2 first hfirst), hblock⟩
  have hround : (Round registry epoch hash (fun vid => vid :: registry.keys)
      (fun vid => vid :: registry.keys) : Validators F → Prop) = Populated (first :: rest) fun vid n =>
        Voting registry epoch hash (vid :: registry.keys) (vid :: registry.keys) vid n.consensus := by
    rw [← hkeys]
  rw [hround]
  refine (contract_firstValue_head (contract_onConsensus hengine)).weaken ?_
  rintro made d ⟨b, hmade, hb⟩
  exact ⟨first, b, hmade, hb⟩

theorem contract_runConsensus (hfull : FullQuorum F) (r : Readings F)
    (htotal : 0 < registry.values.sum) (hepoch : 0 ≤ epoch ∧ epoch < 256 ^ 8)
    (hselected : Selected registry epoch proposer) (hknown : proposer ∈ registry.keys)
    (hfits : fits → registry.values.sum < 256 ^ 8 ∧ ∀ vid ∈ registry.keys,
      0 ≤ milliseconds (r.finalizeTime vid) ∧ milliseconds (r.finalizeTime vid) < 256 ^ 8) :
    Contract fits (Populated registry.keys (Measured registry epoch)) (runConsensus r)
      fun block _ => ∃ b, block = some b ∧ b.supportingStake = registry.values.sum := by
  refine (contract_propose r htotal hepoch hselected hknown).bind fun ⟨sender, p⟩ => ?_
  refine contract_of_fact fun hsender => contract_of_fact fun ⟨hash, hp⟩ => ?_
  dsimp only at hsender hp
  subst hsender
  refine (contract_receiveProposal htotal hepoch hselected hknown hp).bind fun _ => ?_
  rw [hp.proposalHash]
  have hhash : Contract fits (Round registry epoch hash (fun _ => []) fun _ => [] :
      Validators F → Prop) (ofExcept (.ok hash)) fun a d =>
        a = hash ∧ Round registry epoch hash (fun _ => []) (fun _ => []) d :=
    contract_reads fun d hd => ⟨rfl, hd⟩
  refine hhash.bind fun a => contract_of_fact ?_
  rintro rfl
  refine (contract_preVotes r.preVoteTime).bind fun votes => contract_of_fact fun hvotes => ?_
  refine (contract_distributePreVotes hvotes).bind fun _ => ?_
  refine (contract_preCommits hfull htotal r.preCommitTime).bind fun preCommits =>
    contract_of_fact fun hpreCommits => ?_
  refine (contract_distributePreCommits hpreCommits).bind fun _ => ?_
  refine (contract_tryFinalize hfull htotal hknown r.finalizeTime hfits).bind fun made => ?_
  refine contract_pure ?_
  rintro d ⟨vid, b, rfl, hb⟩
  exact ⟨b, rfl, hb⟩

end

end Qrtb.Testnet
