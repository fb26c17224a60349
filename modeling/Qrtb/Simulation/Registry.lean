import Qrtb.Simulation.Testnet
import Qrtb.Consensus.Voting

/-!
# The registry of the simulated network

Connecting the validators registers each of them with the stake of every other.
No later call registers anybody, whether it returns or raises, so in all epochs the
engines hold one registry, which is that of the configured stakes.
-/

namespace Qrtb.Testnet

open PyFloat Stateful OrderedDict

variable {F : Type}

/-- An engine of a validator of the registry that holds the registry. -/
structure EngineOf (registry : OrderedDict Bytes ℤ) (vid : Bytes) (c : BFTConsensus F) : Prop where
  known : registry.contains vid = true
  validatorId : c.validatorId = vid
  validators : ∀ v, c.validators.get? v = registry.get? v
  totalStake : c.totalStake = registry.values.sum

/-- A node that is configured with its stake in the registry and whose engine holds it. -/
structure Registered (registry : OrderedDict Bytes ℤ) (vid : Bytes) (n : ValidatorNode F) :
    Prop where
  validatorId : n.validatorId = vid
  stake : registry.get? vid = some n.config.stake
  consensus : EngineOf registry vid n.consensus
  epochs : 0 ≤ n.epochManager.currentEpoch

variable {registry : OrderedDict Bytes ℤ} {vid : Bytes} {α : Type}

theorem Registered.withConsensus {n : ValidatorNode F} (hn : Registered registry vid n)
    {c : BFTConsensus F} (hc : EngineOf registry vid c) :
    Registered registry vid { n with consensus := c } :=
  ⟨hn.validatorId, hn.stake, hc, hn.epochs⟩

theorem Registered.withMeasurement {n : ValidatorNode F} (hn : Registered registry vid n)
    (p : MeasurementProtocol F) : Registered registry vid { n with measurementProtocol := p } :=
  ⟨hn.validatorId, hn.stake, hn.consensus, hn.epochs⟩

theorem EngineOf.congr {c c' : BFTConsensus F} (hc : EngineOf registry vid c)
    (hid : c'.validatorId = c.validatorId) (hvalidators : c'.validators = c.validators)
    (htotal : c'.totalStake = c.totalStake) : EngineOf registry vid c' := by
  refine ⟨hc.known, hid.trans hc.validatorId, ?_, htotal.trans hc.totalStake⟩
  intro v
  rw [hvalidators]
  exact hc.validators v

section

variable [PyFloat F]

theorem EngineOf.next {c : BFTConsensus F} (hc : EngineOf registry vid c)
    {op : BFTConsensus.Operation F} (hop : ∀ v stake, op ≠ .registerValidator v stake) :
    EngineOf registry vid (c.next op) := by
  obtain ⟨hid, hvalidators, htotal⟩ := (c.effect_next op).registry hop
  exact hc.congr hid hvalidators htotal

omit [PyFloat F] in
theorem preserves_onConsensus {x : Stateful (BFTConsensus F) α}
    (hx : Preserves (EngineOf registry vid) x) :
    Preserves (Registered registry vid) (ValidatorNode.onConsensus x) :=
  hx.on (fun _ hn => hn.consensus) fun _ _ hn hc => hn.withConsensus hc

omit [PyFloat F] in
theorem preserves_onMeasurement (x : Stateful (MeasurementProtocol F) α) :
    Preserves (Registered registry vid) (ValidatorNode.onMeasurement x) :=
  fun _ hn => hn.withMeasurement _

/-- An epoch that is started counts the epochs of the node up and starts a round. -/
theorem preserves_startEpoch (epoch : ℤ) (time : F) :
    Preserves (Registered registry vid) (ValidatorNode.startEpoch epoch time) := by
  intro n hn
  have hengine : EngineOf registry vid
      ((Epochs.ValidatorNode.startEpoch epoch time n.toValidatorNode).2.consensus) := by
    rw [Epochs.ValidatorNode.startEpoch]
    dsimp only
    split
    next => exact hn.consensus
    next =>
      have hstart : EngineOf registry vid (n.consensus.next (.startRound epoch 0)) := by
        apply hn.consensus.next
        intro _ _ h
        cases h
      exact hstart
  have hepochs : 0 ≤ (Epochs.ValidatorNode.startEpoch epoch time
      n.toValidatorNode).2.epochManager.currentEpoch := by
    have hcount := Epochs.ValidatorNode.currentEpoch_act ⟨epoch, time⟩ n.toValidatorNode
    have hold := hn.epochs
    simp only [Epochs.ValidatorNode.Start.act] at hcount
    omega
  exact ⟨hn.validatorId, hn.stake, hengine, hepochs⟩

theorem preserves_runMeasurementPhase (r : Readings F) :
    Preserves (Registered registry vid) (ValidatorNode.runMeasurementPhase r) := by
  refine (preserves_modify fun n hn => ?_).bind fun _ => ?_
  · exact ⟨hn.validatorId, hn.stake, hn.consensus, hn.epochs⟩
  · refine Preserves.bind ?_ fun _ => Preserves.bind ?_ fun measurements => ?_
    · exact (preserves_reads _).bind fun _ => (preserves_ofExcept _).bind fun _ =>
        preserves_onMeasurement _
    · exact (preserves_reads _).bind fun _ => (preserves_onMeasurement _).bind fun _ =>
        preserves_pure _
    · refine preserves_modify fun n hn => ?_
      exact ⟨hn.validatorId, hn.stake, hn.consensus, hn.epochs⟩

theorem preserves_createMeasurementCommitment (time : F) :
    Preserves (Registered registry vid) (ValidatorNode.createMeasurementCommitment time) := by
  refine (preserves_onMeasurement _).bind fun commitment => preserves_modify fun n hn => ?_
  exact ⟨hn.validatorId, hn.stake, hn.consensus, hn.epochs⟩

omit [PyFloat F] in
theorem preserves_deliver {P : Bytes → ValidatorNode F → Prop} {ks : List Bytes}
    {receive : Stateful (ValidatorNode F) α} (h : ∀ vid, Preserves (P vid) receive)
    (sender : Bytes) : Preserves (Populated ks P) (deliver sender receive) := by
  refine Preserves.bind (preserves_forValues fun vid => ?_) fun _ => preserves_pure _
  exact (preserves_pure none).ite ((h vid).map some)

/-- The validators of the registry, each of them registered. -/
abbrev Members (registry : OrderedDict Bytes ℤ) : Validators F → Prop :=
  Populated registry.keys (Registered registry)

omit [PyFloat F] in
theorem get?_map_stake {d : Validators F} (hd : Members registry d) (vid : Bytes) :
    (d.map fun n => n.config.stake).get? vid = registry.get? vid := by
  rw [get?_map]
  cases h : d.get? vid with
  | some n => exact (hd.get? h).2.stake.symm
  | none =>
    symm
    rw [Option.map_none, Option.eq_none_iff_forall_ne_some]
    intro stake hstake
    have hknown : vid ∈ d.keys := by
      rw [hd.keys]
      exact (mem_keys_iff registry vid).mpr ⟨stake, hstake⟩
    obtain ⟨n, hn⟩ := (mem_keys_iff d vid).mp hknown
    rw [h] at hn
    cases hn

omit [PyFloat F] in
theorem sum_stake {d : Validators F} (hd : Members registry d) :
    (d.values.map fun n => n.config.stake).sum = registry.values.sum := by
  have hsum := OrderedDict.sumBy_congr id (get?_map_stake hd)
  rwa [OrderedDict.sumBy, OrderedDict.sumBy, List.map_id, List.map_id, values_map] at hsum

omit [PyFloat F] in
theorem preserves_forSenders {I : Validators F → Prop} {send : Bytes → Stateful (Validators F) Unit}
    (h : ∀ vid, Preserves I (send vid)) : Preserves I (forSenders send) :=
  (preserves_reads _).bind fun _ => (Preserves.forEach h _).bind fun _ => preserves_pure _

omit [PyFloat F] in
theorem preserves_broadcastCommitment (sender : Bytes) :
    Preserves (Members registry : Validators F → Prop) (broadcastCommitment sender) := by
  refine (preserves_reads _).bind fun commitment => ?_
  cases commitment with
  | none => exact preserves_pure _
  | some c => exact preserves_deliver (fun vid => preserves_onMeasurement _) sender

theorem preserves_broadcastReveal (sender : Bytes) :
    Preserves (Members registry : Validators F → Prop) (broadcastReveal sender) := by
  refine (preserves_call (preserves_onMeasurement _)).bind fun reveal => ?_
  cases reveal with
  | none => exact preserves_pure _
  | some reveal => exact preserves_deliver (fun vid => preserves_onMeasurement _) sender

theorem preserves_createProposal (r : Readings F) (measurements : MeasurementGraph F) :
    Preserves (Registered registry vid) (createProposal r measurements) := by
  apply preserves_onConsensus
  refine Preserves.map ?_ some
  intro c hc
  have hnext : EngineOf registry vid (c.next (.createProposal measurements [] [] r.proposeTime)) :=
    hc.next fun _ _ h => nomatch h
  exact hnext

theorem preserves_propose (r : Readings F) :
    Preserves (Members registry : Validators F → Prop) (propose r) := by
  refine (preserves_reads _).bind fun measurements => ?_
  refine (preserves_firstValue fun vid => ?_).bind fun made => ?_
  · refine (preserves_reads _).bind fun n => (preserves_ofExcept _).bind fun mine => ?_
    exact (preserves_createProposal r measurements).ite (preserves_pure _)
  · cases made with
    | some proposal => exact preserves_pure _
    | none =>
      refine (preserves_firstValue fun vid => preserves_createProposal r measurements).bind
        fun made => ?_
      cases made with
      | some proposal => exact preserves_pure _
      | none => exact preserves_ofExcept _

omit [PyFloat F] in
theorem preserves_distribute
    {receive : ConsensusVote → BFTConsensus F → Check Unit × BFTConsensus F}
    (h : ∀ vid vote c, EngineOf registry vid c → EngineOf registry vid (receive vote c).2)
    (votes : List ConsensusVote) :
    Preserves (Members registry : Validators F → Prop) (distribute receive votes) := by
  refine (Preserves.forEach (fun vote => ?_) _).bind fun _ => preserves_pure _
  exact preserves_deliver (fun vid => preserves_onConsensus (preserves_checking (h vid vote))) _

theorem preserves_runConsensus (r : Readings F) :
    Preserves (Members registry : Validators F → Prop) (runConsensus r) := by
  have hengine : ∀ (op : BFTConsensus.Operation F), (∀ v stake, op ≠ .registerValidator v stake) →
      ∀ vid c, EngineOf registry vid c → EngineOf registry vid (c.next op) :=
    fun op hop vid c hc => hc.next hop
  refine (preserves_propose r).bind fun ⟨proposer, proposal⟩ => ?_
  refine Preserves.bind (preserves_deliver (fun vid => preserves_onConsensus
    (preserves_checking (hengine (.receiveProposal proposal) nofun vid))) _) fun _ => ?_
  refine (preserves_ofExcept _).bind fun hash => ?_
  refine Preserves.bind (preserves_forValues fun vid => preserves_onConsensus
    (preserves_total (hengine (.createPreVote hash (r.preVoteTime vid)) nofun vid))) fun votes => ?_
  refine Preserves.bind (preserves_distribute
    (fun vid vote => hengine (.receivePreVote vote) nofun vid) _) fun _ => ?_
  refine Preserves.bind (preserves_forValues fun vid => preserves_onConsensus
    (preserves_total (hengine (.createPreCommit hash (r.preCommitTime vid)) nofun vid)))
      fun preCommits => ?_
  refine Preserves.bind (preserves_distribute
    (fun vid vote => hengine (.receivePreCommit vote) nofun vid) _) fun _ => ?_
  refine Preserves.bind (preserves_firstValue fun vid => preserves_onConsensus
    (hengine (.tryFinalize hash (r.finalizeTime vid)) nofun vid)) fun block => ?_
  exact preserves_pure _

theorem preserves_runPhases (epoch : ℤ) (r : Readings F) :
    Preserves (Members registry) (runPhases epoch r) := by
  refine (preserves_forValues fun vid => preserves_startEpoch epoch _).bind fun _ => ?_
  refine (preserves_forValues fun vid => (preserves_runMeasurementPhase r).bind fun _ =>
    preserves_createMeasurementCommitment _).bind fun _ => ?_
  refine (preserves_forSenders preserves_broadcastCommitment).bind fun _ => ?_
  refine (preserves_forSenders preserves_broadcastReveal).bind fun _ => ?_
  exact preserves_runConsensus r

namespace QRTBTestnet

theorem preserves_runEpoch (epoch : ℤ) (r : Readings F) :
    Preserves (fun t : QRTBTestnet F => Members registry t.validators) (runEpoch epoch r) := by
  refine Preserves.bind (Preserves.on (preserves_runPhases epoch r) (fun _ ht => ht)
    fun _ _ _ hv => hv) fun block => ?_
  refine Preserves.bind (preserves_modify ?_) fun _ => ?_
  · exact fun t ht => ht
  · refine (preserves_reads _).bind fun stats => Preserves.bind (preserves_modify ?_) fun _ => ?_
    · exact fun t ht => ht
    · exact preserves_pure _

end QRTBTestnet

end

/-- A node whose engine so far holds the stakes of some validators of the registry. -/
structure Connecting (registry : OrderedDict Bytes ℤ) (vid : Bytes) (known : List Bytes)
    (n : ValidatorNode F) : Prop where
  validatorId : n.validatorId = vid
  stake : registry.get? vid = some n.config.stake
  engineId : n.consensus.validatorId = vid
  sound : ∀ v s, n.consensus.validators.get? v = some s → registry.get? v = some s
  complete : ∀ v ∈ known, n.consensus.validators.contains v = true
  totalStake : n.consensus.totalStake = n.consensus.validators.values.sum
  epochs : 0 ≤ n.epochManager.currentEpoch

/-- A validator that has just been created. -/
structure Created (vid : Bytes) (n : ValidatorNode F) : Prop where
  validatorId : n.validatorId = vid
  consensus : n.consensus = .init vid n.config.stake
  epochs : n.epochManager.currentEpoch = 0

theorem Created.connecting {n : ValidatorNode F} (hn : Created vid n)
    (hstake : registry.get? vid = some n.config.stake) : Connecting registry vid [vid] n := by
  refine ⟨hn.validatorId, hstake, by rw [hn.consensus]; rfl, ?_, ?_, by rw [hn.consensus]; rfl,
    hn.epochs.ge⟩
  · intro v s hv
    rw [hn.consensus] at hv
    rcases get?_set_eq_some.mp hv with ⟨rfl, rfl⟩ | ⟨-, hv⟩
    · exact hstake
    · cases hv
  · intro v hv
    rw [List.mem_singleton.mp hv, hn.consensus]
    simp [BFTConsensus.init, BFTConsensus.registerValidator, OrderedDict.contains]

theorem Connecting.addPeer {known : List Bytes} {n : ValidatorNode F}
    (hn : Connecting registry vid known n) {peerId : Bytes} {peer : ValidatorConfig F}
    (hpeer : registry.get? peerId = some peer.stake) (time : F) :
    Connecting registry vid (known ++ [peerId]) (n.addPeer peerId peer time) := by
  refine ⟨hn.validatorId, hn.stake, hn.engineId, ?_, ?_, rfl, hn.epochs⟩
  · intro v s hv
    rcases get?_set_eq_some.mp hv with ⟨rfl, rfl⟩ | ⟨-, hv⟩
    · exact hpeer
    · exact hn.sound v s hv
  · intro v hv
    change ((n.consensus.validators.set peerId peer.stake).get? v).isSome = true
    rw [get?_set]
    split_ifs with heq
    · rfl
    · rcases List.mem_append.mp hv with hv | hv
      · exact hn.complete v hv
      · exact absurd (List.mem_singleton.mp hv) heq

theorem Connecting.foldl_addPeer {known : List Bytes} {n : ValidatorNode F}
    (hn : Connecting registry vid known n) (time : Bytes → Bytes → F)
    {peers : List (ValidatorNode F)}
    (hpeers : ∀ peer ∈ peers, registry.get? peer.validatorId = some peer.config.stake) :
    Connecting registry vid (known ++ peers.map fun peer => peer.validatorId)
      (peers.foldl (fun n peer =>
        n.addPeer peer.validatorId peer.config (time n.validatorId peer.validatorId)) n) := by
  induction peers generalizing known n with
  | nil => simpa using hn
  | cons peer peers ih =>
    rw [List.forall_mem_cons] at hpeers
    have hnext := ih (hn.addPeer hpeers.1 (time n.validatorId peer.validatorId)) hpeers.2
    rwa [List.append_assoc] at hnext

theorem Connecting.registered {known : List Bytes} {n : ValidatorNode F}
    (hn : Connecting registry vid known n) (hknown : ∀ v ∈ registry.keys, v ∈ known) :
    Registered registry vid n := by
  have hvalidators : ∀ v, n.consensus.validators.get? v = registry.get? v := by
    intro v
    cases hv : n.consensus.validators.get? v with
    | some s => exact (hn.sound v s hv).symm
    | none =>
      symm
      rw [Option.eq_none_iff_forall_ne_some]
      intro s hs
      have hcontains := hn.complete v (hknown v ((mem_keys_iff registry v).mpr ⟨s, hs⟩))
      rw [OrderedDict.contains, hv] at hcontains
      cases hcontains
  have hsum := OrderedDict.sumBy_congr id hvalidators
  simp only [OrderedDict.sumBy, List.map_id] at hsum
  have hself : registry.contains vid = true := by rw [OrderedDict.contains, hn.stake, Option.isSome]
  exact ⟨hn.validatorId, hn.stake,
    ⟨hself, hn.engineId, hvalidators, hn.totalStake.trans hsum⟩, hn.epochs⟩

theorem members_connectValidators {validators : Validators F}
    (h : ∀ p ∈ validators.items, Created p.1 p.2) (time : Bytes → Bytes → F) :
    Members (validators.map fun n => n.config.stake) (connectValidators time validators) := by
  have hpeers : ∀ peer ∈ validators.values, (validators.map fun n => n.config.stake).get?
      peer.validatorId = some peer.config.stake := by
    intro peer hpeer
    obtain ⟨p, hp, rfl⟩ := List.mem_map.mp hpeer
    rw [(h p hp).validatorId, get?_map, (mem_items_iff validators p.1 p.2).mp hp]
    rfl
  constructor
  · simp [OrderedDict.keys, connectValidators, OrderedDict.map]
  · intro p hp
    obtain ⟨⟨vid, n⟩, hn, rfl⟩ := List.mem_map.mp hp
    have hcreated : Created vid n := h _ hn
    have hown := hpeers n (List.mem_map_of_mem (f := Prod.snd) hn)
    rw [hcreated.validatorId] at hown
    refine ((hcreated.connecting hown).foldl_addPeer time fun peer hpeer =>
      hpeers peer (List.mem_of_mem_filter hpeer)).registered ?_
    intro v hv
    obtain ⟨q, hq, rfl⟩ : ∃ q ∈ validators.items, q.1 = v := by
      simpa [OrderedDict.keys, OrderedDict.map] using hv
    by_cases heq : q.1 = vid
    · rw [heq]
      exact List.mem_append_left _ List.mem_cons_self
    · refine List.mem_append_right _ (List.mem_map.mpr ⟨q.2, ?_, (h q hq).validatorId⟩)
      rw [List.mem_filter, (h q hq).validatorId, hcreated.validatorId]
      exact ⟨List.mem_map_of_mem (f := Prod.snd) hq, by simpa using heq⟩

theorem exists_members_initializeNetwork [PyFloat F] (config : NetworkConfig) (genesisTime : F)
    (adversaryIndices : List ℕ) (draw : ℕ → Draw F) (connectTime : Bytes → Bytes → F) :
    ∃ registry, Members registry
      (initializeNetwork config genesisTime adversaryIndices draw connectTime).validators := by
  refine ⟨_, members_connectValidators ?_ connectTime⟩
  apply List.foldlRecOn (motive := fun d : Validators F => ∀ p ∈ d.items, Created p.1 p.2)
  · intro p hp
    cases hp
  · intro d hd q _ p hp
    rcases get?_set_eq_some.mp ((mem_items_iff _ p.1 p.2).mp hp) with ⟨hkey, hval⟩ | ⟨-, hget⟩
    · rw [hkey, hval]
      exact ⟨rfl, rfl, rfl⟩
    · exact hd p ((mem_items_iff _ p.1 p.2).mpr hget)

end Qrtb.Testnet
