import Qrtb.Consensus.Synchronizer
import Qrtb.Lib.HashChain

/-!
# The entropy of an epoch commits to the past (`src/epoch.py`)

The entropy of an epoch is the digest of what the sources contributed and of the
historical chain, and the chain goes on with the digest of itself and of that
entropy. Whatever happens to a manager in between, the entropies it has drawn form
such a chain, and the record of an epoch has no other entropy than the one drawn.
-/

namespace Qrtb.Epochs

open Keccak PyFloat Transition HashChain

namespace EpochEntropy

def dataOf (source : EntropySourceType) (e : EpochEntropy) : Bytes :=
  ((e.contributions.get? source).map EntropyContribution.data).getD []

/-- What the sources contributed beside the chain, as it is hashed. -/
def sourceData (e : EpochEntropy) : Bytes :=
  e.dataOf .networkMeasurements ++ (e.dataOf .blockchainState ++ e.dataOf .externalBeacons)

/-- The string whose digest the entropy is, after a historical chain. -/
def message (chain : Bytes) (e : EpochEntropy) : Bytes :=
  ascii ['e', 'p', 'o', 'c', 'h', '_', 'e', 'n', 't', 'r', 'o', 'p', 'y'] ++
    (Bytes.bigEndian 8 e.epoch.toNat ++ (e.sourceData ++ chain))

def DrawnAfter (chain : Bytes) (e : EpochEntropy) : Prop :=
  (0 ≤ e.epoch ∧ e.epoch < 256 ^ 8) ∧ e.combinedEntropy = sha3_512 (e.message chain)

theorem DrawnAfter.of_message_eq {chain chain' : Bytes} {e e' : EpochEntropy}
    (h : e.DrawnAfter chain) (h' : e'.DrawnAfter chain') (hlength : chain.length = chain'.length)
    (heq : e.message chain = e'.message chain') :
    chain = chain' ∧ e.epoch = e'.epoch ∧ e.sourceData = e'.sourceData := by
  have hrest := List.append_cancel_left heq
  obtain ⟨hepoch, hrest⟩ := List.append_inj hrest (by simp)
  obtain ⟨hsources, hchain⟩ := List.append_inj' hrest hlength
  have hrange := h.1
  have hrange' := h'.1
  have hepoch' := Bytes.bigEndian_inj (by omega) (by omega) hepoch
  exact ⟨hchain, by omega, hsources⟩

end EpochEntropy

def entropyLinks : Links Bytes EpochEntropy Bytes where
  next chain e := sha3_512 (chain ++ e.combinedEntropy)
  messages chain e := [e.message chain, chain ++ e.combinedEntropy]

def EpochEntropy.content (e : EpochEntropy) : ℤ × Bytes × Bytes :=
  (e.epoch, e.sourceData, e.combinedEntropy)

theorem entropyLinks_commits : entropyLinks.Commits sha3_512 (fun chain => chain.length = 64)
    EpochEntropy.DrawnAfter EpochEntropy.content := by
  refine ⟨fun _ _ => length_sha3_512 _, ?_⟩
  intro h e h' e' hh hh' he he' hnext
  rcases eq_or_collidesIn (entropyLinks.messages h e ++ entropyLinks.messages h' e')
    (by simp [entropyLinks]) (by simp [entropyLinks]) hnext with hlink | hcollides
  · obtain ⟨rfl, hcombined⟩ := List.append_inj hlink (hh.trans hh'.symm)
    have hdigest := he.2.symm.trans (hcombined.trans he'.2)
    rcases eq_or_collidesIn (entropyLinks.messages h e ++ entropyLinks.messages h e')
      (by simp [entropyLinks]) (by simp [entropyLinks]) hdigest with hmessage | hcollides
    · obtain ⟨-, hepoch, hsources⟩ := he.of_message_eq he' rfl hmessage
      refine Or.inl ⟨rfl, ?_⟩
      rw [EpochEntropy.content, EpochEntropy.content, hepoch, hsources, hcombined]
    · exact Or.inr hcollides
  · exact Or.inr hcollides

variable {F : Type} [PyFloat F]

namespace EntropyWell

theorem dataOf_contributions (timestamp : ℤ) (w : EntropyWell) (e : EpochEntropy)
    (he : e.contributions = w.contributions timestamp) :
    e.dataOf .networkMeasurements = w.networkMeasurements ∧
      e.dataOf .blockchainState = w.blockchainState ∧
      e.dataOf .externalBeacons = w.externalBeacons := by
  simp only [EpochEntropy.dataOf, he, contributions, sources]
  cases hn : w.networkMeasurements <;> cases hb : w.blockchainState <;>
    cases hx : w.externalBeacons <;> simp [OrderedDict.get?_set]

theorem combinedData_eq {epoch : ℤ} (hepoch : 0 ≤ epoch ∧ epoch < 256 ^ 8) (w : EntropyWell) :
    w.combinedData epoch = .ok
      (ascii ['e', 'p', 'o', 'c', 'h', '_', 'e', 'n', 't', 'r', 'o', 'p', 'y'] ++
        (Bytes.bigEndian 8 epoch.toNat ++ (w.networkMeasurements ++ (w.blockchainState ++
          (w.externalBeacons ++ w.historicalChain))))) := by
  have hrest : concat [.bytes w.networkMeasurements, .bytes w.blockchainState,
      .bytes w.externalBeacons, .bytes w.historicalChain] = .ok (w.networkMeasurements ++
        (w.blockchainState ++ (w.externalBeacons ++ w.historicalChain))) := by
    simp [concat_bytes_cons_eq_ok]
  rw [combinedData, concat_bytes_cons_eq_ok]
  exact ⟨_, concat_int_cons_eq_ok.mpr ⟨hepoch, _, hrest, rfl⟩, rfl⟩

/-- Entropy is drawn for the epochs that fit eight bytes, and the chain goes on with it. -/
theorem generateEpochEntropy_drawn {epoch : ℤ} (hepoch : 0 ≤ epoch ∧ epoch < 256 ^ 8) (time : F)
    (w : EntropyWell) : ∃ e : EpochEntropy, e.epoch = epoch ∧
      e.DrawnAfter w.historicalChain ∧ w.generateEpochEntropy epoch time = (.ok e, { w with
        historicalChain := entropyLinks.next w.historicalChain e
        history := w.history.set epoch e }) := by
  rw [generateEpochEntropy, combinedData_eq hepoch]
  refine ⟨_, rfl, ⟨hepoch, ?_⟩, rfl⟩
  obtain ⟨hn, hb, hx⟩ := dataOf_contributions (milliseconds time) w
    { epoch := epoch, contributions := w.contributions (milliseconds time), combinedEntropy := [],
      generationTimestamp := 0, sourcesUsed := 0 } rfl
  simp only [EpochEntropy.dataOf] at hn hb hx
  simp only [EpochEntropy.message, EpochEntropy.sourceData, EpochEntropy.dataOf, hn, hb, hx,
    List.append_assoc]

end EntropyWell

namespace EpochManager

/-- The entropies drawn so far, epoch by epoch. -/
def drawn (m : EpochManager F) : List EpochEntropy :=
  (List.range m.currentEpoch.toNat).filterMap fun i : ℕ => m.entropyWell.history.get? ((i : ℤ) + 1)

omit [PyFloat F] in
theorem entropyWell_updateEpoch (epoch : ℤ) (change : EpochState F → EpochState F)
    (m : EpochManager F) : (m.updateEpoch epoch change).entropyWell = m.entropyWell := by
  unfold updateEpoch
  split <;> rfl

/-- What an advance draws is recorded under its epoch, and under no other. -/
theorem advanceEpoch_drawn (m : EpochManager F)
    (hepoch : 0 ≤ m.currentEpoch + 1 ∧ m.currentEpoch + 1 < 256 ^ 8) (time : F) :
    ∃ e : EpochEntropy, e.epoch = m.currentEpoch + 1 ∧
      e.DrawnAfter m.entropyWell.historicalChain ∧
      (m.advanceEpoch time).2.currentEpoch = m.currentEpoch + 1 ∧
      (m.advanceEpoch time).2.entropyWell = { m.entropyWell with
        historicalChain := entropyLinks.next m.entropyWell.historicalChain e
        history := m.entropyWell.history.set (m.currentEpoch + 1) e } ∧
      ∀ key state e', (m.advanceEpoch time).2.epochs.get? key = some state →
        state.entropy = some e' → key = m.currentEpoch + 1 ∧ e' = e ∨
          key ≠ m.currentEpoch + 1 ∧ ∃ state', m.epochs.get? key = some state' ∧
            state'.entropy = some e' := by
  obtain ⟨e, heq, hdrawn, hgenerate⟩ :=
    m.entropyWell.generateEpochEntropy_drawn hepoch time
  refine ⟨e, heq, hdrawn, ?_⟩
  unfold advanceEpoch
  simp only [hgenerate, initializeEpoch_eq, if_pos (fitsFloat_of_lt hepoch),
    currentEpoch_updateEpoch, entropyWell_updateEpoch]
  refine ⟨trivial, trivial, ?_⟩
  intro key state e' hstate he'
  rw [get?_updateEpoch, get?_updateEpoch, OrderedDict.get?_set] at hstate
  by_cases hnew : key = m.currentEpoch + 1
  · have hold : ¬ key = m.currentEpoch + 1 - 1 := by omega
    rw [if_neg hold, if_pos hnew, if_pos hnew] at hstate
    obtain rfl := Option.some.inj hstate
    exact Or.inl ⟨hnew, (Option.some.inj he').symm⟩
  · rw [if_neg hnew, if_neg hnew] at hstate
    right
    refine ⟨hnew, ?_⟩
    split_ifs at hstate
    · obtain ⟨old, hold, rfl⟩ := Option.map_eq_some_iff.mp hstate
      exact ⟨old, hold, he'⟩
    · exact ⟨state, hstate, he'⟩

end EpochManager

/-- The manager has drawn these entropies, from its first chain. -/
structure Drawing (genesis : Bytes) (es : List EpochEntropy) (m : EpochManager F) : Prop where
  nonneg : 0 ≤ m.currentEpoch
  count : es.length = min m.currentEpoch.toNat (256 ^ 8 - 1)
  along : entropyLinks.Along EpochEntropy.DrawnAfter genesis es
  chain : m.entropyWell.historicalChain = entropyLinks.tip genesis es
  history : ∀ i : ℕ, m.entropyWell.history.get? ((i : ℤ) + 1) = es[i]?
  records : ∀ epoch state e, m.epochs.get? epoch = some state → state.entropy = some e →
    1 ≤ epoch ∧ m.entropyWell.history.get? epoch = some e

namespace Drawing

variable {genesis : Bytes} {es : List EpochEntropy} {m m' : EpochManager F}

omit [PyFloat F] in
theorem drawn_eq (h : Drawing genesis es m) : m.drawn = es := by
  have hrange : ∀ (es : List EpochEntropy) (n : ℕ), es.length ≤ n →
      (List.range n).filterMap (fun i : ℕ => es[i]?) = es := by
    intro es
    induction es with
    | nil => simp
    | cons e es ih =>
      intro n hn
      obtain ⟨n, rfl⟩ := Nat.exists_eq_add_of_lt hn
      simpa [List.range_succ_eq_map, List.filterMap_map, Function.comp_def] using
        ih _ (Nat.le_add_right es.length n)
  simp only [EpochManager.drawn, h.history]
  exact hrange es _ (h.count.trans_le (min_le_left _ _))

omit [PyFloat F] in
/-- The sources may change, and the records as long as they get no other entropy. -/
theorem of_records (h : Drawing genesis es m) (hepoch : m'.currentEpoch = m.currentEpoch)
    (hchain : m'.entropyWell.historicalChain = m.entropyWell.historicalChain)
    (hhistory : m'.entropyWell.history = m.entropyWell.history)
    (hrecords : ∀ epoch state e, m'.epochs.get? epoch = some state → state.entropy = some e →
      ∃ state', m.epochs.get? epoch = some state' ∧ state'.entropy = some e) :
    Drawing genesis es m' where
  nonneg := hepoch ▸ h.nonneg
  count := hepoch ▸ h.count
  along := h.along
  chain := hchain.trans h.chain
  history := hhistory ▸ h.history
  records := by
    intro epoch state e hstate he
    obtain ⟨state', hstate', he'⟩ := hrecords epoch state e hstate he
    rw [hhistory]
    exact h.records epoch state' e hstate' he'

omit [PyFloat F] in
theorem set_blank (h : Drawing genesis es m) (epoch : ℤ) {blank : EpochState F}
    (hblank : blank.Blank) : Drawing genesis es { m with epochs := m.epochs.set epoch blank } := by
  refine h.of_records rfl rfl rfl ?_
  intro key state e hstate he
  rcases OrderedDict.get?_set_eq_some.mp hstate with ⟨-, rfl⟩ | ⟨-, hold⟩
  · rw [hblank.entropy] at he
    cases he
  · exact ⟨state, hold, he⟩

omit [PyFloat F] in
theorem updateEpoch (h : Drawing genesis es m) (epoch : ℤ) (change : EpochState F → EpochState F)
    (hchange : ∀ state, (change state).entropy = state.entropy) :
    Drawing genesis es (m.updateEpoch epoch change) := by
  have hwell := m.entropyWell_updateEpoch epoch change
  refine h.of_records (EpochManager.currentEpoch_updateEpoch _) (congrArg _ hwell)
    (congrArg _ hwell) ?_
  intro key state e hstate he
  rw [EpochManager.get?_updateEpoch] at hstate
  split_ifs at hstate
  · obtain ⟨old, hold, rfl⟩ := Option.map_eq_some_iff.mp hstate
    exact ⟨old, hold, hchange old ▸ he⟩
  · exact ⟨state, hstate, he⟩

theorem advanceEpoch (h : Drawing genesis es m) (time : F) :
    ∃ es', Drawing genesis es' (m.advanceEpoch time).2 := by
  have hnonneg := h.nonneg
  by_cases hepoch : m.currentEpoch + 1 < 256 ^ 8
  · obtain ⟨e, heq, hdrawn, hcurrent, hwell, hrecords⟩ :=
      m.advanceEpoch_drawn ⟨by omega, hepoch⟩ time
    have hcount : (es.length : ℤ) = m.currentEpoch := by
      rw [h.count]
      omega
    refine ⟨es ++ [e], ?_, ?_, ?_, ?_, ?_, ?_⟩
    · omega
    · rw [hcurrent, List.length_append, List.length_singleton]
      omega
    · rw [Links.along_append, ← h.chain]
      exact ⟨h.along, hdrawn, trivial⟩
    · rw [hwell, Links.tip_append, ← h.chain]
      rfl
    · intro i
      rw [hwell, List.getElem?_append, OrderedDict.get?_set, h.history]
      by_cases hi : i < es.length
      · have hne : ¬ (i : ℤ) + 1 = m.currentEpoch + 1 := by omega
        rw [if_neg hne, if_pos hi]
      · rw [if_neg hi]
        by_cases hnew : i = es.length
        · have hkey : (i : ℤ) + 1 = m.currentEpoch + 1 := by omega
          rw [if_pos hkey, hnew, Nat.sub_self]
          rfl
        · have hne : ¬ (i : ℤ) + 1 = m.currentEpoch + 1 := by omega
          rw [if_neg hne, List.getElem?_eq_none (by omega),
            List.getElem?_eq_none (by rw [List.length_singleton]; omega)]
    · intro key state e' hstate he'
      rw [hwell, OrderedDict.get?_set]
      rcases hrecords key state e' hstate he' with ⟨rfl, rfl⟩ | ⟨hne, state', hstate', hold⟩
      · exact ⟨by omega, if_pos rfl⟩
      · obtain ⟨hlow, hhistory⟩ := h.records key state' e' hstate' hold
        exact ⟨hlow, by rw [if_neg hne, hhistory]⟩
  · rcases m.advanceEpoch_cases time with ⟨-, -, hin, -⟩ | ⟨-, e, heq⟩
    · exact absurd hin.2 hepoch
    · rw [heq]
      refine ⟨es, ?_, ?_, h.along, h.chain, h.history, h.records⟩
      · change 0 ≤ m.currentEpoch + 1
        omega
      · change es.length = min (m.currentEpoch + 1).toNat _
        rw [h.count]
        omega

theorem act (h : Drawing genesis es m) (op : Operation F) :
    ∃ es', Drawing genesis es' (op.act m) := by
  cases op with
  | call c =>
    cases c with
    | getEpochPhase epoch time time' =>
      rw [Operation.act, Call.act]
      rcases getEpochPhase_cases epoch time time' m with heq | ⟨key, offset, -, heq⟩
      · rw [heq]
        exact ⟨es, h⟩
      · rw [heq]
        exact ⟨es, h.set_blank key (blank_blankState ..)⟩
    | isInGracePeriod txEpoch time time' =>
      rw [Operation.act, Call.act, isInGracePeriod_eq]
      split_ifs
      · exact ⟨es, h.set_blank _ (blank_blankState ..)⟩
      · exact ⟨es, h⟩
    | advanceEpoch time => exact h.advanceEpoch time
  | finalizeEpoch epoch blockRoot =>
    rw [Operation.act, EpochManager.finalizeEpoch]
    split_ifs
    · have hupdate := h.updateEpoch epoch (fun state =>
        { state with finalized := true, blockRoot := some blockRoot }) fun _ => rfl
      exact ⟨es, hupdate.of_records rfl rfl rfl fun _ state _ hstate he => ⟨state, hstate, he⟩⟩
    · exact ⟨es, h⟩
  | addValidatorCommitment epoch validatorId commitment =>
    exact ⟨es, h.updateEpoch epoch _ fun _ => rfl⟩
  | updateNetworkMeasurements rttData time =>
    rw [Operation.act]
    split
    next => exact ⟨es, h⟩
    next well hwell =>
      have hkeep : well.historicalChain = m.entropyWell.historicalChain ∧
          well.history = m.entropyWell.history := by
        rw [EntropyWell.updateNetworkMeasurements] at hwell
        split_ifs at hwell
        · obtain rfl := Except.ok.inj hwell
          exact ⟨rfl, rfl⟩
        · obtain ⟨data, -, hdata⟩ := Except.bind_eq_ok.mp hwell
          obtain rfl := Except.ok.inj hdata
          exact ⟨rfl, rfl⟩
      exact ⟨es, h.of_records rfl hkeep.1 hkeep.2 fun _ state _ hstate he => ⟨state, hstate, he⟩⟩
  | updateBlockchainState blockHash | updateExternalBeacons beaconData =>
    exact ⟨es, h.of_records rfl rfl rfl fun _ state _ hstate he => ⟨state, hstate, he⟩⟩

theorem init (genesisTime : F) (genesis : Bytes) :
    Drawing genesis [] (EpochManager.init genesisTime genesis) := by
  have hempty : Drawing genesis []
      ({ genesisTime := genesisTime, entropyWell := { historicalChain := genesis } } :
        EpochManager F) := ⟨le_rfl, rfl, trivial, rfl, fun _ => rfl, nofun⟩
  exact hempty.set_blank 0 (blank_blankState ..)

theorem runs (genesisTime : F) (genesis : Bytes) (ops : List (Operation F)) :
    ∃ es, Drawing genesis es
      (Transition.runs Operation.act ops (EpochManager.init genesisTime genesis)) := by
  induction ops using List.reverseRecOn with
  | nil => exact ⟨[], init genesisTime genesis⟩
  | append_singleton ops op ih =>
    obtain ⟨es, hes⟩ := ih
    rw [runs_append_singleton]
    exact hes.act op

end Drawing

theorem length_tip {genesis : Bytes} (h : genesis.length = 64) (es : List EpochEntropy) :
    (entropyLinks.tip genesis es).length = 64 := by
  rcases es.eq_nil_or_concat with rfl | ⟨es, e, rfl⟩
  · exact h
  · rw [List.concat_eq_append, Links.tip_append]
    exact length_sha3_512 _

omit [PyFloat F] in
theorem Drawing.exists_last {genesis : Bytes} {es : List EpochEntropy} {s : EpochSynchronizer F}
    (h : Drawing genesis es s.epochManager) (time : F)
    (hne : (s.createSyncMessage time).entropyHash ≠ []) :
    ∃ pre e, es = pre ++ [e] ∧ (pre.length : ℤ) + 1 = s.epochManager.currentEpoch ∧
      (s.createSyncMessage time).entropyHash = sha3_256 e.combinedEntropy := by
  rw [EpochSynchronizer.createSyncMessage] at hne ⊢
  dsimp only at hne ⊢
  cases hrecord : (s.epochManager.epochs.get? s.epochManager.currentEpoch).bind
      EpochState.entropy with
  | none =>
    rw [hrecord] at hne
    exact absurd rfl hne
  | some e =>
    obtain ⟨state, hstate, hentropy⟩ := Option.bind_eq_some_iff.mp hrecord
    obtain ⟨hlow, hhistory⟩ := h.records _ state e hstate hentropy
    obtain ⟨i, hi⟩ := Int.eq_ofNat_of_zero_le (sub_nonneg.mpr hlow)
    have hepoch : s.epochManager.currentEpoch = (i : ℤ) + 1 := by omega
    rw [hepoch, h.history] at hhistory
    obtain ⟨hlt, -⟩ := List.getElem?_eq_some_iff.mp hhistory
    have hcount := h.count
    have hlength : es.length = i + 1 := by omega
    refine ⟨es.take i, e, ?_, ?_, rfl⟩
    · calc es = es.take (i + 1) := (List.take_of_length_le hlength.le).symm
        _ = es.take i ++ [e] := by
          rw [List.take_add_one, hhistory]
          rfl
    · rw [List.length_take, hepoch]
      omega

/-- Two messages for one epoch that carry the same entropy hash come from managers with the same
genesis that have drawn the same entropy from the same data in every epoch so far, whatever
happened to the two in between, or two different strings they have hashed have one digest. -/
theorem entropyHash_commits {genesis₁ genesis₂ : Bytes} (hgenesis₁ : genesis₁.length = 64)
    (hgenesis₂ : genesis₂.length = 64) (genesisTime₁ genesisTime₂ : F)
    (ops₁ ops₂ : List (Operation F)) (v₁ v₂ : Bytes) (time₁ time₂ : F) :
    let m₁ := runs Operation.act ops₁ (EpochManager.init genesisTime₁ genesis₁)
    let m₂ := runs Operation.act ops₂ (EpochManager.init genesisTime₂ genesis₂)
    let msg₁ := EpochSynchronizer.createSyncMessage time₁ { validatorId := v₁, epochManager := m₁ }
    let msg₂ := EpochSynchronizer.createSyncMessage time₂ { validatorId := v₂, epochManager := m₂ }
    msg₁.epoch = msg₂.epoch → msg₁.entropyHash = msg₂.entropyHash → msg₁.entropyHash ≠ [] →
      genesis₁ = genesis₂ ∧
          m₁.drawn.map EpochEntropy.content = m₂.drawn.map EpochEntropy.content ∨
        CollisionIn ((m₁.drawn ++ m₂.drawn).map EpochEntropy.combinedEntropy) ∨
        CollidesIn sha3_512
          (entropyLinks.hashed genesis₁ m₁.drawn ++ entropyLinks.hashed genesis₂ m₂.drawn) := by
  intro m₁ m₂ msg₁ msg₂ hepoch hhash hne
  obtain ⟨es₁, h₁⟩ := Drawing.runs genesisTime₁ genesis₁ ops₁
  obtain ⟨es₂, h₂⟩ := Drawing.runs genesisTime₂ genesis₂ ops₂
  rw [show m₁.drawn = es₁ from h₁.drawn_eq, show m₂.drawn = es₂ from h₂.drawn_eq]
  obtain ⟨pre₁, e₁, rfl, hlength₁, hhash₁⟩ := Drawing.exists_last
    (s := { validatorId := v₁, epochManager := m₁ }) h₁ time₁ hne
  obtain ⟨pre₂, e₂, rfl, hlength₂, hhash₂⟩ := Drawing.exists_last
    (s := { validatorId := v₂, epochManager := m₂ }) h₂ time₂ (hhash ▸ hne)
  have hlength : pre₁.length = pre₂.length := by
    have : m₁.currentEpoch = m₂.currentEpoch := hepoch
    simp only at hlength₁ hlength₂
    omega
  obtain ⟨halong₁, hdrawn₁, -⟩ := entropyLinks.along_append.mp h₁.along
  obtain ⟨halong₂, hdrawn₂, -⟩ := entropyLinks.along_append.mp h₂.along
  have hdigest : sha3_256 e₁.combinedEntropy = sha3_256 e₂.combinedEntropy :=
    hhash₁.symm.trans (hhash.trans hhash₂)
  have hmem₁ : e₁.combinedEntropy ∈
      (pre₁ ++ [e₁] ++ (pre₂ ++ [e₂])).map EpochEntropy.combinedEntropy :=
    List.mem_map_of_mem (by simp)
  rcases eq_or_collisionIn hmem₁ (List.mem_map_of_mem (by simp)) hdigest with
    hcombined | hcollision
  · rw [Links.hashed_append, Links.hashed_append]
    have hmessages : sha3_512 (e₁.message (entropyLinks.tip genesis₁ pre₁)) =
        sha3_512 (e₂.message (entropyLinks.tip genesis₂ pre₂)) := by
      rw [← hdrawn₁.2, hcombined, hdrawn₂.2]
    rcases eq_or_collidesIn
      ((entropyLinks.hashed genesis₁ pre₁ ++
        entropyLinks.hashed (entropyLinks.tip genesis₁ pre₁) [e₁]) ++
        (entropyLinks.hashed genesis₂ pre₂ ++
          entropyLinks.hashed (entropyLinks.tip genesis₂ pre₂) [e₂]))
      (by simp [Links.hashed, entropyLinks]) (by simp [Links.hashed, entropyLinks]) hmessages with
      hmessage | hcollides
    · obtain ⟨htip, hepoch', hsources⟩ := hdrawn₁.of_message_eq hdrawn₂
        ((length_tip hgenesis₁ pre₁).trans (length_tip hgenesis₂ pre₂).symm) hmessage
      rcases entropyLinks_commits.chain hlength hgenesis₁ hgenesis₂ halong₁ halong₂ htip with
        ⟨hgenesis, hpast⟩ | hcollides
      · refine Or.inl ⟨hgenesis, ?_⟩
        rw [List.map_append, List.map_append, hpast, List.map_singleton, List.map_singleton,
          EpochEntropy.content, EpochEntropy.content, hepoch', hsources, hcombined]
      · refine Or.inr (Or.inr (hcollides.mono ?_))
        exact List.append_subset.mpr
          ⟨List.subset_append_of_subset_left _ (List.subset_append_left ..),
            List.subset_append_of_subset_right _ (List.subset_append_left ..)⟩
    · exact Or.inr (Or.inr hcollides)
  · exact Or.inr (Or.inl hcollision)

section Example

def exampleGenesis : Bytes := List.replicate 64 7

/-- Two epochs after the same beacon, at other times and with a question in between. -/
def exampleOps (time : ℚ) : List (Operation ℚ) :=
  [.updateExternalBeacons [1], .call (.advanceEpoch time),
    .call (.getEpochPhase none time (time + 1)), .call (.advanceEpoch (time + 900))]

def exampleManager (time : ℚ) : EpochManager ℚ :=
  runs Operation.act (exampleOps time) (EpochManager.init 0 exampleGenesis)

theorem entropyHash_commits_late :
    (exampleManager 900).drawn.map EpochEntropy.content =
        (exampleManager 1000).drawn.map EpochEntropy.content ∨
      CollisionIn (((exampleManager 900).drawn ++ (exampleManager 1000).drawn).map
        EpochEntropy.combinedEntropy) ∨
      CollidesIn sha3_512 (entropyLinks.hashed exampleGenesis (exampleManager 900).drawn ++
        entropyLinks.hashed exampleGenesis (exampleManager 1000).drawn) := by
  have hgenesis : exampleGenesis.length = 64 := List.length_replicate ..
  have hcommits := entropyHash_commits hgenesis hgenesis 0 0 (exampleOps 900) (exampleOps 1000)
    [1] [2] 1800 1900 (by decide +kernel) (by decide +kernel) (by decide +kernel)
  exact hcommits.imp (fun h => h.2) id

end Example

end Qrtb.Epochs
