import Qrtb.Consensus.Epochs

/-!
# The records of epochs over a run (`src/epoch.py`)

A record holds the entropy, the commitments and the block root of its epoch. Two
calls store a blank record without looking for an old one: the question for the
grace period of the previous epoch stores it under the current epoch of the clock,
and an advance stores it under the next epoch of the counter. Over the states that
a new manager can reach, the exact condition under which each call keeps all records
is that the place it stores at has nothing to lose.
-/

namespace Qrtb.Epochs

open PyFloat Transition

variable {F : Type} [PyFloat F]

/-- The calls that may store a new record. -/
inductive Call (F : Type) where
  | getEpochPhase (epoch : Option ℤ) (time time' : F)
  | isInGracePeriod (txEpoch : ℤ) (time time' : F)
  | advanceEpoch (time : F)

/-- The manager after a call, whether it returned or raised. -/
def Call.act : Call F → EpochManager F → EpochManager F
  | .getEpochPhase epoch time time', m => (m.getEpochPhase epoch time time').2
  | .isInGracePeriod txEpoch time time', m => (m.isInGracePeriod txEpoch time time').2
  | .advanceEpoch time, m => (m.advanceEpoch time).2

/-- Everything that can happen to a manager. -/
inductive Operation (F : Type) where
  | call (c : Call F)
  | finalizeEpoch (epoch : ℤ) (blockRoot : Bytes)
  | addValidatorCommitment (epoch : ℤ) (validatorId commitment : Bytes)
  | updateNetworkMeasurements (rttData : List F) (time : F)
  | updateBlockchainState (blockHash : Bytes)
  | updateExternalBeacons (beaconData : Bytes)

def Operation.act : Operation F → EpochManager F → EpochManager F
  | .call c, m => c.act m
  | .finalizeEpoch epoch blockRoot, m => m.finalizeEpoch epoch blockRoot
  | .addValidatorCommitment epoch validatorId commitment, m =>
    m.addValidatorCommitment epoch validatorId commitment
  | .updateNetworkMeasurements rttData time, m =>
    match m.entropyWell.updateNetworkMeasurements rttData time with
    | .error _ => m
    | .ok well => { m with entropyWell := well }
  | .updateBlockchainState blockHash, m =>
    { m with entropyWell := m.entropyWell.updateBlockchainState blockHash }
  | .updateExternalBeacons beaconData, m =>
    { m with entropyWell := m.entropyWell.updateExternalBeacons beaconData }

/-- A record that keeps what it holds. -/
structure EpochState.KeptAs (state state' : EpochState F) : Prop where
  entropy : state'.entropy = state.entropy
  validatorCommitments : state'.validatorCommitments = state.validatorCommitments
  blockRoot : state'.blockRoot = state.blockRoot
  finalized : state.finalized = true → state'.finalized = true

/-- Every epoch that has a record still has it, with what it holds. -/
def KeepsRecords (m m' : EpochManager F) : Prop :=
  ∀ epoch state, m.epochs.get? epoch = some state →
    ∃ state', m'.epochs.get? epoch = some state' ∧ state.KeptAs state'

/-- A record to which nothing was added since it was stored. -/
structure EpochState.Blank (state : EpochState F) : Prop where
  entropy : state.entropy = none
  validatorCommitments : state.validatorCommitments = ∅
  blockRoot : state.blockRoot = none
  finalized : state.finalized = false

/-- The place where a call stores a record has nothing to lose, or the call raises before. -/
def Call.Harmless (m : EpochManager F) : Call F → Prop
  | .getEpochPhase .. => True
  | .isInGracePeriod txEpoch time _ =>
    txEpoch = m.getCurrentEpoch time - 1 →
      FitsFloat (m.getCurrentEpoch time * EPOCH_DURATION_SEC) →
        ∀ state, m.epochs.get? (m.getCurrentEpoch time) = some state → state.Blank
  | .advanceEpoch _ => m.currentEpoch + 1 < 256 ^ 8 → m.epochs.get? (m.currentEpoch + 1) = none

/-- Entropy is drawn for the epochs up to the counter. -/
structure Counted (m : EpochManager F) : Prop where
  nonneg : 0 ≤ m.currentEpoch
  drawn : ∀ epoch state, m.epochs.get? epoch = some state → m.currentEpoch < epoch →
    state.entropy = none

section

variable {m m' : EpochManager F} {state : EpochState F}

omit [PyFloat F] in
theorem EpochState.KeptAs.refl (state : EpochState F) : state.KeptAs state :=
  ⟨rfl, rfl, rfl, id⟩

omit [PyFloat F] in
theorem KeepsRecords.of_eq (h : m'.epochs = m.epochs) : KeepsRecords m m' := by
  intro epoch state hstate
  exact ⟨state, h ▸ hstate, .refl state⟩

theorem blank_blankState (epoch : ℤ) (offset : F) (m : EpochManager F) :
    (m.blankState epoch offset).Blank :=
  ⟨rfl, rfl, rfl, rfl⟩

omit [PyFloat F] in
theorem EpochState.Blank.keptAs_iff {blank : EpochState F} (hblank : blank.Blank) :
    state.KeptAs blank ↔ state.Blank := by
  constructor
  · intro h
    refine ⟨h.entropy ▸ hblank.entropy, h.validatorCommitments ▸ hblank.validatorCommitments,
      h.blockRoot ▸ hblank.blockRoot, ?_⟩
    by_contra hfinal
    have hnow := h.finalized (by simpa using hfinal)
    rw [hblank.finalized] at hnow
    cases hnow
  · intro h
    refine ⟨?_, ?_, ?_, ?_⟩
    · rw [hblank.entropy, h.entropy]
    · rw [hblank.validatorCommitments, h.validatorCommitments]
    · rw [hblank.blockRoot, h.blockRoot]
    · intro hfinal
      rw [h.finalized] at hfinal
      cases hfinal

omit [PyFloat F] in
/-- Storing a blank record keeps the records exactly when it replaces none but a blank one. -/
theorem keepsRecords_set_iff {epoch : ℤ} {blank : EpochState F} (hblank : blank.Blank) :
    KeepsRecords m { m with epochs := m.epochs.set epoch blank } ↔
      ∀ state, m.epochs.get? epoch = some state → state.Blank := by
  constructor
  · intro h state hstate
    obtain ⟨state', hstate', hkept⟩ := h epoch state hstate
    rw [OrderedDict.get?_set_self] at hstate'
    obtain rfl := Option.some.inj hstate'
    exact hblank.keptAs_iff.mp hkept
  · intro h key state hstate
    by_cases hkey : key = epoch
    · subst hkey
      exact ⟨blank, OrderedDict.get?_set_self .., hblank.keptAs_iff.mpr (h state hstate)⟩
    · exact ⟨state, OrderedDict.get?_set_eq_some.mpr (Or.inr ⟨hkey, hstate⟩), .refl state⟩

theorem getEpochPhase_cases (epoch : Option ℤ) (time time' : F) (m : EpochManager F) :
    (m.getEpochPhase epoch time time').2 = m ∨
      ∃ key offset, m.epochs.get? key = none ∧ (m.getEpochPhase epoch time time').2 =
        { m with epochs := m.epochs.set key (m.blankState key offset) } := by
  unfold EpochManager.getEpochPhase
  dsimp only
  cases h : m.epochs.get? (epoch.getD (m.getCurrentEpoch time)) with
  | some state => exact Or.inl rfl
  | none =>
    rw [EpochManager.initializeEpoch_eq]
    split_ifs with hfits
    · exact Or.inr ⟨_, _, h, rfl⟩
    · exact Or.inl rfl

theorem isInGracePeriod_eq (txEpoch : ℤ) (time time' : F) (m : EpochManager F) :
    (m.isInGracePeriod txEpoch time time').2 =
      if txEpoch = m.getCurrentEpoch time - 1 ∧
        FitsFloat (m.getCurrentEpoch time * EPOCH_DURATION_SEC) then
        let offset := literal (m.getCurrentEpoch time * EPOCH_DURATION_SEC : ℤ)
        { m with
          epochs := m.epochs.set (m.getCurrentEpoch time)
            (m.blankState (m.getCurrentEpoch time) offset) }
      else m := by
  unfold EpochManager.isInGracePeriod
  dsimp only
  rw [EpochManager.initializeEpoch_eq]
  by_cases hsame : txEpoch = m.getCurrentEpoch time
  · have hprev : ¬ txEpoch = m.getCurrentEpoch time - 1 := by omega
    rw [if_pos hsame, if_neg fun h => hprev h.1]
  · rw [if_neg hsame]
    by_cases hprev : txEpoch = m.getCurrentEpoch time - 1
    · rw [if_pos hprev]
      by_cases hfits : FitsFloat (m.getCurrentEpoch time * EPOCH_DURATION_SEC)
      · rw [if_pos hfits, if_pos ⟨hprev, hfits⟩]
      · rw [if_neg hfits, if_neg fun h => hfits h.2]
    · rw [if_neg hprev, if_neg fun h => hprev h.1]

theorem keepsRecords_getEpochPhase (epoch : Option ℤ) (time time' : F) (m : EpochManager F) :
    KeepsRecords m (m.getEpochPhase epoch time time').2 := by
  rcases getEpochPhase_cases epoch time time' m with h | ⟨key, offset, hnone, h⟩
  · rw [h]
    exact .of_eq rfl
  · rw [h, keepsRecords_set_iff (blank_blankState key offset m), hnone]
    nofun

theorem keepsRecords_isInGracePeriod_iff (txEpoch : ℤ) (time time' : F) (m : EpochManager F) :
    KeepsRecords m (m.isInGracePeriod txEpoch time time').2 ↔
      (Call.isInGracePeriod txEpoch time time').Harmless m := by
  rw [isInGracePeriod_eq, Call.Harmless]
  split_ifs with h
  · rw [keepsRecords_set_iff (blank_blankState ..)]
    exact ⟨fun hblank _ _ => hblank, fun hblank => hblank h.1 h.2⟩
  · exact iff_of_true (.of_eq rfl) fun hprev hfits => absurd ⟨hprev, hfits⟩ h

theorem Counted.keepsRecords_advanceEpoch_iff (hm : Counted m) (time : F) :
    KeepsRecords m (m.advanceEpoch time).2 ↔ (Call.advanceEpoch time).Harmless m := by
  rw [Call.Harmless]
  rcases m.advanceEpoch_cases time with
    ⟨entropy, m', ⟨hlow, hhigh⟩, -, heq, -, hrecords⟩ | ⟨hout, e, heq⟩
  · rw [heq]
    constructor
    · intro h _
      by_contra hsome
      obtain ⟨state, hstate⟩ := Option.ne_none_iff_exists'.mp hsome
      obtain ⟨state', hstate', hkept⟩ := h _ state hstate
      rw [hrecords, if_pos rfl] at hstate'
      have hentropy := hkept.entropy
      rw [hm.drawn _ state hstate (by omega), ← Option.some.inj hstate'] at hentropy
      cases hentropy
    · intro h key state hstate
      have hnew : key ≠ m.currentEpoch + 1 := by
        rintro rfl
        rw [h hhigh] at hstate
        cases hstate
      rw [hrecords, if_neg hnew]
      split_ifs with hprev
      · rw [hstate]
        exact ⟨_, rfl, rfl, rfl, rfl, fun _ => rfl⟩
      · exact ⟨state, hstate, .refl state⟩
  · rw [heq]
    refine iff_of_true (.of_eq rfl) fun hhigh => absurd ⟨?_, hhigh⟩ hout
    have := hm.nonneg
    omega

theorem Counted.keepsRecords_iff (hm : Counted m) (c : Call F) :
    KeepsRecords m (c.act m) ↔ c.Harmless m := by
  cases c with
  | getEpochPhase epoch time time' =>
    exact iff_of_true (keepsRecords_getEpochPhase epoch time time' m) trivial
  | isInGracePeriod txEpoch time time' =>
    exact keepsRecords_isInGracePeriod_iff txEpoch time time' m
  | advanceEpoch time => exact hm.keepsRecords_advanceEpoch_iff time

end

namespace Counted

variable {m m' : EpochManager F}

omit [PyFloat F] in
theorem of_eq (h : Counted m) (hepoch : m'.currentEpoch = m.currentEpoch)
    (hrecords : m'.epochs = m.epochs) : Counted m' where
  nonneg := hepoch ▸ h.nonneg
  drawn := by
    rw [hepoch, hrecords]
    exact h.drawn

omit [PyFloat F] in
theorem set_blank (h : Counted m) (epoch : ℤ) {blank : EpochState F} (hblank : blank.Blank) :
    Counted { m with epochs := m.epochs.set epoch blank } where
  nonneg := h.nonneg
  drawn := by
    apply OrderedDict.forall_get?_set _ h.drawn
    intro _
    exact hblank.entropy

omit [PyFloat F] in
theorem updateEpoch (h : Counted m) (epoch : ℤ) {change : EpochState F → EpochState F}
    (hchange : ∀ state, (change state).entropy = state.entropy) :
    Counted (m.updateEpoch epoch change) where
  nonneg := by
    rw [EpochManager.currentEpoch_updateEpoch]
    exact h.nonneg
  drawn := by
    intro key state hstate hlt
    rw [EpochManager.currentEpoch_updateEpoch] at hlt
    rw [EpochManager.get?_updateEpoch] at hstate
    split_ifs at hstate
    · obtain ⟨old, hold, rfl⟩ := Option.map_eq_some_iff.mp hstate
      rw [hchange]
      exact h.drawn key old hold hlt
    · exact h.drawn key state hstate hlt

theorem advanceEpoch (h : Counted m) (time : F) : Counted (m.advanceEpoch time).2 := by
  have hnonneg := h.nonneg
  rcases m.advanceEpoch_cases time with ⟨entropy, m', -, -, heq, hepoch, hrecords⟩ | ⟨-, e, heq⟩
  · rw [heq]
    refine ⟨by simp only [hepoch]; omega, ?_⟩
    intro key state hstate hlt
    simp only [hepoch] at hlt
    have hnew : key ≠ m.currentEpoch + 1 := by omega
    have hold : key ≠ m.currentEpoch := by omega
    rw [hrecords, if_neg hnew, if_neg hold] at hstate
    exact h.drawn key state hstate (by omega)
  · rw [heq]
    refine ⟨by simp only; omega, ?_⟩
    intro key state hstate hlt
    simp only at hlt
    exact h.drawn key state hstate (by omega)

theorem call (h : Counted m) (c : Call F) : Counted (c.act m) := by
  cases c with
  | getEpochPhase epoch time time' =>
    rw [Call.act]
    rcases getEpochPhase_cases epoch time time' m with heq | ⟨key, offset, -, heq⟩
    · rw [heq]
      exact h
    · rw [heq]
      exact h.set_blank key (blank_blankState ..)
  | isInGracePeriod txEpoch time time' =>
    rw [Call.act, isInGracePeriod_eq]
    split_ifs
    · exact h.set_blank _ (blank_blankState ..)
    · exact h
  | advanceEpoch time => exact h.advanceEpoch time

theorem act (h : Counted m) (op : Operation F) : Counted (op.act m) := by
  cases op with
  | call c => exact h.call c
  | finalizeEpoch epoch blockRoot =>
    rw [Operation.act, EpochManager.finalizeEpoch]
    split_ifs
    · have hupdate : Counted (m.updateEpoch epoch fun state =>
          { state with finalized := true, blockRoot := some blockRoot }) :=
        h.updateEpoch epoch fun state => rfl
      exact hupdate.of_eq rfl rfl
    · exact h
  | addValidatorCommitment epoch validatorId commitment =>
    exact h.updateEpoch epoch fun state => rfl
  | updateNetworkMeasurements rttData time =>
    rw [Operation.act]
    split
    · exact h
    · exact h.of_eq rfl rfl
  | updateBlockchainState blockHash => exact h.of_eq rfl rfl
  | updateExternalBeacons beaconData => exact h.of_eq rfl rfl

theorem init (genesisTime : F) (historicalChain : Bytes) :
    Counted (EpochManager.init genesisTime historicalChain) := by
  have hempty : Counted
      ({ genesisTime := genesisTime, entropyWell := { historicalChain := historicalChain } } :
        EpochManager F) := ⟨le_rfl, nofun⟩
  exact hempty.set_blank 0 (blank_blankState ..)

theorem runs (h : Counted m) (ops : List (Operation F)) :
    Counted (Transition.runs Operation.act ops m) := by
  induction ops using List.reverseRecOn with
  | nil => exact h
  | append_singleton ops op ih =>
    rw [runs_append_singleton]
    exact ih.act op

end Counted

/-- From every state that a new manager reaches, a call keeps all records exactly when it is
harmless there. -/
theorem epoch_records_kept_iff (genesisTime : F) (historicalChain : Bytes)
    (ops : List (Operation F)) (c : Call F) :
    KeepsRecords (runs Operation.act ops (EpochManager.init genesisTime historicalChain))
        (c.act (runs Operation.act ops (EpochManager.init genesisTime historicalChain))) ↔
      c.Harmless (runs Operation.act ops (EpochManager.init genesisTime historicalChain)) :=
  ((Counted.init genesisTime historicalChain).runs ops).keepsRecords_iff c

/-- A transaction of the previous epoch is looked at in the first epoch: the entropy of the
current epoch is lost. -/
theorem epoch_records_not_kept :
    ¬ ∀ (genesisTime : ℚ) (historicalChain : Bytes) (ops : List (Operation ℚ)) (c : Call ℚ),
      KeepsRecords (runs Operation.act ops (EpochManager.init genesisTime historicalChain))
        (c.act (runs Operation.act ops (EpochManager.init genesisTime historicalChain))) := by
  intro h
  let ops : List (Operation ℚ) := [.call (.advanceEpoch 900)]
  have hblank := (keepsRecords_isInGracePeriod_iff 0 900 901 _).mp
    (h 0 [1] ops (.isInGracePeriod 0 900 901)) (by decide +kernel) (by decide +kernel)
  have hdrawn : ((runs Operation.act ops (EpochManager.init 0 [1])).epochs.get?
      ((runs Operation.act ops (EpochManager.init 0 [1])).getCurrentEpoch 900)).map
        (fun state => state.entropy.isSome) = some true := by
    decide +kernel
  obtain ⟨state, hstate, hsome⟩ := Option.map_eq_some_iff.mp hdrawn
  rw [(hblank state hstate).entropy] at hsome
  cases hsome

end Qrtb.Epochs
