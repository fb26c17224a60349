import Qrtb.Blocks.Issuance
import Qrtb.Consensus.Proposer

/-!
# The block coordinator and the proposer it selects (`src/block_producer.py`)

The coordinator of a zone selects the validator with the highest hash times
stake and builds its proposal. The consensus engine expects the validator that
a sample over the cumulative stakes hits. The two hash different values, and
only one of them sees the entropy.
-/

namespace Qrtb

open Keccak PyFloat

/-- What the coordinator reads of a validator object. `stake` and `address` are attributes the
object may lack; a `ValidatorNode` has neither, it keeps its stake in the configuration. -/
structure ZoneValidator where
  zoneId : ℤ
  stake : Option ℤ
  address : Option Bytes
  deriving DecidableEq

/-- `epoch.to_bytes(8, 'big')`. -/
def epochBytes (epoch : ℤ) : Except PyError Bytes :=
  if 0 ≤ epoch ∧ epoch < 256 ^ 8 then .ok (Bytes.bigEndian 8 epoch.toNat)
  else .error .overflowError

def readAttribute {α : Type} : Option α → Except PyError α
  | none => .error .attributeError
  | some a => .ok a

/-- The order of the score list: higher weight first, then the higher identifier. -/
def Outranks (a b : ℤ × Bytes) : Prop := b.1 < a.1 ∨ b.1 = a.1 ∧ b.2 ≤ a.2

instance : DecidableRel Outranks := fun a b =>
  inferInstanceAs (Decidable (b.1 < a.1 ∨ b.1 = a.1 ∧ b.2 ≤ a.2))

structure BlockCoordinator where
  zoneId : ℤ
  validators : OrderedDict Bytes ZoneValidator
  zoneLedger : Ledger := {}
  zoneMempool : Mempool := {}
  currentProposer : Option Bytes := none

namespace BlockCoordinator

def zoneValidators (b : BlockCoordinator) : List (Bytes × ZoneValidator) :=
  b.validators.items.filter fun p => p.2.zoneId = b.zoneId

/-- The weighted score of one validator, with its identifier. -/
def weightedScore (epoch : ℤ) (entropy : Bytes) (p : Bytes × ZoneValidator) :
    Except PyError (ℤ × Bytes) := do
  let scoreInput := entropy ++ p.1 ++ (← epochBytes epoch)
  let score : ℤ := Bytes.toNat ((sha3_256 scoreInput).slice 0 8)
  let stake ← readAttribute p.2.stake
  return (score * stake, p.1)

/-- The empty identifier stands for an empty zone. -/
def selectProposer (epoch : ℤ) (entropy : Bytes) (b : BlockCoordinator) :
    Except PyError Bytes × BlockCoordinator :=
  if b.zoneValidators.isEmpty then (.ok [], b)
  else
    match b.zoneValidators.mapM (weightedScore epoch entropy) with
    | .error e => (.error e, b)
    | .ok scores =>
      match scores.insertionSort Outranks with
      | [] => (.error .indexError, b)
      | (_, vid) :: _ => (.ok vid, { b with currentProposer := some vid })

/-- The entries of `producers` are views of the ledger and the pool of the zone under their
identifiers; their counters are left out. -/
def producer (proposerId : Bytes) (b : BlockCoordinator) : BlockProducer :=
  { validatorId := proposerId, ledger := b.zoneLedger, mempool := b.zoneMempool }

def rewardAddress (proposerId : Bytes) (b : BlockCoordinator) : Except PyError Bytes :=
  match b.validators.get? proposerId with
  | some v => readAttribute v.address
  | none => .ok proposerId

variable {F : Type} [PyFloat F]

/-- Produce a block. The clock is read for the coinbase and for the proposal. -/
def produceBlock (epoch : ℤ) (entropy : Bytes) (measurements : OrderedDict Bytes Bytes)
    (coinbaseTime time : F) (nonce : Bytes) (b : BlockCoordinator) :
    Except PyError (Option (ConsensusProposal F)) × BlockCoordinator :=
  match b.selectProposer epoch entropy with
  | (.error e, b) => (.error e, b)
  | (.ok proposerId, b) =>
    if proposerId.isEmpty then (.ok none, b)
    else
      match (b.producer proposerId).fillTemplate ((b.producer proposerId).createTemplate epoch) with
      | (.error e, _, producer) => (.error e, { b with zoneMempool := producer.mempool })
      | (.ok _, template, producer) =>
        let measurementRoot := measurements.getD proposerId (List.replicate 32 0)
        let proposal := do
          let rewardAddress ← b.rewardAddress proposerId
          let proposal ← producer.buildBlock template measurementRoot rewardAddress coinbaseTime
            time nonce
          return some proposal
        (proposal, { b with zoneMempool := producer.mempool })

end BlockCoordinator

/-- The hash part of the score, for an epoch that fits its eight bytes. -/
def scoreValue (epoch : ℤ) (entropy vid : Bytes) : ℤ :=
  Bytes.toNat ((sha3_256 (entropy ++ vid ++ Bytes.bigEndian 8 epoch.toNat)).slice 0 8)

/-- No validator has a higher score, or the same one and a higher identifier. -/
def TopScore (stakes : OrderedDict Bytes ℤ) (epoch : ℤ) (entropy vid : Bytes) : Prop :=
  ∃ stake, stakes.get? vid = some stake ∧ ∀ w s, stakes.get? w = some s →
    Outranks (scoreValue epoch entropy vid * stake, vid) (scoreValue epoch entropy w * s, w)

/-- The sample of an epoch, for its first round. -/
def sampleValue (epoch : ℤ) : ℤ :=
  Bytes.toNat ((sha3_256 (ascii ['p', 'r', 'o', 'p', 'o', 's', 'e', 'r'] ++
    (Bytes.bigEndian 8 epoch.toNat ++ Bytes.bigEndian 8 0))).slice 0 8)

/-- The sample falls into the part of the total that belongs to `vid`. -/
def Sampled (stakes : OrderedDict Bytes ℤ) (epoch : ℤ) (vid : Bytes) : Prop :=
  let target := (sampleValue epoch).fmod stakes.values.sum
  ∃ stake, stakes.get? vid = some stake ∧ stakeBelow stakes.items vid ≤ target ∧
    target < stakeBelow stakes.items vid + stake

theorem Outranks.antisymm {a b : ℤ × Bytes} (h : Outranks a b) (h' : Outranks b a) :
    a.2 = b.2 := by
  rcases h with h | ⟨heq, h⟩
  · rcases h' with h' | ⟨heq, -⟩
    · omega
    · omega
  · rcases h' with h' | ⟨-, h'⟩
    · omega
    · exact List.le_antisymm h' h

instance : Std.Total Outranks where
  total a b := by
    rcases lt_trichotomy a.1 b.1 with h | h | h
    · exact Or.inr (Or.inl h)
    · rcases List.le_total a.2 b.2 with hle | hle
      · exact Or.inr (Or.inr ⟨h, hle⟩)
      · exact Or.inl (Or.inr ⟨h.symm, hle⟩)
    · exact Or.inl (Or.inl h)

instance : IsTrans (ℤ × Bytes) Outranks where
  trans a b c hab hbc := by
    rcases hab with hab | ⟨heq, hab⟩
    · left
      rcases hbc with hbc | ⟨heq, -⟩ <;> omega
    · rcases hbc with hbc | ⟨heq', hbc⟩
      · left
        omega
      · exact Or.inr ⟨heq'.trans heq, List.le_trans hbc hab⟩

theorem TopScore.unique {stakes : OrderedDict Bytes ℤ} {epoch : ℤ} {entropy v w : Bytes}
    (hv : TopScore stakes epoch entropy v) (hw : TopScore stakes epoch entropy w) : v = w := by
  obtain ⟨s, hs, htop⟩ := hv
  obtain ⟨t, ht, htop'⟩ := hw
  exact (htop w t ht).antisymm (htop' v s hs)

namespace BFTConsensus

/-- In the first round of an epoch the engine expects the sampled validator. -/
theorem expectedProposer_eq_ok {F : Type} {c : BFTConsensus F}
    (htotal : c.totalStake = c.validators.values.sum)
    (hpos : ∀ vid stake, c.validators.get? vid = some stake → 0 < stake)
    (hne : ∃ vid stake, c.validators.get? vid = some stake)
    (hepoch : 0 ≤ c.currentEpoch ∧ c.currentEpoch < 256 ^ 8) (hround : c.currentRound = 0) :
    ∃ vid, c.expectedProposer = .ok (some vid) ∧
      ∀ w, Sampled c.validators c.currentEpoch w ↔ w = vid := by
  have hnonneg : ∀ vid stake, c.validators.get? vid = some stake → 0 ≤ stake :=
    fun vid stake h => (hpos vid stake h).le
  obtain ⟨v, s, hv⟩ := hne
  have hsum : 0 < c.validators.values.sum := by
    rw [← sum_sorted]
    have hle := List.single_le_sum (l := (sortedValidators c.validators).map Prod.snd) (by
      intro t ht
      obtain ⟨p, hp, rfl⟩ := List.mem_map.mp ht
      exact nonneg_sorted hnonneg p hp) s (List.mem_map_of_mem (f := Prod.snd) (mem_sorted.mpr hv))
    exact (hpos v s hv).trans_le hle
  have hholds : c.Holds c.validators c.currentEpoch 0 :=
    ⟨fun _ => rfl, htotal, rfl, hround⟩
  have hlow := Int.fmod_nonneg_of_pos (selectionValue c.currentEpoch 0) hsum
  obtain ⟨vid, stake, -, -, hscan⟩ :=
    exists_selected hnonneg hsum (selectionValue c.currentEpoch 0)
  have hselected := hholds.selectedProposer hsum hepoch ⟨le_rfl, by decide⟩
  rw [hscan] at hselected
  refine ⟨vid, (hholds.expectedProposer hsum).trans hselected, ?_⟩
  intro w
  have hscan' := @scanStake_eq_some _ 0 _ w (pairwise_sorted c.validators)
    (nonneg_sorted hnonneg) hlow
  simp only [hscan, stakeBelow_sorted, zero_add, mem_sorted, Option.some.injEq] at hscan'
  rw [eq_comm, hscan']
  rfl

/-- A proposal of the running round by a registered validator is accepted from the expected one. -/
theorem receiveProposal_eq_ok {F : Type} {c : BFTConsensus F} {q : ConsensusProposal F}
    {expected hash : Bytes} (hepoch : q.epoch = c.currentEpoch) (hround : q.round = c.currentRound)
    (hmember : c.validators.contains q.proposerId) (hhash : q.proposalHash = .ok hash)
    (hexpected : c.expectedProposer = .ok (some expected)) :
    (c.receiveProposal q).1 = .ok () ↔ q.proposerId = expected := by
  have hcheck : (c.receiveProposal q).1 = .ok () ↔ ∃ hash, c.checkProposal q = .ok hash := by
    rw [receiveProposal]
    cases c.checkProposal q with
    | error e => simp
    | ok hash => simp
  simp only [hcheck, checkProposal, Except.bind_eq_ok, Check.rejectIf_eq_ok, Check.lift_eq_ok,
    exists_const, hexpected, Except.ok.injEq]
  constructor
  · rintro ⟨hash, -, -, -, e, rfl, hproposer, -⟩
    simpa using hproposer
  · rintro rfl
    exact ⟨hash, by simp [hepoch], by simp [hround], by simp [hmember], _, rfl, by simp, hhash⟩

end BFTConsensus

namespace BlockCoordinator

variable {epoch : ℤ} {entropy : Bytes} {b : BlockCoordinator}

theorem weightedScore_eq_ok (p : Bytes × ZoneValidator) (r : ℤ × Bytes) :
    weightedScore epoch entropy p = .ok r ↔
      ((0 ≤ epoch ∧ epoch < 256 ^ 8) ∧ p.2.stake.isSome) ∧
        r = (scoreValue epoch entropy p.1 * p.2.stake.getD 0, p.1) := by
  unfold weightedScore epochBytes
  cases hstake : p.2.stake with
  | none => split_ifs <;> simp [bind, Except.bind, readAttribute]
  | some stake =>
    split_ifs with hrange
    · simp only [hrange, readAttribute, bind, Except.bind, pure, Except.pure, Except.ok.injEq]
      simp [scoreValue, eq_comm]
    · constructor
      · intro h
        cases h
      · rintro ⟨⟨h, -⟩, -⟩
        exact absurd h hrange

theorem selectProposer_eq_ok {vid : Bytes} (h : (b.selectProposer epoch entropy).1 = .ok vid)
    (hvid : vid ≠ []) :
    (0 ≤ epoch ∧ epoch < 256 ^ 8) ∧ (∀ p ∈ b.zoneValidators, p.2.stake.isSome) ∧
      ∃ v, (vid, v) ∈ b.zoneValidators ∧ ∀ p ∈ b.zoneValidators,
        Outranks (scoreValue epoch entropy vid * v.stake.getD 0, vid)
          (scoreValue epoch entropy p.1 * p.2.stake.getD 0, p.1) := by
  rw [selectProposer] at h
  split_ifs at h with hempty
  · exact absurd (Except.ok.inj h).symm hvid
  split at h
  next => cases h
  next scores hscores =>
  obtain ⟨hall, rfl⟩ := (Except.mapM_eq_ok_iff weightedScore_eq_ok).mp hscores
  have hrange : 0 ≤ epoch ∧ epoch < 256 ^ 8 := by
    obtain ⟨p, hp⟩ := List.exists_mem_of_ne_nil b.zoneValidators fun hnil =>
      hempty (by rw [hnil]; rfl)
    exact (hall p hp).1
  have hsorted := List.pairwise_insertionSort Outranks
    (b.zoneValidators.map fun p => (scoreValue epoch entropy p.1 * p.2.stake.getD 0, p.1))
  split at h
  next => cases h
  next weight w rest heq =>
  obtain rfl := Except.ok.inj h
  rw [heq, List.pairwise_cons] at hsorted
  have hmem : ∀ r, r ∈ (weight, w) :: rest ↔ ∃ p ∈ b.zoneValidators,
      (scoreValue epoch entropy p.1 * p.2.stake.getD 0, p.1) = r := by
    intro r
    rw [← heq, List.mem_insertionSort, List.mem_map]
  obtain ⟨⟨w', v⟩, hv, hhead⟩ := (hmem (weight, w)).mp List.mem_cons_self
  obtain ⟨rfl, rfl⟩ := Prod.mk.inj hhead
  refine ⟨hrange, fun p hp => (hall p hp).2, v, hv, fun p hp => ?_⟩
  rcases List.mem_cons.mp ((hmem _).mpr ⟨p, hp, rfl⟩) with hp | hp
  · rw [hp]
    exact Or.inr ⟨rfl, List.le_refl _⟩
  · exact hsorted.1 _ hp

/-- The validators of the zone are the registered ones, with the same positive stakes. -/
structure SameValidators {F : Type} (b : BlockCoordinator) (c : BFTConsensus F) : Prop where
  same : ∀ vid stake, c.validators.get? vid = some stake ↔
    ∃ v, (vid, v) ∈ b.zoneValidators ∧ v.stake = some stake
  positive : ∀ p ∈ b.zoneValidators, ∃ stake, p.2.stake = some stake ∧ 0 < stake

theorem SameValidators.topScore {F : Type} {c : BFTConsensus F} (hsame : b.SameValidators c)
    {vid : Bytes} (h : (b.selectProposer epoch entropy).1 = .ok vid) (hvid : vid ≠ []) :
    TopScore c.validators epoch entropy vid := by
  obtain ⟨-, -, v, hv, htop⟩ := selectProposer_eq_ok h hvid
  obtain ⟨stake, hstake, -⟩ := hsame.positive _ hv
  refine ⟨stake, (hsame.same vid stake).mpr ⟨v, hv, hstake⟩, fun w s hw => ?_⟩
  obtain ⟨u, hu, hs⟩ := (hsame.same w s).mp hw
  have houtranks := htop _ hu
  rwa [hstake, hs] at houtranks

variable {F : Type} [PyFloat F]

/-- A produced proposal carries the selected identifier, the epoch and round zero. -/
theorem produceBlock_eq_ok {measurements : OrderedDict Bytes Bytes} {coinbaseTime time : F}
    {nonce : Bytes} {q : ConsensusProposal F}
    (h : (b.produceBlock epoch entropy measurements coinbaseTime time nonce).1 = .ok (some q)) :
    (b.selectProposer epoch entropy).1 = .ok q.proposerId ∧ q.proposerId ≠ [] ∧
      q.epoch = epoch ∧ q.round = 0 := by
  rw [produceBlock] at h
  split at h
  next => cases h
  next vid b' hselect =>
  split_ifs at h with hvid
  · cases h
  split at h
  next => cases h
  next template p' hfill =>
  simp only [Except.bind_eq_ok] at h
  obtain ⟨address, -, proposal, hbuild, hq⟩ := h
  obtain rfl := Option.some.inj (Except.ok.inj hq)
  obtain ⟨hashes, -, rfl⟩ := BlockProducer.buildBlock_eq_ok.mp hbuild
  obtain rfl := (Prod.mk.inj (Prod.mk.inj hfill).2).2
  have hepoch := (BlockProducer.fillTemplate_extends hfill).epoch
  exact ⟨by rw [hselect]; rfl, by simpa [BlockProducer.fillTemplate, producer] using hvid, hepoch,
    rfl⟩

/-- A zone with a validator object that has no `stake` produces nothing. -/
theorem not_produced_of_no_stake {p : Bytes × ZoneValidator} (hp : p ∈ b.zoneValidators)
    (hstake : p.2.stake = none) (measurements : OrderedDict Bytes Bytes) (coinbaseTime time : F)
    (nonce : Bytes) (q : ConsensusProposal F) :
    (b.produceBlock epoch entropy measurements coinbaseTime time nonce).1 ≠ .ok (some q) := by
  intro h
  obtain ⟨hselect, hvid, -, -⟩ := produceBlock_eq_ok h
  have hall := (selectProposer_eq_ok hselect hvid).2.1 p hp
  rw [hstake] at hall
  cases hall

theorem hashes_of_produceBlock {measurements : OrderedDict Bytes Bytes} {coinbaseTime time : F}
    {nonce : Bytes} {q : ConsensusProposal F}
    (h : (b.produceBlock epoch entropy measurements coinbaseTime time nonce).1 = .ok (some q)) :
    ∃ hash, q.proposalHash = .ok hash := by
  obtain ⟨hselect, hvid, hepoch, hround⟩ := produceBlock_eq_ok h
  have hrange : 0 ≤ q.epoch ∧ q.epoch < 256 ^ 8 := by
    rw [hepoch]
    exact (selectProposer_eq_ok hselect hvid).1
  have hround' : 0 ≤ q.round ∧ q.round < 256 ^ 8 := by
    rw [hround]
    decide
  exact ⟨_, q.proposalHash_eq_ok.mpr ⟨_, q.hashedBytes_eq_ok.mpr ⟨⟨hrange, hround'⟩, rfl⟩, rfl⟩⟩

/-- The engine accepts a produced proposal exactly when the validator with the top score is the
sampled one. -/
theorem produced_accepted_iff {c : BFTConsensus F} {measurements : OrderedDict Bytes Bytes}
    {coinbaseTime time : F} {nonce : Bytes} {q : ConsensusProposal F} (hc : c.Reachable)
    (hsame : b.SameValidators c) (hepoch : c.currentEpoch = epoch) (hround : c.currentRound = 0)
    (h : (b.produceBlock epoch entropy measurements coinbaseTime time nonce).1 = .ok (some q)) :
    (c.receiveProposal q).1 = .ok () ↔
      ∃ vid, TopScore c.validators epoch entropy vid ∧ Sampled c.validators epoch vid := by
  obtain ⟨hselect, hvid, hqepoch, hqround⟩ := produceBlock_eq_ok h
  have htop := hsame.topScore hselect hvid
  have hrange := (selectProposer_eq_ok hselect hvid).1
  have htotal : c.totalStake = c.validators.values.sum := by
    rw [hc.inv.totalStake_eq, OrderedDict.sumBy, List.map_id]
  have hpos : ∀ w s, c.validators.get? w = some s → 0 < s := by
    intro w s hw
    obtain ⟨u, hu, hs⟩ := (hsame.same w s).mp hw
    obtain ⟨s', hs', hpos⟩ := hsame.positive _ hu
    rw [hs] at hs'
    rwa [Option.some.inj hs']
  obtain ⟨stake, hstake, -⟩ := htop
  obtain ⟨expected, hexpected, hsampled⟩ := BFTConsensus.expectedProposer_eq_ok htotal hpos
    ⟨_, _, hstake⟩ (by rwa [hepoch]) hround
  rw [hepoch] at hsampled
  obtain ⟨hash, hhash⟩ := hashes_of_produceBlock h
  have haccepts := BFTConsensus.receiveProposal_eq_ok (hqepoch.trans hepoch.symm)
    (hqround.trans hround.symm) (by simp [OrderedDict.contains, hstake]) hhash hexpected
  rw [haccepts]
  constructor
  · rintro rfl
    exact ⟨q.proposerId, hsame.topScore hselect hvid, (hsampled _).mpr rfl⟩
  · rintro ⟨vid, hvtop, hvsampled⟩
    rw [(hsame.topScore hselect hvid).unique hvtop, (hsampled vid).mp hvsampled]

/-- A zone of the given stakes, paying its rewards to the empty address. -/
def zoneOf (stakes : OrderedDict Bytes ℤ) : BlockCoordinator :=
  { zoneId := 0
    validators := stakes.map fun stake => { zoneId := 0, stake := some stake, address := some [] } }

theorem mem_zoneOf (stakes : OrderedDict Bytes ℤ) (p : Bytes × ZoneValidator) :
    p ∈ (zoneOf stakes).zoneValidators ↔ ∃ stake, stakes.get? p.1 = some stake ∧
      p.2 = { zoneId := 0, stake := some stake, address := some [] } := by
  rw [zoneValidators, List.mem_filter, OrderedDict.mem_items_iff, zoneOf, OrderedDict.get?_map,
    Option.map_eq_some_iff]
  constructor
  · rintro ⟨⟨stake, hstake, hp⟩, -⟩
    exact ⟨stake, hstake, hp.symm⟩
  · rintro ⟨stake, hstake, hp⟩
    exact ⟨⟨stake, hstake, hp.symm⟩, by simp [hp]⟩

omit [PyFloat F] in
theorem sameValidators_zoneOf {c : BFTConsensus F}
    (hpos : ∀ vid stake, c.validators.get? vid = some stake → 0 < stake) :
    (zoneOf c.validators).SameValidators c where
  same vid stake := by
    constructor
    · intro h
      exact ⟨_, (mem_zoneOf _ _).mpr ⟨stake, h, rfl⟩, rfl⟩
    · rintro ⟨v, hv, hstake⟩
      obtain ⟨s, hs, rfl⟩ := (mem_zoneOf _ (vid, v)).mp hv
      rw [← Option.some.inj hstake]
      exact hs
  positive p hp := by
    obtain ⟨stake, hstake, heq⟩ := (mem_zoneOf _ p).mp hp
    exact ⟨stake, by rw [heq], hpos _ _ hstake⟩

theorem selectProposer_frame (epoch : ℤ) (entropy : Bytes) (b : BlockCoordinator) :
    (b.selectProposer epoch entropy).2 =
      { b with currentProposer := (b.selectProposer epoch entropy).2.currentProposer } := by
  rw [selectProposer]
  split_ifs
  · rfl
  split
  next => rfl
  next => split <;> rfl

theorem fst_selectProposer_congr {b b' : BlockCoordinator}
    (h : b.zoneValidators = b'.zoneValidators) :
    (b.selectProposer epoch entropy).1 = (b'.selectProposer epoch entropy).1 := by
  rw [selectProposer, selectProposer, h]
  split_ifs
  · rfl
  split
  next => rfl
  next scores => split <;> rfl

theorem exists_produceBlock_zoneOf {stakes : OrderedDict Bytes ℤ} {vid : Bytes}
    (hrange : 0 ≤ epoch ∧ epoch < 1000)
    (h : ((zoneOf stakes).selectProposer epoch entropy).1 = .ok vid) (hvid : vid ≠ []) :
    ∃ q, ((zoneOf stakes).produceBlock epoch entropy ∅ (0 : ℚ) 0 (List.replicate 8 0)).1 =
      .ok (some q) := by
  have hselect : (zoneOf stakes).selectProposer epoch entropy =
      (.ok vid, { zoneOf stakes with
        currentProposer := ((zoneOf stakes).selectProposer epoch entropy).2.currentProposer }) :=
    Prod.ext h (selectProposer_frame epoch entropy _)
  obtain ⟨address, haddress⟩ : ∃ address, (zoneOf stakes).rewardAddress vid = .ok address := by
    rw [rewardAddress, zoneOf, OrderedDict.get?_map]
    cases stakes.get? vid with
    | none => exact ⟨vid, rfl⟩
    | some stake => exact ⟨[], rfl⟩
  let p : BlockProducer := { validatorId := vid }
  have hpack : (BlockProducer.createCoinbase (p.createTemplate epoch) address
      (milliseconds (0 : ℚ)) (List.replicate 8 0)).Packable := by
    have htime : 0 ≤ milliseconds (0 : ℚ) ∧ milliseconds (0 : ℚ) < 256 ^ 8 := by decide +kernel
    have hreward : 0 ≤ COINBASE_REWARD + 0 ∧ COINBASE_REWARD + 0 < 256 ^ 8 := by decide
    have hlock : epoch + 100 < 256 ^ 8 := by omega
    exact (BlockProducer.createCoinbase_packable_iff _ _ _ _).mpr
      ⟨hreward, ⟨hrange.1, hlock⟩, htime⟩
  obtain ⟨q, hq⟩ := (p.buildBlock_returns (p.createTemplate epoch) (List.replicate 32 0) address
    (0 : ℚ) 0 (List.replicate 8 0)).mpr ⟨hpack, by simp [BlockProducer.createTemplate]⟩
  refine ⟨q, ?_⟩
  rw [produceBlock, hselect]
  simp only [List.isEmpty_iff, if_neg hvid]
  rw [show ∀ current, (producer vid { zoneOf stakes with currentProposer := current }).fillTemplate
    ((producer vid { zoneOf stakes with currentProposer := current }).createTemplate epoch) =
      (.ok 0, p.createTemplate epoch, p) from fun _ => rfl]
  simp only [Except.bind_eq_ok]
  exact ⟨address, haddress, q, hq, rfl⟩

theorem produced_accepted_pair : ∃ (b : BlockCoordinator) (c : BFTConsensus ℚ)
    (q : ConsensusProposal ℚ), c.validators.items = [([1], 3), ([2], 2)] ∧ q.proposerId = [2] ∧
      (b.produceBlock 4 [] ∅ 0 0 (List.replicate 8 0)).1 = .ok (some q) ∧
      (c.receiveProposal q).1 = .ok () := by
  let c : BFTConsensus ℚ := ((BFTConsensus.init [1] 3).registerValidator [2] 2).startRound 4 0
  have hreach : c.Reachable :=
    ((BFTConsensus.reachable_init [1] 3).next (.registerValidator [2] 2)).next (.startRound 4 0)
  have hpos : ∀ vid stake, c.validators.get? vid = some stake → 0 < stake :=
    OrderedDict.forall_get?_set (by decide)
      (OrderedDict.forall_get?_set (by decide) OrderedDict.forall_get?_empty)
  have hselect : ((zoneOf c.validators).selectProposer 4 []).1 = .ok [2] := by decide +kernel
  obtain ⟨q, hq⟩ := exists_produceBlock_zoneOf ⟨by decide, by decide⟩ hselect (by decide)
  have hsame := sameValidators_zoneOf hpos
  have hid : q.proposerId = [2] := by
    rw [(produceBlock_eq_ok hq).1] at hselect
    exact Except.ok.inj hselect
  refine ⟨zoneOf c.validators, c, q, rfl, hid, hq,
    (produced_accepted_iff hreach hsame rfl rfl hq).mpr ⟨[2], hsame.topScore hselect (by decide), ?_⟩⟩
  exact ⟨2, rfl, by decide +kernel, by decide +kernel⟩

/-- Two validators of equal stake, of which one has the top score and the other is sampled. -/
theorem produced_rejected : ∃ (b : BlockCoordinator) (c : BFTConsensus ℚ)
    (q : ConsensusProposal ℚ), c.Reachable ∧ b.SameValidators c ∧ c.currentEpoch = 0 ∧
      c.currentRound = 0 ∧
      (b.produceBlock 0 [] ∅ 0 0 (List.replicate 8 0)).1 = .ok (some q) ∧
      (c.receiveProposal q).1 ≠ .ok () := by
  let c : BFTConsensus ℚ := (BFTConsensus.init [1] 1).registerValidator [2] 1
  have hreach : c.Reachable := (BFTConsensus.reachable_init [1] 1).next (.registerValidator [2] 1)
  have hselect : ((zoneOf c.validators).selectProposer 0 []).1 = .ok [2] := by decide +kernel
  have hexpected : c.expectedProposer = .ok (some [1]) := by decide +kernel
  obtain ⟨q, hq⟩ := exists_produceBlock_zoneOf ⟨by decide, by decide⟩ hselect (by decide)
  obtain ⟨hproposer, -, hepoch, hround⟩ := produceBlock_eq_ok hq
  obtain ⟨hash, hhash⟩ := hashes_of_produceBlock hq
  have hid : q.proposerId = [2] := by
    rw [hselect] at hproposer
    exact (Except.ok.inj hproposer).symm
  refine ⟨zoneOf c.validators, c, q, hreach, sameValidators_zoneOf ?_, rfl, rfl, hq, ?_⟩
  · exact OrderedDict.forall_get?_set (by decide)
      (OrderedDict.forall_get?_set (by decide) OrderedDict.forall_get?_empty)
  · rw [Ne, BFTConsensus.receiveProposal_eq_ok hepoch hround (by rw [hid]; rfl) hhash hexpected,
      hid]
    decide

end BlockCoordinator

end Qrtb
