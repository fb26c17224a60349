import Qrtb.Consensus.CommitReveal
import Qrtb.Consensus.NodeVotes

/-!
# Commitments and votes on the wire (`src/node.py`)

Both are sent as parts of fixed width, a commitment with a counted list of targets among
them. The readers cut slices, which get shorter past the end of the data and are no
error, and it is the last number, which must be whole, that rejects what is too short.
-/

namespace Qrtb

open Bytes

namespace Node

def serializeCommitment (c : MeasurementCommitment) : Except PyError Bytes := do
  let epoch ← structPack 8 c.epoch
  let count ← structPack 4 c.targetIds.length
  let timestamp ← structPack 8 c.timestamp
  return ([c.validatorId, epoch, count] ++ c.targetIds ++ [c.commitmentHash, timestamp]).flatten

/-- So many slices of 32 bytes, and the offset behind them. -/
def readTargets (data : Bytes) : ℕ → ℕ → List Bytes × ℕ
  | 0, off => ([], off)
  | n + 1, off =>
    let (rest, stop) := readTargets data n (off + 32)
    (data.slice off (off + 32) :: rest, stop)

/-- Every exception makes the reader return nothing. -/
def deserializeCommitment (data : Bytes) : Option MeasurementCommitment := do
  let epoch ← (structUnpack 8 (data.slice 32 40)).toOption
  let numTargets ← (structUnpack 4 (data.slice 40 44)).toOption
  let (targetIds, off) := readTargets data numTargets 44
  let timestamp ← (structUnpack 8 (data.slice (off + 32) (off + 40))).toOption
  return {
    validatorId := data.slice 0 32
    epoch := epoch
    targetIds := targetIds
    commitmentHash := data.slice off (off + 32)
    timestamp := timestamp }

theorem unpack_toOption_eq_some {width n : ℕ} {data : Bytes} :
    (structUnpack width data).toOption = some n ↔ data.length = width ∧ n = Bytes.toNat data := by
  rw [← structUnpack_eq_ok]
  cases structUnpack width data <;> simp [Except.toOption]

theorem packed_toNat {width : ℕ} {data : Bytes} (h : data.length = width) :
    structPack width (Bytes.toNat data) = .ok data :=
  structPack_of_structUnpack (structUnpack_eq_ok.mpr ⟨h, rfl⟩)

@[simp] theorem readTargets_snd (data : Bytes) (n off : ℕ) :
    (readTargets data n off).2 = off + 32 * n := by
  induction n generalizing off with
  | zero => rfl
  | succ n ih =>
    rw [readTargets, ih]
    omega

@[simp] theorem length_readTargets (data : Bytes) (n off : ℕ) :
    (readTargets data n off).1.length = n := by
  induction n generalizing off with
  | zero => rfl
  | succ n ih => rw [readTargets, List.length_cons, ih]

theorem flatten_readTargets (data : Bytes) (n off : ℕ) :
    (readTargets data n off).1.flatten = data.slice off (off + 32 * n) := by
  induction n generalizing off with
  | zero => simp [readTargets, slice]
  | succ n ih =>
    rw [readTargets, List.flatten_cons, ih, slice_append_slice data (by omega) (by omega)]
    congr 1
    omega

theorem readTargets_flatten {targets : List Bytes} (h : ∀ t ∈ targets, t.length = 32)
    (before after : Bytes) :
    (readTargets (before ++ targets.flatten ++ after) targets.length before.length).1 =
      targets := by
  induction targets generalizing before with
  | nil => rfl
  | cons t targets ih =>
    have ht : t.length = 32 := h t List.mem_cons_self
    have hslice : slice (before ++ (t :: targets).flatten ++ after) before.length
        (before.length + 32) = t := by
      have hparts : before ++ (t :: targets).flatten ++ after =
          [before, t, targets.flatten ++ after].flatten := by simp
      rw [hparts]
      exact slice_flatten _ 1 _ _ rfl (by simp) (by simp [ht])
    have hrest := ih (fun s hs => h s (List.mem_cons_of_mem _ hs)) (before ++ t)
    rw [List.length_append, ht] at hrest
    rw [List.length_cons, readTargets, hslice]
    simp only [List.flatten_cons, List.append_assoc] at hrest ⊢
    rw [hrest]

/-- Ids and hashes of the width the format has room for, and no signature, which is not sent. -/
structure CommitmentWidths (c : MeasurementCommitment) : Prop where
  validatorId : c.validatorId.length = 32
  targetIds : ∀ t ∈ c.targetIds, t.length = 32
  commitmentHash : c.commitmentHash.length = 32
  signature : c.signature = []

/-- The numbers of a commitment, and how many targets it has, fit their widths. -/
structure CommitmentInRange (c : MeasurementCommitment) : Prop where
  epoch : 0 ≤ c.epoch ∧ c.epoch < 256 ^ 8
  targetCount : c.targetIds.length < 256 ^ 4
  timestamp : 0 ≤ c.timestamp ∧ c.timestamp < 256 ^ 8

theorem serializeCommitment_eq_ok {c : MeasurementCommitment} {data : Bytes} :
    serializeCommitment c = .ok data ↔ CommitmentInRange c ∧
      data = [c.validatorId, bigEndian 8 c.epoch.toNat, bigEndian 4 c.targetIds.length,
        c.targetIds.flatten, c.commitmentHash, bigEndian 8 c.timestamp.toNat].flatten := by
  simp only [serializeCommitment, Except.bind_eq_ok, structPack_eq_ok]
  constructor
  · rintro ⟨_, ⟨he, rfl⟩, _, ⟨hn, rfl⟩, _, ⟨ht, rfl⟩, hdata⟩
    refine ⟨⟨he, by exact_mod_cast hn.2, ht⟩, ?_⟩
    rw [← Except.ok.inj hdata]
    simp
  · rintro ⟨⟨he, hn, ht⟩, rfl⟩
    refine ⟨_, ⟨he, rfl⟩, _, ⟨⟨by omega, by exact_mod_cast hn⟩, rfl⟩, _, ⟨ht, rfl⟩, ?_⟩
    simp [pure, Except.pure]

/-- The number of targets the data announces. -/
def targetCount (data : Bytes) : ℕ := Bytes.toNat (data.slice 40 44)

def commitmentIn (data : Bytes) : MeasurementCommitment where
  validatorId := data.slice 0 32
  epoch := Bytes.toNat (data.slice 32 40)
  targetIds := (readTargets data (targetCount data) 44).1
  commitmentHash := data.slice (44 + 32 * targetCount data) (44 + 32 * targetCount data + 32)
  timestamp := Bytes.toNat
    (data.slice (44 + 32 * targetCount data + 32) (44 + 32 * targetCount data + 40))

theorem deserializeCommitment_eq_some {data : Bytes} {c : MeasurementCommitment} :
    deserializeCommitment data = some c ↔
      84 + 32 * targetCount data ≤ data.length ∧ c = commitmentIn data := by
  simp only [deserializeCommitment, Option.bind_eq_bind, Option.bind_eq_some_iff,
    unpack_toOption_eq_some, readTargets_snd, length_slice_eq]
  constructor
  · rintro ⟨_, ⟨he, rfl⟩, _, ⟨hn, rfl⟩, _, ⟨ht, rfl⟩, hc⟩
    exact ⟨by rw [targetCount]; omega, (Option.some.inj hc).symm⟩
  · rintro ⟨h, rfl⟩
    exact ⟨_, ⟨by omega, rfl⟩, _, ⟨by omega, rfl⟩, _, ⟨by rw [← targetCount]; omega, rfl⟩, rfl⟩

theorem length_of_serializeCommitment {c : MeasurementCommitment} (hc : CommitmentWidths c)
    {data : Bytes} (h : serializeCommitment c = .ok data) :
    data.length = 84 + 32 * c.targetIds.length := by
  have htargets : c.targetIds.flatten.length = 32 * c.targetIds.length := by
    rw [List.length_flatten, List.map_congr_left hc.targetIds, List.map_const',
      List.sum_replicate_nat, Nat.mul_comm]
  rw [(serializeCommitment_eq_ok.mp h).2]
  simp [hc.validatorId, hc.commitmentHash, htargets]
  omega

theorem deserializeCommitment_of_serializeCommitment {c : MeasurementCommitment}
    (hc : CommitmentWidths c) {data : Bytes} (h : serializeCommitment c = .ok data) :
    deserializeCommitment data = some c := by
  obtain ⟨⟨he, hn, ht⟩, hdata⟩ := serializeCommitment_eq_ok.mp h
  have hid := hc.validatorId
  have hhash := hc.commitmentHash
  have htargets : c.targetIds.flatten.length = 32 * c.targetIds.length := by
    rw [List.length_flatten, List.map_congr_left hc.targetIds, List.map_const',
      List.sum_replicate_nat, Nat.mul_comm]
  have hcount : targetCount data = c.targetIds.length := by
    rw [targetCount, hdata, slice_flatten _ 2 40 44 rfl (by simp [hid]) (by simp),
      Bytes.toNat_bigEndian hn]
  have hread : (readTargets data c.targetIds.length 44).1 = c.targetIds := by
    have hparts : data = (c.validatorId ++ (bigEndian 8 c.epoch.toNat ++
        bigEndian 4 c.targetIds.length)) ++ c.targetIds.flatten ++
          (c.commitmentHash ++ bigEndian 8 c.timestamp.toNat) := by
      rw [hdata]
      simp
    have hfront : (c.validatorId ++ (bigEndian 8 c.epoch.toNat ++
        bigEndian 4 c.targetIds.length)).length = 44 := by simp [hid]
    rw [hparts, ← hfront]
    exact readTargets_flatten hc.targetIds _ _
  rw [deserializeCommitment_eq_some, hcount]
  constructor
  · exact (length_of_serializeCommitment hc h).ge
  · rw [commitmentIn, hcount, hread, hdata,
      slice_flatten _ 0 0 32 rfl rfl (by simp [hid]),
      slice_flatten _ 1 32 40 rfl (by simp [hid]) (by simp),
      slice_flatten _ 4 (44 + 32 * c.targetIds.length) (44 + 32 * c.targetIds.length + 32) rfl
        (by simp [hid, htargets]; omega) (by simp [hhash]),
      slice_flatten _ 5 (44 + 32 * c.targetIds.length + 32) (44 + 32 * c.targetIds.length + 40) rfl
        (by simp [hid, htargets, hhash]; omega) (by simp),
      Bytes.toNat_bigEndian (by omega), Bytes.toNat_bigEndian (by omega),
      Int.toNat_of_nonneg he.1, Int.toNat_of_nonneg ht.1]
    have hsignature := hc.signature
    cases c
    simp_all

theorem serializeCommitment_of_deserializeCommitment {data : Bytes} {c : MeasurementCommitment}
    (h : deserializeCommitment data = some c) :
    serializeCommitment c = .ok (data.take (84 + 32 * targetCount data)) := by
  obtain ⟨hlength, rfl⟩ := deserializeCommitment_eq_some.mp h
  have hcount : structPack 4 ((commitmentIn data).targetIds.length : ℕ) =
      .ok (data.slice 40 44) := by
    rw [commitmentIn, length_readTargets]
    exact packed_toNat (by rw [length_slice_eq]; omega)
  rw [serializeCommitment, hcount]
  simp only [commitmentIn]
  rw [@packed_toNat 8 _ (by rw [length_slice_eq]; omega),
    @packed_toNat 8 _ (by rw [length_slice_eq]; omega)]
  have hend : 44 + 32 * targetCount data + 40 = 84 + 32 * targetCount data := by omega
  have hjoin : ([data.slice 0 32, data.slice 32 40, data.slice 40 44] ++
      (readTargets data (targetCount data) 44).1 ++
      [data.slice (44 + 32 * targetCount data) (44 + 32 * targetCount data + 32),
        data.slice (44 + 32 * targetCount data + 32)
          (44 + 32 * targetCount data + 40)]).flatten =
      data.take (84 + 32 * targetCount data) := by
    rw [List.flatten_append, List.flatten_append, flatten_readTargets]
    simp only [List.flatten_cons, List.flatten_nil, List.append_nil]
    rw [slice_append_slice data (by omega) (by omega),
      slice_append_slice data (by omega) (by omega), slice_append_slice data (by omega) (by omega),
      slice_append_slice data (by omega) (by omega), slice_append_slice data (by omega) (by omega),
      slice_zero, hend]
  simp only [bind, Except.bind, pure, Except.pure]
  rw [hjoin]

structure VoteWidths (v : ConsensusVote) : Prop where
  voterId : v.voterId.length = 32
  proposalHash : v.proposalHash.length = 32
  signature : v.signature = []

structure VoteInRange (v : ConsensusVote) : Prop where
  epoch : 0 ≤ v.epoch ∧ v.epoch < 256 ^ 8
  round : 0 ≤ v.round ∧ v.round < 256 ^ 4
  stake : 0 ≤ v.stake ∧ v.stake < 256 ^ 8
  timestamp : 0 ≤ v.timestamp ∧ v.timestamp < 256 ^ 8

theorem serializeVote_eq_ok_iff {v : ConsensusVote} {data : Bytes} :
    serializeVote v = .ok data ↔ VoteInRange v ∧
      data = [v.voterId, bigEndian 8 v.epoch.toNat ++ bigEndian 4 v.round.toNat, v.proposalHash,
        bigEndian 8 v.stake.toNat, bigEndian 8 v.timestamp.toNat].flatten := by
  rw [serializeVote_eq_ok]
  simp only [packQI_eq_ok, structPack_eq_ok]
  constructor
  · rintro ⟨_, _, _, ⟨⟨he, hr⟩, rfl⟩, ⟨hs, rfl⟩, ⟨ht, rfl⟩, rfl⟩
    exact ⟨⟨he, hr, hs, ht⟩, by simp⟩
  · rintro ⟨⟨he, hr, hs, ht⟩, rfl⟩
    exact ⟨_, _, _, ⟨⟨he, hr⟩, rfl⟩, ⟨hs, rfl⟩, ⟨ht, rfl⟩, by simp⟩

def voteIn (data : Bytes) (voteType : VoteType) : ConsensusVote where
  voterId := data.slice 0 32
  epoch := Bytes.toNat (Bytes.slice (data.slice 32 44) 0 8)
  round := Bytes.toNat (Bytes.slice (data.slice 32 44) 8 12)
  proposalHash := data.slice 44 76
  voteType := voteType
  stake := Bytes.toNat (data.slice 76 84)
  timestamp := Bytes.toNat (data.slice 84 92)

theorem packQI_of_parts {epoch round : ℤ} {first last : Bytes}
    (hepoch : structPack 8 epoch = .ok first) (hround : structPack 4 round = .ok last) :
    packQI epoch round = .ok (first ++ last) := by
  rw [packQI, hepoch, hround]
  rfl

theorem unpackQI_toOption_eq_some {data : Bytes} {numbers : ℕ × ℕ} :
    (unpackQI data).toOption = some numbers ↔
      data.length = 12 ∧
        numbers = (Bytes.toNat (data.slice 0 8), Bytes.toNat (data.slice 8 12)) := by
  unfold unpackQI
  split_ifs with h <;> simp [Except.toOption, h, eq_comm]

theorem deserializeVote_eq_some {data : Bytes} {voteType : VoteType} {v : ConsensusVote} :
    deserializeVote data voteType = some v ↔ 92 ≤ data.length ∧ v = voteIn data voteType := by
  simp only [deserializeVote, Option.bind_eq_bind, Option.bind_eq_some_iff,
    unpack_toOption_eq_some, unpackQI_toOption_eq_some, length_slice_eq]
  constructor
  · rintro ⟨_, ⟨hh, rfl⟩, _, ⟨hs, rfl⟩, _, ⟨ht, rfl⟩, hv⟩
    exact ⟨by omega, (Option.some.inj hv).symm⟩
  · rintro ⟨h, rfl⟩
    exact ⟨_, ⟨by omega, rfl⟩, _, ⟨by omega, rfl⟩, _, ⟨by omega, rfl⟩, rfl⟩

theorem deserializeVote_of_serializeVote {v : ConsensusVote} (hv : VoteWidths v) {data : Bytes}
    (h : serializeVote v = .ok data) : deserializeVote data v.voteType = some v := by
  obtain ⟨⟨he, hr, hs, ht⟩, hdata⟩ := serializeVote_eq_ok_iff.mp h
  have hid := hv.voterId
  have hhash := hv.proposalHash
  have hheader : unpackQI (bigEndian 8 v.epoch.toNat ++ bigEndian 4 v.round.toNat) =
      .ok (v.epoch.toNat, v.round.toNat) :=
    unpackQI_of_packQI (packQI_eq_ok.mpr ⟨⟨he, hr⟩, rfl⟩)
  rw [deserializeVote, hdata, slice_flatten _ 1 32 44 rfl (by simp [hid]) (by simp),
    slice_flatten _ 3 76 84 rfl (by simp [hid, hhash]) (by simp),
    slice_flatten _ 4 84 92 rfl (by simp [hid, hhash]) (by simp),
    slice_flatten _ 0 0 32 rfl rfl (by simp [hid]),
    slice_flatten _ 2 44 76 rfl (by simp [hid]) (by simp [hhash]), hheader,
    structUnpack_bigEndian (by omega), structUnpack_bigEndian (by omega)]
  simp only [Except.toOption, Option.bind_eq_bind, Option.bind_some, Option.pure_def,
    Int.toNat_of_nonneg he.1, Int.toNat_of_nonneg hr.1, Int.toNat_of_nonneg hs.1,
    Int.toNat_of_nonneg ht.1]
  have hsignature := hv.signature
  cases v
  simp_all

theorem serializeVote_of_deserializeVote {data : Bytes} {voteType : VoteType} {v : ConsensusVote}
    (h : deserializeVote data voteType = some v) : serializeVote v = .ok (data.take 92) := by
  obtain ⟨hlength, rfl⟩ := deserializeVote_eq_some.mp h
  have hh : (data.slice 32 44).length = 12 := by rw [length_slice_eq]; omega
  have hepoch := @packed_toNat 8 (Bytes.slice (data.slice 32 44) 0 8)
    (by rw [length_slice_eq, hh]; omega)
  have hround := @packed_toNat 4 (Bytes.slice (data.slice 32 44) 8 12)
    (by rw [length_slice_eq, hh]; omega)
  have hstake := @packed_toNat 8 (data.slice 76 84) (by rw [length_slice_eq]; omega)
  have htime := @packed_toNat 8 (data.slice 84 92) (by rw [length_slice_eq]; omega)
  have hwhole : Bytes.slice (data.slice 32 44) 0 8 ++ Bytes.slice (data.slice 32 44) 8 12 =
      data.slice 32 44 := by
    rw [slice_append_slice _ (by omega) (by omega), slice_zero, List.take_of_length_le hh.le]
  have hheader : packQI (voteIn data voteType).epoch (voteIn data voteType).round =
      .ok (data.slice 32 44) :=
    (packQI_of_parts hepoch hround).trans (congrArg Except.ok hwhole)
  refine serializeVote_eq_ok.mpr ⟨_, _, _, hheader, hstake, htime, ?_⟩
  simp only [voteIn]
  rw [slice_append_slice data (by omega) (by omega), slice_append_slice data (by omega) (by omega),
    slice_append_slice data (by omega) (by omega), slice_append_slice data (by omega) (by omega),
    slice_zero]

/-- What can be sent is received as it was, and what can be received is what was sent, with bytes
behind it that are not read. -/
theorem codecs_exact (v : ConsensusVote) (c : MeasurementCommitment) (data : Bytes)
    (voteType : VoteType) (hv : VoteWidths v) (hc : CommitmentWidths c) :
    ((serializeVote v).Returns ↔ VoteInRange v) ∧
    (∀ sent, serializeVote v = .ok sent → deserializeVote sent v.voteType = some v) ∧
    ((serializeCommitment c).Returns ↔ CommitmentInRange c) ∧
    (∀ sent, serializeCommitment c = .ok sent → deserializeCommitment sent = some c) ∧
    ((deserializeVote data voteType).isSome ↔ 92 ≤ data.length) ∧
    (∀ w, deserializeVote data voteType = some w → serializeVote w = .ok (data.take 92)) ∧
    ((deserializeCommitment data).isSome ↔ 84 + 32 * targetCount data ≤ data.length) ∧
    ∀ d, deserializeCommitment data = some d →
      serializeCommitment d = .ok (data.take (84 + 32 * targetCount data)) := by
  refine ⟨?_, fun _ => deserializeVote_of_serializeVote hv, ?_,
    fun _ => deserializeCommitment_of_serializeCommitment hc, ?_,
    fun _ => serializeVote_of_deserializeVote, ?_,
    fun _ => serializeCommitment_of_deserializeCommitment⟩
  · simp [Except.Returns, serializeVote_eq_ok_iff]
  · simp [Except.Returns, serializeCommitment_eq_ok]
  · simp [Option.isSome_iff_exists, deserializeVote_eq_some]
  · simp [Option.isSome_iff_exists, deserializeCommitment_eq_some]

/-- A vote, a commitment to two targets, and data that ends within its second target. -/
theorem codecs_exact_two_targets :
    ∃ (v : ConsensusVote) (c : MeasurementCommitment) (data : Bytes),
      VoteInRange v ∧ CommitmentInRange c ∧ c.targetIds.length = 2 ∧ targetCount data = 2 ∧
      (∀ sent, serializeVote v = .ok sent → deserializeVote sent v.voteType = some v) ∧
      (∀ sent, serializeCommitment c = .ok sent → deserializeCommitment sent = some c) ∧
      deserializeCommitment data = none := by
  have h := codecs_exact
    { voterId := List.replicate 32 1, epoch := 3, round := 0, proposalHash := List.replicate 32 2,
      voteType := .preVote, stake := 100, timestamp := 1000 }
    { validatorId := List.replicate 32 1, epoch := 3,
      targetIds := [List.replicate 32 4, List.replicate 32 5],
      commitmentHash := List.replicate 32 6, timestamp := 1000 }
    (List.replicate 43 0 ++ 2 :: List.replicate 60 0) .preVote
    ⟨by decide, by decide, rfl⟩ ⟨by decide, by decide, by decide, rfl⟩
  obtain ⟨-, hvote, -, hcommitment, -, -, hlength, -⟩ := h
  have hcount : targetCount (List.replicate 43 0 ++ 2 :: List.replicate 60 0) = 2 := by decide
  refine ⟨_, _, _, ⟨by decide, by decide, by decide, by decide⟩, ⟨by decide, by decide, by decide⟩,
    rfl, hcount, hvote, hcommitment, ?_⟩
  rw [← Option.not_isSome_iff_eq_none, hlength, hcount]
  decide

end Node

end Qrtb
