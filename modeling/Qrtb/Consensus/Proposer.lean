import Qrtb.Consensus.BFT
import Mathlib.Data.Int.ConditionallyCompleteOrder
import Mathlib.Data.Int.Interval

/-!
# Proposer selection (`src/consensus.py`)

The engine samples a value from epoch and round, reduces it modulo the total
stake and walks the cumulative stakes of the sorted registry. A validator owns as
many consecutive remainders as it has stake, so the remainders are partitioned by
stake and every engine over one registry selects the same validator.
-/

namespace Qrtb

open Keccak

/-- The stake of the validators before `vid`. -/
def stakeBelow (ps : List (Bytes × ℤ)) (vid : Bytes) : ℤ :=
  ((ps.filter fun p => p.1 < vid).map Prod.snd).sum

namespace BFTConsensus

section

variable {target cumulative : ℤ} {ps : List (Bytes × ℤ)} {vid : Bytes} {stake : ℤ}

theorem stakeBelow_of_le (h : ∀ p ∈ ps, vid ≤ p.1) : stakeBelow ps vid = 0 := by
  have hnone : (ps.filter fun p => p.1 < vid) = [] := by
    rw [List.filter_eq_nil_iff]
    intro p hp
    simpa using h p hp
  rw [stakeBelow, hnone]
  rfl

theorem stakeBelow_cons_of_lt {p : Bytes × ℤ} (h : p.1 < vid) :
    stakeBelow (p :: ps) vid = p.2 + stakeBelow ps vid := by
  simp [stakeBelow, h]

theorem stakeBelow_nonneg (hnonneg : ∀ p ∈ ps, 0 ≤ p.2) (vid : Bytes) :
    0 ≤ stakeBelow ps vid := by
  apply List.sum_nonneg
  intro s hs
  obtain ⟨p, hp, rfl⟩ := List.mem_map.mp hs
  exact hnonneg p (List.mem_of_mem_filter hp)

theorem stakeBelow_head {s : ℤ} (hhead : ∀ p ∈ ps, vid < p.1) :
    stakeBelow ((vid, s) :: ps) vid = 0 := by
  apply stakeBelow_of_le
  rw [List.forall_mem_cons]
  exact ⟨List.le_refl vid, fun p hp => List.le_of_lt (hhead p hp)⟩

theorem scanStake_eq_some (hsorted : ps.Pairwise fun p q => p.1 < q.1)
    (hnonneg : ∀ p ∈ ps, 0 ≤ p.2) (hle : cumulative ≤ target) :
    scanStake target cumulative ps = some vid ↔
      ∃ stake, (vid, stake) ∈ ps ∧ cumulative + stakeBelow ps vid ≤ target ∧
        target < cumulative + stakeBelow ps vid + stake := by
  induction ps generalizing cumulative with
  | nil => simp [scanStake]
  | cons p ps ih =>
    obtain ⟨v, s⟩ := p
    obtain ⟨hhead, hsorted⟩ := List.pairwise_cons.mp hsorted
    rw [List.forall_mem_cons] at hnonneg
    have hbelow : stakeBelow ((v, s) :: ps) v = 0 := stakeBelow_head hhead
    have htail : ∀ {w t}, (w, t) ∈ ps → stakeBelow ((v, s) :: ps) w = s + stakeBelow ps w :=
      fun hmem => stakeBelow_cons_of_lt (hhead _ hmem)
    rw [scanStake]
    split_ifs with hstop
    · constructor
      · intro h
        obtain rfl := Option.some.inj h
        exact ⟨s, List.mem_cons_self, by omega, by omega⟩
      · rintro ⟨t, hmem, hlow, -⟩
        rcases List.mem_cons.mp hmem with heq | hmem
        · rw [(Prod.mk.inj heq).1]
        · have hbelow' := stakeBelow_nonneg hnonneg.2 vid
          rw [htail hmem] at hlow
          omega
    · rw [ih hsorted hnonneg.2 (by omega)]
      constructor
      · rintro ⟨t, hmem, hlow, hhigh⟩
        exact ⟨t, List.mem_cons_of_mem _ hmem, by rw [htail hmem]; omega,
          by rw [htail hmem]; omega⟩
      · rintro ⟨t, hmem, hlow, hhigh⟩
        rcases List.mem_cons.mp hmem with heq | hmem
        · obtain ⟨rfl, rfl⟩ := Prod.mk.inj heq
          omega
        · rw [htail hmem] at hlow hhigh
          exact ⟨t, hmem, by omega, by omega⟩

theorem exists_scanStake (h : target < cumulative + (ps.map Prod.snd).sum)
    (hle : cumulative ≤ target) : ∃ vid, scanStake target cumulative ps = some vid := by
  induction ps generalizing cumulative with
  | nil =>
    simp only [List.map_nil, List.sum_nil] at h
    omega
  | cons p ps ih =>
    obtain ⟨v, s⟩ := p
    rw [scanStake]
    split_ifs with hstop
    · exact ⟨v, rfl⟩
    · rw [List.map_cons, List.sum_cons] at h
      exact ih (by omega) (by omega)

theorem stakeBelow_add_le (hsorted : ps.Pairwise fun p q => p.1 < q.1)
    (hnonneg : ∀ p ∈ ps, 0 ≤ p.2) (hmem : (vid, stake) ∈ ps) :
    stakeBelow ps vid + stake ≤ (ps.map Prod.snd).sum := by
  induction ps with
  | nil => cases hmem
  | cons p ps ih =>
    obtain ⟨v, s⟩ := p
    obtain ⟨hhead, hsorted⟩ := List.pairwise_cons.mp hsorted
    rw [List.forall_mem_cons] at hnonneg
    rw [List.map_cons, List.sum_cons]
    rcases List.mem_cons.mp hmem with heq | hmem
    · obtain ⟨rfl, rfl⟩ := Prod.mk.inj heq
      have hrest : 0 ≤ (ps.map Prod.snd).sum := by
        apply List.sum_nonneg
        intro t ht
        obtain ⟨q, hq, rfl⟩ := List.mem_map.mp ht
        exact hnonneg.2 q hq
      rw [stakeBelow_head hhead]
      omega
    · have hle := ih hsorted hnonneg.2 hmem
      have hbelow : stakeBelow ((v, s) :: ps) vid = s + stakeBelow ps vid :=
        stakeBelow_cons_of_lt (hhead _ hmem)
      omega

theorem card_scanStake (hsorted : ps.Pairwise fun p q => p.1 < q.1)
    (hnonneg : ∀ p ∈ ps, 0 ≤ p.2) (hmem : (vid, stake) ∈ ps) :
    (((Finset.Ico 0 (ps.map Prod.snd).sum).filter fun t =>
      scanStake t 0 ps = some vid).card : ℤ) = stake := by
  have hnodup : (ps.map Prod.fst).Nodup := by
    refine List.pairwise_map.mpr (hsorted.imp ?_)
    intro p q hlt heq
    rw [heq] at hlt
    exact List.lt_irrefl _ hlt
  have hunique : ∀ s, (vid, s) ∈ ps → s = stake := by
    intro s hs
    rw [OrderedDict.mem_iff_lookupItems hnodup] at hs hmem
    exact Option.some.inj (hs.symm.trans hmem)
  have hpart : ((Finset.Ico 0 (ps.map Prod.snd).sum).filter fun t =>
      scanStake t 0 ps = some vid) =
      Finset.Ico (stakeBelow ps vid) (stakeBelow ps vid + stake) := by
    have hend := stakeBelow_add_le hsorted hnonneg hmem
    have hstart := stakeBelow_nonneg hnonneg vid
    ext t
    rw [Finset.mem_filter, Finset.mem_Ico, Finset.mem_Ico]
    constructor
    · rintro ⟨⟨hlow, -⟩, hscan⟩
      obtain ⟨s, hs, hbelow, habove⟩ := (scanStake_eq_some hsorted hnonneg hlow).mp hscan
      rw [hunique s hs] at habove
      omega
    · rintro ⟨hbelow, habove⟩
      refine ⟨by omega, ?_⟩
      exact (scanStake_eq_some hsorted hnonneg (by omega)).mpr ⟨stake, hmem, by omega, by omega⟩
  have hstake := hnonneg _ hmem
  rw [hpart, Int.card_Ico]
  omega

end

instance : Std.Total fun a b : Bytes × ℤ => a.1 ≤ b.1 := ⟨fun a b => List.le_total a.1 b.1⟩

instance : IsTrans (Bytes × ℤ) fun a b => a.1 ≤ b.1 := ⟨fun _ _ _ h h' => List.le_trans h h'⟩

/-- The registry in the order of its scan. -/
abbrev sortedValidators (validators : OrderedDict Bytes ℤ) : List (Bytes × ℤ) :=
  validators.items.insertionSort fun a b => a.1 ≤ b.1

theorem perm_sorted (validators : OrderedDict Bytes ℤ) :
    (sortedValidators validators).Perm validators.items :=
  List.perm_insertionSort (fun a b : Bytes × ℤ => a.1 ≤ b.1) validators.items

theorem pairwise_sorted (validators : OrderedDict Bytes ℤ) :
    (sortedValidators validators).Pairwise fun p q => p.1 < q.1 := by
  have hsorted := List.pairwise_insertionSort (fun a b : Bytes × ℤ => a.1 ≤ b.1) validators.items
  have hnodup := ((perm_sorted validators).map Prod.fst).nodup_iff.mpr validators.nodup
  refine (hsorted.and (List.pairwise_map.mp hnodup)).imp ?_
  rintro p q ⟨hle, hne⟩
  by_contra hlt
  exact hne (List.le_antisymm hle (List.not_lt.mp hlt))

theorem mem_sorted {validators : OrderedDict Bytes ℤ} {vid : Bytes} {stake : ℤ} :
    (vid, stake) ∈ sortedValidators validators ↔ validators.get? vid = some stake := by
  rw [(perm_sorted validators).mem_iff, OrderedDict.mem_items_iff]

theorem nonneg_sorted {validators : OrderedDict Bytes ℤ}
    (h : ∀ vid stake, validators.get? vid = some stake → 0 ≤ stake) :
    ∀ p ∈ sortedValidators validators, 0 ≤ p.2 := fun p hp => h p.1 p.2 (mem_sorted.mp hp)

theorem sum_sorted (validators : OrderedDict Bytes ℤ) :
    ((sortedValidators validators).map Prod.snd).sum = validators.values.sum :=
  ((perm_sorted validators).map Prod.snd).sum_eq

theorem stakeBelow_sorted (validators : OrderedDict Bytes ℤ) (vid : Bytes) :
    stakeBelow (sortedValidators validators) vid = stakeBelow validators.items vid :=
  (((perm_sorted validators).filter _).map Prod.snd).sum_eq

theorem sorted_congr {validators registry : OrderedDict Bytes ℤ}
    (h : ∀ vid, validators.get? vid = registry.get? vid) :
    sortedValidators validators = sortedValidators registry := by
  have hperm := (perm_sorted validators).trans
    ((OrderedDict.perm_items h).trans (perm_sorted registry).symm)
  apply hperm.eq_of_pairwise _ (pairwise_sorted validators) (pairwise_sorted registry)
  intro p q _ _ hlt hgt
  exact absurd hgt (List.lt_asymm hlt)

/-- The value sampled for an epoch and a round that fit their eight bytes. -/
def selectionValue (epoch roundNum : ℤ) : ℤ :=
  Bytes.toNat ((sha3_256 (ascii ['p', 'r', 'o', 'p', 'o', 's', 'e', 'r'] ++
    (Bytes.bigEndian 8 epoch.toNat ++ Bytes.bigEndian 8 roundNum.toNat))).slice 0 8)

section

variable {F : Type} {registry : OrderedDict Bytes ℤ} {epoch roundNum : ℤ} {c : BFTConsensus F}

/-- An engine in a round of an epoch, over the stakes of a registry in any order. -/
structure Holds (registry : OrderedDict Bytes ℤ) (epoch roundNum : ℤ) (c : BFTConsensus F) :
    Prop where
  validators : ∀ vid, c.validators.get? vid = registry.get? vid
  totalStake : c.totalStake = registry.values.sum
  epoch : c.currentEpoch = epoch
  round : c.currentRound = roundNum

theorem Inv.holds (hc : c.Inv) (hvalidators : ∀ vid, c.validators.get? vid = registry.get? vid) :
    c.Holds registry c.currentEpoch c.currentRound where
  validators := hvalidators
  totalStake := by
    have hsum := OrderedDict.sumBy_congr id hvalidators
    rw [hc.totalStake_eq, hsum, OrderedDict.sumBy, List.map_id]
  epoch := rfl
  round := rfl

theorem Holds.selectedProposer (hc : c.Holds registry epoch roundNum)
    (htotal : 0 < registry.values.sum) (hepoch : 0 ≤ epoch ∧ epoch < 256 ^ 8)
    (hround : 0 ≤ roundNum ∧ roundNum < 256 ^ 8) :
    c.selectedProposer = .ok (scanStake ((selectionValue epoch roundNum).fmod registry.values.sum)
      0 (sortedValidators registry)) := by
  have hseed : concat [.bytes (ascii ['p', 'r', 'o', 'p', 'o', 's', 'e', 'r']),
      .int c.currentEpoch, .int c.currentRound] =
      .ok (ascii ['p', 'r', 'o', 'p', 'o', 's', 'e', 'r'] ++
        (Bytes.bigEndian 8 epoch.toNat ++ Bytes.bigEndian 8 roundNum.toNat)) := by
    simp only [concat_bytes_cons_eq_ok, concat_int_cons_eq_ok, concat_nil, hc.epoch, hc.round]
    exact ⟨_, ⟨hepoch, _, ⟨hround, _, rfl, rfl⟩, rfl⟩, by simp⟩
  have hsorted := sorted_congr hc.validators
  rw [BFTConsensus.selectedProposer, hseed]
  simp only [Except.bind, bind, hc.totalStake, if_neg htotal.ne']
  exact congrArg (fun ps => Except.ok (scanStake _ 0 ps)) hsorted

theorem Holds.isEmpty_eq_false (hc : c.Holds registry epoch roundNum)
    (htotal : 0 < registry.values.sum) : c.validators.items.isEmpty = false := by
  rw [List.isEmpty_eq_false_iff]
  intro hempty
  have hregistry : registry.items = [] :=
    List.Perm.eq_nil (hempty ▸ (OrderedDict.perm_items hc.validators).symm)
  simp [OrderedDict.values, hregistry] at htotal

theorem Holds.expectedProposer (hc : c.Holds registry epoch roundNum)
    (htotal : 0 < registry.values.sum) : c.expectedProposer = c.selectedProposer := by
  rw [BFTConsensus.expectedProposer, hc.isEmpty_eq_false htotal, if_neg (by simp)]

theorem Holds.amIProposer (hc : c.Holds registry epoch roundNum)
    (htotal : 0 < registry.values.sum) {vid : Bytes}
    (hvid : c.selectedProposer = .ok (some vid)) :
    c.amIProposer = .ok (decide (c.validatorId = vid)) := by
  rw [BFTConsensus.amIProposer, hc.isEmpty_eq_false htotal, if_neg (by simp), hvid]
  by_cases hself : c.validatorId = vid
  · simp [hself, bind, Except.bind, pure, Except.pure]
  · simp [hself, Ne.symm hself, bind, Except.bind, pure, Except.pure]

theorem exists_selected (hnonneg : ∀ vid stake, registry.get? vid = some stake → 0 ≤ stake)
    (htotal : 0 < registry.values.sum) (value : ℤ) :
    ∃ vid stake, registry.get? vid = some stake ∧ 0 < stake ∧
      scanStake (value.fmod registry.values.sum) 0 (sortedValidators registry) = some vid := by
  have hlow := Int.fmod_nonneg_of_pos value htotal
  have hhigh := Int.fmod_lt_of_pos value htotal
  obtain ⟨vid, hscan⟩ := @exists_scanStake _ 0 (sortedValidators registry)
    (by rwa [sum_sorted, zero_add]) hlow
  have hpart := (scanStake_eq_some (pairwise_sorted registry) (nonneg_sorted hnonneg) hlow).mp hscan
  obtain ⟨stake, hmem, hbelow, habove⟩ := hpart
  exact ⟨vid, stake, mem_sorted.mp hmem, by omega, hscan⟩

/-- Every engine over a registry selects the same validator with stake and only it takes itself
for the proposer, and a validator is hit by as many remainders of the total as it has stake. -/
theorem proposer_partition [PyFloat F]
    (hnonneg : ∀ vid stake, registry.get? vid = some stake → 0 ≤ stake)
    (htotal : 0 < registry.values.sum) (hepoch : 0 ≤ epoch ∧ epoch < 256 ^ 8)
    (hround : 0 ≤ roundNum ∧ roundNum < 256 ^ 8) :
    (∃ vid stake, registry.get? vid = some stake ∧ 0 < stake ∧
      ∀ c : BFTConsensus F, c.Reachable → (∀ v, c.validators.get? v = registry.get? v) →
        c.currentEpoch = epoch → c.currentRound = roundNum →
        c.expectedProposer = .ok (some vid) ∧ c.amIProposer = .ok (decide (c.validatorId = vid))) ∧
    ∀ vid stake, registry.get? vid = some stake →
      (((Finset.Ico 0 registry.values.sum).filter fun t =>
        scanStake t 0 (registry.items.insertionSort fun a b => a.1 ≤ b.1) = some vid).card : ℤ) =
        stake := by
  constructor
  · obtain ⟨vid, stake, hvid, hstake, hscan⟩ :=
      exists_selected hnonneg htotal (selectionValue epoch roundNum)
    refine ⟨vid, stake, hvid, hstake, ?_⟩
    rintro c hc hvalidators rfl rfl
    have hholds := hc.inv.holds hvalidators
    have hselected := hholds.selectedProposer htotal hepoch hround
    rw [hscan] at hselected
    exact ⟨(hholds.expectedProposer htotal).trans hselected, hholds.amIProposer htotal hselected⟩
  · intro vid stake hvid
    rw [← sum_sorted]
    exact card_scanStake (pairwise_sorted registry) (nonneg_sorted hnonneg) (mem_sorted.mpr hvid)

end

theorem proposer_partition_two :
    let registry : OrderedDict Bytes ℤ := (∅ : OrderedDict Bytes ℤ).set [1] 0 |>.set [2] 3
    (∃ vid stake, registry.get? vid = some stake ∧ 0 < stake ∧
      ∀ c : BFTConsensus ℚ, c.Reachable → (∀ v, c.validators.get? v = registry.get? v) →
        c.currentEpoch = 0 → c.currentRound = 0 →
        c.expectedProposer = .ok (some vid) ∧ c.amIProposer = .ok (decide (c.validatorId = vid))) ∧
    ∀ vid stake, registry.get? vid = some stake →
      (((Finset.Ico 0 registry.values.sum).filter fun t =>
        scanStake t 0 (registry.items.insertionSort fun a b => a.1 ≤ b.1) = some vid).card : ℤ) =
        stake := by
  have hnonneg : ∀ vid stake, ((∅ : OrderedDict Bytes ℤ).set [1] 0 |>.set [2] 3).get? vid =
      some stake → 0 ≤ stake :=
    OrderedDict.forall_get?_set (by decide)
      (OrderedDict.forall_get?_set (by decide) OrderedDict.forall_get?_empty)
  exact @proposer_partition _ _ 0 0 _ hnonneg (by decide) (by decide) (by decide)

/-- An epoch below zero does not fit the sampled bytes, so the selection raises. -/
theorem expectedProposer_negative : ∃ c : BFTConsensus ℚ, c.Reachable ∧
    (∀ vid stake, c.validators.get? vid = some stake → 0 ≤ stake) ∧ 0 < c.validators.values.sum ∧
      ¬ ∃ vid, c.expectedProposer = .ok (some vid) := by
  refine ⟨(init [1] 1).startRound (-1) 0, (reachable_init [1] 1).next (.startRound (-1) 0), ?_,
    by decide, ?_⟩
  · exact OrderedDict.forall_get?_set (by decide) OrderedDict.forall_get?_empty
  · rintro ⟨vid, h⟩
    cases h

end BFTConsensus

end Qrtb
