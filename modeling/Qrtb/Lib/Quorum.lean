import Mathlib.Algebra.BigOperators.Group.Finset.Basic
import Mathlib.Algebra.Order.BigOperators.Group.Finset

/-!
# Weighted quorums

Voters carry non-negative weights, and none outside a finite set of them weighs
anything. Two sets of voters that together outweigh everybody overlap, and what
they share weighs at least the excess.
-/

namespace Quorum

open Finset

variable {α M : Type*} [DecidableEq α] [AddCommGroup M] {w : α → M} {U A B : Finset α}

theorem sum_inter_eq (hU : ∀ v ∉ U, w v = 0) (A : Finset α) :
    ∑ v ∈ A ∩ U, w v = ∑ v ∈ A, w v := by
  apply sum_subset inter_subset_left
  intro v hA hv
  exact hU v fun hmem => hv (mem_inter.mpr ⟨hA, hmem⟩)

variable [LinearOrder M] [IsOrderedAddMonoid M]

/-- Everybody is an upper bound, also for sets with voters from elsewhere. -/
theorem sum_le_total (hw : ∀ v, 0 ≤ w v) (hU : ∀ v ∉ U, w v = 0) (A : Finset α) :
    ∑ v ∈ A, w v ≤ ∑ v ∈ U, w v := by
  rw [← sum_inter_eq hU]
  exact sum_le_sum_of_subset_of_nonneg inter_subset_right fun v _ _ => hw v

theorem add_le_total_add_inter (hw : ∀ v, 0 ≤ w v) (hU : ∀ v ∉ U, w v = 0) :
    ∑ v ∈ A, w v + ∑ v ∈ B, w v ≤ ∑ v ∈ U, w v + ∑ v ∈ A ∩ B, w v := by
  rw [← sum_union_inter]
  exact add_le_add_left (sum_le_total hw hU (A ∪ B)) _

/-- Sets that outweigh everybody and the bad voters have a good voter in common. -/
theorem exists_good_mem_inter (hw : ∀ v, 0 ≤ w v) (hU : ∀ v ∉ U, w v = 0) {good : Finset α}
    (h : ∑ v ∈ U, w v + ∑ v ∈ U \ good, w v < ∑ v ∈ A, w v + ∑ v ∈ B, w v) :
    ∃ v ∈ good, v ∈ A ∧ v ∈ B := by
  by_contra hnone
  push Not at hnone
  have hbad : ∑ v ∈ A ∩ B, w v ≤ ∑ v ∈ U \ good, w v := by
    have hsub : A ∩ B ∩ U ⊆ U \ good := by
      intro v hv
      obtain ⟨hAB, hv⟩ := mem_inter.mp hv
      obtain ⟨hA, hB⟩ := mem_inter.mp hAB
      exact mem_sdiff.mpr ⟨hv, fun hgood => hnone v hgood hA hB⟩
    rw [← sum_inter_eq hU]
    exact sum_le_sum_of_subset_of_nonneg hsub fun v _ _ => hw v
  have hinter := add_le_total_add_inter (A := A) (B := B) hw hU
  exact absurd (h.trans_le hinter) (not_lt.mpr (by gcongr))

/-- Sets with at most one voter in common weigh no more than everybody and that voter. -/
theorem add_le_total_add_single (hw : ∀ v, 0 ≤ w v) (hU : ∀ v ∉ U, w v = 0) {h : α}
    (hone : ∀ v ∈ A, v ∈ B → v = h) :
    ∑ v ∈ A, w v + ∑ v ∈ B, w v ≤ ∑ v ∈ U, w v + w h := by
  have hsub : A ∩ B ⊆ {h} := by
    intro v hv
    obtain ⟨hA, hB⟩ := mem_inter.mp hv
    exact mem_singleton.mpr (hone v hA hB)
  have hsingle : ∑ v ∈ A ∩ B, w v ≤ w h := by
    rw [← sum_singleton w h]
    exact sum_le_sum_of_subset_of_nonneg hsub fun v _ _ => hw v
  apply (add_le_total_add_inter hw hU).trans
  gcongr

end Quorum
