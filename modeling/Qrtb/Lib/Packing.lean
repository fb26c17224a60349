import Mathlib.Algebra.BigOperators.Group.List.Basic
import Mathlib.Algebra.Order.BigOperators.Group.List
import Mathlib.Algebra.Order.Group.Defs

/-!
# Taking whatever still fits

Elements are taken from the front of a list as long as their sizes stay within a
limit; one that does not fit is skipped and the loop goes on. What is taken stays
in order and within the limit, and nothing that was left out would still fit.
-/

namespace Packing

variable {α M : Type*} [AddCommGroup M] [LinearOrder M]

/-- Every element that fits beside those taken before it. -/
def fill (size : α → M) (limit : M) : M → List α → List α
  | _, [] => []
  | total, a :: as =>
    if limit < total + size a then fill size limit total as
    else a :: fill size limit (total + size a) as

variable {size : α → M} {limit total : M} {as : List α} {a : α}

theorem fill_cons_of_lt (h : limit < total + size a) :
    fill size limit total (a :: as) = fill size limit total as := by
  rw [fill, if_pos h]

theorem fill_cons_of_le (h : total + size a ≤ limit) :
    fill size limit total (a :: as) = a :: fill size limit (total + size a) as := by
  rw [fill, if_neg (not_lt.mpr h)]

theorem fill_sublist (size : α → M) (limit total : M) (as : List α) :
    (fill size limit total as).Sublist as := by
  induction as generalizing total with
  | nil => exact List.Sublist.refl _
  | cons a as ih =>
    rcases lt_or_ge limit (total + size a) with h | h
    · rw [fill_cons_of_lt h]
      exact (ih total).cons a
    · rw [fill_cons_of_le h]
      exact (ih (total + size a)).cons_cons a

theorem sum_fill_le (size : α → M) (as : List α) (h : total ≤ limit) :
    total + ((fill size limit total as).map size).sum ≤ limit := by
  induction as generalizing total with
  | nil => simpa [fill] using h
  | cons a as ih =>
    rcases lt_or_ge limit (total + size a) with hover | hfits
    · rw [fill_cons_of_lt hover]
      exact ih h
    · rw [fill_cons_of_le hfits, List.map_cons, List.sum_cons, ← add_assoc]
      exact ih hfits

variable [IsOrderedAddMonoid M]

theorem fill_of_lt (hsize : ∀ b ∈ as, 0 ≤ size b) (h : limit < total) :
    fill size limit total as = [] := by
  induction as with
  | nil => rfl
  | cons b as ih =>
    have hover : limit < total + size b :=
      h.trans_le (le_add_of_nonneg_right (hsize b List.mem_cons_self))
    rw [fill_cons_of_lt hover]
    exact ih fun c hc => hsize c (List.mem_cons_of_mem b hc)

/-- What was skipped does not fit beside what was taken, earlier or later. -/
theorem lt_of_notMem_fill (hsize : ∀ b ∈ as, 0 ≤ size b) (ha : a ∈ as)
    (hskipped : a ∉ fill size limit total as) :
    limit < total + ((fill size limit total as).map size).sum + size a := by
  induction as generalizing total with
  | nil => cases ha
  | cons b as ih =>
    have htail : ∀ c ∈ as, 0 ≤ size c := fun c hc => hsize c (List.mem_cons_of_mem b hc)
    rcases lt_or_ge limit (total + size b) with h | h
    · rw [fill_cons_of_lt h] at hskipped ⊢
      rcases List.mem_cons.mp ha with rfl | ha
      · have hnonneg : 0 ≤ ((fill size limit total as).map size).sum := by
          apply List.sum_nonneg
          intro m hm
          obtain ⟨c, hc, rfl⟩ := List.mem_map.mp hm
          exact htail c ((fill_sublist size limit total as).subset hc)
        rw [add_right_comm]
        exact h.trans_le (le_add_of_nonneg_right hnonneg)
      · exact ih htail ha hskipped
    · rw [fill_cons_of_le h] at hskipped ⊢
      obtain ⟨hne, hrest⟩ := not_or.mp (mt List.mem_cons.mpr hskipped)
      rw [List.map_cons, List.sum_cons, ← add_assoc]
      exact ih htail ((List.mem_cons.mp ha).resolve_left hne) hrest

theorem fill_eq_self (hsize : ∀ b ∈ as, 0 ≤ size b) (h : total + (as.map size).sum ≤ limit) :
    fill size limit total as = as := by
  induction as generalizing total with
  | nil => rfl
  | cons b as ih =>
    have htail : ∀ c ∈ as, 0 ≤ size c := fun c hc => hsize c (List.mem_cons_of_mem b hc)
    rw [List.map_cons, List.sum_cons, ← add_assoc] at h
    have hnonneg : 0 ≤ (as.map size).sum := by
      apply List.sum_nonneg
      intro m hm
      obtain ⟨c, hc, rfl⟩ := List.mem_map.mp hm
      exact htail c hc
    rw [fill_cons_of_le ((le_add_of_nonneg_right hnonneg).trans h), ih htail h]

end Packing
