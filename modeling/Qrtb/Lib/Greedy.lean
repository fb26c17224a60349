import Mathlib.Algebra.BigOperators.Group.List.Basic
import Mathlib.Algebra.Order.BigOperators.Group.List
import Mathlib.Algebra.Order.Group.Defs
import Mathlib.Data.List.Perm.Subperm
import Mathlib.Data.List.TakeDrop

/-!
# Taking the largest first

From a list in descending order, elements are taken until their values cover what
is needed. What is taken is a prefix, nothing less of the prefix would do, and no
other choice of fewer elements does: the first `k` elements of a descending list
are worth at least as much as any `k` of it.
-/

namespace Greedy

variable {α M : Type*} [AddCommGroup M] [LinearOrder M]

/-- Elements from the front until the running total covers what is needed. -/
def takeUntil (value : α → M) (needed : M) : M → List α → List α × M
  | total, [] => ([], total)
  | total, a :: rest =>
    let total := total + value a
    if needed ≤ total then ([a], total)
    else
      let taken := takeUntil value needed total rest
      (a :: taken.1, taken.2)

variable {value : α → M} {needed total : M} {l : List α}

theorem takeUntil_cons_of_le {a : α} (h : needed ≤ total + value a) :
    takeUntil value needed total (a :: l) = ([a], total + value a) := by
  rw [takeUntil]
  simp only [if_pos h]

theorem takeUntil_cons_of_lt {a : α} (h : total + value a < needed) :
    takeUntil value needed total (a :: l) =
      (a :: (takeUntil value needed (total + value a) l).1,
        (takeUntil value needed (total + value a) l).2) := by
  rw [takeUntil]
  simp only [if_neg (not_le.mpr h)]

theorem takeUntil_isPrefix (value : α → M) (needed total : M) (l : List α) :
    (takeUntil value needed total l).1 <+: l := by
  induction l generalizing total with
  | nil => exact List.prefix_rfl
  | cons a l ih =>
    rcases le_or_gt needed (total + value a) with h | h
    · rw [takeUntil_cons_of_le h]
      exact ⟨l, rfl⟩
    · rw [takeUntil_cons_of_lt h]
      exact (List.prefix_cons_inj a).mpr (ih _)

theorem takeUntil_total (value : α → M) (needed total : M) (l : List α) :
    (takeUntil value needed total l).2 =
      total + ((takeUntil value needed total l).1.map value).sum := by
  induction l generalizing total with
  | nil => simp [takeUntil]
  | cons a l ih =>
    rcases le_or_gt needed (total + value a) with h | h
    · rw [takeUntil_cons_of_le h]
      simp
    · rw [takeUntil_cons_of_lt h, List.map_cons, List.sum_cons, ← add_assoc]
      exact ih _

theorem takeUntil_reaches_or_all (value : α → M) (needed total : M) (l : List α) :
    needed ≤ (takeUntil value needed total l).2 ∨ (takeUntil value needed total l).1 = l := by
  induction l generalizing total with
  | nil => exact Or.inr rfl
  | cons a l ih =>
    rcases le_or_gt needed (total + value a) with h | h
    · rw [takeUntil_cons_of_le h]
      exact Or.inl h
    · rw [takeUntil_cons_of_lt h]
      exact (ih _).imp_right fun hall => by rw [hall]

theorem lt_of_isPrefix_takeUntil (htotal : total < needed) {p : List α}
    (hp : p <+: (takeUntil value needed total l).1)
    (hlt : p.length < (takeUntil value needed total l).1.length) :
    total + (p.map value).sum < needed := by
  induction l generalizing total p with
  | nil => simp [takeUntil] at hlt
  | cons a l ih =>
    cases p with
    | nil => simpa using htotal
    | cons b p =>
      rcases le_or_gt needed (total + value a) with h | h
      · rw [takeUntil_cons_of_le h] at hlt
        simp at hlt
      · rw [takeUntil_cons_of_lt h] at hp hlt
        obtain ⟨rfl, hp⟩ := List.cons_prefix_cons.mp hp
        rw [List.map_cons, List.sum_cons, ← add_assoc]
        exact ih h hp (by simpa using hlt)

theorem le_takeUntil (h : needed ≤ (l.map value).sum) :
    needed ≤ (takeUntil value needed 0 l).2 := by
  rcases takeUntil_reaches_or_all value needed 0 l with hreach | hall
  · exact hreach
  · rwa [takeUntil_total, zero_add, hall]

variable [IsOrderedAddMonoid M]

/-- No choice from a descending list is worth more than its first elements. -/
theorem sum_sublist_le_sum_take {l s : List α} (hl : l.Pairwise fun a b => value b ≤ value a)
    (hs : s.Sublist l) : (s.map value).sum ≤ ((l.take s.length).map value).sum := by
  induction l generalizing s with
  | nil =>
    obtain rfl := List.sublist_nil.mp hs
    exact le_rfl
  | cons a l ih =>
    obtain ⟨ha, hl⟩ := List.pairwise_cons.mp hl
    cases s with
    | nil => simp
    | cons b s =>
      -- the first element of the choice is worth at most the first of all
      have hb : value b ≤ value a := by
        rcases List.mem_cons.mp (hs.subset List.mem_cons_self) with rfl | hb
        · exact le_rfl
        · exact ha b hb
      have hrest := ih hl hs.tail
      simp only [List.length_cons, List.take_succ_cons, List.map_cons, List.sum_cons]
      exact add_le_add hb hrest

theorem sum_subperm_le_sum_take {l s : List α} (hl : l.Pairwise fun a b => value b ≤ value a)
    (hs : s.Subperm l) : (s.map value).sum ≤ ((l.take s.length).map value).sum := by
  obtain ⟨t, hperm, hsub⟩ := hs
  have hle := sum_sublist_le_sum_take hl hsub
  rwa [hperm.length_eq, (hperm.map value).sum_eq] at hle

/-- What covers the need has at least as many elements as what the loop takes. -/
theorem length_takeUntil_le {s : List α} (hl : l.Pairwise fun a b => value b ≤ value a)
    (hneeded : 0 < needed) (hs : s.Subperm l) (hcovers : needed ≤ (s.map value).sum) :
    (takeUntil value needed 0 l).1.length ≤ s.length := by
  by_contra hlt
  push Not at hlt
  have htaken := takeUntil_isPrefix value needed 0 l
  have hp : l.take s.length <+: (takeUntil value needed 0 l).1 := by
    rw [List.prefix_iff_eq_take.mp htaken]
    exact List.take_prefix_take_left hlt.le
  have hlen : (l.take s.length).length = s.length := by
    rw [List.length_take, Nat.min_eq_left hs.length_le]
  have hshort := lt_of_isPrefix_takeUntil hneeded hp (by rwa [hlen])
  rw [zero_add] at hshort
  exact absurd (hcovers.trans (sum_subperm_le_sum_take hl hs)) (not_le.mpr hshort)

/-- With no negative value the loop takes all of a list that does not cover the need. -/
theorem takeUntil_eq_self (hvalue : ∀ a ∈ l, 0 ≤ value a) (h : (l.map value).sum < needed) :
    (takeUntil value needed 0 l).1 = l := by
  rcases takeUntil_reaches_or_all value needed 0 l with hreach | hall
  · obtain ⟨rest, hrest⟩ := takeUntil_isPrefix value needed 0 l
    have hnonneg : 0 ≤ (rest.map value).sum := by
      apply List.sum_nonneg
      intro m hm
      obtain ⟨a, ha, rfl⟩ := List.mem_map.mp hm
      exact hvalue a (by rw [← hrest]; exact List.mem_append_right _ ha)
    have hsplit : (l.map value).sum =
        (takeUntil value needed 0 l).2 + (rest.map value).sum := by
      rw [takeUntil_total, zero_add, ← List.sum_append, ← List.map_append, hrest]
    rw [hsplit] at h
    exact absurd (hreach.trans (le_add_of_nonneg_right hnonneg)) (not_le.mpr h)
  · exact hall

end Greedy
