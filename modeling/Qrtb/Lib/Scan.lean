import Mathlib.Data.List.Induction
import Mathlib.Algebra.Order.Ring.Int
import Mathlib.Data.List.Basic
import Mathlib.Order.Bounds.Basic

/-!
# Scanning

A loop over all numbers below a bound that does something only at the keys of an
increasing list is a loop over the list. A loop that keeps the best score it has
met ends with the greatest one, or with the floor it started from.
-/

namespace Scan

theorem foldl_range_of_idle {β : Type} {f : β → ℕ → β} {m n : ℕ} (hmn : m ≤ n)
    (hidle : ∀ b i, m ≤ i → f b i = b) (b : β) :
    (List.range n).foldl f b = (List.range m).foldl f b := by
  induction n, hmn using Nat.le_induction with
  | base => rfl
  | succ n hmn ih =>
    rw [List.range_succ, List.foldl_append, ih, List.foldl_cons, List.foldl_nil, hidle _ n hmn]

/-- Looking up every number below a bound in a list with increasing keys goes through the list. -/
theorem foldl_range_find {α β : Type} (key : α → ℤ) (g : β → α → β) (l : List α) (n : ℕ) (b : β)
    (hsorted : (l.map key).Pairwise (· < ·)) (hrange : ∀ a ∈ l, 0 ≤ key a ∧ key a < n) :
    (List.range n).foldl (fun b (i : ℕ) => (l.find? fun a => key a = (i : ℤ)).elim b (g b)) b =
      l.foldl g b := by
  induction l using List.reverseRecOn generalizing n with
  | nil => exact foldl_range_of_idle (Nat.zero_le n) (fun _ _ _ => rfl) b
  | append_singleton l a ih =>
    rw [List.map_append, List.pairwise_append] at hsorted
    obtain ⟨hl, -, hlast⟩ := hsorted
    have hlt : ∀ x ∈ l, key x < key a := fun x hx =>
      hlast _ (List.mem_map_of_mem hx) _ (by simp)
    obtain ⟨k, hk⟩ := Int.eq_ofNat_of_zero_le (hrange a (by simp)).1
    have hkn : k + 1 ≤ n := by
      have := (hrange a (by simp)).2
      omega
    have habove : ∀ i, k + 1 ≤ i → ((l ++ [a]).find? fun x => key x = (i : ℤ)) = none := by
      intro i hi
      rw [List.find?_eq_none]
      intro x hx
      simp only [decide_eq_true_eq]
      rcases List.mem_append.mp hx with hx | hx
      · have := hlt x hx
        omega
      · rw [List.mem_singleton.mp hx]
        omega
    have hat : ((l ++ [a]).find? fun x => key x = ((k : ℕ) : ℤ)) = some a := by
      rw [List.find?_append, List.find?_eq_none.mpr]
      · simp [hk]
      · intro x hx
        have := hlt x hx
        simp only [decide_eq_true_eq]
        omega
    -- below it the list without its last element answers alike
    have hbelow : (List.range k).foldl
        (fun b (i : ℕ) => ((l ++ [a]).find? fun a => key a = (i : ℤ)).elim b (g b)) b =
        l.foldl g b := by
      rw [← ih k hl fun x hx => ⟨(hrange x (List.mem_append_left _ hx)).1, by
        have := hlt x hx
        omega⟩]
      apply List.foldl_ext
      intro b i hi
      have hne : ¬ key a = (i : ℤ) := by
        have := List.mem_range.mp hi
        omega
      simp [List.find?_append, hne]
    rw [foldl_range_of_idle hkn (fun b i hi => by rw [habove i hi]; rfl), List.range_succ,
      List.foldl_append, hbelow, List.foldl_append]
    simp only [List.foldl_cons, List.foldl_nil, hat, Option.elim_some]

theorem foldlM_eq_ok {ε α β : Type} {f : β → α → Except ε β} {g : β → α → β} {l : List α}
    (h : ∀ a ∈ l, ∀ b, f b a = .ok (g b a)) (b : β) : l.foldlM f b = .ok (l.foldl g b) := by
  induction l generalizing b with
  | nil => rfl
  | cons a l ih =>
    rw [List.foldlM_cons, h a List.mem_cons_self, List.foldl_cons]
    exact ih (fun x hx => h x (List.mem_cons_of_mem _ hx)) (g b a)

section

variable {α β : Type*} [LinearOrder β]

/-- The best score of a list, replaced only by a better one. -/
def best (score : α → β) (floor : β) (l : List α) : β :=
  l.foldl (fun best a => if score a > best then score a else best) floor

theorem best_append_singleton (score : α → β) (floor : β) (l : List α) (a : α) :
    best score floor (l ++ [a]) =
      if score a > best score floor l then score a else best score floor l := by
  rw [best, List.foldl_append]
  rfl

theorem floor_le_best (score : α → β) (floor : β) (l : List α) : floor ≤ best score floor l := by
  induction l using List.reverseRecOn with
  | nil => exact le_rfl
  | append_singleton l a ih =>
    rw [best_append_singleton]
    split_ifs with h
    · exact ih.trans h.le
    · exact ih

theorem le_best (score : α → β) (floor : β) {l : List α} {a : α} (ha : a ∈ l) :
    score a ≤ best score floor l := by
  induction l using List.reverseRecOn with
  | nil => cases ha
  | append_singleton l b ih =>
    rw [best_append_singleton]
    rcases List.mem_append.mp ha with ha | ha
    · split_ifs with h
      · exact (ih ha).trans h.le
      · exact ih ha
    · obtain rfl := List.mem_singleton.mp ha
      split_ifs with h
      · exact le_rfl
      · exact not_lt.mp h

theorem best_eq_floor_or_mem (score : α → β) (floor : β) (l : List α) :
    best score floor l = floor ∨ ∃ a ∈ l, score a = best score floor l := by
  induction l using List.reverseRecOn with
  | nil => exact Or.inl rfl
  | append_singleton l a ih =>
    rw [best_append_singleton]
    split_ifs with h
    · exact Or.inr ⟨a, by simp, rfl⟩
    · rcases ih with hfloor | ⟨b, hb, hbest⟩
      · exact Or.inl hfloor
      · exact Or.inr ⟨b, List.mem_append_left _ hb, hbest⟩

end

end Scan
