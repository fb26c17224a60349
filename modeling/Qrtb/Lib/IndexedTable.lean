import Qrtb.Lib.OrderedDict
import Mathlib.Data.List.Sort

/-!
# Tables of numbered rows

A table whose primary key is a group and a row number, as the child table of a
one-to-many relation has. Rows of one group are written as a whole list, from
number zero on, so the numbers of a group have no gaps: a field of the type.
Reading a group in the order of its numbers then gives the list back.
-/

universe u v w

structure IndexedTable (α : Type u) (β : Type v) [DecidableEq α] where
  rows : OrderedDict (α × ℤ) β := ∅
  numbered : ∀ a i x, rows.get? (a, i) = some x →
    0 ≤ i ∧ ∀ j, 0 ≤ j → j ≤ i → ∃ y, rows.get? (a, j) = some y := by simp

namespace IndexedTable

variable {α : Type u} {β : Type v} [DecidableEq α]

instance : EmptyCollection (IndexedTable α β) := ⟨{}⟩

/-- `INSERT OR REPLACE` of consecutive rows, the first one at number `i`. -/
def replaceRows (a : α) : ℕ → List β → OrderedDict (α × ℤ) β → OrderedDict (α × ℤ) β
  | _, [], d => d
  | i, x :: xs, d => replaceRows a (i + 1) xs (d.set (a, (i : ℤ)) x)

theorem get?_replaceRows_of_ne {a b : α} (h : b ≠ a) (i : ℕ) (xs : List β)
    (d : OrderedDict (α × ℤ) β) (j : ℤ) :
    (replaceRows a i xs d).get? (b, j) = d.get? (b, j) := by
  induction xs generalizing i d with
  | nil => rfl
  | cons x xs ih =>
    rw [replaceRows, ih]
    apply OrderedDict.get?_set_of_ne
    simp [h]

theorem get?_replaceRows_of_lt (a : α) {i : ℕ} (xs : List β) (d : OrderedDict (α × ℤ) β) {j : ℤ}
    (h : j < i) : (replaceRows a i xs d).get? (a, j) = d.get? (a, j) := by
  induction xs generalizing i d with
  | nil => rfl
  | cons x xs ih =>
    rw [replaceRows, ih _ (by omega)]
    apply OrderedDict.get?_set_of_ne
    simp only [ne_eq, Prod.mk.injEq, true_and]
    omega

theorem get?_replaceRows_add (a : α) (i : ℕ) (xs : List β) (d : OrderedDict (α × ℤ) β) (n : ℕ) :
    (replaceRows a i xs d).get? (a, ((i + n : ℕ) : ℤ)) =
      (xs[n]?).or (d.get? (a, ((i + n : ℕ) : ℤ))) := by
  induction xs generalizing i d n with
  | nil => simp [replaceRows]
  | cons x xs ih =>
    rw [replaceRows]
    cases n with
    | zero =>
      rw [get?_replaceRows_of_lt a xs _ (by omega)]
      simp
    | succ n =>
      rw [show i + (n + 1) = i + 1 + n by omega, ih, List.getElem?_cons_succ]
      rw [OrderedDict.get?_set_of_ne]
      simp only [ne_eq, Prod.mk.injEq, true_and]
      omega

theorem numbered_replaceRows (t : IndexedTable α β) (a : α) (xs : List β) (b : α) (i : ℤ) (x : β)
    (h : (replaceRows a 0 xs t.rows).get? (b, i) = some x) :
    0 ≤ i ∧ ∀ j, 0 ≤ j → j ≤ i → ∃ y, (replaceRows a 0 xs t.rows).get? (b, j) = some y := by
  by_cases hb : b = a
  · subst hb
    have hi : 0 ≤ i := by
      by_contra hneg
      rw [get?_replaceRows_of_lt b xs t.rows (by omega)] at h
      exact hneg (t.numbered _ _ _ h).1
    refine ⟨hi, ?_⟩
    intro j hj hji
    obtain ⟨n, rfl⟩ := Int.eq_ofNat_of_zero_le hi
    obtain ⟨m, rfl⟩ := Int.eq_ofNat_of_zero_le hj
    have hn := get?_replaceRows_add b 0 xs t.rows n
    have hm := get?_replaceRows_add b 0 xs t.rows m
    rw [zero_add] at hn hm
    rw [hm]
    rw [hn] at h
    by_cases hlt : m < xs.length
    · exact ⟨xs[m], by simp [hlt]⟩
    · have hnone : xs[n]? = none := List.getElem?_eq_none (by omega)
      rw [hnone, Option.none_or] at h
      obtain ⟨y, hy⟩ := (t.numbered _ _ _ h).2 m hj hji
      exact ⟨y, by simp [List.getElem?_eq_none (not_lt.mp hlt), hy]⟩
  · simp only [get?_replaceRows_of_ne hb] at h ⊢
    exact t.numbered b i x h

/-- Write a list as the first rows of a group; longer old groups keep the rows past its end. -/
def put (t : IndexedTable α β) (a : α) (xs : List β) : IndexedTable α β where
  rows := replaceRows a 0 xs t.rows
  numbered := numbered_replaceRows t a xs

def get? (t : IndexedTable α β) (k : α × ℤ) : Option β := t.rows.get? k

@[simp] theorem get?_empty (k : α × ℤ) : (∅ : IndexedTable α β).get? k = none := rfl

theorem get?_put_of_ne (t : IndexedTable α β) {a b : α} (h : b ≠ a) (xs : List β) (j : ℤ) :
    (t.put a xs).get? (b, j) = t.get? (b, j) :=
  get?_replaceRows_of_ne h 0 xs t.rows j

theorem get?_put_self (t : IndexedTable α β) (a : α) (xs : List β) (n : ℕ) :
    (t.put a xs).get? (a, (n : ℤ)) = (xs[n]?).or (t.get? (a, (n : ℤ))) := by
  have h := get?_replaceRows_add a 0 xs t.rows n
  rw [zero_add] at h
  exact h

/-- The element of a list under a row number. -/
def rowAt (xs : List β) (i : ℤ) : Option β := if 0 ≤ i then xs[i.toNat]? else none

theorem rowAt_map {γ : Type w} (f : β → γ) (xs : List β) (i : ℤ) :
    rowAt (xs.map f) i = (rowAt xs i).map f := by
  unfold rowAt
  split_ifs
  · exact List.getElem?_map
  · rfl

theorem get?_put (t : IndexedTable α β) (a : α) (xs : List β) (k : α × ℤ) :
    (t.put a xs).get? k = (if k.1 = a then rowAt xs k.2 else none).or (t.get? k) := by
  obtain ⟨b, j⟩ := k
  by_cases hb : b = a
  · subst hb
    rw [if_pos rfl, rowAt]
    split_ifs with hj
    · obtain ⟨n, rfl⟩ := Int.eq_ofNat_of_zero_le hj
      exact t.get?_put_self b xs n
    · exact get?_replaceRows_of_lt b xs t.rows (by simpa using hj)
  · rw [if_neg hb]
    exact t.get?_put_of_ne hb xs j

/-- The rows of a group with their numbers, by number. -/
def group (t : IndexedTable α β) (a : α) : List (ℤ × β) :=
  (t.rows.items.filterMap fun p => if p.1.1 = a then some (p.1.2, p.2) else none).insertionSort
    fun p q => p.1 ≤ q.1

/-- `SELECT … WHERE group = a ORDER BY number`. -/
def select (t : IndexedTable α β) (a : α) : List β := (t.group a).map Prod.snd

theorem mem_group (t : IndexedTable α β) (a : α) (i : ℤ) (x : β) :
    (i, x) ∈ t.group a ↔ t.get? (a, i) = some x := by
  rw [group, List.mem_insertionSort, get?, ← OrderedDict.mem_items_iff]
  simp only [List.mem_filterMap, Option.ite_none_right_eq_some, Option.some.injEq, Prod.mk.injEq]
  constructor
  · rintro ⟨⟨⟨b, j⟩, y⟩, hp, rfl, rfl, rfl⟩
    exact hp
  · intro h
    exact ⟨((a, i), x), h, rfl, rfl, rfl⟩

/-- An increasing list of integers without gaps counts up from its lower bound. -/
theorem getElem_of_gapless {k : ℤ} {l : List ℤ} (hsort : l.Pairwise (· < ·))
    (hgap : ∀ i ∈ l, k ≤ i ∧ ∀ j, k ≤ j → j ≤ i → j ∈ l) (n : ℕ) (hn : n < l.length) :
    l[n] = k + n := by
  induction l generalizing k n with
  | nil => simp at hn
  | cons x xs ih =>
    obtain ⟨hx, hxs⟩ := List.pairwise_cons.mp hsort
    have hk : x = k := by
      have hmem := (hgap x List.mem_cons_self).2 k le_rfl (hgap x List.mem_cons_self).1
      rcases List.mem_cons.mp hmem with h | h
      · exact h.symm
      · have h1 := hx k h
        have h2 := (hgap x List.mem_cons_self).1
        omega
    subst hk
    cases n with
    | zero => simp
    | succ n =>
      have hrest : ∀ i ∈ xs, x + 1 ≤ i ∧ ∀ j, x + 1 ≤ j → j ≤ i → j ∈ xs := by
        intro i hi
        refine ⟨hx i hi, ?_⟩
        intro j hj hji
        have hmem := (hgap i (List.mem_cons_of_mem _ hi)).2 j (by omega) hji
        rcases List.mem_cons.mp hmem with h | h
        · omega
        · exact h
      rw [List.getElem_cons_succ, ih hxs hrest n (by simpa using hn)]
      push_cast
      omega

theorem pairwise_group (t : IndexedTable α β) (a : α) :
    ((t.group a).map Prod.fst).Pairwise (· < ·) := by
  have hnodup : ((t.group a).map Prod.fst).Nodup := by
    have hperm := (List.perm_insertionSort (fun p q : ℤ × β => p.1 ≤ q.1)
      (t.rows.items.filterMap fun p => if p.1.1 = a then some (p.1.2, p.2) else none))
    rw [group, (hperm.map Prod.fst).nodup_iff]
    apply List.Nodup.of_map (fun i => (a, i))
    have hsub : ((t.rows.items.filterMap fun p =>
        if p.1.1 = a then some (p.1.2, p.2) else none).map Prod.fst).map (fun i => (a, i)) =
        (t.rows.items.filter fun p => p.1.1 = a).map Prod.fst := by
      induction t.rows.items with
      | nil => rfl
      | cons p ps ih =>
        obtain ⟨⟨b, i⟩, x⟩ := p
        by_cases hb : b = a
        · simpa [hb] using ih
        · simpa [hb] using ih
    rw [hsub]
    exact t.rows.nodup.sublist (List.filter_sublist.map Prod.fst)
  have hle : ((t.group a).map Prod.fst).Pairwise (· ≤ ·) := by
    rw [List.pairwise_map]
    exact List.pairwise_insertionSort (fun p q : ℤ × β => p.1 ≤ q.1) _
  exact (hle.and hnodup).imp fun h => lt_of_le_of_ne h.1 h.2

theorem getElem_group (t : IndexedTable α β) (a : α) (n : ℕ) (hn : n < (t.group a).length) :
    (t.group a)[n].1 = n := by
  have hgap : ∀ i ∈ (t.group a).map Prod.fst,
      0 ≤ i ∧ ∀ j, 0 ≤ j → j ≤ i → j ∈ (t.group a).map Prod.fst := by
    intro i hi
    obtain ⟨⟨i', x⟩, hp, rfl⟩ := List.mem_map.mp hi
    obtain ⟨hnn, hall⟩ := t.numbered a i' x ((t.mem_group a i' x).mp hp)
    refine ⟨hnn, ?_⟩
    intro j hj hji
    obtain ⟨y, hy⟩ := hall j hj hji
    exact List.mem_map.mpr ⟨(j, y), (t.mem_group a j y).mpr hy, rfl⟩
  have hget := getElem_of_gapless (t.pairwise_group a) hgap n (by simpa using hn)
  simpa using hget

theorem getElem?_select (t : IndexedTable α β) (a : α) (n : ℕ) :
    (t.select a)[n]? = t.get? (a, (n : ℤ)) := by
  by_cases hn : n < (t.group a).length
  · have hmem : (t.group a)[n] ∈ t.group a := List.getElem_mem hn
    have hrow := (t.mem_group a (t.group a)[n].1 (t.group a)[n].2).mp hmem
    rw [t.getElem_group a n hn] at hrow
    rw [hrow, select, List.getElem?_map, List.getElem?_eq_getElem hn]
    rfl
  · rw [List.getElem?_eq_none (by simpa [select] using hn)]
    symm
    rw [Option.eq_none_iff_forall_ne_some]
    intro x hx
    obtain ⟨m, hm, hget⟩ := List.getElem_of_mem ((t.mem_group a n x).mpr hx)
    have hm' := t.getElem_group a m hm
    rw [hget] at hm'
    omega

theorem select_congr {t t' : IndexedTable α β} {a : α}
    (h : ∀ n : ℕ, t.get? (a, (n : ℤ)) = t'.get? (a, (n : ℤ))) : t.select a = t'.select a := by
  apply List.ext_getElem?
  intro n
  rw [getElem?_select, getElem?_select, h]

@[simp] theorem select_empty (a : α) : (∅ : IndexedTable α β).select a = [] := rfl

theorem select_put_of_ne (t : IndexedTable α β) {a b : α} (h : b ≠ a) (xs : List β) :
    (t.put a xs).select b = t.select b :=
  select_congr fun n => t.get?_put_of_ne h xs n

theorem select_put_self (t : IndexedTable α β) (a : α) (xs : List β) :
    (t.put a xs).select a = xs ++ (t.select a).drop xs.length := by
  apply List.ext_getElem?
  intro n
  rw [getElem?_select, get?_put_self, List.getElem?_append]
  split_ifs with hn
  · simp [hn]
  · rw [List.getElem?_drop, getElem?_select, List.getElem?_eq_none (not_lt.mp hn), Option.none_or]
    congr 3
    omega

/-- `UPDATE … WHERE group = a AND number = i`. -/
def update (t : IndexedTable α β) (k : α × ℤ) (f : β → β) : IndexedTable α β where
  rows := match t.rows.get? k with
    | none => t.rows
    | some x => t.rows.set k (f x)
  numbered := by
    intro a i y h
    cases hk : t.rows.get? k with
    | none =>
      simp only [hk] at h ⊢
      exact t.numbered a i y h
    | some x =>
      have hold : ∀ j, (∃ z, (t.rows.set k (f x)).get? (a, j) = some z) ↔
          ∃ z, t.rows.get? (a, j) = some z := by
        intro j
        rw [OrderedDict.get?_set]
        split_ifs with hj
        · simp [hj, hk]
        · exact Iff.rfl
      simp only [hk] at h ⊢
      obtain ⟨z, hz⟩ := (hold i).mp ⟨y, h⟩
      obtain ⟨hnn, hall⟩ := t.numbered a i z hz
      exact ⟨hnn, fun j hj hji => (hold j).mpr (hall j hj hji)⟩

theorem get?_update (t : IndexedTable α β) (k j : α × ℤ) (f : β → β) :
    (t.update k f).get? j = if j = k then (t.get? j).map f else t.get? j := by
  simp only [get?, update]
  cases hk : t.rows.get? k with
  | none =>
    split_ifs with hj
    · simp [hj, hk]
    · rfl
  | some x =>
    rw [OrderedDict.get?_set]
    split_ifs with hj
    · simp [hj, hk]
    · rfl

/-- A change that a view of the rows does not show leaves the view of every group. -/
theorem map_select_update {γ : Type w} (t : IndexedTable α β) (k : α × ℤ) {f : β → β} {g : β → γ}
    (hg : ∀ x, g (f x) = g x) (a : α) :
    ((t.update k f).select a).map g = (t.select a).map g := by
  apply List.ext_getElem?
  intro n
  rw [List.getElem?_map, List.getElem?_map, getElem?_select, getElem?_select, get?_update]
  split_ifs
  · cases t.get? (a, (n : ℤ)) with
    | none => rfl
    | some x => simp [hg]
  · rfl

end IndexedTable
