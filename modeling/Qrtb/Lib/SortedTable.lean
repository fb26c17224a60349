import Mathlib.Data.List.Sort
import Mathlib.Order.Lattice

/-!
# Tables in ascending order of a key

A table is a list of rows with strictly ascending keys. It is determined by what it
answers to the lookup of every key, its last row has the largest key, and a row is put
at its place, or combined with the row that stands there.
-/

namespace SortedTable

variable {α κ : Type*} [LinearOrder κ] (key : α → κ)

def Ascending (rows : List α) : Prop := rows.Pairwise fun a b => key a < key b

def lookup (k : κ) (rows : List α) : Option α := rows.find? fun a => decide (key a = k)

/-- Put a row, or combine it with the row that has its key. -/
def put (combine : α → α → α) (a : α) : List α → List α
  | [] => [a]
  | b :: rest =>
    if key a < key b then a :: b :: rest
    else if key b < key a then b :: put combine a rest
    else combine a b :: rest

variable {key}

theorem lookup_cons (k : κ) (a : α) (rest : List α) :
    lookup key k (a :: rest) = if key a = k then some a else lookup key k rest := by
  rw [lookup, List.find?_cons]
  by_cases hk : key a = k
  · simp [hk]
  · simp [hk, lookup]

theorem Ascending.lookup_eq_some_iff {rows : List α} (h : Ascending key rows) {k : κ} {a : α} :
    lookup key k rows = some a ↔ a ∈ rows ∧ key a = k := by
  constructor
  · intro hfind
    exact ⟨List.mem_of_find?_eq_some hfind, by simpa using List.find?_some hfind⟩
  · rintro ⟨hmem, rfl⟩
    induction rows with
    | nil => cases hmem
    | cons b rest ih =>
      obtain ⟨hb, hrest⟩ := List.pairwise_cons.mp h
      rcases List.mem_cons.mp hmem with rfl | hlater
      · rw [lookup_cons, if_pos rfl]
      · rw [lookup_cons, if_neg (hb a hlater).ne]
        exact ih hrest hlater

theorem Ascending.eq_of_key_eq {rows : List α} (h : Ascending key rows) {a b : α} (ha : a ∈ rows)
    (hb : b ∈ rows) (hkey : key a = key b) : a = b := by
  have hfirst := h.lookup_eq_some_iff.mpr ⟨ha, hkey⟩
  exact Option.some.inj (hfirst.symm.trans (h.lookup_eq_some_iff.mpr ⟨hb, rfl⟩))

theorem lookup_eq_none {rows : List α} {k : κ} (h : ∀ a ∈ rows, k < key a) :
    lookup key k rows = none := by
  rw [lookup, List.find?_eq_none]
  intro a ha
  simpa using (h a ha).ne'

theorem mem_put {combine : α → α → α} {a b : α} {rows : List α} (h : b ∈ put key combine a rows) :
    b = a ∨ b ∈ rows ∨ ∃ old ∈ rows, key old = key a ∧ b = combine a old := by
  induction rows with
  | nil => exact Or.inl (List.mem_singleton.mp h)
  | cons c rest ih =>
    rw [put] at h
    split_ifs at h with hbefore hafter
    · rcases List.mem_cons.mp h with hb | hb
      · exact Or.inl hb
      · exact Or.inr (Or.inl hb)
    · rcases List.mem_cons.mp h with hb | hb
      · exact Or.inr (Or.inl (hb ▸ List.mem_cons_self))
      · rcases ih hb with hb | hb | ⟨old, hold, hkey⟩
        · exact Or.inl hb
        · exact Or.inr (Or.inl (List.mem_cons_of_mem _ hb))
        · exact Or.inr (Or.inr ⟨old, List.mem_cons_of_mem _ hold, hkey⟩)
    · rcases List.mem_cons.mp h with hb | hb
      · exact Or.inr (Or.inr ⟨c, List.mem_cons_self,
          le_antisymm (not_lt.mp hbefore) (not_lt.mp hafter), hb⟩)
      · exact Or.inr (Or.inl (List.mem_cons_of_mem _ hb))

section Put

variable {combine : α → α → α} (hcombine : ∀ a b, key (combine a b) = key b)
include hcombine

theorem Ascending.put {rows : List α} (h : Ascending key rows) (a : α) :
    Ascending key (put key combine a rows) := by
  induction rows with
  | nil => exact List.pairwise_singleton _ _
  | cons b rest ih =>
    obtain ⟨hb, hrest⟩ := List.pairwise_cons.mp h
    rw [SortedTable.put]
    split_ifs with hbefore hafter
    · refine List.pairwise_cons.mpr ⟨fun c hc => ?_, h⟩
      rcases List.mem_cons.mp hc with rfl | hc
      · exact hbefore
      · exact hbefore.trans (hb c hc)
    · refine List.pairwise_cons.mpr ⟨fun c hc => ?_, ih hrest⟩
      rcases mem_put hc with rfl | hc | ⟨old, hold, -, rfl⟩
      · exact hafter
      · exact hb c hc
      · rw [hcombine]
        exact hb old hold
    · refine List.pairwise_cons.mpr ⟨fun c hc => ?_, hrest⟩
      rw [hcombine]
      exact hb c hc

theorem Ascending.lookup_put {rows : List α} (h : Ascending key rows) (a : α) (k : κ) :
    lookup key k (SortedTable.put key combine a rows) =
      if k = key a then some (((lookup key k rows).map (combine a)).getD a)
      else lookup key k rows := by
  induction rows with
  | nil =>
    rw [SortedTable.put, lookup_cons]
    simp only [eq_comm (a := key a)]
    rfl
  | cons b rest ih =>
    obtain ⟨hb, hrest⟩ := List.pairwise_cons.mp h
    rw [SortedTable.put]
    rcases lt_trichotomy (key a) (key b) with hlt | heq | hgt
    · rw [if_pos hlt, lookup_cons]
      by_cases hk : key a = k
      · have hnone : lookup key k (b :: rest) = none := by
          refine lookup_eq_none fun c hc => ?_
          rw [← hk]
          rcases List.mem_cons.mp hc with rfl | hc
          · exact hlt
          · exact hlt.trans (hb c hc)
        rw [if_pos hk, if_pos hk.symm, hnone]
        rfl
      · rw [if_neg hk, if_neg (Ne.symm hk)]
    · rw [if_neg heq.not_lt, if_neg heq.symm.not_lt, lookup_cons, lookup_cons, hcombine, ← heq]
      by_cases hk : key a = k
      · rw [if_pos hk, if_pos hk.symm, if_pos hk]
        rfl
      · rw [if_neg hk, if_neg (Ne.symm hk), if_neg hk]
    · rw [if_neg hgt.not_gt, if_pos hgt, lookup_cons, lookup_cons, ih hrest]
      by_cases hk : key b = k
      · rw [if_pos hk, if_pos hk, if_neg]
        rintro rfl
        exact hgt.ne hk
      · rw [if_neg hk, if_neg hk]

end Put

theorem Ascending.key_le_getLast {rows : List α} (h : Ascending key rows) {last : α}
    (hlast : rows.getLast? = some last) : ∀ a ∈ rows, key a ≤ key last := by
  obtain ⟨front, rfl⟩ := List.getLast?_eq_some_iff.mp hlast
  intro a ha
  rcases List.mem_append.mp ha with hfront | hsame
  · exact ((List.pairwise_append.mp h).2.2 a hfront last (List.mem_singleton_self _)).le
  · rw [List.mem_singleton.mp hsame]

/-- Keys in ascending order are those of the table when they are the same keys. -/
theorem Ascending.eq_map_key {rows : List α} (h : Ascending key rows) {ks : List κ}
    (hks : ks.Pairwise (· < ·)) (hmem : ∀ k, k ∈ ks ↔ ∃ a ∈ rows, key a = k) :
    ks = rows.map key := by
  have hkeys : (rows.map key).Pairwise (· < ·) := List.pairwise_map.mpr h
  have hperm : ks.Perm (rows.map key) := by
    refine (List.perm_ext_iff_of_nodup (hks.imp fun hlt => hlt.ne)
      (hkeys.imp fun hlt => hlt.ne)).mpr fun k => ?_
    rw [hmem, List.mem_map]
  exact hperm.eq_of_pairwise' hks hkeys

end SortedTable
