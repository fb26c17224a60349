import Qrtb.Lib.OrderedDict
import Mathlib.Data.Finset.Basic

/-!
# Secondary indices

A dictionary with an index from a property of its values to the keys that have it.
Values without the property are in no group. Looking the keys of a group up gives
the values of the group, each of them once, in whatever order the set is iterated.
-/

universe u v w

/-- Some order in which the elements of a set are iterated. -/
structure SetIteration (κ : Type u) where
  keys : Finset κ → List κ
  nodup : ∀ S, (keys S).Nodup
  mem_keys : ∀ S k, k ∈ keys S ↔ k ∈ S

namespace OrderedDict

variable {κ : Type u} {ν : Type v} {α : Type w} [DecidableEq κ]

/-- The index has exactly the keys of every group. -/
def Indexes (group : ν → Option α) (d : OrderedDict κ ν) (index : α → Finset κ) : Prop :=
  ∀ a k, k ∈ index a ↔ ∃ v, d.get? k = some v ∧ group v = some a

variable {group : ν → Option α} {d : OrderedDict κ ν} {index : α → Finset κ}

theorem indexes_empty : Indexes group (∅ : OrderedDict κ ν) fun _ => ∅ := by
  intro a k
  simp

/-- Writing one key keeps the index when that key alone is moved, to the group of its new value. -/
theorem Indexes.set (h : Indexes group d index) {k : κ} {v : ν} {index' : α → Finset κ}
    (hself : ∀ a, k ∈ index' a ↔ group v = some a)
    (hother : ∀ a j, j ≠ k → (j ∈ index' a ↔ j ∈ index a)) :
    Indexes group (d.set k v) index' := by
  intro a j
  by_cases hj : j = k
  · subst hj
    rw [hself, get?_set_self]
    simp
  · rw [hother a j hj, h a j, get?_set_of_ne d hj]

theorem Indexes.perm_filterMap (h : Indexes group d index) [DecidableEq α] (order : SetIteration κ)
    (a : α) : ((order.keys (index a)).filterMap d.get?).Perm
      (d.values.filter fun v => group v = some a) := by
  have hkeys : (order.keys (index a)).Perm
      ((d.items.filter fun p => group p.2 = some a).map Prod.fst) := by
    have hnodup : ((d.items.filter fun p => group p.2 = some a).map Prod.fst).Nodup :=
      d.nodup.sublist (List.filter_sublist.map Prod.fst)
    rw [List.perm_ext_iff_of_nodup (order.nodup _) hnodup]
    intro k
    rw [order.mem_keys, h a k, List.mem_map]
    constructor
    · rintro ⟨v, hv, hgroup⟩
      exact ⟨(k, v), List.mem_filter.mpr ⟨(d.mem_items_iff k v).mpr hv, by simpa using hgroup⟩, rfl⟩
    · rintro ⟨⟨k', v⟩, hp, rfl⟩
      obtain ⟨hitem, hgroup⟩ := List.mem_filter.mp hp
      exact ⟨v, (d.mem_items_iff k' v).mp hitem, by simpa using hgroup⟩
  have hlookup : ((d.items.filter fun p => group p.2 = some a).map Prod.fst).filterMap d.get? =
      (d.items.filter fun p => group p.2 = some a).map Prod.snd := by
    rw [List.filterMap_map, ← List.filterMap_eq_map]
    apply List.filterMap_congr
    rintro ⟨k, v⟩ hp
    exact (d.mem_items_iff k v).mp (List.mem_of_mem_filter hp)
  have hvalues : (d.items.filter fun p => group p.2 = some a).map Prod.snd =
      d.values.filter fun v => group v = some a := by
    rw [values, List.filter_map]
    rfl
  rw [← hvalues, ← hlookup]
  exact hkeys.filterMap _

end OrderedDict
