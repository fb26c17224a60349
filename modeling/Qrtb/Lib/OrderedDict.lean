import Mathlib.Data.List.Nodup
import Mathlib.Algebra.BigOperators.Group.List.Basic
import Mathlib.Algebra.BigOperators.Group.Finset.Basic
import Mathlib.Algebra.Order.BigOperators.Group.List
import Mathlib.Algebra.Order.Ring.Int
import Mathlib.Tactic.Abel

/-!
# Insertion-ordered dictionaries

A finite map stored as its list of items, in the order in which the keys were
first assigned. Assigning to a present key keeps its position, as the
dictionaries of scripting languages do. That no key occurs twice is a field of
the type, so a lookup never depends on the position it stops at.
-/

universe u v

structure OrderedDict (α : Type u) (β : Type v) where
  items : List (α × β)
  nodup : (items.map Prod.fst).Nodup
  deriving DecidableEq

namespace OrderedDict

variable {α : Type u} {β : Type v}

def empty : OrderedDict α β := ⟨[], List.nodup_nil⟩

instance : EmptyCollection (OrderedDict α β) := ⟨empty⟩
instance : Inhabited (OrderedDict α β) := ⟨empty⟩

def keys (d : OrderedDict α β) : List α := d.items.map Prod.fst

def values (d : OrderedDict α β) : List β := d.items.map Prod.snd

variable [DecidableEq α]

def lookupItems (k : α) : List (α × β) → Option β
  | [] => none
  | (a, b) :: ps => if a = k then some b else lookupItems k ps

def get? (d : OrderedDict α β) (k : α) : Option β := lookupItems k d.items

def getD (d : OrderedDict α β) (k : α) (default : β) : β := (d.get? k).getD default

def contains (d : OrderedDict α β) (k : α) : Bool := (d.get? k).isSome

/-- Assignment on the raw item list: overwrite in place, or append. -/
def setItems (k : α) (v : β) : List (α × β) → List (α × β)
  | [] => [(k, v)]
  | (a, b) :: ps => if a = k then (k, v) :: ps else (a, b) :: setItems k v ps

theorem map_fst_setItems (k : α) (v : β) (ps : List (α × β)) :
    (setItems k v ps).map Prod.fst =
      if k ∈ ps.map Prod.fst then ps.map Prod.fst else ps.map Prod.fst ++ [k] := by
  induction ps with
  | nil => simp [setItems]
  | cons p ps ih =>
    obtain ⟨a, b⟩ := p
    by_cases h : a = k
    · subst h
      simp [setItems]
    · have hk : ¬ k = a := fun e => h e.symm
      simp only [setItems, h, if_false, List.map_cons, ih, List.mem_cons, hk, false_or]
      split_ifs <;> rfl

theorem nodup_setItems (k : α) (v : β) {ps : List (α × β)} (h : (ps.map Prod.fst).Nodup) :
    ((setItems k v ps).map Prod.fst).Nodup := by
  rw [map_fst_setItems]
  split_ifs with hk
  · exact h
  · refine List.nodup_append.mpr ⟨h, by simp, ?_⟩
    intro a ha b hb e
    rw [List.mem_singleton] at hb
    exact hk (hb ▸ e ▸ ha)

def set (d : OrderedDict α β) (k : α) (v : β) : OrderedDict α β :=
  ⟨setItems k v d.items, nodup_setItems k v d.nodup⟩

theorem keys_set (d : OrderedDict α β) (k : α) (v : β) :
    (d.set k v).keys = if k ∈ d.keys then d.keys else d.keys ++ [k] :=
  map_fst_setItems k v d.items

def erase (d : OrderedDict α β) (k : α) : OrderedDict α β :=
  ⟨d.items.filter (fun p => p.1 ≠ k),
    d.nodup.sublist (List.filter_sublist.map Prod.fst)⟩

@[simp] theorem get?_empty (k : α) : (∅ : OrderedDict α β).get? k = none := rfl

theorem lookupItems_setItems (k j : α) (v : β) (ps : List (α × β)) :
    lookupItems j (setItems k v ps) = if j = k then some v else lookupItems j ps := by
  induction ps with
  | nil => simp [setItems, lookupItems, eq_comm]
  | cons p ps ih =>
    obtain ⟨a, b⟩ := p
    by_cases ha : a = k
    · subst ha
      simp only [setItems, if_true, lookupItems, eq_comm]
      split_ifs <;> rfl
    · simp only [setItems, ha, if_false, lookupItems, ih]
      split_ifs with h1 h2
      · exact absurd (h1.trans h2) ha
      · rfl
      · rfl
      · rfl

theorem get?_set (d : OrderedDict α β) (k j : α) (v : β) :
    (d.set k v).get? j = if j = k then some v else d.get? j :=
  lookupItems_setItems k j v d.items

@[simp] theorem get?_set_self (d : OrderedDict α β) (k : α) (v : β) :
    (d.set k v).get? k = some v := by
  simp [get?_set]

theorem get?_set_of_ne (d : OrderedDict α β) {k j : α} (h : j ≠ k) (v : β) :
    (d.set k v).get? j = d.get? j := by
  simp [get?_set, h]

theorem get?_set_eq_some {d : OrderedDict α β} {k j : α} {v w : β} :
    (d.set k v).get? j = some w ↔ (j = k ∧ w = v) ∨ (j ≠ k ∧ d.get? j = some w) := by
  rw [get?_set]
  by_cases h : j = k
  · simp [h, eq_comm]
  · simp [h]

section Set

variable {d : OrderedDict α β} {k : α} {v : β}

theorem forall_get?_empty {P : α → β → Prop} :
    ∀ j w, (∅ : OrderedDict α β).get? j = some w → P j w := by
  intro j w h
  cases h

theorem forall_get?_set {P : α → β → Prop} (hnew : P k v)
    (hold : ∀ j w, d.get? j = some w → P j w) : ∀ j w, (d.set k v).get? j = some w → P j w := by
  intro j w h
  rcases get?_set_eq_some.mp h with ⟨rfl, rfl⟩ | ⟨-, h⟩
  · exact hnew
  · exact hold j w h

/-- An entry with a property is still one, if the new value inherits it from the one it replaces. -/
theorem exists_get?_set {P : β → Prop} (hnew : ∀ w, d.get? k = some w → P w → P v) {j : α}
    (hold : ∃ w, d.get? j = some w ∧ P w) : ∃ w, (d.set k v).get? j = some w ∧ P w := by
  obtain ⟨w, hw, hP⟩ := hold
  by_cases hj : j = k
  · subst hj
    exact ⟨v, get?_set_self .., hnew w hw hP⟩
  · exact ⟨w, get?_set_eq_some.mpr (Or.inr ⟨hj, hw⟩), hP⟩

theorem pairwise_get?_set {R : β → β → Prop} (hsymm : ∀ u w, R u w → R w u)
    (hnew : ∀ j w, d.get? j = some w → R w v)
    (hold : ∀ i j u w, d.get? i = some u → d.get? j = some w → i ≠ j → R u w) :
    ∀ i j u w, (d.set k v).get? i = some u → (d.set k v).get? j = some w → i ≠ j → R u w := by
  intro i j u w hi hj hne
  rcases get?_set_eq_some.mp hi with ⟨hik, rfl⟩ | ⟨-, hi'⟩
  · rcases get?_set_eq_some.mp hj with ⟨hjk, -⟩ | ⟨-, hj'⟩
    · exact absurd (hik.trans hjk.symm) hne
    · exact hsymm w u (hnew j w hj')
  · rcases get?_set_eq_some.mp hj with ⟨-, rfl⟩ | ⟨-, hj'⟩
    · exact hnew i u hi'
    · exact hold i j u w hi' hj' hne

theorem get?_of_update {d' : OrderedDict α β} {f : β → β} (hnone : d.get? k = none → d' = d)
    (hsome : ∀ w, d.get? k = some w → d' = d.set k (f w)) (j : α) :
    d'.get? j = if j = k then (d.get? j).map f else d.get? j := by
  cases h : d.get? k with
  | none =>
    rw [hnone h]
    split_ifs with hj
    · rw [hj, h]
      rfl
    · rfl
  | some w =>
    rw [hsome w h, get?_set]
    split_ifs with hj
    · rw [hj, h]
      rfl
    · rfl

end Set

theorem lookupItems_filter (k j : α) (ps : List (α × β)) :
    lookupItems j (ps.filter fun p => p.1 ≠ k) = if j = k then none else lookupItems j ps := by
  induction ps with
  | nil => simp [lookupItems]
  | cons p ps ih =>
    obtain ⟨a, b⟩ := p
    by_cases ha : a = k
    · subst ha
      rw [List.filter_cons_of_neg (by simp), ih]
      split_ifs with h
      · rfl
      · have hne : ¬ a = j := fun e => h e.symm
        simp [lookupItems, hne]
    · rw [List.filter_cons_of_pos (by simpa using ha)]
      simp only [lookupItems, ih]
      split_ifs with h1 h2
      · exact absurd (h1.trans h2) ha
      · rfl
      · rfl
      · rfl

theorem get?_erase (d : OrderedDict α β) (k j : α) :
    (d.erase k).get? j = if j = k then none else d.get? j :=
  lookupItems_filter k j d.items

theorem get?_erase_eq_some {d : OrderedDict α β} {k j : α} {w : β} :
    (d.erase k).get? j = some w ↔ j ≠ k ∧ d.get? j = some w := by
  rw [get?_erase]
  by_cases h : j = k
  · simp [h]
  · simp [h]

theorem erase_comm (d : OrderedDict α β) (k j : α) : (d.erase k).erase j = (d.erase j).erase k := by
  simp only [erase, List.filter_filter, Bool.and_comm]

theorem mem_iff_lookupItems {ps : List (α × β)} (hn : (ps.map Prod.fst).Nodup) (k : α) (v : β) :
    (k, v) ∈ ps ↔ lookupItems k ps = some v := by
  induction ps with
  | nil => simp [lookupItems]
  | cons p ps ih =>
    obtain ⟨a, b⟩ := p
    rw [List.map_cons, List.nodup_cons] at hn
    by_cases ha : a = k
    · subst ha
      have hps : (a, v) ∉ ps := fun hm => hn.1 (List.mem_map.mpr ⟨(a, v), hm, rfl⟩)
      simp [lookupItems, hps, eq_comm]
    · have hk : ¬ k = a := fun e => ha e.symm
      simp [lookupItems, ha, hk, ih hn.2]

theorem mem_items_iff (d : OrderedDict α β) (k : α) (v : β) :
    (k, v) ∈ d.items ↔ d.get? k = some v :=
  mem_iff_lookupItems d.nodup k v

/-- Dictionaries that answer every lookup alike have the same items up to their order. -/
theorem perm_items {d e : OrderedDict α β} (h : ∀ k, d.get? k = e.get? k) :
    d.items.Perm e.items := by
  rw [List.perm_ext_iff_of_nodup (List.Nodup.of_map _ d.nodup) (List.Nodup.of_map _ e.nodup)]
  rintro ⟨k, v⟩
  rw [mem_items_iff, mem_items_iff, h]

theorem mem_values_iff (d : OrderedDict α β) (v : β) :
    v ∈ d.values ↔ ∃ k, d.get? k = some v := by
  simp [values, ← mem_items_iff]

theorem mem_keys_iff (d : OrderedDict α β) (k : α) :
    k ∈ d.keys ↔ ∃ v, d.get? k = some v := by
  simp [keys, ← mem_items_iff]

theorem perm_keys_erase {d : OrderedDict α β} {k : α} {v : β} (h : d.get? k = some v) :
    (k :: (d.erase k).keys).Perm d.keys := by
  have hnotMem : k ∉ (d.erase k).keys := by
    rw [mem_keys_iff]
    rintro ⟨w, hw⟩
    exact (get?_erase_eq_some.mp hw).1 rfl
  refine (List.perm_ext_iff_of_nodup (List.nodup_cons.mpr ⟨hnotMem, (d.erase k).nodup⟩)
    d.nodup).mpr fun j => ?_
  rw [List.mem_cons, mem_keys_iff, ← keys, mem_keys_iff]
  simp only [get?_erase_eq_some, exists_and_left]
  by_cases hj : j = k
  · subst hj
    exact iff_of_true (Or.inl rfl) ⟨v, h⟩
  · simp [hj]

theorem countP_values (d : OrderedDict α β) (p : β → Bool) :
    d.values.countP p = (d.keys.toFinset.filter fun k => (d.get? k).any p = true).card := by
  have hkeys : (d.keys.toFinset.filter fun k => (d.get? k).any p = true) =
      ((d.items.filter fun q => p q.2).map Prod.fst).toFinset := by
    ext k
    simp only [Finset.mem_filter, List.mem_toFinset, mem_keys_iff, Option.any_eq_true, List.mem_map,
      List.mem_filter, Prod.exists, exists_and_right, exists_eq_right, mem_items_iff]
    exact ⟨fun h => h.2, fun ⟨v, hv⟩ => ⟨⟨v, hv.1⟩, v, hv⟩⟩
  rw [hkeys, List.toFinset_card_of_nodup (d.nodup.sublist (List.filter_sublist.map _)),
    List.length_map, values, List.countP_map, List.countP_eq_length_filter]
  rfl

theorem setItems_of_not_mem {k : α} (v : β) {ps : List (α × β)} (h : k ∉ ps.map Prod.fst) :
    setItems k v ps = ps ++ [(k, v)] := by
  induction ps with
  | nil => rfl
  | cons p ps ih =>
    obtain ⟨a, b⟩ := p
    simp only [List.map_cons, List.mem_cons, not_or] at h
    have ha : ¬ a = k := fun e => h.1 e.symm
    simp [setItems, ha, ih h.2]

theorem values_set_of_not_mem (d : OrderedDict α β) {k : α} (h : k ∉ d.keys) (v : β) :
    (d.set k v).values = d.values ++ [v] := by
  simp [values, set, setItems_of_not_mem v h]

omit [DecidableEq α] in
theorem eq_of_items {d e : OrderedDict α β} (h : d.items = e.items) : d = e := by
  obtain ⟨_, _⟩ := d
  obtain ⟨_, _⟩ := e
  subst h
  rfl

theorem erase_eq_self {d : OrderedDict α β} {k : α} (h : d.get? k = none) : d.erase k = d := by
  have hitems : (d.erase k).items = d.items := by
    refine List.filter_eq_self.mpr fun p hp => ?_
    obtain ⟨a, b⟩ := p
    refine decide_eq_true fun hak => ?_
    rw [← hak, (d.mem_items_iff a b).mp hp] at h
    cases h
  exact eq_of_items hitems

theorem items_set_of_items {d : OrderedDict α β} {k : α} {v : β} {pre post : List (α × β)}
    (h : d.items = pre ++ (k, v) :: post) (v' : β) :
    (d.set k v').items = pre ++ (k, v') :: post := by
  have hpre : k ∉ pre.map Prod.fst := by
    have hnodup := d.nodup
    rw [h, List.map_append, List.map_cons, List.nodup_middle] at hnodup
    exact fun hk => (List.nodup_cons.mp hnodup).1 (List.mem_append_left _ hk)
  have hset : ∀ ps : List (α × β), k ∉ ps.map Prod.fst →
      setItems k v' (ps ++ (k, v) :: post) = ps ++ (k, v') :: post := by
    intro ps hps
    induction ps with
    | nil => rw [List.nil_append, setItems, if_pos rfl, List.nil_append]
    | cons p ps ih =>
      rw [List.map_cons, List.mem_cons, not_or] at hps
      rw [List.cons_append, setItems, if_neg (Ne.symm hps.1), ih hps.2, List.cons_append]
  change setItems k v' d.items = pre ++ (k, v') :: post
  rw [h]
  exact hset pre hpre

theorem exists_items {d : OrderedDict α β} {k : α} {v : β} (h : d.get? k = some v) :
    ∃ pre post, d.items = pre ++ (k, v) :: post :=
  List.append_of_mem ((mem_items_iff d k v).mpr h)

theorem set_eq_self {d : OrderedDict α β} {k : α} {v : β} (h : d.get? k = some v) :
    d.set k v = d := by
  obtain ⟨pre, post, hitems⟩ := exists_items h
  exact eq_of_items ((items_set_of_items hitems v).trans hitems.symm)

theorem set_set_of_get? {d : OrderedDict α β} {k : α} {v : β} (h : d.get? k = some v) (v' w : β) :
    (d.set k v').set k w = d.set k w := by
  obtain ⟨pre, post, hitems⟩ := exists_items h
  apply eq_of_items
  rw [items_set_of_items (items_set_of_items hitems v'), items_set_of_items hitems]

theorem contains_set_of_get? {d : OrderedDict α β} {k : α} {v : β} (h : d.get? k = some v)
    (v' : β) : (d.set k v').contains = d.contains := by
  funext j
  rw [contains, contains, get?_set]
  split_ifs with hj
  · rw [hj, h]
    rfl
  · rfl

/-- The dictionary that assigns `f k` to every listed key, in order. -/
def ofKeys (f : α → β) (keys : List α) : OrderedDict α β :=
  keys.foldl (fun d k => d.set k (f k)) ∅

theorem ofKeys_append_singleton (f : α → β) (keys : List α) (k : α) :
    ofKeys f (keys ++ [k]) = (ofKeys f keys).set k (f k) := by
  simp [ofKeys]

theorem get?_ofKeys (f : α → β) (keys : List α) (k : α) :
    (ofKeys f keys).get? k = if k ∈ keys then some (f k) else none := by
  induction keys using List.reverseRecOn with
  | nil => rfl
  | append_singleton keys j ih =>
    rw [ofKeys_append_singleton, get?_set, ih]
    by_cases hj : k = j
    · simp [hj]
    · simp [hj]

section Sum

variable {M : Type*} [AddCommGroup M] (w : β → M)

/-- The total weight of the stored values. -/
def sumBy (d : OrderedDict α β) : M := (d.values.map w).sum

/-- The weight held at a key, zero when it is absent. -/
def weightAt (d : OrderedDict α β) (k : α) : M := ((d.get? k).map w).getD 0

theorem sum_setItems (k : α) (v : β) (ps : List (α × β)) :
    ((setItems k v ps).map fun p => w p.2).sum =
      (ps.map fun p => w p.2).sum - ((lookupItems k ps).map w).getD 0 + w v := by
  induction ps with
  | nil => simp [setItems, lookupItems]
  | cons p ps ih =>
    obtain ⟨a, b⟩ := p
    by_cases ha : a = k
    · subst ha
      simp only [setItems, lookupItems, if_true, List.map_cons, List.sum_cons, Option.map_some,
        Option.getD_some]
      abel
    · simp only [setItems, lookupItems, ha, if_false, List.map_cons, List.sum_cons, ih]
      abel

theorem sumBy_set (d : OrderedDict α β) (k : α) (v : β) :
    (d.set k v).sumBy w = d.sumBy w - d.weightAt w k + w v := by
  simpa [sumBy, values, weightAt, get?, set, Function.comp_def] using sum_setItems w k v d.items

theorem sumBy_eq_sum_keys (d : OrderedDict α β) :
    d.sumBy w = ∑ k ∈ d.keys.toFinset, d.weightAt w k := by
  have hitems : d.values.map w = d.keys.map (d.weightAt w) := by
    simp only [values, keys, List.map_map]
    apply List.map_congr_left
    intro p hp
    obtain ⟨k, v⟩ := p
    simp [weightAt, (d.mem_items_iff k v).mp hp]
  rw [sumBy, hitems]
  exact (List.sum_toFinset _ d.nodup).symm

theorem sumBy_congr {d e : OrderedDict α β} (h : ∀ k, d.get? k = e.get? k) :
    d.sumBy w = e.sumBy w := by
  have hkeys : d.keys.toFinset = e.keys.toFinset := by
    ext k
    simp only [List.mem_toFinset, mem_keys_iff, h]
  rw [sumBy_eq_sum_keys, sumBy_eq_sum_keys, hkeys]
  apply Finset.sum_congr rfl
  intro k _
  rw [weightAt, weightAt, h]

theorem sumBy_erase (d : OrderedDict α β) (k : α) :
    (d.erase k).sumBy w = d.sumBy w - d.weightAt w k := by
  have hweight : ∀ j ∈ d.keys.toFinset.erase k, (d.erase k).weightAt w j = d.weightAt w j := by
    intro j hj
    rw [weightAt, weightAt, get?_erase, if_neg (Finset.ne_of_mem_erase hj)]
  have hkeys : (d.erase k).keys.toFinset = d.keys.toFinset.erase k := by
    ext j
    simp only [List.mem_toFinset, Finset.mem_erase, mem_keys_iff, get?_erase_eq_some]
    exact exists_and_left
  rw [sumBy_eq_sum_keys, sumBy_eq_sum_keys, hkeys, Finset.sum_congr rfl hweight]
  by_cases hk : k ∈ d.keys.toFinset
  · exact Finset.sum_erase_eq_sub hk
  · have hnone : d.get? k = none := by
      rw [List.mem_toFinset, mem_keys_iff] at hk
      exact Option.eq_none_iff_forall_ne_some.mpr (not_exists.mp hk)
    rw [Finset.erase_eq_of_notMem hk, weightAt, hnone, Option.map_none, Option.getD_none, sub_zero]

theorem sumBy_ofKeys (f : α → β) (keys : List α) :
    (ofKeys f keys).sumBy w = ∑ k ∈ keys.toFinset, w (f k) := by
  have hkeys : (ofKeys f keys).keys.toFinset = keys.toFinset := by
    ext k
    simp [mem_keys_iff, get?_ofKeys]
  rw [sumBy_eq_sum_keys, hkeys]
  apply Finset.sum_congr rfl
  intro k hk
  simp [weightAt, get?_ofKeys, List.mem_toFinset.mp hk]

end Sum

section Map

variable {γ : Type v} (f : β → γ)

/-- Every value replaced by its image, at its place. -/
def map (d : OrderedDict α β) : OrderedDict α γ :=
  ⟨d.items.map fun p => (p.1, f p.2), by
    rw [List.map_map]
    exact d.nodup⟩

theorem get?_map (d : OrderedDict α β) (k : α) : (d.map f).get? k = (d.get? k).map f := by
  obtain ⟨items, h⟩ := d
  simp only [get?, map]
  clear h
  induction items with
  | nil => rfl
  | cons p ps ih =>
    rw [List.map_cons, lookupItems, lookupItems, ih]
    split_ifs <;> rfl

theorem contains_map (d : OrderedDict α β) : (d.map f).contains = d.contains := by
  funext k
  rw [contains, contains, get?_map, Option.isSome_map]

omit [DecidableEq α] in
theorem map_map {δ : Type v} (g : γ → δ) (d : OrderedDict α β) :
    (d.map f).map g = d.map fun b => g (f b) := by
  apply eq_of_items
  exact List.map_map

theorem setItems_map (k : α) (v : β) (ps : List (α × β)) :
    setItems k (f v) (ps.map fun p => (p.1, f p.2)) =
      (setItems k v ps).map fun p => (p.1, f p.2) := by
  induction ps with
  | nil => rfl
  | cons p ps ih =>
    rw [List.map_cons, setItems, setItems, ih]
    split_ifs <;> rfl

theorem set_map (d : OrderedDict α β) (k : α) (v : β) :
    (d.map f).set k (f v) = (d.set k v).map f := by
  simp only [set, map, setItems_map]

omit [DecidableEq α] in
theorem values_map (d : OrderedDict α β) : (d.map f).values = d.values.map f := by
  simp [values, map]

end Map

theorem getD_of_notMem_keys (d : OrderedDict α β) {k : α} (h : k ∉ d.keys.toFinset) (default : β) :
    d.getD k default = default := by
  rw [List.mem_toFinset, mem_keys_iff] at h
  have hnone : d.get? k = none := Option.eq_none_iff_forall_ne_some.mpr (not_exists.mp h)
  rw [getD, hnone, Option.getD_none]

theorem sumBy_id_eq_sum_getD (d : OrderedDict α ℤ) :
    d.sumBy id = ∑ k ∈ d.keys.toFinset, d.getD k 0 := by
  rw [sumBy_eq_sum_keys]
  apply Finset.sum_congr rfl
  intro k _
  rw [weightAt, getD, Option.map_id, id]

theorem weightAt_le_sumBy {w : β → ℤ} (d : OrderedDict α β) (hw : ∀ v ∈ d.values, 0 ≤ w v)
    (k : α) : d.weightAt w k ≤ d.sumBy w := by
  have hnn : ∀ x ∈ d.values.map w, 0 ≤ x := by
    intro x hx
    obtain ⟨v, hv, rfl⟩ := List.mem_map.mp hx
    exact hw v hv
  unfold weightAt
  cases hk : d.get? k with
  | none => exact List.sum_nonneg hnn
  | some v =>
    have hv : v ∈ d.values := (d.mem_values_iff v).mpr ⟨k, hk⟩
    exact List.single_le_sum hnn _ (List.mem_map_of_mem hv)

end OrderedDict
