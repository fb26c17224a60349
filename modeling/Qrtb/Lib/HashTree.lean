import Mathlib.Data.List.Basic
import Mathlib.Data.Nat.Bitwise
import Mathlib.Algebra.Order.Ring.Nat
import Mathlib.Tactic.Ring

/-!
# Perfect binary hash trees

The inner nodes of a perfect binary tree over an infinite row of leaves, for an
arbitrary function that joins two digests. A path lists the siblings met on the
way up, each with a flag that is set when the path node is the right child. A
climb along the siblings of the tree itself arrives at the node above; a climb
along arbitrary siblings that arrives there started at the leaf its flags spell,
or shows two different pairs that are joined to one digest.
-/

namespace HashTree

variable {D : Type*} (join : D → D → D)

/-- A sibling and its flag; any flag but zero counts as set. -/
abbrev Entry (D : Type*) := D × ℕ

/-- The two digests an entry makes of the node it meets, in order. -/
def pair (current : D) (entry : Entry D) : D × D :=
  if entry.2 ≠ 0 then (entry.1, current) else (current, entry.1)

def climb (current : D) (entry : Entry D) : D :=
  join (pair current entry).1 (pair current entry).2

def climbPairs (current : D) : List (Entry D) → List (D × D)
  | [] => []
  | entry :: entries => pair current entry :: climbPairs (climb join current entry) entries

/-- The number the flags of a path spell, the lowest first. -/
def position : List (Entry D) → ℕ
  | [] => 0
  | entry :: entries => (if entry.2 ≠ 0 then 1 else 0) + 2 * position entries

theorem position_lt (entries : List (Entry D)) : position entries < 2 ^ entries.length := by
  induction entries with
  | nil => simp [position]
  | cons entry entries ih =>
    rw [List.length_cons, pow_succ, position]
    split_ifs <;> omega

variable (leaf : ℕ → D)

/-- The node at a height above the leaves, by its position in that level. -/
def nodeAt : ℕ → ℕ → D
  | 0, i => leaf i
  | k + 1, i => join (nodeAt k (2 * i)) (nodeAt k (2 * i + 1))

/-- The siblings met on the way up from a node, `count` levels. -/
def path (k : ℕ) : ℕ → ℕ → List (Entry D)
  | 0, _ => []
  | count + 1, i => (nodeAt join leaf k (i ^^^ 1), i % 2) :: path (k + 1) count (i / 2)

theorem length_path (k count i : ℕ) : (path join leaf k count i).length = count := by
  induction count generalizing k i with
  | zero => rfl
  | succ count ih => simp [path, ih]

theorem xor_one (i : ℕ) : i ^^^ 1 = if i % 2 = 0 then i + 1 else i - 1 := by
  split_ifs with h
  · exact Nat.xor_one_of_even (Nat.even_iff.mpr h)
  · exact Nat.xor_one_of_odd (Nat.odd_iff.mpr (by omega))

theorem xor_one_lt {d i : ℕ} (h : i < 2 ^ (d + 1)) : i ^^^ 1 < 2 ^ (d + 1) := by
  rw [xor_one]
  rw [pow_succ'] at h ⊢
  split_ifs <;> omega

theorem climb_sibling (k i : ℕ) :
    climb join (nodeAt join leaf k i) (nodeAt join leaf k (i ^^^ 1), i % 2) =
      nodeAt join leaf (k + 1) (i / 2) := by
  rw [nodeAt, xor_one]
  rcases Nat.mod_two_eq_zero_or_one i with h | h
  · have hi : 2 * (i / 2) = i := by omega
    simp [climb, pair, h, hi]
  · have hi : 2 * (i / 2) = i - 1 := by omega
    have hs : i - 1 + 1 = i := by omega
    simp [climb, pair, h, hi, hs]

theorem climb_path (k count i : ℕ) :
    (path join leaf k count i).foldl (climb join) (nodeAt join leaf k i) =
      nodeAt join leaf (k + count) (i / 2 ^ count) := by
  induction count generalizing k i with
  | zero => simp [path]
  | succ count ih =>
    rw [path, List.foldl_cons, climb_sibling, ih, Nat.div_div_eq_div_mul, ← pow_succ']
    congr 1
    omega

theorem position_path (k count i : ℕ) :
    position (path join leaf k count i) = i % 2 ^ count := by
  induction count generalizing k i with
  | zero => simp [path, position, Nat.mod_one]
  | succ count ih =>
    have hsplit := Nat.mod_mul (a := 2) (b := 2 ^ count) (x := i)
    rw [path, position, ih, pow_succ', hsplit]
    rcases Nat.mod_two_eq_zero_or_one i with h | h <;> simp [h]

theorem flag_lt_of_mem_path {k count i : ℕ} : ∀ e ∈ path join leaf k count i, e.2 < 2 := by
  induction count generalizing k i with
  | zero => simp [path]
  | succ count ih =>
    rw [path, List.forall_mem_cons]
    exact ⟨Nat.mod_lt _ (by omega), ih⟩

/-- The pairs joined in a tree of the given depth. -/
def IsTreePair (depth : ℕ) (p : D × D) : Prop :=
  ∃ k i, k < depth ∧ i < 2 ^ (depth - (k + 1)) ∧
    p = (nodeAt join leaf k (2 * i), nodeAt join leaf k (2 * i + 1))

theorem isTreePair_of_mem_climbPairs {depth k count i : ℕ} (hk : k + count ≤ depth)
    (hi : i < 2 ^ (depth - k)) {p : D × D}
    (hp : p ∈ climbPairs join (nodeAt join leaf k i) (path join leaf k count i)) :
    IsTreePair join leaf depth p := by
  induction count generalizing k i with
  | zero => simp [path, climbPairs] at hp
  | succ count ih =>
    have hd : depth - k = depth - (k + 1) + 1 := by omega
    have hhalf : i / 2 < 2 ^ (depth - (k + 1)) := by
      rw [hd, pow_succ'] at hi
      omega
    rw [path, climbPairs, climb_sibling] at hp
    rcases List.mem_cons.mp hp with rfl | hp
    · refine ⟨k, i / 2, by omega, hhalf, ?_⟩
      rw [xor_one]
      rcases Nat.mod_two_eq_zero_or_one i with h | h
      · have hi : 2 * (i / 2) = i := by omega
        simp [pair, h, hi]
      · have hi : 2 * (i / 2) = i - 1 := by omega
        have hs : i - 1 + 1 = i := by omega
        simp [pair, h, hi, hs]
    · exact ih (by omega) hhalf hp

/-- Two different pairs, one of a climb and one of the tree, are joined to the same digest. -/
def PairCollision (depth : ℕ) (current : D) (entries : List (Entry D)) : Prop :=
  ∃ p ∈ climbPairs join current entries, ∃ q, IsTreePair join leaf depth q ∧
    p ≠ q ∧ join p.1 p.2 = join q.1 q.2

/-- A climb that ends in the tree began at the node its flags spell, or there is a collision. -/
theorem climb_sound {depth k j : ℕ} {current : D} {entries : List (Entry D)}
    (hdepth : k + entries.length ≤ depth) (hj : j < 2 ^ (depth - (k + entries.length)))
    (h : entries.foldl (climb join) current = nodeAt join leaf (k + entries.length) j) :
    current = nodeAt join leaf k (j * 2 ^ entries.length + position entries) ∨
      PairCollision join leaf depth current entries := by
  induction entries generalizing k current with
  | nil =>
    left
    simpa [position] using h
  | cons entry entries ih =>
    have hheight : k + (entry :: entries).length = k + 1 + entries.length := by
      rw [List.length_cons]
      omega
    rw [hheight] at hdepth hj h
    rcases ih hdepth hj h with hnode | ⟨p, hp, q, hcollides⟩
    · -- the node above the start is in the tree; compare the two pairs joined to it
      let i := j * 2 ^ entries.length + position entries
      have hi : i < 2 ^ (depth - (k + 1)) := by
        have hpos := position_lt entries
        have hsplit : depth - (k + 1) = depth - (k + 1 + entries.length) + entries.length := by
          omega
        calc i < (j + 1) * 2 ^ entries.length := by
              rw [add_mul, one_mul]
              exact Nat.add_lt_add_left hpos _
          _ ≤ 2 ^ (depth - (k + 1 + entries.length)) * 2 ^ entries.length :=
              Nat.mul_le_mul_right _ hj
          _ = 2 ^ (depth - (k + 1)) := by rw [hsplit, pow_add]
      have htree : IsTreePair join leaf depth
          (nodeAt join leaf k (2 * i), nodeAt join leaf k (2 * i + 1)) :=
        ⟨k, i, by omega, hi, rfl⟩
      by_cases hpair :
          pair current entry = (nodeAt join leaf k (2 * i), nodeAt join leaf k (2 * i + 1))
      · left
        have hindex : j * 2 ^ (entry :: entries).length + position (entry :: entries) =
            (if entry.2 ≠ 0 then 1 else 0) + 2 * i := by
          rw [List.length_cons, position]
          ring
        rw [hindex]
        unfold pair at hpair
        split_ifs at hpair ⊢ with hflag
        · rw [(Prod.mk.inj hpair).2, add_comm]
        · rw [(Prod.mk.inj hpair).1, zero_add]
      · exact Or.inr ⟨pair current entry, List.mem_cons_self, _, htree, hpair, hnode⟩
    · exact Or.inr ⟨p, List.mem_cons_of_mem _ hp, q, hcollides⟩

/-- Two different pairs, one of each tree, are joined to the same digest. -/
def TreeCollision (leaf leaf' : ℕ → D) (depth depth' : ℕ) : Prop :=
  ∃ p, IsTreePair join leaf depth p ∧ ∃ q, IsTreePair join leaf' depth' q ∧
    p ≠ q ∧ join p.1 p.2 = join q.1 q.2

/-- Below equal roots all levels agree down to the height `c` of the shallower tree, which is the
height `e + c` of the deeper one, or two pairs collide. -/
theorem levels_agree {leaf leaf' : ℕ → D} {c e : ℕ} (k : ℕ)
    (h : nodeAt join leaf (c + k) 0 = nodeAt join leaf' (e + c + k) 0) :
    (∀ i < 2 ^ k, nodeAt join leaf c i = nodeAt join leaf' (e + c) i) ∨
      TreeCollision join leaf leaf' (c + k) (e + c + k) := by
  induction k generalizing c with
  | zero =>
    left
    intro i hi
    obtain rfl : i = 0 := by simpa using hi
    exact h
  | succ k ih =>
    have hc : c + (k + 1) = c + 1 + k := by omega
    have he : e + c + (k + 1) = e + (c + 1) + k := by omega
    rw [hc, he] at h ⊢
    rcases ih h with hparents | hcollision
    · by_cases hpairs : ∀ i < 2 ^ k,
          (nodeAt join leaf c (2 * i), nodeAt join leaf c (2 * i + 1)) =
            (nodeAt join leaf' (e + c) (2 * i), nodeAt join leaf' (e + c) (2 * i + 1))
      · left
        intro i hi
        rw [pow_succ'] at hi
        obtain ⟨hleft, hright⟩ := Prod.mk.inj (hpairs (i / 2) (by omega))
        rcases Nat.mod_two_eq_zero_or_one i with hmod | hmod
        · rwa [show 2 * (i / 2) = i by omega] at hleft
        · rwa [show 2 * (i / 2) + 1 = i by omega] at hright
      · right
        obtain ⟨i, hi, hne⟩ : ∃ i < 2 ^ k,
            (nodeAt join leaf c (2 * i), nodeAt join leaf c (2 * i + 1)) ≠
              (nodeAt join leaf' (e + c) (2 * i), nodeAt join leaf' (e + c) (2 * i + 1)) := by
          simpa using hpairs
        refine ⟨_, ⟨c, i, by omega, ?_, rfl⟩, _, ⟨e + c, i, by omega, ?_, rfl⟩, hne,
          hparents i hi⟩
        · rwa [Nat.add_sub_cancel_left]
        · rwa [← Nat.add_assoc, Nat.add_sub_cancel_left]
    · exact Or.inr hcollision

/-- The leaves of the shallower tree are a level of the deeper one, or two pairs collide. -/
theorem leaves_agree {leaf leaf' : ℕ → D} {d e : ℕ}
    (h : nodeAt join leaf d 0 = nodeAt join leaf' (e + d) 0) :
    (∀ i < 2 ^ d, leaf i = nodeAt join leaf' e i) ∨ TreeCollision join leaf leaf' d (e + d) := by
  rw [← Nat.zero_add d, ← Nat.add_assoc] at h
  have hagree := levels_agree join d h
  rwa [Nat.zero_add, Nat.add_zero] at hagree

theorem nodeAt_add (e k i : ℕ) :
    nodeAt join leaf (e + k) i = nodeAt join (nodeAt join leaf e) k i := by
  induction k generalizing i with
  | zero => rfl
  | succ k ih => rw [← Nat.add_assoc, nodeAt, ih, ih, nodeAt]

theorem nodeAt_succ (k i : ℕ) : nodeAt join leaf (k + 1) i =
    nodeAt join (fun i => join (leaf (2 * i)) (leaf (2 * i + 1))) k i := by
  rw [Nat.add_comm, nodeAt_add]
  rfl

theorem nodeAt_congr {leaf leaf' : ℕ → D} {k j : ℕ}
    (h : ∀ i, i / 2 ^ k = j → leaf i = leaf' i) :
    nodeAt join leaf k j = nodeAt join leaf' k j := by
  induction k generalizing j with
  | zero => exact h j (by rw [pow_zero, Nat.div_one])
  | succ k ih =>
    have hhalf : ∀ i, i / 2 ^ (k + 1) = i / 2 ^ k / 2 := fun i => by
      rw [Nat.div_div_eq_div_mul, pow_succ]
    have hleft := ih (j := 2 * j) fun i hi => h i (by rw [hhalf, hi]; omega)
    have hright := ih (j := 2 * j + 1) fun i hi => h i (by rw [hhalf, hi]; omega)
    rw [nodeAt, nodeAt, hleft, hright]

/-- The node of a row of `n` nodes that stands at a place of the completed row. A row of an odd
length is completed by its last node before its pairs are joined. -/
def source (n i : ℕ) : ℕ :=
  if n ≤ 1 then 0 else min (n - 1) (2 * source ((n + 1) / 2) (i / 2) + i % 2)
termination_by n

theorem source_lt {n : ℕ} (hn : 0 < n) (i : ℕ) : source n i < n := by
  rw [source]
  split_ifs <;> omega

theorem source_of_lt {n i : ℕ} (hi : i < n) : source n i = i := by
  induction n using Nat.strongRecOn generalizing i with
  | ind n ih =>
    rw [source]
    split_ifs with hn
    · omega
    · rw [ih ((n + 1) / 2) (by omega) (by omega)]
      omega

/-- The node above a pair of a row of `n` nodes, the last one possibly paired with itself. -/
def parent (n : ℕ) (row : ℕ → D) (i : ℕ) : D := join (row (2 * i)) (row (min (n - 1) (2 * i + 1)))

theorem source_two_mul {n : ℕ} (hn : 1 < n) (i : ℕ) :
    source n (2 * i) = 2 * source ((n + 1) / 2) i := by
  have hlt := source_lt (n := (n + 1) / 2) (by omega) i
  rw [source, if_neg (by omega), show 2 * i / 2 = i by omega]
  omega

theorem source_two_mul_add_one {n : ℕ} (hn : 1 < n) (i : ℕ) :
    source n (2 * i + 1) = min (n - 1) (2 * source ((n + 1) / 2) i + 1) := by
  rw [source, if_neg (by omega), show (2 * i + 1) / 2 = i by omega,
    show (2 * i + 1) % 2 = 1 by omega]

/-- The completed row of the parents has the parents of the completed row. -/
theorem parent_source {n : ℕ} (hn : 1 < n) (row : ℕ → D) (i : ℕ) :
    parent join n row (source ((n + 1) / 2) i) =
      join (row (source n (2 * i))) (row (source n (2 * i + 1))) := by
  rw [source_two_mul hn, source_two_mul_add_one hn, parent]

theorem nodeAt_source {n : ℕ} (hn : 1 < n) (row : ℕ → D) (k i : ℕ) :
    nodeAt join (fun i => row (source n i)) (k + 1) i =
      nodeAt join (fun i => parent join n row (source ((n + 1) / 2) i)) k i := by
  rw [nodeAt_succ]
  simp only [parent_source join hn]

end HashTree
