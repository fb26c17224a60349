import Mathlib.Data.List.Sort

/-!
# Sorted blocks in one string

A list of equally long blocks is sorted and joined. The string keeps exactly the blocks
with their multiplicities: sorting forgets the order, and joining forgets nothing, as
every block ends where its length says.
-/

namespace SortedBlocks

variable {α : Type*}

theorem flatten_inj {width : ℕ} (hwidth : 0 < width) {as bs : List (List α)}
    (ha : ∀ a ∈ as, a.length = width) (hb : ∀ b ∈ bs, b.length = width)
    (h : as.flatten = bs.flatten) : as = bs := by
  induction as generalizing bs with
  | nil =>
    cases bs with
    | nil => rfl
    | cons b bs =>
      have hlength := congrArg List.length h
      have hb' := hb b List.mem_cons_self
      simp only [List.flatten_nil, List.flatten_cons, List.length_append, List.length_nil]
        at hlength
      omega
  | cons a as ih =>
    have ha' := ha a List.mem_cons_self
    cases bs with
    | nil =>
      have hlength := congrArg List.length h
      simp only [List.flatten_nil, List.flatten_cons, List.length_append, List.length_nil]
        at hlength
      omega
    | cons b bs =>
      have hb' := hb b List.mem_cons_self
      rw [List.flatten_cons, List.flatten_cons] at h
      obtain ⟨hhead, htail⟩ := List.append_inj h (ha'.trans hb'.symm)
      rw [hhead, ih (fun x hx => ha x (List.mem_cons_of_mem _ hx))
        (fun x hx => hb x (List.mem_cons_of_mem _ hx)) htail]

variable (r : List α → List α → Prop) [DecidableRel r]

def join (blocks : List (List α)) : List α := (blocks.insertionSort r).flatten

theorem mem_of_mem_sorted {width : ℕ} {blocks : List (List α)}
    (h : ∀ b ∈ blocks, b.length = width) : ∀ b ∈ blocks.insertionSort r, b.length = width :=
  fun b hb => h b ((List.mem_insertionSort r).mp hb)

theorem length_join {width : ℕ} {blocks : List (List α)} (h : ∀ b ∈ blocks, b.length = width) :
    (join r blocks).length = width * blocks.length := by
  rw [join, List.length_flatten, List.map_congr_left (mem_of_mem_sorted r h), List.map_const',
    List.sum_replicate_nat, List.length_insertionSort, Nat.mul_comm]

variable [Std.Total r] [IsTrans (List α) r] [Std.Antisymm r]

theorem insertionSort_eq_iff {as bs : List (List α)} :
    as.insertionSort r = bs.insertionSort r ↔ as.Perm bs := by
  constructor
  · intro h
    exact (List.perm_insertionSort r as).symm.trans (h ▸ List.perm_insertionSort r bs)
  · intro h
    exact List.Perm.eq_of_pairwise' (List.pairwise_insertionSort r as)
      (List.pairwise_insertionSort r bs)
      ((List.perm_insertionSort r as).trans (h.trans (List.perm_insertionSort r bs).symm))

theorem join_eq_iff {width : ℕ} (hwidth : 0 < width) {as bs : List (List α)}
    (ha : ∀ a ∈ as, a.length = width) (hb : ∀ b ∈ bs, b.length = width) :
    join r as = join r bs ↔ as.Perm bs := by
  rw [← insertionSort_eq_iff r]
  constructor
  · exact flatten_inj hwidth (mem_of_mem_sorted r ha) (mem_of_mem_sorted r hb)
  · intro h
    rw [join, h, join]

end SortedBlocks
