import Mathlib.Data.List.Perm.Basic
import Mathlib.Data.Bool.Basic
import Mathlib.Tactic.Ring

/-!
# Counting pairs in the order of a list

A loop over a list that pairs each element with the later ones counts the pairs with a
property. It sees every pair once, in the order of the list, so the count is the same for
every order exactly when the property does not look at the order of a pair.
-/

namespace OrderedPairs

variable {α β : Type*} (p : α → α → Bool)

/-- The pairs with the property, the earlier element first. -/
def count : List α → ℕ
  | [] => 0
  | b :: rest => rest.countP (p b) + count rest

theorem count_map (f : β → α) (l : List β) :
    count p (l.map f) = count (fun b c => p (f b) (f c)) l := by
  induction l with
  | nil => rfl
  | cons b rest ih => rw [List.map_cons, count, count, List.countP_map, ih]; rfl

theorem count_swap (b c : α) (rest : List α) :
    count p (b :: c :: rest) + (p c b).toNat = count p (c :: b :: rest) + (p b c).toNat := by
  have htoNat : ∀ x y, (if p x y = true then 1 else 0) = (p x y).toNat := by
    intro x y
    cases p x y <;> rfl
  simp only [count, List.countP_cons, htoNat]
  omega

variable {p}

theorem countP_le_add {f g h : α → Bool} {l : List α}
    (hor : ∀ a ∈ l, f a = true → g a = true ∨ h a = true) : l.countP f ≤ l.countP g + l.countP h := by
  induction l with
  | nil => exact Nat.zero_le _
  | cons a l ih =>
    have hrest := ih fun b hb => hor b (List.mem_cons_of_mem a hb)
    have hhead := hor a List.mem_cons_self
    simp only [List.countP_cons]
    cases hf : f a <;> cases hg : g a <;> cases hh : h a <;> simp_all <;> omega

theorem countP_add_countP_le {p q r : α → Bool} {l : List α}
    (hp : ∀ b ∈ l, p b = true → r b = true ∧ q b = false) (hq : ∀ b ∈ l, q b = true → r b = true) :
    l.countP p + l.countP q ≤ l.countP r := by
  induction l with
  | nil => exact le_rfl
  | cons b rest ih =>
    have hrest := ih (fun c hc => hp c (List.mem_cons_of_mem _ hc))
      fun c hc => hq c (List.mem_cons_of_mem _ hc)
    have hpb := hp b List.mem_cons_self
    have hqb := hq b List.mem_cons_self
    simp only [List.countP_cons]
    cases hpb' : p b <;> cases hqb' : q b <;> cases hrb' : r b <;> simp_all <;> omega

/-- The pairs of two kinds that exclude each other are no more than those of a kind of both. -/
theorem count_add_count_le {q r : α → α → Bool} {l : List α} (hl : l.Nodup)
    (hp : ∀ b ∈ l, ∀ c ∈ l, b ≠ c → p b c = true → r b c = true ∧ q b c = false)
    (hq : ∀ b ∈ l, ∀ c ∈ l, b ≠ c → q b c = true → r b c = true) :
    count p l + count q l ≤ count r l := by
  induction l with
  | nil => exact le_rfl
  | cons b rest ih =>
    obtain ⟨hb, hrest⟩ := List.nodup_cons.mp hl
    have hne : ∀ c ∈ rest, b ≠ c := fun c hc hbc => hb (hbc ▸ hc)
    have hfirst := countP_add_countP_le
      (fun c hc => hp b List.mem_cons_self c (List.mem_cons_of_mem _ hc) (hne c hc))
      fun c hc => hq b List.mem_cons_self c (List.mem_cons_of_mem _ hc) (hne c hc)
    have hothers := ih hrest
      (fun x hx y hy => hp x (List.mem_cons_of_mem _ hx) y (List.mem_cons_of_mem _ hy))
      fun x hx y hy => hq x (List.mem_cons_of_mem _ hx) y (List.mem_cons_of_mem _ hy)
    simp only [count]
    omega

theorem two_mul_count_true (l : List α) :
    2 * count (fun _ _ => true) l = l.length * (l.length - 1) := by
  induction l with
  | nil => rfl
  | cons b rest ih =>
    rw [count, List.countP_true, Nat.mul_add, ih, List.length_cons, Nat.add_sub_cancel]
    cases rest.length with
    | zero => rfl
    | succ n =>
      rw [Nat.add_sub_cancel]
      ring

/-- The pairs with both elements in a set are those of the elements in the set. -/
theorem count_both (q : α → Bool) (l : List α) :
    count (fun b c => q b && q c) l = count (fun _ _ => true) (l.filter q) := by
  induction l with
  | nil => rfl
  | cons b rest ih =>
    cases hb : q b with
    | true =>
      rw [List.filter_cons_of_pos hb, count, count, ih, List.countP_true,
        ← List.countP_eq_length_filter]
      simp [hb]
    | false =>
      rw [List.filter_cons_of_neg (by simp [hb]), count, ih]
      simp [hb]

theorem count_perm {l l' : List α} (h : l.Perm l')
    (hsymm : ∀ b ∈ l, ∀ c ∈ l, b ≠ c → p b c = p c b) : count p l = count p l' := by
  induction h with
  | nil => rfl
  | cons b h ih =>
    rw [count, count, h.countP_eq,
      ih fun x hx y hy => hsymm x (List.mem_cons_of_mem _ hx) y (List.mem_cons_of_mem _ hy)]
  | swap b c rest =>
    have hpair : p b c = p c b := by
      by_cases hbc : b = c
      · rw [hbc]
      · exact hsymm b (by simp) c (by simp) hbc
    have hswap := count_swap p c b rest
    rw [hpair] at hswap
    omega
  | trans h _ ih ih' =>
    rw [ih hsymm, ih' fun x hx y hy => hsymm x (h.mem_iff.mpr hx) y (h.mem_iff.mpr hy)]

theorem exists_perm_of_mem {l : List α} {b c : α} (hb : b ∈ l) (hc : c ∈ l) (hne : b ≠ c) :
    ∃ rest, l.Perm (b :: c :: rest) := by
  obtain ⟨front, back, rfl⟩ := List.append_of_mem hb
  have hfirst : (front ++ b :: back).Perm (b :: (front ++ back)) := List.perm_middle
  have hmem : c ∈ front ++ back := by
    rcases List.mem_cons.mp (hfirst.mem_iff.mp hc) with h | h
    · exact absurd h.symm hne
    · exact h
  obtain ⟨front', back', hsplit⟩ := List.append_of_mem hmem
  refine ⟨front' ++ back', hfirst.trans (.cons b ?_)⟩
  rw [hsplit]
  exact List.perm_middle

theorem count_perm_iff {l : List α} :
    (∀ l', l'.Perm l → count p l' = count p l) ↔
      ∀ b ∈ l, ∀ c ∈ l, b ≠ c → p b c = p c b := by
  constructor
  · intro h b hb c hc hne
    obtain ⟨rest, hrest⟩ := exists_perm_of_mem hb hc hne
    have hfirst := h _ hrest.symm
    have hsecond := h _ ((List.Perm.swap b c rest).trans hrest.symm)
    have hswap := count_swap p b c rest
    have hnat : (p b c).toNat = (p c b).toNat := by omega
    cases hb' : p b c <;> cases hc' : p c b <;> simp_all
  · intro h l' hperm
    exact (count_perm hperm.symm h).symm

end OrderedPairs
