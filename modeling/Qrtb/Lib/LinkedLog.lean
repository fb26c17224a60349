import Mathlib.Data.List.Induction
import Mathlib.Data.List.Nodup
import Mathlib.Order.MinMax

/-!
# Links made at insertion time

Entries with ordered keys are inserted one after the other, and each is linked to
the entry that has the greatest key at that time. The links form a chain by key
exactly when the keys are inserted in increasing order.
-/

universe u v

namespace LinkedLog

variable {α : Type u} {H : Type v} [LinearOrder α] (hash : α → H) (zero : H)

/-- The hash of the entry with the greatest of the keys, `zero` when there is none. -/
def tip (keys : List α) : H :=
  match keys.max? with
  | none => zero
  | some m => hash m

/-- Of the keys, listed by insertion, every one is linked to the greatest smaller one: what was
the tip at its insertion is the tip of the smaller keys. -/
def Linked (keys : List α) : Prop :=
  ∀ pre k post, keys = pre ++ k :: post →
    tip hash zero pre = tip hash zero (keys.filter (· < k))

theorem tip_of_max? {keys : List α} {m : α} (h : keys.max? = some m) : tip hash zero keys = hash m := by
  rw [tip, h]

theorem exists_max? (keys : List α) (h : keys ≠ []) : ∃ m, keys.max? = some m :=
  Option.ne_none_iff_exists'.mp (mt List.max?_eq_none_iff.mp h)

theorem tip_congr {keys keys' : List α} (h : ∀ k, k ∈ keys ↔ k ∈ keys') :
    tip hash zero keys = tip hash zero keys' := by
  have hmax : keys.max? = keys'.max? := by
    rcases keys.eq_nil_or_concat with rfl | ⟨xs, x, rfl⟩
    · have hnil : keys' = [] := List.eq_nil_iff_forall_not_mem.mpr fun k hk => by simpa using (h k).mpr hk
      rw [hnil]
    · obtain ⟨m, hm⟩ := exists_max? (xs.concat x) (by simp)
      rw [hm]
      obtain ⟨hmem, hle⟩ := List.max?_eq_some_iff.mp hm
      exact (List.max?_eq_some_iff.mpr ⟨(h m).mp hmem, fun b hb => hle b ((h b).mpr hb)⟩).symm
  rw [tip, tip, hmax]

variable {hash zero}

theorem tip_congr_hash {hash' : α → H} {keys : List α} (h : ∀ k ∈ keys, hash k = hash' k) :
    tip hash zero keys = tip hash' zero keys := by
  rcases keys.eq_nil_or_concat with rfl | ⟨xs, x, rfl⟩
  · rfl
  · obtain ⟨m, hm⟩ := exists_max? (xs.concat x) (by simp)
    rw [tip_of_max? hash zero hm, tip_of_max? hash' zero hm]
    exact h m (List.max?_eq_some_iff.mp hm).1

theorem first_le {first : α} {rest : List α}
    (hinj : ∀ a ∈ first :: rest, ∀ b ∈ first :: rest, hash a = hash b → a = b)
    (h : Linked hash zero (first :: rest)) : ∀ k ∈ rest, first ≤ k := by
  by_contra hnot
  push Not at hnot
  obtain ⟨small, hsmall, hlt⟩ := hnot
  -- the first key is linked to zero, so zero is the hash of the greatest smaller key `p`
  have hzero : zero = tip hash zero ((first :: rest).filter (· < first)) := h [] first rest rfl
  obtain ⟨p, hp⟩ := exists_max? ((first :: rest).filter (· < first))
    (List.ne_nil_of_mem (List.mem_filter.mpr ⟨List.mem_cons_of_mem _ hsmall, by simpa using hlt⟩))
  rw [tip_of_max? hash zero hp] at hzero
  obtain ⟨hpmem, -⟩ := List.max?_eq_some_iff.mp hp
  obtain ⟨hpall, hpfirst⟩ := List.mem_filter.mp hpmem
  -- the smallest key is inserted later and linked to something not below the first key
  obtain ⟨least, hleast⟩ : ∃ m, (first :: rest).min? = some m :=
    Option.ne_none_iff_exists'.mp (by simp)
  obtain ⟨hlmem, hlle⟩ := List.min?_eq_some_iff.mp hleast
  have hne : least ≠ first := by
    rintro rfl
    exact absurd (hlle p hpall) (not_le.mpr (by simpa using hpfirst))
  obtain ⟨pre, post, hsplit⟩ := List.append_of_mem ((List.mem_cons.mp hlmem).resolve_left hne)
  have hlink := h (first :: pre) least post (by rw [hsplit, List.cons_append])
  have hnone : (first :: rest).filter (· < least) = [] := by
    rw [List.filter_eq_nil_iff]
    intro k hk
    simpa using hlle k hk
  obtain ⟨top, htop⟩ := exists_max? (first :: pre) (by simp)
  rw [hnone, tip_of_max? hash zero htop] at hlink
  obtain ⟨htmem, htle⟩ := List.max?_eq_some_iff.mp htop
  have htall : top ∈ first :: rest := by
    rw [hsplit]
    rcases List.mem_cons.mp htmem with rfl | ht
    · exact List.mem_cons_self
    · exact List.mem_cons_of_mem _ (List.mem_append_left _ ht)
  have hsame : top = p := hinj top htall p hpall (hlink.trans hzero)
  exact absurd (htle first List.mem_cons_self)
    (not_le.mpr (by rw [hsame]; simpa using hpfirst))

theorem linked_iff_sorted {keys : List α} (hnodup : keys.Nodup)
    (hinj : ∀ a ∈ keys, ∀ b ∈ keys, hash a = hash b → a = b) :
    Linked hash zero keys ↔ keys.Pairwise (· < ·) := by
  constructor
  · intro h
    have habove : ∀ pre k post, keys = pre ++ k :: post → ∀ x ∈ pre, x < k := by
      intro pre k post hsplit x hx
      cases pre with
      | nil => cases hx
      | cons first pre =>
        subst hsplit
        have hnd := List.nodup_cons.mp hnodup
        have hfirst : first < k := by
          refine lt_of_le_of_ne (first_le hinj h k (by simp)) ?_
          rintro rfl
          exact hnd.1 (by simp)
        have hlink := h (first :: pre) k post rfl
        obtain ⟨top, htop⟩ := exists_max? (first :: pre) (by simp)
        obtain ⟨p, hp⟩ := exists_max? ((first :: pre ++ k :: post).filter (· < k))
          (List.ne_nil_of_mem (a := first) (List.mem_filter.mpr ⟨by simp, by simpa using hfirst⟩))
        rw [tip_of_max? hash zero htop, tip_of_max? hash zero hp] at hlink
        obtain ⟨htmem, htle⟩ := List.max?_eq_some_iff.mp htop
        obtain ⟨hpmem, -⟩ := List.max?_eq_some_iff.mp hp
        obtain ⟨hpall, hpk⟩ := List.mem_filter.mp hpmem
        have hsame : top = p := hinj top (List.mem_append_left _ htmem) p hpall hlink
        exact lt_of_le_of_lt (htle x hx) (by rw [hsame]; simpa using hpk)
    clear hinj h
    induction keys using List.reverseRecOn with
    | nil => exact List.Pairwise.nil
    | append_singleton keys k ih =>
      rw [List.pairwise_append]
      refine ⟨ih (List.nodup_append.mp hnodup).1 ?_, List.pairwise_singleton _ _, ?_⟩
      · intro pre j post hsplit
        exact habove pre j (post ++ [k]) (by rw [hsplit, List.append_assoc, List.cons_append])
      · intro x hx y hy
        rw [List.mem_singleton] at hy
        subst hy
        exact habove keys y [] rfl x hx
  · intro h pre k post hsplit
    subst hsplit
    obtain ⟨-, hk, hcross⟩ := List.pairwise_append.mp h
    apply tip_congr
    intro x
    simp only [List.mem_filter, List.mem_append, List.mem_cons, decide_eq_true_eq]
    constructor
    · intro hx
      exact ⟨Or.inl hx, hcross x hx k List.mem_cons_self⟩
    · rintro ⟨hx | rfl | hx, hlt⟩
      · exact hx
      · exact absurd hlt (lt_irrefl x)
      · exact absurd hlt (not_lt.mpr (le_of_lt ((List.pairwise_cons.mp hk).1 x hx)))

end LinkedLog
