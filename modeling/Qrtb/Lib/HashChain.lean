import Mathlib.Data.List.Induction

/-!
# Chains of digests

A chain takes its digest and an entry to the next digest. Where a single link gives
away neither the digest before it nor what the entry says without a collision, the
last digest of a chain commits to its start and to everything in it.
-/

namespace HashChain

variable {H E M C : Type}

/-- Two different messages of a list with one digest. -/
def CollidesIn {D : Type} (hash : M → D) (messages : List M) : Prop :=
  ∃ m ∈ messages, ∃ n ∈ messages, m ≠ n ∧ hash m = hash n

theorem CollidesIn.mono {D : Type} {hash : M → D} {ms ns : List M} (h : CollidesIn hash ms)
    (hsub : ms ⊆ ns) : CollidesIn hash ns := by
  obtain ⟨m, hm, n, hn, hne, heq⟩ := h
  exact ⟨m, hsub hm, n, hsub hn, hne, heq⟩

theorem eq_or_collidesIn {D : Type} {hash : M → D} (ms : List M) {m n : M} (hm : m ∈ ms)
    (hn : n ∈ ms) (h : hash m = hash n) : m = n ∨ CollidesIn hash ms := by
  by_cases hne : m = n
  · exact Or.inl hne
  · exact Or.inr ⟨m, hm, n, hn, hne, h⟩

/-- How an entry is linked, and the messages that are hashed for it. -/
structure Links (H E M : Type) where
  next : H → E → H
  messages : H → E → List M

namespace Links

variable (L : Links H E M)

def tip (h : H) (es : List E) : H := es.foldl L.next h

/-- Everything that is hashed along a chain. -/
def hashed : H → List E → List M
  | _, [] => []
  | h, e :: es => L.messages h e ++ hashed (L.next h e) es

@[simp] theorem tip_nil (h : H) : L.tip h [] = h := rfl

theorem tip_cons (h : H) (e : E) (es : List E) : L.tip h (e :: es) = L.tip (L.next h e) es := rfl

theorem tip_append (h : H) (es fs : List E) : L.tip h (es ++ fs) = L.tip (L.tip h es) fs :=
  List.foldl_append ..

theorem hashed_append (h : H) (es fs : List E) :
    L.hashed h (es ++ fs) = L.hashed h es ++ L.hashed (L.tip h es) fs := by
  induction es generalizing h with
  | nil => rfl
  | cons e es ih => rw [List.cons_append, hashed, hashed, ih, tip_cons, List.append_assoc]

/-- Each entry fits the digest it is linked to. -/
def Along (entry : H → E → Prop) : H → List E → Prop
  | _, [] => True
  | h, e :: es => entry h e ∧ Along entry (L.next h e) es

theorem along_append {entry : H → E → Prop} {h : H} {es fs : List E} :
    L.Along entry h (es ++ fs) ↔ L.Along entry h es ∧ L.Along entry (L.tip h es) fs := by
  induction es generalizing h with
  | nil => exact (iff_of_eq (true_and _)).symm
  | cons e es ih => rw [List.cons_append, Along, Along, ih, tip_cons, and_assoc]

/-- One link commits to the digest and the entry it is made from. -/
structure Commits {D : Type} (hash : M → D) (digest : H → Prop) (entry : H → E → Prop)
    (content : E → C) : Prop where
  next : ∀ h e, digest (L.next h e)
  link : ∀ {h e h' e'}, digest h → digest h' → entry h e → entry h' e' →
    L.next h e = L.next h' e' →
    h = h' ∧ content e = content e' ∨ CollidesIn hash (L.messages h e ++ L.messages h' e')

variable {L}

/-- Chains of one length with the same last digest start with one digest and say the same. -/
theorem Commits.chain {D : Type} {hash : M → D} {digest : H → Prop} {entry : H → E → Prop}
    {content : E → C} (hL : L.Commits hash digest entry content) {h h' : H} {es es' : List E}
    (hlength : es.length = es'.length) (hh : digest h) (hh' : digest h')
    (hes : L.Along entry h es) (hes' : L.Along entry h' es') (htip : L.tip h es = L.tip h' es') :
    h = h' ∧ es.map content = es'.map content ∨
      CollidesIn hash (L.hashed h es ++ L.hashed h' es') := by
  induction es generalizing h h' es' with
  | nil =>
    obtain rfl := List.length_eq_zero_iff.mp hlength.symm
    exact Or.inl ⟨htip, rfl⟩
  | cons e es ih =>
    cases es' with
    | nil => cases hlength
    | cons e' es' =>
      have hwider : ∀ {ms ns : List M}, ms ⊆ L.messages h e ++ L.hashed (L.next h e) es →
          ns ⊆ L.messages h' e' ++ L.hashed (L.next h' e') es' → CollidesIn hash (ms ++ ns) →
          CollidesIn hash (L.hashed h (e :: es) ++ L.hashed h' (e' :: es')) :=
        fun hms hns hcollides => hcollides.mono (List.append_subset.mpr
          ⟨List.subset_append_of_subset_left _ hms, List.subset_append_of_subset_right _ hns⟩)
      rcases ih (Nat.succ.inj hlength) (hL.next h e) (hL.next h' e') hes.2 hes'.2 htip with
        ⟨hnext, hrest⟩ | hcollides
      · rcases hL.link hh hh' hes.1 hes'.1 hnext with ⟨rfl, hcontent⟩ | hcollides
        · exact Or.inl ⟨rfl, by rw [List.map_cons, List.map_cons, hcontent, hrest]⟩
        · exact Or.inr (hwider (List.subset_append_left ..) (List.subset_append_left ..) hcollides)
      · exact Or.inr (hwider (List.subset_append_right ..) (List.subset_append_right ..) hcollides)

end Links

end HashChain
