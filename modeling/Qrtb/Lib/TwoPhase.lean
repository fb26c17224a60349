import Mathlib.Data.Set.Insert

/-!
# Two rounds of voting on one proposal, over a network without order

A proposer sends its proposal to the other members. A member that has it pre-votes.
With every pre-vote that arrives, a member that has enough pre-votes pre-commits
again, and a member that has the proposal and, with a pre-commit that arrives, enough
pre-commits decides. Enough are those of all members but itself and the proposer, who
does not vote. Messages may overtake each other, so the votes may be there before the
proposal is. That the pre-commits are repeated makes up for it: once nothing is in
transit, everybody has decided.
-/

namespace TwoPhase

variable {ι : Type}

inductive Letter (ι : Type) where
  | proposal
  | preVote (voter : ι)
  | preCommit (voter : ι)

/-- Who has the proposal, whose votes are recorded where, who has decided, and the letters in
transit with their targets. -/
structure State (ι : Type) where
  informed : Set ι
  preVotes : ι → Set ι
  preCommits : ι → Set ι
  decided : Set ι
  transit : Set (ι × Letter ι)

variable (V : Set ι) (p : ι)

/-- The members whose votes have to do at a member. -/
def others (w : ι) : Set ι := {v | v ∈ V ∧ v ≠ p ∧ v ≠ w}

/-- Nothing is forgotten, and no letter lost but the one that is handled. -/
structure Grows (c c' : State ι) (handled : Set (ι × Letter ι)) : Prop where
  informed : c.informed ⊆ c'.informed
  preVotes : ∀ w, c.preVotes w ⊆ c'.preVotes w
  preCommits : ∀ w, c.preCommits w ⊆ c'.preCommits w
  decided : c.decided ⊆ c'.decided
  transit : ∀ l ∈ c.transit, l ∉ handled → l ∈ c'.transit

/-- No pre-vote of another member is recorded. -/
def Unvoted (c c' : State ι) (w : ι) : Prop :=
  ∀ v ∈ others V p w, v ∈ c'.preVotes w → v ∈ c.preVotes w

/-- What a member does, at least. -/
inductive Step (c c' : State ι) : Prop
  | quiet (grows : Grows c c' ∅) (informed : c'.informed ⊆ c.informed)
      (unvoted : ∀ w, Unvoted V p c c' w)
  | proposal (k : ι) (grows : Grows c c' {(k, .proposal)}) (told : k ∈ c'.informed)
      (informed : ∀ u ∈ c'.informed, u ≠ k → u ∈ c.informed) (unvoted : ∀ w, Unvoted V p c c' w)
      (voted : ∀ w ∈ V, w ≠ k → (w, .preVote k) ∈ c'.transit)
  | preVote (k v : ι) (grows : Grows c c' {(k, .preVote v)}) (informed : c'.informed ⊆ c.informed)
      (recorded : v ∈ c'.preVotes k) (unvoted : ∀ w, w ≠ k → Unvoted V p c c' w)
      (committed : others V p k ⊆ c'.preVotes k → ∀ u ∈ V, u ≠ k → (u, .preCommit k) ∈ c'.transit)
  | preCommit (k v : ι) (grows : Grows c c' {(k, .preCommit v)}) (informed : c'.informed ⊆ c.informed)
      (recorded : v ∈ c'.preCommits k) (unvoted : ∀ w, Unvoted V p c c' w)
      (decided : k ∈ c.informed → others V p k ⊆ c'.preCommits k → k ∈ c'.decided)

/-- A pre-commit of `w` will be at `u`: it is on its way, or a pre-vote is that leads to it. -/
def ToCome (c : State ι) (u w : ι) : Prop :=
  (w, .preVote u) ∈ c.transit ∨ (u, .preCommit w) ∈ c.transit ∨ ¬ others V p w ⊆ c.preVotes w

structure Inv (c : State ι) : Prop where
  asked : ∀ u ∈ V, u ∉ c.informed → (u, .proposal) ∈ c.transit
  voted : ∀ u ∈ V, u ≠ p → u ∈ c.informed → ∀ w ∈ V, w ≠ u →
    (w, .preVote u) ∈ c.transit ∨ u ∈ c.preVotes w
  pending : ∀ u ∈ V, u ∈ c.informed → ∀ w ∈ others V p u, ToCome V p c u w ∨ w ∈ c.preCommits u
  /-- Who has not decided has something to wait for. -/
  waits : ∀ u ∈ V, u ∈ c.informed → u ∈ c.decided ∨ ∃ w ∈ others V p u, ToCome V p c u w

variable {V p} {c c' : State ι}

theorem ToCome.keep {u w : ι} (h : ToCome V p c u w) {handled : Set (ι × Letter ι)}
    (hgrows : Grows c c' handled) (hvote : (w, .preVote u) ∉ handled)
    (hcommit : (u, .preCommit w) ∉ handled) (hunvoted : Unvoted V p c c' w) :
    ToCome V p c' u w := by
  rcases h with h | h | h
  · exact Or.inl (hgrows.transit _ h hvote)
  · exact Or.inr (Or.inl (hgrows.transit _ h hcommit))
  · exact Or.inr (Or.inr fun hall => h fun v hv => hunvoted v hv (hall hv))

/-- A member that has just recorded a pre-vote either lacks others or pre-commits. -/
theorem ToCome.of_committed {u k : ι} (hu : u ∈ V) (hne : u ≠ k)
    (hcommitted : others V p k ⊆ c'.preVotes k → ∀ u ∈ V, u ≠ k → (u, .preCommit k) ∈ c'.transit) :
    ToCome V p c' u k := by
  by_cases hall : others V p k ⊆ c'.preVotes k
  · exact Or.inr (Or.inl (hcommitted hall u hu hne))
  · exact Or.inr (Or.inr hall)

section

variable {handled : Set (ι × Letter ι)} {u w : ι}

theorem Inv.asked_of_grows (hc : Inv V p c) (hgrows : Grows c c' handled) (hu : u ∈ V)
    (hnot : u ∉ c'.informed) (hkept : (u, .proposal) ∉ handled) : (u, .proposal) ∈ c'.transit :=
  hgrows.transit _ (hc.asked u hu fun h => hnot (hgrows.informed h)) hkept

theorem Inv.voted_of_grows (hc : Inv V p c) (hgrows : Grows c c' handled) (hu : u ∈ V)
    (hne : u ≠ p) (hin : u ∈ c.informed) (hw : w ∈ V) (hwu : w ≠ u)
    (hkept : (w, .preVote u) ∉ handled) : (w, .preVote u) ∈ c'.transit ∨ u ∈ c'.preVotes w :=
  (hc.voted u hu hne hin w hw hwu).imp (fun h => hgrows.transit _ h hkept)
    fun h => hgrows.preVotes w h

theorem Inv.pending_of_keep (hc : Inv V p c) (hgrows : Grows c c' handled) (hu : u ∈ V)
    (hin : u ∈ c.informed) (hw : w ∈ others V p u)
    (hkeep : ToCome V p c u w → ToCome V p c' u w) : ToCome V p c' u w ∨ w ∈ c'.preCommits u :=
  (hc.pending u hu hin w hw).imp hkeep fun h => hgrows.preCommits u h

theorem Inv.waits_of_keep (hc : Inv V p c) (hgrows : Grows c c' handled) (hu : u ∈ V)
    (hin : u ∈ c.informed)
    (hkeep : ∀ w ∈ others V p u, ToCome V p c u w → ToCome V p c' u w) :
    u ∈ c'.decided ∨ ∃ w ∈ others V p u, ToCome V p c' u w := by
  refine (hc.waits u hu hin).imp (fun h => hgrows.decided h) ?_
  rintro ⟨w, hw, h⟩
  exact ⟨w, hw, hkeep w hw h⟩

end

theorem Inv.quiet (hc : Inv V p c) (grows : Grows c c' ∅) (informed : c'.informed ⊆ c.informed)
    (unvoted : ∀ w, Unvoted V p c c' w) : Inv V p c' := by
  have hkeep : ∀ {u w}, ToCome V p c u w → ToCome V p c' u w := fun h =>
    h.keep grows (Set.notMem_empty _) (Set.notMem_empty _) (unvoted _)
  constructor
  · intro u hu hnot
    exact hc.asked_of_grows grows hu hnot (Set.notMem_empty _)
  · intro u hu hne hin w hw hwu
    exact hc.voted_of_grows grows hu hne (informed hin) hw hwu (Set.notMem_empty _)
  · intro u hu hin w hw
    exact hc.pending_of_keep grows hu (informed hin) hw hkeep
  · intro u hu hin
    exact hc.waits_of_keep grows hu (informed hin) fun _ _ => hkeep

/-- A member that has just got the proposal asks for the pre-commits anew. -/
theorem Inv.proposal (hc : Inv V p c) (hothers : ∀ u ∈ V, (others V p u).Nonempty) {k : ι}
    (grows : Grows c c' {(k, .proposal)}) (told : k ∈ c'.informed)
    (informed : ∀ u ∈ c'.informed, u ≠ k → u ∈ c.informed) (unvoted : ∀ w, Unvoted V p c c' w)
    (voted : ∀ w ∈ V, w ≠ k → (w, .preVote k) ∈ c'.transit) : Inv V p c' := by
  have hkeep : ∀ {u w}, ToCome V p c u w → ToCome V p c' u w := fun h =>
    h.keep grows (by simp) (by simp) (unvoted _)
  have hask : ∀ w ∈ others V p k, ToCome V p c' k w := fun w hw =>
    Or.inl (voted w hw.1 hw.2.2)
  constructor
  · intro u hu hnot
    have huk : u ≠ k := fun h => hnot (h ▸ told)
    exact hc.asked_of_grows grows hu hnot (by simp [huk])
  · intro u hu hne hin w hw hwu
    by_cases huk : u = k
    · subst huk
      exact Or.inl (voted w hw hwu)
    · exact hc.voted_of_grows grows hu hne (informed u hin huk) hw hwu (by simp)
  · intro u hu hin w hw
    by_cases huk : u = k
    · subst huk
      exact Or.inl (hask w hw)
    · exact hc.pending_of_keep grows hu (informed u hin huk) hw hkeep
  · intro u hu hin
    by_cases huk : u = k
    · subst huk
      obtain ⟨w, hw⟩ := hothers u hu
      exact Or.inr ⟨w, hw, hask w hw⟩
    · exact hc.waits_of_keep grows hu (informed u hin huk) fun _ _ => hkeep

theorem Inv.preVote (hc : Inv V p c) {k v : ι} (grows : Grows c c' {(k, .preVote v)})
    (informed : c'.informed ⊆ c.informed) (recorded : v ∈ c'.preVotes k)
    (unvoted : ∀ w, w ≠ k → Unvoted V p c c' w)
    (committed : others V p k ⊆ c'.preVotes k → ∀ u ∈ V, u ≠ k → (u, .preCommit k) ∈ c'.transit) :
    Inv V p c' := by
  have hkeep : ∀ {u w}, u ∈ V → w ∈ others V p u → ToCome V p c u w → ToCome V p c' u w := by
    intro u w hu hw h
    by_cases hwk : w = k
    · subst hwk
      exact .of_committed hu hw.2.2.symm committed
    · exact h.keep grows (by simp [hwk]) (by simp) (unvoted w hwk)
  constructor
  · intro u hu hnot
    exact hc.asked_of_grows grows hu hnot (by simp)
  · intro u hu hne hin w hw hwu
    by_cases hhandled : w = k ∧ u = v
    · obtain ⟨rfl, rfl⟩ := hhandled
      exact Or.inr recorded
    · exact hc.voted_of_grows grows hu hne (informed hin) hw hwu (by simpa using hhandled)
  · intro u hu hin w hw
    exact hc.pending_of_keep grows hu (informed hin) hw (hkeep hu hw)
  · intro u hu hin
    exact hc.waits_of_keep grows hu (informed hin) fun _ => hkeep hu

theorem Inv.preCommit (hc : Inv V p c) {k v : ι} (grows : Grows c c' {(k, .preCommit v)})
    (informed : c'.informed ⊆ c.informed) (recorded : v ∈ c'.preCommits k)
    (unvoted : ∀ w, Unvoted V p c c' w)
    (decided : k ∈ c.informed → others V p k ⊆ c'.preCommits k → k ∈ c'.decided) :
    Inv V p c' := by
  have hkeep : ∀ {u w}, ¬ (u = k ∧ w = v) → ToCome V p c u w → ToCome V p c' u w := by
    intro u w hne h
    exact h.keep grows (by simp) (by simpa using hne) (unvoted w)
  have hpending : ∀ u ∈ V, u ∈ c'.informed → ∀ w ∈ others V p u,
      ToCome V p c' u w ∨ w ∈ c'.preCommits u := by
    intro u hu hin w hw
    by_cases hhandled : u = k ∧ w = v
    · obtain ⟨rfl, rfl⟩ := hhandled
      exact Or.inr recorded
    · exact hc.pending_of_keep grows hu (informed hin) hw (hkeep hhandled)
  refine ⟨?_, ?_, hpending, ?_⟩
  · intro u hu hnot
    exact hc.asked_of_grows grows hu hnot (by simp)
  · intro u hu hne hin w hw hwu
    exact hc.voted_of_grows grows hu hne (informed hin) hw hwu (by simp)
  · intro u hu hin
    by_cases huk : u = k
    · subst huk
      by_cases hall : others V p u ⊆ c'.preCommits u
      · exact Or.inl (decided (informed hin) hall)
      · obtain ⟨w, hw, hmissing⟩ := Set.not_subset.mp hall
        exact Or.inr ⟨w, hw, (hpending u hu hin w hw).resolve_right hmissing⟩
    · exact hc.waits_of_keep grows hu (informed hin) fun _ _ => hkeep fun heq => huk heq.1

theorem Inv.step (hc : Inv V p c) (hothers : ∀ u ∈ V, (others V p u).Nonempty)
    (hstep : Step V p c c') : Inv V p c' := by
  cases hstep with
  | quiet grows informed unvoted => exact hc.quiet grows informed unvoted
  | proposal k grows told informed unvoted voted =>
    exact hc.proposal hothers grows told informed unvoted voted
  | preVote k v grows informed recorded unvoted committed =>
    exact hc.preVote grows informed recorded unvoted committed
  | preCommit k v grows informed recorded unvoted decided =>
    exact hc.preCommit grows informed recorded unvoted decided

/-- The proposer has sent its proposal to everybody, and nobody has voted. -/
theorem Inv.start (hothers : ∀ u ∈ V, (others V p u).Nonempty)
    (hinformed : ∀ u ∈ V, u ∈ c.informed → u = p)
    (hsent : ∀ u ∈ V, u ≠ p → (u, .proposal) ∈ c.transit) (hp : p ∈ c.informed)
    (hvotes : ∀ w ∈ V, c.preVotes w = ∅) : Inv V p c := by
  have hcome : ∀ u, ∀ w ∈ V, ToCome V p c u w := by
    intro u w hw
    refine Or.inr (Or.inr fun hall => ?_)
    obtain ⟨v, hv⟩ := hothers w hw
    rw [hvotes w hw] at hall
    exact hall hv
  refine ⟨fun u hu hnot => ?_, fun u hu hne hin => absurd (hinformed u hu hin) hne,
    fun u hu hin w hw => Or.inl (hcome u w hw.1), fun u hu hin => ?_⟩
  · refine hsent u hu ?_
    rintro rfl
    exact hnot hp
  · obtain ⟨w, hw⟩ := hothers u hu
    exact Or.inr ⟨w, hw, hcome u w hw.1⟩

theorem Inv.decided_of_quiet (hc : Inv V p c) (hquiet : ∀ l ∈ c.transit, l.1 ∉ V) :
    V ⊆ c.decided := by
  have hnone : ∀ u ∈ V, ∀ l, (u, l) ∉ c.transit := fun u hu l hl => hquiet _ hl hu
  have hinformed : ∀ u ∈ V, u ∈ c.informed := by
    intro u hu
    by_contra hnot
    exact hnone u hu _ (hc.asked u hu hnot)
  have hrecorded : ∀ w ∈ V, others V p w ⊆ c.preVotes w := by
    intro w hw v hv
    exact (hc.voted v hv.1 hv.2.1 (hinformed v hv.1) w hw hv.2.2.symm).resolve_left (hnone w hw _)
  intro u hu
  refine (hc.waits u hu (hinformed u hu)).resolve_right ?_
  rintro ⟨w, hw, h | h | h⟩
  · exact hnone w hw.1 _ h
  · exact hnone u hu _ h
  · exact h (hrecorded w hw.1)

end TwoPhase
