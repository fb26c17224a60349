import Qrtb.Lib.Stateful

/-!
# Contracts of computations on mutable state

A contract promises two things of a computation that starts in a state with the
precondition: when it returns the postcondition holds, and where a fixed side
condition holds it does return. One proof through the parts of a program so gives
what it has done if no exception stopped it and when none does. An invariant that
the computation keeps in any case can be carried along as a frame.
-/

namespace Stateful

variable {σ τ α β : Type} {fits : Prop}

def Contract (fits : Prop) (pre : σ → Prop) (x : Stateful σ α) (post : α → σ → Prop) : Prop :=
  ∀ s, pre s → (fits → ∃ a, (x s).1 = .ok a) ∧ ∀ a, (x s).1 = .ok a → post a (x s).2

variable {pre : σ → Prop} {post : α → σ → Prop} {x : Stateful σ α}

theorem contract_of_returns {a : σ → α} (h : ∀ s, pre s → (x s).1 = .ok (a s))
    (hpost : ∀ s, pre s → post (a s) (x s).2) : Contract fits pre x post := by
  intro s hs
  refine ⟨fun _ => ⟨a s, h s hs⟩, ?_⟩
  intro b hb
  obtain rfl := Except.ok.inj ((h s hs).symm.trans hb)
  exact hpost s hs

theorem contract_pure {a : α} (h : ∀ s, pre s → post a s) : Contract fits pre (pure a) post :=
  contract_of_returns (fun _ _ => rfl) h

theorem contract_reads {f : σ → α} (h : ∀ s, pre s → post (f s) s) :
    Contract fits pre (reads f) post :=
  contract_of_returns (fun _ _ => rfl) h

theorem contract_look (f : σ → α) : Contract fits pre (reads f) fun _ => pre :=
  contract_reads fun _ hs => hs

theorem contract_modify {f : σ → σ} {post : Unit → σ → Prop} (h : ∀ s, pre s → post () (f s)) :
    Contract fits pre (modify f) post :=
  contract_of_returns (fun _ _ => rfl) h

theorem contract_total {f : σ → α × σ} (h : ∀ s, pre s → post (f s).1 (f s).2) :
    Contract fits pre (total f) post :=
  contract_of_returns (fun _ _ => rfl) h

theorem contract_checking {f : σ → Check Unit × σ} {post : σ → Prop}
    (hraise : ∀ s, pre s → ∀ e, (f s).1 ≠ .error (.raised e)) (h : ∀ s, pre s → post (f s).2) :
    Contract fits pre (checking f) fun _ => post := by
  intro s hs
  refine ⟨fun _ => ?_, fun _ _ => ?_⟩
  · have hnot := hraise s hs
    rw [checking]
    split
    next => exact ⟨true, rfl⟩
    next => exact ⟨false, rfl⟩
    next e s' heq => exact absurd (by rw [heq]) (hnot e)
  · rw [snd_checking]
    exact h s hs

theorem contract_accept {f : σ → Check Unit × σ} {post : σ → Prop}
    (h : ∀ s, pre s → (f s).1 = .ok () ∧ post (f s).2) :
    Contract fits pre (checking f) fun _ => post := by
  refine contract_checking (fun s hs e => ?_) fun s hs => (h s hs).2
  rw [(h s hs).1]
  exact nofun

theorem contract_ofExcept {r : Except PyError α} (hreturns : fits → r.Returns)
    (h : ∀ a s, r = .ok a → pre s → post a s) : Contract fits pre (ofExcept r) post :=
  fun s hs => ⟨hreturns, fun a ha => h a s ha hs⟩

theorem contract_of_fact {φ : Prop} (h : φ → Contract fits pre x post) :
    Contract fits (fun s => φ ∧ pre s) x post :=
  fun s hs => h hs.1 s hs.2

theorem contract_at (h : ∀ s, pre s → Contract fits (fun t => t = s) x post) :
    Contract fits pre x post :=
  fun s hs => h s hs s rfl

theorem Contract.mono {pre' : σ → Prop} {post' : α → σ → Prop} (hx : Contract fits pre' x post')
    (hpre : ∀ s, pre s → pre' s) (hpost : ∀ a s, post' a s → post a s) :
    Contract fits pre x post := by
  intro s hs
  obtain ⟨hreturns, h⟩ := hx s (hpre s hs)
  exact ⟨hreturns, fun a ha => hpost a _ (h a ha)⟩

theorem Contract.weaken {post' : α → σ → Prop} (hx : Contract fits pre x post')
    (hpost : ∀ a s, post' a s → post a s) : Contract fits pre x post :=
  hx.mono (fun _ hs => hs) hpost

theorem Contract.bind {mid : α → σ → Prop} {post : β → σ → Prop} {f : α → Stateful σ β}
    (hx : Contract fits pre x mid) (hf : ∀ a, Contract fits (mid a) (f a) post) :
    Contract fits pre (x >>= f) post := by
  intro s hs
  obtain ⟨hreturns, hmid⟩ := hx s hs
  constructor
  · intro hfits
    obtain ⟨a, ha⟩ := hreturns hfits
    rw [bind_of_ok ha]
    exact (hf a _ (hmid a ha)).1 hfits
  · intro b hb
    cases ha : (x s).1 with
    | error e =>
      rw [bind_of_error ha] at hb
      cases hb
    | ok a =>
      rw [bind_of_ok ha] at hb ⊢
      exact (hf a _ (hmid a ha)).2 b hb

theorem Contract.map {post : β → σ → Prop} {f : α → β}
    (hx : Contract fits pre x fun a s => post (f a) s) : Contract fits pre (f <$> x) post :=
  hx.bind fun _ => contract_pure fun _ hs => hs

theorem Contract.ite {c : Prop} [Decidable c] {y : Stateful σ α}
    (hx : c → Contract fits pre x post) (hy : ¬ c → Contract fits pre y post) :
    Contract fits pre (if c then x else y) post := by
  split_ifs with h
  · exact hx h
  · exact hy h

theorem Contract.frame {I : σ → Prop} (hx : Contract fits (fun s => I s ∧ pre s) x post)
    (hI : Preserves I x) :
    Contract fits (fun s => I s ∧ pre s) x fun a s => I s ∧ post a s := by
  intro s hs
  obtain ⟨hreturns, h⟩ := hx s hs
  exact ⟨hreturns, fun a ha => ⟨hI s hs.1, h a ha⟩⟩

/-- A computation on one attribute, with what it leaves alone in the rest. -/
theorem Contract.on {part : τ → σ} {put : σ → τ → τ} {G : τ → Prop}
    (hx : Contract fits pre x post) (hpart : ∀ s t, part (put s t) = s)
    (hG : ∀ s t, G t → G (put s t)) :
    Contract fits (fun t => G t ∧ pre (part t)) (on part put x)
      fun a t => G t ∧ post a (part t) := by
  intro t ht
  obtain ⟨hreturns, h⟩ := hx (part t) ht.2
  refine ⟨hreturns, ?_⟩
  intro a ha
  refine ⟨hG _ _ ht.1, ?_⟩
  change post a (part (put (x (part t)).2 t))
  rw [hpart]
  exact h a ha

theorem Contract.on_part {part : τ → σ} {put : σ → τ → τ} (hx : Contract fits pre x post)
    (hpart : ∀ s t, part (put s t) = s) :
    Contract fits (fun t => pre (part t)) (Stateful.on part put x) fun a t => post a (part t) := by
  have hframe : ∀ (s : σ) (t : τ), True → True := fun _ _ h => h
  refine (hx.on hpart hframe).mono ?_ ?_
  · exact fun t ht => ⟨trivial, ht⟩
  · exact fun a t ht => ht.2

theorem contract_forEach {I : List α → σ → Prop} {f : α → Stateful σ β} {as : List α}
    (h : ∀ done a rest, as = done ++ a :: rest →
      Contract fits (I done) (f a) fun _ => I (done ++ [a])) :
    Contract fits (I []) (forEach f as) fun _ => I as := by
  have hfrom : ∀ done rest, as = done ++ rest →
      Contract fits (I done) (Stateful.forEach f rest) fun _ => I as := by
    intro done rest has
    induction rest generalizing done with
    | nil =>
      rw [List.append_nil] at has
      exact contract_pure fun s hs => by rwa [has]
    | cons a rest ih =>
      refine (h done a rest has).bind fun b => ?_
      refine (ih (done ++ [a]) (by simpa using has)).bind fun bs => ?_
      exact contract_pure fun s hs => hs
  exact hfrom [] as rfl

end Stateful
