import Mathlib.Algebra.BigOperators.Group.List.Basic
import Mathlib.Algebra.Order.Ring.Int
import Mathlib.Data.List.Induction

/-!
# Finite runs of a labelled transition relation

A run is a finite sequence of labelled steps. The two rules used on them are
preservation of an invariant and the accounting of a potential: when every step
from an invariant state raises the potential by at most the charge of its label,
a run raises it by at most the sum of the charges. Commands that act as functions
have two more: what every command keeps, once it holds, is kept by the rest of the
run, and a property that each command keeps on a condition of its own stands over
the run exactly when all the conditions are met.
-/

universe u v

namespace Transition

variable {σ : Type u} {ε : Type v}

inductive Run (step : σ → ε → σ → Prop) : σ → List ε → σ → Prop
  | nil (s : σ) : Run step s [] s
  | cons {s t u : σ} {e : ε} {es : List ε} :
      step s e t → Run step t es u → Run step s (e :: es) u

namespace Run

variable {step : σ → ε → σ → Prop} {s t u : σ} {es fs : List ε}

theorem append (h : Run step s es t) (h' : Run step t fs u) : Run step s (es ++ fs) u := by
  induction h with
  | nil => exact h'
  | cons hstep _ ih => exact .cons hstep (ih h')

theorem eq_of_nil (h : Run step s [] t) : s = t := by
  cases h
  rfl

theorem single {e : ε} (h : step s e t) : Run step s [e] t := .cons h (.nil t)

theorem split (h : Run step s (es ++ fs) u) : ∃ t, Run step s es t ∧ Run step t fs u := by
  induction es generalizing s with
  | nil => exact ⟨s, .nil s, h⟩
  | cons e es ih =>
    cases h with
    | cons hstep hrun =>
      obtain ⟨t, ht, hu⟩ := ih hrun
      exact ⟨t, .cons hstep ht, hu⟩

theorem mono {step' : σ → ε → σ → Prop} (hsub : ∀ s e t, step s e t → step' s e t)
    (h : Run step s es t) : Run step' s es t := by
  induction h with
  | nil => exact .nil _
  | cons hst _ ih => exact .cons (hsub _ _ _ hst) ih

theorem unique (hdet : ∀ s e t t', step s e t → step s e t' → t = t') (h : Run step s es t)
    (h' : Run step s es u) : t = u := by
  induction h with
  | nil =>
    cases h' with
    | nil => rfl
  | cons hst _ ih =>
    cases h' with
    | cons hst' hrun' =>
      obtain rfl := hdet _ _ _ _ hst hst'
      exact ih hrun'

theorem restrict {P : ε → Prop} (h : Run step s es t) (hP : ∀ e ∈ es, P e) :
    Run (fun s e t => P e ∧ step s e t) s es t := by
  induction h with
  | nil => exact .nil _
  | cons hst _ ih =>
    exact .cons ⟨hP _ List.mem_cons_self, hst⟩ (ih fun e he => hP e (List.mem_cons_of_mem _ he))

theorem invariant {I : σ → Prop} (hstep : ∀ s e t, I s → step s e t → I t)
    (h : Run step s es t) (hs : I s) : I t := by
  induction h with
  | nil => exact hs
  | cons hst _ ih => exact ih (hstep _ _ _ hs hst)

theorem potential_le {I : σ → Prop} {f : σ → ℤ} {g : ε → ℤ}
    (hI : ∀ s e t, I s → step s e t → I t)
    (hf : ∀ s e t, I s → step s e t → f t ≤ f s + g e)
    (h : Run step s es t) (hs : I s) : f t ≤ f s + (es.map g).sum := by
  induction h with
  | nil => simp
  | cons hst _ ih =>
    have h1 := hf _ _ _ hs hst
    have h2 := ih (hI _ _ _ hs hst)
    simp only [List.map_cons, List.sum_cons]
    omega

theorem forall_label {P : ε → Prop} (hP : ∀ s e t, step s e t → P e) (h : Run step s es t) :
    ∀ e ∈ es, P e := by
  induction h with
  | nil => simp
  | cons hst _ ih =>
    intro e he
    rcases List.mem_cons.mp he with rfl | he
    · exact hP _ _ _ hst
    · exact ih e he

/-- Steps that are steps of another relation, under a map of states and one of labels. -/
theorem map {τ δ : Type*} {step' : τ → δ → τ → Prop} (f : σ → τ) (g : ε → δ)
    (hstep : ∀ s e t, step s e t → step' (f s) (g e) (f t)) (h : Run step s es t) :
    Run step' (f s) (es.map g) (f t) := by
  induction h with
  | nil => exact .nil _
  | cons hst _ ih => exact .cons (hstep _ _ _ hst) ih

/-- Where every request is answered from every good state, any list of requests has a run. -/
theorem exists_of_progress {κ : Type*} {request : ε → κ} {I : σ → Prop}
    (hstep : ∀ s, I s → ∀ r, ∃ e t, request e = r ∧ step s e t ∧ I t) (hs : I s) (rs : List κ) :
    ∃ es t, es.map request = rs ∧ Run step s es t ∧ I t := by
  induction rs generalizing s with
  | nil => exact ⟨[], s, rfl, .nil s, hs⟩
  | cons r rs ih =>
    obtain ⟨e, t, rfl, hst, ht⟩ := hstep s hs r
    obtain ⟨es, u, rfl, hrun, hu⟩ := ih ht
    exact ⟨e :: es, u, rfl, .cons hst hrun, hu⟩

/-- Where every step keeps a property of the history and the state exactly on its own condition,
the property stands through a run exactly when every step meets its condition. -/
theorem throughout_iff {I : List ε → σ → Prop} {K : List ε → σ → ε → Prop}
    (hdet : ∀ s e t t', step s e t → step s e t' → t = t')
    (hstep : ∀ es s' e t', Run step s es s' → step s' e t' → I es s' →
      (I (es ++ [e]) t' ↔ K es s' e)) (hI : I [] s) (h : Run step s es t) :
    (∀ pre post u, es = pre ++ post → Run step s pre u → I pre u) ↔
      ∀ pre e post u, es = pre ++ e :: post → Run step s pre u → K pre u e := by
  constructor
  · intro hall pre e post u hes hpre
    subst hes
    obtain ⟨v, hv, hrest⟩ := h.split
    obtain rfl := hpre.unique hdet hv
    cases hrest with
    | cons hst hrun =>
      exact (hstep pre u e _ hpre hst (hall pre (e :: post) u rfl hpre)).mp
        (hall (pre ++ [e]) post _ (by simp) (hpre.append (.single hst)))
  · intro hall pre post u hes hpre
    induction pre using List.reverseRecOn generalizing post u with
    | nil =>
      cases hpre with
      | nil => exact hI
    | append_singleton pre e ih =>
      have hes' : es = pre ++ e :: post := by simpa using hes
      obtain ⟨v, hv, hlast⟩ := hpre.split
      cases hlast with
      | cons hst hrun =>
        cases hrun with
        | nil =>
          exact (hstep pre v e _ hv hst (ih (e :: post) v hes' hv)).mpr
            (hall pre e post v hes' hv)

end Run

section Commands

variable {κ : Type*} (step : ε → σ → σ) (P : κ → σ → Prop)

def runs (cs : List ε) (s : σ) : σ := cs.foldl (fun s c => step c s) s

@[simp] theorem runs_nil (s : σ) : runs step [] s = s := rfl

theorem runs_cons (c : ε) (cs : List ε) (s : σ) : runs step (c :: cs) s = runs step cs (step c s) :=
  rfl

theorem runs_append (cs ds : List ε) (s : σ) :
    runs step (cs ++ ds) s = runs step ds (runs step cs s) :=
  List.foldl_append

theorem runs_append_singleton (cs : List ε) (c : ε) (s : σ) :
    runs step (cs ++ [c]) s = step c (runs step cs s) :=
  runs_append step cs [c] s

/-- A fact that holds at some point of the run holds at every later point. -/
def Permanent (cs : List ε) (s : σ) : Prop :=
  ∀ pre mid post, cs = pre ++ mid ++ post →
    ∀ k, P k (runs step pre s) → P k (runs step (pre ++ mid) s)

theorem permanent_iff (cs : List ε) (s : σ) :
    Permanent step P cs s ↔
      ∀ pre c post, cs = pre ++ c :: post →
        ∀ k, P k (runs step pre s) → P k (step c (runs step pre s)) := by
  constructor
  · intro h pre c post hcs k hk
    rw [← runs_append_singleton step pre c s]
    exact h pre [c] post (by simpa using hcs) k hk
  · intro h pre mid post hcs k hk
    induction mid using List.reverseRecOn generalizing post with
    | nil => simpa using hk
    | append_singleton mid c ih =>
      rw [← List.append_assoc, runs_append_singleton]
      apply h (pre ++ mid) c post (by simpa using hcs)
      exact ih (c :: post) (by simpa using hcs)

/-- Where a command keeps a property exactly on its own condition, the property stands over a whole
run exactly when every command meets its condition. -/
theorem throughout_iff {I J : σ → Prop} {K : ε → σ → Prop} (hJ : ∀ c s, J s → J (step c s))
    (hstep : ∀ c s, J s → I s → (I (step c s) ↔ K c s)) {s : σ} (hs : J s) (hI : I s)
    (cs : List ε) :
    (∀ pre post, cs = pre ++ post → I (runs step pre s)) ↔
      ∀ pre c post, cs = pre ++ c :: post → K c (runs step pre s) := by
  have hrun : ∀ pre, J (runs step pre s) := by
    intro pre
    induction pre using List.reverseRecOn with
    | nil => exact hs
    | append_singleton pre c ih =>
      rw [runs_append_singleton]
      exact hJ c _ ih
  constructor
  · intro h pre c post hcs
    have hnext := h (pre ++ [c]) post (by simpa using hcs)
    rw [runs_append_singleton] at hnext
    exact (hstep c _ (hrun pre) (h pre (c :: post) hcs)).mp hnext
  · intro h pre post hcs
    induction pre using List.reverseRecOn generalizing post with
    | nil => exact hI
    | append_singleton pre c ih =>
      have hcs' : cs = pre ++ c :: post := by simpa using hcs
      rw [runs_append_singleton]
      exact (hstep c _ (hrun pre) (ih (c :: post) hcs')).mpr (h pre c post hcs')

variable {ω : Type*} (write : ε → Option ω)

/-- The last value that the commands write, if any of them writes one. -/
def lastWrite (cs : List ε) : Option ω := cs.foldl (fun acc c => (write c).or acc) none

theorem lastWrite_append_singleton (cs : List ε) (c : ε) :
    lastWrite write (cs ++ [c]) = (write c).or (lastWrite write cs) := by
  simp [lastWrite]

variable {step write}

/-- A cell that every command overwrites or leaves holds the last write, or what it held. -/
theorem view_runs (I : σ → Prop) (view : σ → Option ω) (hI : ∀ c s, I s → I (step c s))
    (hview : ∀ c s, I s → view (step c s) = (write c).or (view s)) (cs : List ε) {s : σ}
    (hs : I s) : view (runs step cs s) = (lastWrite write cs).or (view s) := by
  have hrun : I (runs step cs s) ∧ view (runs step cs s) = (lastWrite write cs).or (view s) := by
    induction cs using List.reverseRecOn with
    | nil => exact ⟨hs, rfl⟩
    | append_singleton cs c ih =>
      rw [runs_append_singleton, lastWrite_append_singleton, Option.or_assoc, ← ih.2]
      exact ⟨hI c _ ih.1, hview c _ ih.1⟩
  exact hrun.2

/-- The commands leave the cell exactly when the last write repeats what it held. -/
theorem or_eq_self_iff {x y : Option ω} : x.or y = y ↔ ∀ v, x = some v → y = some v := by
  cases x with
  | none => simp
  | some v => simp [eq_comm]

end Commands

end Transition
