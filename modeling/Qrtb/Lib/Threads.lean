import Mathlib.Data.List.Count
import Mathlib.Data.List.Flatten
import Mathlib.Logic.Function.Iterate

/-!
# Threads that share nothing

A thread has local variables and works on one object. A schedule lists the threads in the
order of their steps. A thread whose object no other thread of the schedule works on goes
where its own steps take it, so once it has halted no schedule can be told from another.
-/

universe u v

namespace Threads

theorem iterate_of_fixed {α : Type u} {f : α → α} {x : α} {n : ℕ} (h : f (f^[n] x) = f^[n] x)
    {m : ℕ} (hm : n ≤ m) : f^[m] x = f^[n] x := by
  obtain ⟨k, rfl⟩ := Nat.exists_eq_add_of_le hm
  rw [Nat.add_comm, Function.iterate_add_apply, Function.iterate_fixed h]

variable {ι : Type*} {κ : Type*} {ℓ : Type u} {σ : Type v}

/-- The object of a thread, and one step on its local state and that object. -/
structure Program (ι κ : Type*) (ℓ : Type u) (σ : Type v) where
  object : ι → κ
  next : ι → ℓ × σ → ℓ × σ

structure Config (ι κ : Type*) (ℓ : Type u) (σ : Type v) where
  locals : ι → ℓ
  objects : κ → σ

variable (P : Program ι κ ℓ σ)

def view (c : Config ι κ ℓ σ) (i : ι) : ℓ × σ := (c.locals i, c.objects (P.object i))

/-- A step leaves the thread and its object as they are. -/
def Halted (i : ι) (v : ℓ × σ) : Prop := P.next i v = v

/-- No other thread of the schedule works on the object of `i`. -/
def Apart (schedule : List ι) (i : ι) : Prop :=
  ∀ j ∈ schedule, P.object j = P.object i → j = i

variable [DecidableEq ι] [DecidableEq κ]

def step (c : Config ι κ ℓ σ) (i : ι) : Config ι κ ℓ σ where
  locals := Function.update c.locals i (P.next i (view P c i)).1
  objects := Function.update c.objects (P.object i) (P.next i (view P c i)).2

def run (schedule : List ι) (c : Config ι κ ℓ σ) : Config ι κ ℓ σ := schedule.foldl (step P) c

variable {P} {c : Config ι κ ℓ σ} {schedule : List ι} {i : ι}

theorem view_step_self (c : Config ι κ ℓ σ) (i : ι) :
    view P (step P c i) i = P.next i (view P c i) := by
  simp [view, step]

theorem view_step_of_ne {j : ι} (hne : i ≠ j) (hobject : P.object i ≠ P.object j) :
    view P (step P c j) i = view P c i := by
  simp [view, step, hne, hobject]

/-- A thread with an object of its own is as far as its own steps take it. -/
theorem view_run (h : Apart P schedule i) :
    view P (run P schedule c) i = (P.next i)^[schedule.count i] (view P c i) := by
  induction schedule generalizing c with
  | nil => rfl
  | cons j schedule ih =>
    have hrest : Apart P schedule i := fun k hk => h k (List.mem_cons_of_mem j hk)
    have hstep : run P (j :: schedule) c = run P schedule (step P c j) := rfl
    rw [hstep, ih hrest]
    by_cases hj : j = i
    · subst hj
      rw [view_step_self, List.count_cons_self, Function.iterate_succ_apply]
    · have hobject : P.object i ≠ P.object j := fun hobject =>
        hj (h j List.mem_cons_self hobject.symm)
      rw [view_step_of_ne (Ne.symm hj) hobject, List.count_cons_of_ne hj]

theorem objects_run_of_notMem {k : κ} (h : ∀ j ∈ schedule, P.object j ≠ k) :
    (run P schedule c).objects k = c.objects k := by
  induction schedule generalizing c with
  | nil => rfl
  | cons j schedule ih =>
    rw [List.forall_mem_cons] at h
    have hstep : (step P c j).objects k = c.objects k :=
      Function.update_of_ne (Ne.symm h.1) _ _
    rw [← hstep]
    exact ih h.2

theorem view_run_of_halted (h : Apart P schedule i)
    (hhalted : Halted P i (view P (run P schedule c) i)) {n : ℕ}
    (halone : Halted P i ((P.next i)^[n] (view P c i))) :
    view P (run P schedule c) i = (P.next i)^[n] (view P c i) := by
  rw [view_run h] at hhalted ⊢
  rcases Nat.le_total n (schedule.count i) with hle | hle
  · exact iterate_of_fixed halone hle
  · exact (iterate_of_fixed hhalted hle).symm

/-- Threads that each halt alone have a schedule that takes all of them there. -/
theorem exists_schedule {threads : List ι} (hapart : ∀ i ∈ threads, Apart P threads i)
    {goal : ι → ℓ × σ} (hhalted : ∀ i ∈ threads, Halted P i (goal i))
    (halone : ∀ i ∈ threads, ∃ n, (P.next i)^[n] (view P c i) = goal i) :
    ∃ schedule, (∀ j ∈ schedule, j ∈ threads) ∧
      ∀ i ∈ threads, view P (run P schedule c) i = goal i := by
  choose! n hn using halone
  let schedule := threads.flatMap fun i => List.replicate (n i) i
  have hmem : ∀ j ∈ schedule, j ∈ threads := by
    intro j hj
    obtain ⟨i, hi, hj⟩ := List.mem_flatMap.mp hj
    rwa [List.eq_of_mem_replicate hj]
  refine ⟨schedule, hmem, fun i hi => ?_⟩
  have hcount : n i ≤ schedule.count i := by
    have hsub : (List.replicate (n i) i).Sublist schedule :=
      List.sublist_flatten_of_mem (List.mem_map_of_mem hi)
    simpa using hsub.count_le i
  have hfixed : P.next i ((P.next i)^[n i] (view P c i)) = (P.next i)^[n i] (view P c i) := by
    rw [hn i hi]
    exact hhalted i hi
  rw [view_run fun j hj => hapart i hi j (hmem j hj), iterate_of_fixed hfixed hcount, hn i hi]

end Threads
