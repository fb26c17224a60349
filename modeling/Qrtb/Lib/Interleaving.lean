import Qrtb.Lib.Transition
import Mathlib.Algebra.BigOperators.Group.Multiset.Basic
import Mathlib.Tactic.Abel

/-!
# Interleaved calls on a shared state

A call runs as a sequence of atomic sections. Each section reads and writes the
shared state and takes the call from one local state to the next, until the
local state holds a response. Any number of calls is in progress at a time and
their sections interleave freely. The events of a run form its history.

The rules used on such systems are induction along the history, and the
accounting of tokens: a section passes a token between the shared state and the
call that runs it, and a response hands it out.
-/

universe u v

namespace Transition

variable {σ : Type u} {ε : Type v} {step : σ → ε → σ → Prop} {s t : σ} {es : List ε}

theorem Run.history {I : List ε → σ → Prop} (h : Run step s es t) (hs : I [] s)
    (hstep : ∀ es s e t, I es s → step s e t → I (es ++ [e]) t) : I es t := by
  suffices hgen : ∀ before, I before s → I (before ++ es) t by simpa using hgen [] hs
  clear hs
  induction h with
  | nil => simp
  | @cons s t u e es hst _ ih =>
    intro before hbefore
    have hnext := ih (before ++ [e]) (hstep before s e t hbefore hst)
    simpa using hnext

end Transition

namespace Interleaving

open Transition

inductive Event (κ ρ ε : Type*)
  | invoke (call : κ)
  | act (section' : ε)
  | respond (call : κ) (response : ρ)
  deriving DecidableEq

/-- How a call starts, what its sections do and when it has its response. -/
structure CallSystem (σ ℓ κ ρ ε : Type*) where
  start : κ → ℓ
  act : σ → ℓ → ε → σ → ℓ → Prop
  returns : ℓ → Option (κ × ρ)

/-- The shared state and the calls in progress. -/
structure Config (σ ℓ : Type*) where
  shared : σ
  running : Multiset ℓ

variable {σ ℓ κ ρ ε : Type*} (S : CallSystem σ ℓ κ ρ ε)

inductive Step : Config σ ℓ → Event κ ρ ε → Config σ ℓ → Prop
  | invoke (s : σ) (ls : Multiset ℓ) (call : κ) :
      Step ⟨s, ls⟩ (.invoke call) ⟨s, S.start call ::ₘ ls⟩
  | act {s s' : σ} {l l' : ℓ} {e : ε} (ls : Multiset ℓ) (h : S.act s l e s' l') :
      Step ⟨s, l ::ₘ ls⟩ (.act e) ⟨s', l' ::ₘ ls⟩
  | respond (s : σ) {l : ℓ} {call : κ} {response : ρ} (ls : Multiset ℓ)
      (h : S.returns l = some (call, response)) :
      Step ⟨s, l ::ₘ ls⟩ (.respond call response) ⟨s, ls⟩

/-- A call that runs by itself, with no section of another call in between. -/
def alone (p : σ × ℓ) (e : ε) (q : σ × ℓ) : Prop := S.act p.1 p.2 e q.1 q.2

theorem alone_cons {s s' : σ} {l l' : ℓ} {e : ε} {es : List ε} {q : σ × ℓ} (h : S.act s l e s' l')
    (hrun : Run (alone S) (s', l') es q) : Run (alone S) (s, l) (e :: es) q :=
  .cons (t := (s', l')) h hrun

/-- From this shared state, with no other call in progress, the call can return the response. -/
def Answers (s : σ) (call : κ) (response : ρ) : Prop :=
  ∃ es q, Run (alone S) (s, S.start call) es q ∧ S.returns q.2 = some (call, response)

variable {M : Type*} [AddCommMonoid M]

/-- Every step passes on the tokens it finds: what an event brings in and the calls hold before
it, the event takes out or the calls hold after it. -/
structure Passes (given taken : Event κ ρ ε → M) (held : ℓ → M) : Prop where
  invoke : ∀ call, given (.invoke call) = taken (.invoke call) + held (S.start call)
  act : ∀ {s l e s' l'}, S.act s l e s' l' →
    given (.act e) + held l = taken (.act e) + held l'
  respond : ∀ {l call response}, S.returns l = some (call, response) →
    given (.respond call response) + held l = taken (.respond call response)

variable {S}

theorem Passes.run {given taken : Event κ ρ ε → M} {held : ℓ → M} (h : Passes S given taken held)
    {s : σ} {es : List (Event κ ρ ε)} {c : Config σ ℓ} (hrun : Run (Step S) ⟨s, 0⟩ es c) :
    (es.map given).sum = (es.map taken).sum + (c.running.map held).sum := by
  refine hrun.history (I := fun es c =>
    (es.map given).sum = (es.map taken).sum + (c.running.map held).sum) (by simp) ?_
  intro es c e c' ih hst
  simp only [List.map_append, List.map_cons, List.map_nil, List.sum_append, List.sum_cons,
    List.sum_nil, add_zero, ih]
  cases hst with
  | invoke s ls call =>
    rw [Multiset.map_cons, Multiset.sum_cons, h.invoke call]
    abel
  | @act s s' l l' e ls hact =>
    have hpass := h.act hact
    simp only [Multiset.map_cons, Multiset.sum_cons]
    calc (es.map taken).sum + (held l + (ls.map held).sum) + given (.act e)
        = (es.map taken).sum + (ls.map held).sum + (given (.act e) + held l) := by abel
      _ = (es.map taken).sum + (ls.map held).sum + (taken (.act e) + held l') := by rw [hpass]
      _ = (es.map taken).sum + taken (.act e) + (held l' + (ls.map held).sum) := by abel
  | @respond s l call response ls hret =>
    have hpass := h.respond hret
    simp only [Multiset.map_cons, Multiset.sum_cons]
    calc (es.map taken).sum + (held l + (ls.map held).sum) + given (.respond call response)
        = (es.map taken).sum + (ls.map held).sum +
            (given (.respond call response) + held l) := by abel
      _ = (es.map taken).sum + (ls.map held).sum + taken (.respond call response) := by rw [hpass]
      _ = (es.map taken).sum + taken (.respond call response) + (ls.map held).sum := by abel

end Interleaving
