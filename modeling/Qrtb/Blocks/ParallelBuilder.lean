import Qrtb.Blocks.Coordinator
import Qrtb.Lib.Stateful

/-!
# Distribution to the zones (`ParallelBlockBuilder` in `src/block_producer.py`)

The builder queues transactions and deals them out round robin: position `i` goes
to the zone `i % num_zones`, and is dropped when no coordinator is registered for
that zone. The queue is emptied before the deal, so an exception loses the rest.
-/

namespace Qrtb

open Stateful Transition

namespace Mempool

theorem addTransaction_outcome (tx : Transaction) (m : Mempool) :
    (¬ tx.Packable ∧ ∃ e, addTransaction tx m = (.error e, m)) ∨
    (tx.Packable ∧ ∃ reason, addTransaction tx m = (.ok (false, reason), m)) ∨
    (tx.Packable ∧ ∃ reason m', addTransaction tx m = (.ok (true, reason), m') ∧
      ∀ tx', m'.Holds tx' ↔ m.Holds tx' ∨ tx' = tx) := by
  rw [← Transaction.txHash_returns]
  rcases addTransaction_cases tx m with ⟨e, hh, he⟩ | ⟨h, hh, hcases⟩
  · left
    refine ⟨?_, e, he⟩
    rintro ⟨h, hret⟩
    cases hh.symm.trans hret
  · right
    rcases hcases with ⟨reason, he⟩ | ⟨hnew, -, he⟩
    · exact Or.inl ⟨⟨h, hh⟩, reason, he⟩
    · refine Or.inr ⟨⟨h, hh⟩, _, _, he, ?_⟩
      intro tx'
      constructor
      · rintro ⟨k, hk⟩
        rcases OrderedDict.get?_set_eq_some.mp hk with ⟨-, rfl⟩ | ⟨-, hk⟩
        · exact Or.inr rfl
        · exact Or.inl ⟨k, hk⟩
      · rintro (⟨k, hk⟩ | rfl)
        · have hne : k ≠ h := by
            rintro rfl
            cases hnew.symm.trans hk
          exact ⟨k, (OrderedDict.get?_set_of_ne _ hne _).trans hk⟩
        · exact ⟨h, OrderedDict.get?_set_self ..⟩

end Mempool

namespace BlockCoordinator

def broadcastTransaction (tx : Transaction) : Stateful BlockCoordinator Bool := fun b =>
  match b.zoneMempool.addTransaction tx with
  | (.error e, m) => (.error e, { b with zoneMempool := m })
  | (.ok (success, _), m) => (.ok success, { b with zoneMempool := m })

end BlockCoordinator

/-- Coordinators are objects, and two zones may have the same one. What was submitted and what a
pool refused is recorded beside the attributes of the source. -/
structure ParallelBlockBuilder (C : Type) where
  numZones : ℤ
  workersPerZone : ℤ
  coordinators : OrderedDict ℤ C := ∅
  pendingQueue : List Transaction := []
  objects : C → BlockCoordinator
  submitted : List Transaction := []
  rejected : List Transaction := []

namespace ParallelBlockBuilder

variable {C : Type}

/-- The thread pool refuses to have no workers. -/
def init (numZones workersPerZone : ℤ) (objects : C → BlockCoordinator) :
    Except PyError (ParallelBlockBuilder C) :=
  if numZones * workersPerZone ≤ 0 then .error .valueError
  else .ok { numZones, workersPerZone, objects }

def addCoordinator (zoneId : ℤ) (coordinator : C) (s : ParallelBlockBuilder C) :
    ParallelBlockBuilder C :=
  { s with coordinators := s.coordinators.set zoneId coordinator }

def submitTransaction (tx : Transaction) : Stateful (ParallelBlockBuilder C) Bool :=
  total fun s =>
    (true, { s with pendingQueue := s.pendingQueue ++ [tx], submitted := s.submitted ++ [tx] })

/-- The zone of a position of the queue. -/
def zoneAt (i : ℕ) (s : ParallelBlockBuilder C) : Except PyError ℤ :=
  if s.numZones = 0 then .error .zeroDivisionError else .ok ((i : ℤ).fmod s.numZones)

section

variable [DecidableEq C]

def onObject {α : Type} (c : C) (x : Stateful BlockCoordinator α) :
    Stateful (ParallelBlockBuilder C) α :=
  on (fun s => s.objects c) (fun b s => { s with objects := Function.update s.objects c b }) x

/-- Broadcast to a coordinator, and record a refusal. -/
def hand (c : C) (tx : Transaction) : Stateful (ParallelBlockBuilder C) Bool := do
  let success ← onObject c (BlockCoordinator.broadcastTransaction tx)
  if success then return true
  else
    modify fun s => { s with rejected := s.rejected ++ [tx] }
    return false

/-- The loop of the distribution, from position `i` on. -/
def distributeLoop : ℕ → List Transaction → OrderedDict ℤ ℤ →
    Stateful (ParallelBlockBuilder C) (OrderedDict ℤ ℤ)
  | _, [], distribution => pure distribution
  | i, tx :: pending, distribution => do
    let zone ← reads (zoneAt i)
    let zoneId ← ofExcept zone
    let coordinator ← reads fun s => s.coordinators.get? zoneId
    match coordinator with
    | none => distributeLoop (i + 1) pending distribution
    | some c =>
      let success ← hand c tx
      if success then
        distributeLoop (i + 1) pending (distribution.set zoneId (distribution.getD zoneId 0 + 1))
      else distributeLoop (i + 1) pending distribution

def distributeTransactions : Stateful (ParallelBlockBuilder C) (OrderedDict ℤ ℤ) := do
  let pending ← reads fun s => s.pendingQueue
  modify fun s => { s with pendingQueue := [] }
  let distribution ← reads fun s => s.coordinators.map fun _ => 0
  distributeLoop 0 pending distribution

end

/-- In the pool of a coordinator, or refused by one. -/
def Settled (s : ParallelBlockBuilder C) (tx : Transaction) : Prop :=
  (∃ zone c, s.coordinators.get? zone = some c ∧ (s.objects c).zoneMempool.Holds tx) ∨
    tx ∈ s.rejected

/-- The zone of a position has a coordinator. -/
def Coordinated (s : ParallelBlockBuilder C) (i : ℕ) : Prop :=
  s.coordinators.contains ((i : ℤ).fmod s.numZones) = true

/-- A transaction is at a position that has a coordinator, and no transaction up to there that has
one makes the loop raise. -/
def Handed (coordinated : ℕ → Prop) (pending : List Transaction) (tx : Transaction) : Prop :=
  ∃ i, pending[i]? = some tx ∧ coordinated i ∧
    ∀ j ≤ i, coordinated j → ∀ tx', pending[j]? = some tx' → tx'.Packable

theorem handed_cons {coordinated : ℕ → Prop} {tx tx' : Transaction} {pending : List Transaction} :
    Handed coordinated (tx :: pending) tx' ↔
      (coordinated 0 → tx.Packable) ∧
        (coordinated 0 ∧ tx' = tx ∨ Handed (fun i => coordinated (i + 1)) pending tx') := by
  constructor
  · rintro ⟨i, hi, hcoordinated, hall⟩
    refine ⟨fun h0 => hall 0 (Nat.zero_le i) h0 tx rfl, ?_⟩
    cases i with
    | zero => exact Or.inl ⟨hcoordinated, (Option.some.inj hi).symm⟩
    | succ i =>
      refine Or.inr ⟨i, hi, hcoordinated, fun j hj hj' tx'' htx => ?_⟩
      exact hall (j + 1) (by omega) hj' tx'' htx
  · rintro ⟨hfirst, ⟨hcoordinated, rfl⟩ | ⟨i, hi, hcoordinated, hall⟩⟩
    · refine ⟨0, rfl, hcoordinated, fun j hj hj' tx'' htx => ?_⟩
      obtain rfl := Nat.le_zero.mp hj
      obtain rfl := Option.some.inj htx
      exact hfirst hj'
    · refine ⟨i + 1, hi, hcoordinated, fun j hj hj' tx'' htx => ?_⟩
      cases j with
      | zero =>
        obtain rfl := Option.some.inj htx
        exact hfirst hj'
      | succ j => exact hall j (by omega) hj' tx'' htx

/-- Only pools and refusals differ. -/
structure SameQueue (s s' : ParallelBlockBuilder C) : Prop where
  numZones : s'.numZones = s.numZones
  coordinators : s'.coordinators = s.coordinators
  pendingQueue : s'.pendingQueue = s.pendingQueue
  submitted : s'.submitted = s.submitted

theorem SameQueue.refl (s : ParallelBlockBuilder C) : SameQueue s s := ⟨rfl, rfl, rfl, rfl⟩

theorem SameQueue.trans {s t u : ParallelBlockBuilder C} (h : SameQueue s t) (h' : SameQueue t u) :
    SameQueue s u :=
  ⟨h'.numZones.trans h.numZones, h'.coordinators.trans h.coordinators,
    h'.pendingQueue.trans h.pendingQueue, h'.submitted.trans h.submitted⟩

theorem SameQueue.coordinated {s s' : ParallelBlockBuilder C} (h : SameQueue s s') (i : ℕ) :
    s'.Coordinated i ↔ s.Coordinated i := by
  rw [Coordinated, Coordinated, h.coordinators, h.numZones]

variable [DecidableEq C]

/-- A transaction that enters the pool of a registered coordinator is settled. -/
theorem settled_update {s : ParallelBlockBuilder C} {zone : ℤ} {c : C} {m : Mempool}
    {tx : Transaction} (hc : s.coordinators.get? zone = some c)
    (hholds : ∀ tx', m.Holds tx' ↔ (s.objects c).zoneMempool.Holds tx' ∨ tx' = tx)
    (tx' : Transaction) :
    Settled { s with
      objects := Function.update s.objects c { s.objects c with zoneMempool := m } } tx' ↔
        s.Settled tx' ∨ tx' = tx := by
  have hpool : ∀ c', (Function.update s.objects c { s.objects c with zoneMempool := m }
      c').zoneMempool.Holds tx' ↔ (s.objects c').zoneMempool.Holds tx' ∨ c' = c ∧ tx' = tx := by
    intro c'
    by_cases hsame : c' = c
    · subst hsame
      rw [Function.update_self, hholds]
      simp
    · rw [Function.update_of_ne hsame]
      simp [hsame]
  simp only [Settled, hpool]
  constructor
  · rintro (⟨zone', c', hc', hin | ⟨-, rfl⟩⟩ | hrejected)
    · exact Or.inl (Or.inl ⟨zone', c', hc', hin⟩)
    · exact Or.inr rfl
    · exact Or.inl (Or.inr hrejected)
  · rintro ((⟨zone', c', hc', hin⟩ | hrejected) | rfl)
    · exact Or.inl ⟨zone', c', hc', Or.inl hin⟩
    · exact Or.inr hrejected
    · exact Or.inl ⟨zone, c, hc, Or.inr ⟨rfl, rfl⟩⟩

/-- What is handed to a coordinator is then settled, unless its hash raises. -/
theorem hand_cases {s : ParallelBlockBuilder C} {zone : ℤ} {c : C}
    (hc : s.coordinators.get? zone = some c) (tx : Transaction) :
    (¬ tx.Packable ∧ ∃ e, hand c tx s = (.error e, s)) ∨
    (tx.Packable ∧ ∃ success s', hand c tx s = (.ok success, s') ∧ SameQueue s s' ∧
      ∀ tx', s'.Settled tx' ↔ s.Settled tx' ∨ tx' = tx) := by
  have hcall : ∀ r b, BlockCoordinator.broadcastTransaction tx (s.objects c) = (r, b) →
      onObject c (BlockCoordinator.broadcastTransaction tx) s =
        (r, { s with objects := Function.update s.objects c b }) := by
    intro r b h
    rw [onObject, on, h]
  have hsame : { s with objects := Function.update s.objects c (s.objects c) } = s := by
    rw [Function.update_eq_self]
  rcases Mempool.addTransaction_outcome tx (s.objects c).zoneMempool with
    ⟨hpackable, e, hadd⟩ | ⟨hpackable, reason, hadd⟩ | ⟨hpackable, reason, m', hadd, hholds⟩
  · left
    have hobject := hcall (.error e) (s.objects c) (by
      rw [BlockCoordinator.broadcastTransaction, hadd])
    rw [hsame] at hobject
    exact ⟨hpackable, e, by rw [hand, bind_of_error (congrArg Prod.fst hobject), hobject]⟩
  · right
    have hobject := hcall (.ok false) (s.objects c) (by
      rw [BlockCoordinator.broadcastTransaction, hadd])
    rw [hsame] at hobject
    refine ⟨hpackable, false, { s with rejected := s.rejected ++ [tx] }, ?_, ⟨rfl, rfl, rfl, rfl⟩, ?_⟩
    · rw [hand, bind_of_ok (congrArg Prod.fst hobject), hobject]
      rfl
    · intro tx'
      rw [Settled, Settled, List.mem_append, List.mem_singleton, or_assoc]
  · right
    let s' : ParallelBlockBuilder C :=
      { s with objects := Function.update s.objects c { s.objects c with zoneMempool := m' } }
    have hobject : onObject c (BlockCoordinator.broadcastTransaction tx) s = (.ok true, s') :=
      hcall (.ok true) _ (by rw [BlockCoordinator.broadcastTransaction, hadd])
    refine ⟨hpackable, true, s', ?_, ⟨rfl, rfl, rfl, rfl⟩, settled_update hc hholds⟩
    rw [hand, bind_of_ok (congrArg Prod.fst hobject), hobject]
    rfl

/-- At one position the loop goes on without a coordinator, is broken off by the hash, or goes on
with the transaction settled. -/
theorem distributeLoop_cons_cases {s : ParallelBlockBuilder C} (hzones : s.numZones ≠ 0) (i : ℕ)
    (tx : Transaction) (pending : List Transaction) (distribution : OrderedDict ℤ ℤ) :
    (¬ s.Coordinated i ∧
      distributeLoop i (tx :: pending) distribution s =
        distributeLoop (i + 1) pending distribution s) ∨
    (s.Coordinated i ∧ ¬ tx.Packable ∧
      ∃ e, distributeLoop i (tx :: pending) distribution s = (.error e, s)) ∨
    (s.Coordinated i ∧ tx.Packable ∧
      ∃ distribution' s', distributeLoop i (tx :: pending) distribution s =
        distributeLoop (i + 1) pending distribution' s' ∧ SameQueue s s' ∧
        ∀ tx', s'.Settled tx' ↔ s.Settled tx' ∨ tx' = tx) := by
  have hzone : zoneAt i s = .ok ((i : ℤ).fmod s.numZones) := by rw [zoneAt, if_neg hzones]
  rw [distributeLoop, reads_bind, hzone, ofExcept_ok_bind, reads_bind]
  cases hc : s.coordinators.get? ((i : ℤ).fmod s.numZones) with
  | none => exact Or.inl ⟨by simp [Coordinated, OrderedDict.contains, hc], rfl⟩
  | some c =>
    have hreached : s.Coordinated i := by simp [Coordinated, OrderedDict.contains, hc]
    right
    rcases hand_cases hc tx with ⟨hraises, e, hhand⟩ | ⟨hpackable, success, s', hhand, hsame, hs'⟩
    · exact Or.inl ⟨hreached, hraises, e, by
        simp only [bind_of_error (congrArg Prod.fst hhand), hhand]⟩
    · simp only [bind_of_ok (congrArg Prod.fst hhand), hhand]
      refine Or.inr ⟨hreached, hpackable, ?_⟩
      split_ifs
      · exact ⟨_, s', rfl, hsame, hs'⟩
      · exact ⟨_, s', rfl, hsame, hs'⟩

theorem distributeLoop_settles {s : ParallelBlockBuilder C} (hzones : s.numZones ≠ 0) (i : ℕ)
    (pending : List Transaction) (distribution : OrderedDict ℤ ℤ) :
    SameQueue s (distributeLoop i pending distribution s).2 ∧
      ∀ tx, (distributeLoop i pending distribution s).2.Settled tx ↔
        s.Settled tx ∨ Handed (fun k => s.Coordinated (i + k)) pending tx := by
  induction pending generalizing i distribution s with
  | nil =>
    refine ⟨SameQueue.refl s, fun tx => ?_⟩
    have hnone : ¬ Handed (fun k => s.Coordinated (i + k)) [] tx := by
      rintro ⟨k, hk, -⟩
      cases hk
    rw [or_iff_left hnone]
    rfl
  | cons tx pending ih =>
    have hshift : (fun k => s.Coordinated (i + (k + 1))) = fun k => s.Coordinated (i + 1 + k) := by
      funext k
      rw [Nat.add_assoc, Nat.add_comm 1 k]
    have hcons : ∀ tx', Handed (fun k => s.Coordinated (i + k)) (tx :: pending) tx' ↔
        (s.Coordinated i → tx.Packable) ∧ (s.Coordinated i ∧ tx' = tx ∨
          Handed (fun k => s.Coordinated (i + 1 + k)) pending tx') := by
      intro tx'
      rw [handed_cons, hshift, Nat.add_zero]
    simp only [hcons]
    rcases distributeLoop_cons_cases hzones i tx pending distribution with
      ⟨hskipped, hloop⟩ | ⟨hreached, hraises, e, hloop⟩ |
        ⟨hreached, hpackable, distribution', s', hloop, hsame, hs'⟩
    · obtain ⟨hsame, hsettled⟩ := ih hzones (i + 1) distribution
      rw [hloop]
      refine ⟨hsame, fun tx' => (hsettled tx').trans ?_⟩
      simp [hskipped]
    · rw [hloop]
      refine ⟨SameQueue.refl s, fun tx' => ?_⟩
      simp [hreached, hraises]
    · obtain ⟨hsame', hsettled⟩ := ih (by rwa [hsame.numZones]) (i + 1) distribution'
      rw [hloop]
      refine ⟨hsame.trans hsame', fun tx' => ?_⟩
      simp only [hsettled, hs', hsame.coordinated, hreached, hpackable, true_and, implies_true,
        or_assoc]

theorem distributeTransactions_settles {s : ParallelBlockBuilder C} (hzones : s.numZones ≠ 0) :
    SameQueue { s with pendingQueue := [] } (distributeTransactions s).2 ∧
      ∀ tx, (distributeTransactions s).2.Settled tx ↔
        s.Settled tx ∨ Handed s.Coordinated s.pendingQueue tx := by
  let emptied : ParallelBlockBuilder C := { s with pendingQueue := [] }
  have hloop := @distributeLoop_settles C _ emptied hzones 0 s.pendingQueue
    (s.coordinators.map fun _ => 0)
  simp only [Nat.zero_add] at hloop
  exact hloop

inductive Command where
  | submit (tx : Transaction)
  | distribute

def Command.act : Command → ParallelBlockBuilder C → ParallelBlockBuilder C
  | .submit tx, s => (submitTransaction tx s).2
  | .distribute, s => (distributeTransactions s).2

/-- A builder as it is constructed, with its coordinators registered one after the other. -/
def registered (registrations : List (ℤ × C)) (s : ParallelBlockBuilder C) :
    ParallelBlockBuilder C :=
  registrations.foldl (fun s r => s.addCoordinator r.1 r.2) s

/-- Whatever was submitted is pending or settled. -/
def NoneLost (s : ParallelBlockBuilder C) : Prop :=
  ∀ tx ∈ s.submitted, tx ∈ s.pendingQueue ∨ s.Settled tx

/-- A distribution hands out all that is pending and not settled before. -/
def Command.HandsOut : Command → ParallelBlockBuilder C → Prop
  | .submit _, _ => True
  | .distribute, s => ∀ tx ∈ s.pendingQueue, Handed s.Coordinated s.pendingQueue tx ∨ s.Settled tx

/-- There are zones, and what is pending was submitted. -/
structure Built (s : ParallelBlockBuilder C) : Prop where
  numZones : s.numZones ≠ 0
  submitted : ∀ tx ∈ s.pendingQueue, tx ∈ s.submitted

theorem Built.act {s : ParallelBlockBuilder C} (h : s.Built) (c : Command) : (c.act s).Built := by
  cases c with
  | submit tx =>
    refine ⟨h.numZones, fun tx' htx => ?_⟩
    rcases List.mem_append.mp htx with hold | hnew
    · exact List.mem_append_left _ (h.submitted tx' hold)
    · exact List.mem_append_right _ hnew
  | distribute =>
    obtain ⟨hsame, -⟩ := distributeTransactions_settles h.numZones
    refine ⟨by rw [Command.act, hsame.numZones]; exact h.numZones, fun tx htx => ?_⟩
    rw [Command.act, hsame.pendingQueue] at htx
    cases htx

/-- A command loses nothing exactly when it hands out all that is pending. -/
theorem noneLost_act_iff {s : ParallelBlockBuilder C} (h : s.Built) (hnone : s.NoneLost)
    (c : Command) : (c.act s).NoneLost ↔ c.HandsOut s := by
  cases c with
  | submit tx =>
    refine iff_of_true (fun tx' htx => ?_) trivial
    rcases List.mem_append.mp htx with hold | hnew
    · exact (hnone tx' hold).imp_left fun hpending => List.mem_append_left _ hpending
    · exact Or.inl (List.mem_append_right _ hnew)
  | distribute =>
    obtain ⟨hsame, hsettled⟩ := distributeTransactions_settles h.numZones
    have hempty : ((Command.distribute).act s).pendingQueue = [] := hsame.pendingQueue
    have hsubmitted : ((Command.distribute).act s).submitted = s.submitted := hsame.submitted
    have hafter : ∀ tx, ((Command.distribute).act s).Settled tx ↔
        s.Settled tx ∨ Handed s.Coordinated s.pendingQueue tx := hsettled
    simp only [NoneLost, hempty, hsubmitted, hafter, List.not_mem_nil, false_or]
    constructor
    · intro hall tx htx
      exact (hall tx (h.submitted tx htx)).symm
    · intro hhands tx htx
      rcases hnone tx htx with hpending | hbefore
      · exact (hhands tx hpending).symm
      · exact Or.inl hbefore

omit [DecidableEq C] in
theorem registered_eq (registrations : List (ℤ × C)) (s : ParallelBlockBuilder C) :
    ∃ coordinators, registered registrations s = { s with coordinators := coordinators } := by
  induction registrations generalizing s with
  | nil => exact ⟨s.coordinators, rfl⟩
  | cons r registrations ih =>
    obtain ⟨coordinators, h⟩ := ih (s.addCoordinator r.1 r.2)
    exact ⟨coordinators, h⟩

/-- From construction on, with any coordinators registered, nothing that was submitted is ever lost
exactly when every distribution hands out all that is pending. -/
theorem none_lost_iff {numZones workersPerZone : ℤ} {objects : C → BlockCoordinator}
    {constructed : ParallelBlockBuilder C}
    (h : init numZones workersPerZone objects = .ok constructed) (registrations : List (ℤ × C))
    (cs : List Command) :
    (∀ pre post, cs = pre ++ post →
      (runs Command.act pre (registered registrations constructed)).NoneLost) ↔
    ∀ pre c post, cs = pre ++ c :: post →
      c.HandsOut (runs Command.act pre (registered registrations constructed)) := by
  obtain ⟨coordinators, hregistered⟩ := registered_eq registrations constructed
  rw [init] at h
  split_ifs at h with hworkers
  obtain rfl := Except.ok.inj h
  rw [hregistered]
  refine throughout_iff Command.act (J := Built) (fun c s hs => hs.act c)
    (fun c s hs hnone => noneLost_act_iff hs hnone c) ⟨?_, ?_⟩ ?_ cs
  · rintro hzero
    exact hworkers (by rw [show numZones = 0 from hzero, zero_mul])
  · intro tx htx
    cases htx
  · intro tx htx
    cases htx

/-- Two transactions are submitted and dealt out. -/
def twoSubmitted : List Command :=
  [.submit (Ledger.funding [] 0), .submit (Ledger.funding [] 1), .distribute]

def twoZones (registrations : List (ℤ × Unit)) : ParallelBlockBuilder Unit :=
  registered registrations
    { numZones := 2, workersPerZone := 4, objects := fun _ => { zoneId := 0, validators := ∅ } }

theorem packable_twoSubmitted :
    (Ledger.funding [] 0).Packable ∧ (Ledger.funding [] 1).Packable :=
  ⟨Ledger.packable_funding [] (by decide) (by decide),
    Ledger.packable_funding [] (by decide) (by decide)⟩

theorem none_lost_twoZones :
    (runs Command.act twoSubmitted (twoZones [(0, ()), (1, ())])).NoneLost := by
  obtain ⟨hfirst, hsecond⟩ := packable_twoSubmitted
  have hinit : init 2 4 (fun _ : Unit => { zoneId := 0, validators := ∅ }) =
      .ok { numZones := 2, workersPerZone := 4, objects := fun _ =>
        { zoneId := 0, validators := ∅ } } := rfl
  refine (none_lost_iff hinit [(0, ()), (1, ())] twoSubmitted).mpr ?_ twoSubmitted []
    (List.append_nil _).symm
  intro pre c post hcs
  cases c with
  | submit tx => trivial
  | distribute =>
    obtain rfl : pre = [.submit (Ledger.funding [] 0), .submit (Ledger.funding [] 1)] := by
      rcases pre with _ | ⟨c₁, _ | ⟨c₂, _ | ⟨c₃, pre⟩⟩⟩ <;> simp_all [twoSubmitted]
    intro tx htx
    left
    have hall : ∀ (j : ℕ) (tx' : Transaction), [Ledger.funding [] 0, Ledger.funding [] 1][j]? = some tx' →
        tx'.Packable := by
      intro j tx' hj
      rcases List.mem_pair.mp (List.mem_of_getElem? hj) with rfl | rfl
      · exact hfirst
      · exact hsecond
    rcases List.mem_pair.mp htx with rfl | rfl
    · exact ⟨0, rfl, rfl, fun j _ _ tx' hj => hall j tx' hj⟩
    · exact ⟨1, rfl, rfl, fun j _ _ tx' hj => hall j tx' hj⟩

/-- With a coordinator for the first zone only the second transaction is gone. -/
theorem uncoordinated_zone_loses :
    ¬ (runs Command.act twoSubmitted (twoZones [(0, ())])).NoneLost := by
  let s := runs Command.act [.submit (Ledger.funding [] 0), .submit (Ledger.funding [] 1)]
    (twoZones [(0, ())])
  have hbuilt : s.Built := ⟨by decide, fun tx htx => htx⟩
  have hnone : s.NoneLost := fun tx htx => Or.inl htx
  change ¬ (Command.distribute.act s).NoneLost
  rw [noneLost_act_iff hbuilt hnone]
  intro hhands
  rcases hhands (Ledger.funding [] 1) (List.mem_pair.mpr (Or.inr rfl)) with
    ⟨i, hi, hcoordinated, -⟩ | ⟨zone, c, -, h, hin⟩ | hrejected
  · match i, hi, hcoordinated with
    | 0, hi, _ => exact absurd (Option.some.inj hi) (by decide)
    | 1, _, hcoordinated => cases hcoordinated
    | i + 2, hi, _ => cases hi
  · cases hin
  · cases hrejected

end ParallelBlockBuilder

end Qrtb
