import Qrtb.Blocks.ParallelBuilder
import Qrtb.Lib.OrderedPairs
import Qrtb.Lib.Threads

/-!
# Production in parallel (`produce_blocks_parallel` in `src/block_producer.py`)

Every zone builds its block in a thread of the pool. The threads interleave step by step and
are collected in the order in which they finish. With a coordinator of its own for every zone
each block is the one that the coordinator builds alone, and a transaction gets into the
blocks of no more zones than it was submitted times.
-/

namespace Qrtb

open Stateful Transition

/-- Where a call of `produce_block` stands. -/
inductive Stage (F : Type) where
  | selecting
  | creating (proposerId : Bytes)
  | filling (proposerId : Bytes) (template : BlockTemplate) (candidates : List Transaction)
  | building (proposerId : Bytes) (template : BlockTemplate)
  | done (result : Except PyError (Option (ConsensusProposal F)))

def Stage.proposal {F : Type} : Stage F → Option (ConsensusProposal F)
  | .done (.ok proposal) => proposal
  | _ => none

/-- The arguments of `produce_block`, and what it reads of the clock and of the random source. -/
structure Job (F : Type) where
  epoch : ℤ
  entropy : Bytes
  measurements : OrderedDict Bytes Bytes
  coinbaseTime : F
  time : F
  nonce : Bytes

namespace Job

variable {F : Type} [PyFloat F] (j : Job F)

def call (b : BlockCoordinator) : Except PyError (Option (ConsensusProposal F)) × BlockCoordinator :=
  b.produceBlock j.epoch j.entropy j.measurements j.coinbaseTime j.time j.nonce

/-- One candidate of `fill_template`. -/
def fill (proposerId : Bytes) (t : BlockTemplate) (tx : Transaction) (txs : List Transaction)
    (b : BlockCoordinator) : Stage F × BlockCoordinator :=
  match b.zoneLedger.validateTransaction tx t.epoch with
  | .ok () =>
    match t.addTransaction tx with
    | (true, t') => (.filling proposerId t' txs, b)
    | (false, t') => (.building proposerId t', b)
  | .error (.raised e) => (.done (.error e), b)
  | .error (.reject _) =>
    match tx.txHash with
    | .error e => (.done (.error e), b)
    | .ok txHash =>
      (.filling proposerId t txs,
        { b with zoneMempool := (b.zoneMempool.removeTransaction txHash).2 })

/-- What `build_block` returns for the template. -/
def built (proposerId : Bytes) (t : BlockTemplate) (b : BlockCoordinator) :
    Except PyError (Option (ConsensusProposal F)) := do
  let measurementRoot := j.measurements.getD proposerId (List.replicate 32 0)
  let rewardAddress ← b.rewardAddress proposerId
  let proposal ← (b.producer proposerId).buildBlock t measurementRoot rewardAddress j.coinbaseTime
    j.time j.nonce
  return some proposal

/-- The call in steps. The candidates are read once, before the first of them is looked at. -/
def next : Stage F × BlockCoordinator → Stage F × BlockCoordinator
  | (.selecting, b) =>
    match b.selectProposer j.epoch j.entropy with
    | (.error e, b) => (.done (.error e), b)
    | (.ok proposerId, b) =>
      if proposerId.isEmpty then (.done (.ok none), b) else (.creating proposerId, b)
  | (.creating proposerId, b) =>
    (.filling proposerId ((b.producer proposerId).createTemplate j.epoch)
      (b.zoneMempool.getTransactionsForBlock MAX_BLOCK_SIZE), b)
  | (.filling proposerId t [], b) => (.building proposerId t, b)
  | (.filling proposerId t (tx :: txs), b) => fill proposerId t tx txs b
  | (.building proposerId t, b) => (.done (j.built proposerId t b), b)
  | (.done result, b) => (.done result, b)

/-- Where the loop of `fill_template` leads. -/
def filled (proposerId : Bytes) (b : BlockCoordinator) :
    Except PyError ℕ × BlockTemplate × Mempool → Stage F × BlockCoordinator
  | (.error e, _, m) => (.done (.error e), { b with zoneMempool := m })
  | (.ok _, t, m) => (.building proposerId t, { b with zoneMempool := m })

theorem fill_run (proposerId : Bytes) (b : BlockCoordinator) (txs : List Transaction) (added : ℕ)
    (t : BlockTemplate) (m : Mempool) :
    ∃ n, j.next^[n] (.filling proposerId t txs, { b with zoneMempool := m }) =
      filled proposerId b (BlockProducer.fillLoop b.zoneLedger txs added t m) := by
  induction txs generalizing added t m with
  | nil => exact ⟨1, rfl⟩
  | cons tx txs ih =>
    have hnext : j.next (.filling proposerId t (tx :: txs), { b with zoneMempool := m }) =
        fill proposerId t tx txs { b with zoneMempool := m } := rfl
    rw [BlockProducer.fillLoop]
    rw [fill] at hnext
    split
    next hok =>
      rw [hok] at hnext
      dsimp only at hnext
      split
      next t' hadd =>
        obtain ⟨n, hn⟩ := ih (added + 1) t' m
        rw [hadd] at hnext
        exact ⟨n + 1, by rw [Function.iterate_succ_apply, hnext, hn]⟩
      next t' hadd =>
        rw [hadd] at hnext
        exact ⟨1, hnext⟩
    next e hraised =>
      rw [hraised] at hnext
      exact ⟨1, hnext⟩
    next reason hreject =>
      rw [hreject] at hnext
      dsimp only at hnext
      split
      next e hhash =>
        rw [hhash] at hnext
        exact ⟨1, hnext⟩
      next txHash hhash =>
        obtain ⟨n, hn⟩ := ih added t (m.removeTransaction txHash).2
        rw [hhash] at hnext
        exact ⟨n + 1, by rw [Function.iterate_succ_apply, hnext, hn]⟩

/-- The loop for the producer of a proposer, over the candidates that its pool gives. -/
def loop (proposerId : Bytes) (b : BlockCoordinator) : Except PyError ℕ × BlockTemplate × Mempool :=
  BlockProducer.fillLoop b.zoneLedger (b.zoneMempool.getTransactionsForBlock MAX_BLOCK_SIZE) 0
    ((b.producer proposerId).createTemplate j.epoch) b.zoneMempool

omit [PyFloat F] in
theorem fillTemplate_eq (proposerId : Bytes) (b : BlockCoordinator) :
    (b.producer proposerId).fillTemplate ((b.producer proposerId).createTemplate j.epoch) =
      ((j.loop proposerId b).1, (j.loop proposerId b).2.1,
        { b.producer proposerId with mempool := (j.loop proposerId b).2.2 }) :=
  rfl

/-- After the choice of the proposer the call ends without a block, in the loop or with what
`build_block` returns. -/
theorem call_eq {b b' : BlockCoordinator} {proposerId : Bytes}
    (hselect : b.selectProposer j.epoch j.entropy = (.ok proposerId, b')) :
    j.call b =
      if proposerId.isEmpty then (.ok none, b')
      else
        match j.loop proposerId b' with
        | (.error e, _, m) => (.error e, { b' with zoneMempool := m })
        | (.ok _, t, m) => (j.built proposerId t b', { b' with zoneMempool := m }) := by
  rw [call, BlockCoordinator.produceBlock, hselect]
  dsimp only
  rw [fillTemplate_eq]
  obtain ⟨_ | added, t, m⟩ := j.loop proposerId b' <;> rfl

theorem call_of_error {b b' : BlockCoordinator} {e : PyError}
    (hselect : b.selectProposer j.epoch j.entropy = (.error e, b')) : j.call b = (.error e, b') := by
  rw [call, BlockCoordinator.produceBlock, hselect]

theorem call_of_accepted {b b' : BlockCoordinator} {proposerId : Bytes} {txs : List Transaction}
    (hselect : b.selectProposer j.epoch j.entropy = (.ok proposerId, b')) (hid : proposerId ≠ [])
    (hcand : b'.zoneMempool.getTransactionsForBlock MAX_BLOCK_SIZE = txs)
    (haccepts : ∀ tx ∈ txs, b'.zoneLedger.Accepts tx j.epoch)
    (hcount : txs.length ≤ MAX_TXS_PER_BLOCK) :
    ∃ t : BlockTemplate, t.transactions = txs ∧ t.totalFees = (txs.map Transaction.fee).sum ∧
      t.epoch = j.epoch ∧ (j.call b).1 = j.built proposerId t b' := by
  subst hcand
  have hfill := (b'.producer proposerId).fillTemplate_accepted _ haccepts hcount
  rw [fillTemplate_eq] at hfill
  rw [j.call_eq hselect, if_neg (by simpa using hid)]
  rcases hloop : j.loop proposerId b' with ⟨e | added, t, m⟩
  · rw [hloop] at hfill
    cases hfill
  · rw [hloop] at hfill
    obtain rfl : t = _ := (Prod.mk.inj (Prod.mk.inj hfill).2).1
    exact ⟨_, rfl, rfl, rfl, rfl⟩

theorem call_run (b : BlockCoordinator) :
    ∃ n, j.next^[n] (.selecting, b) = (.done (j.call b).1, (j.call b).2) := by
  have hnext : j.next (.selecting, b) =
      match b.selectProposer j.epoch j.entropy with
      | (.error e, b) => (.done (.error e), b)
      | (.ok proposerId, b) =>
        if proposerId.isEmpty then (.done (.ok none), b) else (.creating proposerId, b) := rfl
  rcases hselect : b.selectProposer j.epoch j.entropy with ⟨e | proposerId, b'⟩
  · rw [hselect] at hnext
    rw [j.call_of_error hselect]
    exact ⟨1, hnext⟩
  · rw [hselect] at hnext
    dsimp only at hnext
    rw [j.call_eq hselect]
    split_ifs at hnext ⊢ with hempty
    · exact ⟨1, hnext⟩
    · obtain ⟨n, hn⟩ := j.fill_run proposerId b' (b'.zoneMempool.getTransactionsForBlock
        MAX_BLOCK_SIZE) 0 ((b'.producer proposerId).createTemplate j.epoch) b'.zoneMempool
      have hfill : j.next^[n + 2] (.selecting, b) = filled proposerId b' (j.loop proposerId b') := by
        rw [Function.iterate_add_apply, Function.iterate_succ_apply, Function.iterate_one, hnext]
        exact hn
      rcases hloop : j.loop proposerId b' with ⟨e | added, t, m⟩
      · rw [hloop] at hfill
        exact ⟨n + 2, hfill⟩
      · rw [hloop] at hfill
        refine ⟨n + 3, ?_⟩
        rw [Function.iterate_succ_apply', hfill]
        rfl

end Job

/-- The transactions of a proposal that came out of a pool: all behind the own coinbase. -/
def ConsensusProposal.carried {F : Type} (q : ConsensusProposal F) : List Transaction :=
  match q.body with
  | some body => body.transactions.tail
  | none => []

theorem Mempool.holds_of_addTransaction {m : Mempool} {tx tx' : Transaction}
    (h : (m.addTransaction tx).2.Holds tx') : m.Holds tx' ∨ tx' = tx := by
  rcases m.addTransaction_outcome tx with
    ⟨-, e, hadd⟩ | ⟨-, reason, hadd⟩ | ⟨-, reason, m', hadd, hholds⟩
  · rw [hadd] at h
    exact Or.inl h
  · rw [hadd] at h
    exact Or.inl h
  · rw [hadd] at h
    exact (hholds tx').mp h

theorem Mempool.holds_of_removeTransaction {m : Mempool} {txHash : Bytes} {tx : Transaction}
    (h : (m.removeTransaction txHash).2.Holds tx) : m.Holds tx := by
  rw [removeTransaction] at h
  split at h
  · exact h
  · obtain ⟨k, hk⟩ := h
    exact ⟨k, (OrderedDict.get?_erase_eq_some.mp hk).2⟩

theorem Mempool.holds_of_mem_candidates {m : Mempool} {maxSize : ℕ} {tx : Transaction}
    (h : tx ∈ m.getTransactionsForBlock maxSize) : m.Holds tx := by
  have hmem := (m.selectForBlock_sublist maxSize 0 m.priority).subset h
  obtain ⟨entry, -, hentry⟩ := List.mem_filterMap.mp hmem
  exact ⟨entry.txHash, hentry⟩

theorem BlockProducer.holds_of_fillLoop {L : Ledger} {txs : List Transaction} {added : ℕ}
    {t : BlockTemplate} {m : Mempool} {tx : Transaction}
    (h : (fillLoop L txs added t m).2.2.Holds tx) : m.Holds tx := by
  induction txs generalizing added t m with
  | nil => exact h
  | cons tx' txs ih =>
    rw [fillLoop] at h
    split at h
    · split at h
      · exact ih h
      · exact h
    · exact h
    · split at h
      · exact h
      · exact Mempool.holds_of_removeTransaction (ih h)

theorem BlockCoordinator.selectProposer_pool {b b' : BlockCoordinator} {epoch : ℤ} {entropy : Bytes}
    {r : Except PyError Bytes} (h : b.selectProposer epoch entropy = (r, b')) :
    b'.zoneMempool = b.zoneMempool := by
  rw [selectProposer] at h
  split_ifs at h
  · rw [← (Prod.mk.inj h).2]
  · split at h
    · rw [← (Prod.mk.inj h).2]
    · split at h
      · rw [← (Prod.mk.inj h).2]
      · rw [← (Prod.mk.inj h).2]

namespace Job

variable {F : Type} [PyFloat F] {j : Job F} {b : BlockCoordinator}

theorem holds_of_call {tx : Transaction} (h : (j.call b).2.zoneMempool.Holds tx) :
    b.zoneMempool.Holds tx := by
  rcases hselect : b.selectProposer j.epoch j.entropy with ⟨e | proposerId, b'⟩
  · rw [j.call_of_error hselect, BlockCoordinator.selectProposer_pool hselect] at h
    exact h
  · rw [← BlockCoordinator.selectProposer_pool hselect]
    rw [j.call_eq hselect] at h
    split_ifs at h
    · exact h
    · have hloop : (j.loop proposerId b').2.2.Holds tx := by
        rcases hr : j.loop proposerId b' with ⟨e | added, t, m⟩
        · rw [hr] at h
          exact h
        · rw [hr] at h
          exact h
      exact BlockProducer.holds_of_fillLoop hloop

theorem holds_of_carried {q : ConsensusProposal F} (hq : (j.call b).1 = .ok (some q))
    {tx : Transaction} (h : tx ∈ q.carried) : b.zoneMempool.Holds tx := by
  rcases hselect : b.selectProposer j.epoch j.entropy with ⟨e | proposerId, b'⟩
  · rw [j.call_of_error hselect] at hq
    cases hq
  · rw [← BlockCoordinator.selectProposer_pool hselect]
    rw [j.call_eq hselect] at hq
    split_ifs at hq
    · cases hq
    · obtain ⟨hsub, -⟩ := (b'.producer proposerId).fillTemplate_transactions j.epoch
      rw [fillTemplate_eq] at hsub
      rcases hr : j.loop proposerId b' with ⟨e | added, t, m⟩
      · rw [hr] at hq
        cases hq
      · rw [hr] at hq hsub
        simp only [built, Except.bind_eq_ok] at hq
        obtain ⟨address, -, proposal, hbuild, hq⟩ := hq
        obtain rfl := Option.some.inj (Except.ok.inj hq)
        obtain ⟨hashes, -, rfl⟩ := BlockProducer.buildBlock_eq_ok.mp hbuild
        exact Mempool.holds_of_mem_candidates (hsub.subset h)

end Job

/-- The arguments of `produce_blocks_parallel`, and what the thread of a zone reads of the clock
and of the random source. -/
structure Production (F : Type) where
  epoch : ℤ
  entropy : Bytes
  measurements : OrderedDict ℤ (OrderedDict Bytes Bytes)
  coinbaseTime : ℤ → F
  time : ℤ → F
  nonce : ℤ → Bytes

def Production.job {F : Type} (p : Production F) (zoneId : ℤ) : Job F where
  epoch := p.epoch
  entropy := p.entropy
  measurements := p.measurements.getD zoneId ∅
  coinbaseTime := p.coinbaseTime zoneId
  time := p.time zoneId
  nonce := p.nonce zoneId

namespace ParallelBlockBuilder

variable {C : Type} [DecidableEq C] {F : Type} [PyFloat F]

/-- One thread for every zone, on the coordinator that is registered for it. -/
def threads (p : Production F) : Threads.Program (ℤ × C) C (Stage F) BlockCoordinator where
  object := Prod.snd
  next zone := (p.job zone.1).next

def jobs (s : ParallelBlockBuilder C) : Threads.Config (ℤ × C) C (Stage F) BlockCoordinator where
  locals _ := .selecting
  objects := s.objects

/-- A call that returns: the transactions are dealt out, the threads take their steps in the order
of the schedule until all are done, and the blocks are collected in the order of completion. A
thread that raised adds nothing. -/
inductive Produces (p : Production F) (s : ParallelBlockBuilder C) :
    List (ConsensusProposal F) → ParallelBlockBuilder C → Prop
  | mk {s' : ParallelBlockBuilder C} {distribution : OrderedDict ℤ ℤ}
      {schedule completion : List (ℤ × C)}
      (distributed : distributeTransactions s = (.ok distribution, s'))
      (scheduled : ∀ zone ∈ schedule, zone ∈ s'.coordinators.items)
      (finished : ∀ zone ∈ s'.coordinators.items, ∃ result,
        (Threads.run (threads p) schedule (jobs s')).locals zone = .done result)
      (collected : completion.Perm s'.coordinators.items) :
      Produces p s
        (completion.filterMap fun zone =>
          ((Threads.run (threads p) schedule (jobs s')).locals zone).proposal)
        { s' with objects := (Threads.run (threads p) schedule (jobs s')).objects }

/-- Every zone has a coordinator of its own. -/
def OwnCoordinators (s : ParallelBlockBuilder C) : Prop :=
  (s.coordinators.items.map Prod.snd).Nodup

/-- `produce_block` of the coordinator of a zone, with nothing else going on. -/
def alone (p : Production F) (s : ParallelBlockBuilder C) (zone : ℤ × C) :
    Except PyError (Option (ConsensusProposal F)) × BlockCoordinator :=
  (p.job zone.1).call (s.objects zone.2)

section Threads

variable {p : Production F} {s : ParallelBlockBuilder C}

omit [DecidableEq C] in
theorem OwnCoordinators.apart (h : s.OwnCoordinators) {schedule : List (ℤ × C)}
    (hschedule : ∀ zone ∈ schedule, zone ∈ s.coordinators.items) {zone : ℤ × C}
    (hzone : zone ∈ s.coordinators.items) : Threads.Apart (threads p) schedule zone :=
  fun other hother hsame => List.inj_on_of_nodup_map h (hschedule other hother) hzone hsame

omit [DecidableEq C] in
theorem halts_alone (p : Production F) (s : ParallelBlockBuilder C) (zone : ℤ × C) :
    ∃ n, ((threads p).next zone)^[n] (Threads.view (threads p) (jobs s) zone) =
        (.done (alone p s zone).1, (alone p s zone).2) :=
  (p.job zone.1).call_run (s.objects zone.2)

/-- When all threads are done, every zone is where its coordinator gets alone. -/
theorem finished_alone (h : s.OwnCoordinators) {schedule : List (ℤ × C)}
    (hschedule : ∀ zone ∈ schedule, zone ∈ s.coordinators.items) {zone : ℤ × C}
    (hzone : zone ∈ s.coordinators.items) {result}
    (hdone : (Threads.run (threads p) schedule (jobs s)).locals zone = .done result) :
    Threads.view (threads p) (Threads.run (threads p) schedule (jobs s)) zone =
      (.done (alone p s zone).1, (alone p s zone).2) := by
  obtain ⟨n, hn⟩ := halts_alone p s zone
  have hhalted : Threads.Halted (threads p) zone
      (Threads.view (threads p) (Threads.run (threads p) schedule (jobs s)) zone) := by
    rw [Threads.Halted, Threads.view, hdone]
    rfl
  rw [Threads.view_run_of_halted (h.apart hschedule hzone) hhalted (n := n), hn]
  rw [hn]
  rfl

theorem exists_schedule (p : Production F) (h : s.OwnCoordinators) :
    ∃ schedule, (∀ zone ∈ schedule, zone ∈ s.coordinators.items) ∧
      ∀ zone ∈ s.coordinators.items, ∃ result,
        (Threads.run (threads p) schedule (jobs s)).locals zone = .done result := by
  obtain ⟨schedule, hschedule, hgoal⟩ := Threads.exists_schedule
    (fun zone hzone => h.apart (fun _ hother => hother) hzone) (by exact fun _ _ => rfl)
    (fun zone _ => halts_alone p s zone)
  exact ⟨schedule, hschedule, fun zone hzone =>
    ⟨(alone p s zone).1, congrArg Prod.fst (hgoal zone hzone)⟩⟩

/-- A call with coordinators of their own does what its distribution and then every coordinator
alone do. -/
theorem Produces.alone {s' : ParallelBlockBuilder C} {proposals : List (ConsensusProposal F)}
    (h : Produces p s proposals s') (hown : (distributeTransactions s).2.OwnCoordinators) :
    proposals.Perm ((distributeTransactions s).2.coordinators.items.filterMap fun zone =>
      (Stage.done (ParallelBlockBuilder.alone p (distributeTransactions s).2 zone).1).proposal) ∧
    SameQueue (distributeTransactions s).2 s' ∧
    (∀ zone ∈ (distributeTransactions s).2.coordinators.items,
      s'.objects zone.2 = (ParallelBlockBuilder.alone p (distributeTransactions s).2 zone).2) ∧
    ∀ c, (∀ zone ∈ (distributeTransactions s).2.coordinators.items, zone.2 ≠ c) →
      s'.objects c = (distributeTransactions s).2.objects c := by
  cases h with
  | @mk d distribution schedule completion distributed scheduled finished collected =>
    rw [distributed] at hown ⊢
    have hview : ∀ zone ∈ d.coordinators.items,
        Threads.view (threads p) (Threads.run (threads p) schedule (jobs d)) zone =
          (.done (ParallelBlockBuilder.alone p d zone).1,
            (ParallelBlockBuilder.alone p d zone).2) := by
      intro zone hzone
      obtain ⟨result, hresult⟩ := finished zone hzone
      exact finished_alone hown scheduled hzone hresult
    refine ⟨?_, ⟨rfl, rfl, rfl, rfl⟩, fun zone hzone => congrArg Prod.snd (hview zone hzone), ?_⟩
    · refine (collected.filterMap _).trans (List.Perm.of_eq ?_)
      exact List.filterMap_congr fun zone hzone =>
        congrArg (fun v => Stage.proposal v.1) (hview zone hzone)
    · exact fun c hc => Threads.objects_run_of_notMem fun zone hzone => hc zone (scheduled zone hzone)

end Threads

instance (m : Mempool) (tx : Transaction) : Decidable (m.Holds tx) :=
  decidable_of_iff (tx ∈ m.transactions.values) (m.transactions.mem_values_iff tx)

/-- The number of zones with the transaction in the pool of their coordinator. -/
def holders (s : ParallelBlockBuilder C) (tx : Transaction) : ℕ :=
  s.coordinators.items.countP fun zone => (s.objects zone.2).zoneMempool.Holds tx

section Accounting

variable {s s' : ParallelBlockBuilder C}

/-- A transaction that enters the pool of one coordinator enters that of one zone. -/
theorem holders_update_le (hown : s.OwnCoordinators) {c : C} {m : Mempool} {tx : Transaction}
    (hm : ∀ tx', m.Holds tx' → (s.objects c).zoneMempool.Holds tx' ∨ tx' = tx)
    (hcoordinators : s'.coordinators = s.coordinators)
    (hobjects : s'.objects =
      Function.update s.objects c { s.objects c with zoneMempool := m }) (tx' : Transaction) :
    s'.holders tx' ≤ s.holders tx' + [tx].count tx' := by
  have hsplit : s'.holders tx' ≤ s.holders tx' +
      s.coordinators.items.countP fun zone => zone.2 = c ∧ tx' = tx := by
    rw [holders, holders, hcoordinators, hobjects]
    refine OrderedPairs.countP_le_add fun zone _ hheld => ?_
    rw [decide_eq_true_iff] at hheld
    by_cases hc : zone.2 = c
    · subst hc
      rw [Function.update_self] at hheld
      exact (hm tx' hheld).imp (fun hold => decide_eq_true hold)
        fun htx => decide_eq_true ⟨rfl, htx⟩
    · rw [Function.update_of_ne hc] at hheld
      exact Or.inl (decide_eq_true hheld)
  refine hsplit.trans (Nat.add_le_add_left ?_ _)
  by_cases htx : tx' = tx
  · subst htx
    have hcount : (s.coordinators.items.countP fun zone => zone.2 = c ∧ tx' = tx') =
        (s.coordinators.items.map Prod.snd).count c := by
      rw [List.count, List.countP_map]
      exact List.countP_congr fun zone _ => by simp
    rw [hcount, List.count_singleton_self]
    exact List.nodup_iff_count_le_one.mp hown c
  · have hnone : (s.coordinators.items.countP fun zone => zone.2 = c ∧ tx' = tx) = 0 :=
      List.countP_eq_zero.mpr fun zone _ => by simp [htx]
    rw [hnone]
    exact Nat.zero_le _

theorem hand_adds (c : C) (tx : Transaction) (s : ParallelBlockBuilder C) :
    (hand c tx s).1 = (Mempool.addTransaction tx (s.objects c).zoneMempool).1.map Prod.fst ∧
      SameQueue s (hand c tx s).2 ∧
      (hand c tx s).2.objects = Function.update s.objects c { s.objects c with
        zoneMempool := (Mempool.addTransaction tx (s.objects c).zoneMempool).2 } := by
  rcases hadd : Mempool.addTransaction tx (s.objects c).zoneMempool with ⟨e | ⟨success, reason⟩, m⟩
  · have hcall : onObject c (BlockCoordinator.broadcastTransaction tx) s = (.error e, { s with
        objects := Function.update s.objects c { s.objects c with zoneMempool := m } }) := by
      rw [onObject, on, BlockCoordinator.broadcastTransaction, hadd]
    rw [hand, bind_of_error (congrArg Prod.fst hcall), hcall]
    exact ⟨rfl, ⟨rfl, rfl, rfl, rfl⟩, rfl⟩
  · have hcall : onObject c (BlockCoordinator.broadcastTransaction tx) s = (.ok success, { s with
        objects := Function.update s.objects c { s.objects c with zoneMempool := m } }) := by
      rw [onObject, on, BlockCoordinator.broadcastTransaction, hadd]
    rw [hand, bind_of_ok (congrArg Prod.fst hcall), hcall]
    cases success
    · exact ⟨rfl, ⟨rfl, rfl, rfl, rfl⟩, rfl⟩
    · exact ⟨rfl, ⟨rfl, rfl, rfl, rfl⟩, rfl⟩

/-- A transaction whose hash does not raise is handed over, and the loop goes on. -/
theorem distributeTransactions_eq (s : ParallelBlockBuilder C) :
    distributeTransactions s = distributeLoop 0 s.pendingQueue (s.coordinators.map fun _ => 0)
      { s with pendingQueue := [] } := rfl

theorem distributeLoop_hands {i : ℕ} {zoneId : ℤ} {c : C} {tx : Transaction} {success : Bool}
    (hzone : zoneAt i s = .ok zoneId) (hc : s.coordinators.get? zoneId = some c)
    (hhand : (hand c tx s).1 = .ok success) (pending : List Transaction)
    (distribution : OrderedDict ℤ ℤ) :
    ∃ distribution', distributeLoop i (tx :: pending) distribution s =
      distributeLoop (i + 1) pending distribution' (hand c tx s).2 := by
  rw [distributeLoop, reads_bind, hzone, ofExcept_ok_bind, reads_bind, hc]
  dsimp only
  rw [bind_of_ok hhand]
  cases success
  · exact ⟨_, rfl⟩
  · exact ⟨_, rfl⟩

/-- One position of the loop: it raises, is skipped, or hands its transaction over. -/
theorem distributeLoop_cons (i : ℕ) (tx : Transaction) (pending : List Transaction)
    (distribution : OrderedDict ℤ ℤ) (s : ParallelBlockBuilder C) :
    (distributeLoop i (tx :: pending) distribution s).2 = s ∨
    (distributeLoop i (tx :: pending) distribution s =
      distributeLoop (i + 1) pending distribution s) ∨
    ∃ c, (distributeLoop i (tx :: pending) distribution s).2 = (hand c tx s).2 ∨
      ∃ distribution', distributeLoop i (tx :: pending) distribution s =
        distributeLoop (i + 1) pending distribution' (hand c tx s).2 := by
  cases hzone : zoneAt i s with
  | error e =>
    rw [distributeLoop, reads_bind, hzone]
    exact Or.inl rfl
  | ok zoneId =>
    right
    cases hc : s.coordinators.get? zoneId with
    | none =>
      rw [distributeLoop, reads_bind, hzone, ofExcept_ok_bind, reads_bind, hc]
      exact Or.inl rfl
    | some c =>
      refine Or.inr ⟨c, ?_⟩
      cases hhand : (hand c tx s).1 with
      | error e =>
        rw [distributeLoop, reads_bind, hzone, ofExcept_ok_bind, reads_bind, hc]
        dsimp only
        rw [bind_of_error hhand]
        exact Or.inl rfl
      | ok success => exact Or.inr (distributeLoop_hands hzone hc hhand pending distribution)

theorem holders_distributeLoop (hown : s.OwnCoordinators) (i : ℕ) (pending : List Transaction)
    (distribution : OrderedDict ℤ ℤ) :
    SameQueue s (distributeLoop i pending distribution s).2 ∧
      ∀ tx, (distributeLoop i pending distribution s).2.holders tx ≤
        s.holders tx + pending.count tx := by
  induction pending generalizing i distribution s with
  | nil => exact ⟨SameQueue.refl s, fun _ => le_rfl⟩
  | cons tx pending ih =>
    have hcount : ∀ tx', (tx :: pending).count tx' = [tx].count tx' + pending.count tx' :=
      fun tx' => by rw [← List.singleton_append, List.count_append]
    simp only [hcount]
    rcases distributeLoop_cons i tx pending distribution s with
      hstop | hskip | ⟨c, hlast | ⟨distribution', hgo⟩⟩
    · rw [hstop]
      exact ⟨SameQueue.refl s, fun _ => Nat.le_add_right _ _⟩
    · rw [hskip]
      obtain ⟨hsame, hle⟩ := ih hown (i + 1) distribution
      refine ⟨hsame, fun tx' => (hle tx').trans ?_⟩
      omega
    · obtain ⟨-, hsame, hobjects⟩ := hand_adds c tx s
      rw [hlast]
      refine ⟨hsame, fun tx' => ?_⟩
      have hstep := holders_update_le hown (fun _ => Mempool.holds_of_addTransaction)
        hsame.coordinators hobjects tx'
      omega
    · obtain ⟨-, hsame, hobjects⟩ := hand_adds c tx s
      have hown' : (hand c tx s).2.OwnCoordinators := by
        rw [OwnCoordinators, hsame.coordinators]
        exact hown
      obtain ⟨hsame', hle⟩ := ih hown' (i + 1) distribution'
      rw [hgo]
      refine ⟨hsame.trans hsame', fun tx' => ?_⟩
      have hstep := holders_update_le hown (fun _ => Mempool.holds_of_addTransaction)
        hsame.coordinators hobjects tx'
      have hrest := hle tx'
      omega

end Accounting

inductive Event (F : Type) where
  | submit (tx : Transaction)
  | distribute
  | produce (p : Production F) (proposals : List (ConsensusProposal F))

/-- A production whose distribution raises builds no block, and is a distribution. -/
inductive Step : ParallelBlockBuilder C → Event F → ParallelBlockBuilder C → Prop
  | submit (s : ParallelBlockBuilder C) (tx : Transaction) :
      Step s (.submit tx) (submitTransaction tx s).2
  | distribute (s : ParallelBlockBuilder C) : Step s .distribute (distributeTransactions s).2
  | produce {s s' : ParallelBlockBuilder C} {p : Production F}
      {proposals : List (ConsensusProposal F)} (h : Produces p s proposals s') :
      Step s (.produce p proposals) s'

/-- Every transaction is pending or in the pools of zones no more often than it was submitted. -/
structure Accounted (s : ParallelBlockBuilder C) : Prop where
  own : s.OwnCoordinators
  bound : ∀ tx, s.holders tx + s.pendingQueue.count tx ≤ s.submitted.count tx

section Runs

variable {s s' : ParallelBlockBuilder C} {p : Production F}
  {proposals : List (ConsensusProposal F)}

theorem holders_distributeTransactions (hown : s.OwnCoordinators) :
    SameQueue { s with pendingQueue := [] } (distributeTransactions s).2 ∧
      ∀ tx, (distributeTransactions s).2.holders tx ≤ s.holders tx + s.pendingQueue.count tx := by
  let emptied : ParallelBlockBuilder C := { s with pendingQueue := [] }
  have hown' : emptied.OwnCoordinators := hown
  exact holders_distributeLoop hown' 0 s.pendingQueue (s.coordinators.map fun _ => 0)

theorem Accounted.distribute (h : s.Accounted) : (distributeTransactions s).2.Accounted := by
  obtain ⟨hsame, hle⟩ := holders_distributeTransactions h.own
  refine ⟨?_, fun tx => ?_⟩
  · rw [OwnCoordinators, hsame.coordinators]
    exact h.own
  · have hbefore := h.bound tx
    have hafter := hle tx
    rw [hsame.pendingQueue, hsame.submitted, List.count_nil]
    dsimp only
    omega

/-- What the blocks of a call carry was in the pools before, and the pools only lose. -/
theorem Produces.holders (h : Produces p s proposals s')
    (hown : (distributeTransactions s).2.OwnCoordinators) (tx : Transaction) :
    (proposals.countP fun q => tx ∈ q.carried) ≤ (distributeTransactions s).2.holders tx ∧
      s'.holders tx ≤ (distributeTransactions s).2.holders tx := by
  obtain ⟨hproposals, hsame, hobjects, -⟩ := h.alone hown
  constructor
  · rw [hproposals.countP_eq, List.countP_filterMap]
    refine List.countP_mono_left fun zone _ hcarried => ?_
    rcases hcall : (ParallelBlockBuilder.alone p (distributeTransactions s).2 zone).1 with _ | _ | q
    · rw [hcall] at hcarried
      cases hcarried
    · rw [hcall] at hcarried
      cases hcarried
    · rw [hcall] at hcarried
      exact decide_eq_true (Job.holds_of_carried hcall (of_decide_eq_true hcarried))
  · rw [ParallelBlockBuilder.holders, hsame.coordinators]
    refine List.countP_mono_left fun zone hzone hheld => ?_
    rw [decide_eq_true_iff, hobjects zone hzone] at hheld
    exact decide_eq_true (Job.holds_of_call hheld)

theorem Accounted.step {e : Event F} (h : s.Accounted) (hstep : Step s e s') : s'.Accounted := by
  cases hstep with
  | submit tx =>
    refine ⟨h.own, fun tx' => ?_⟩
    have hqueue : (submitTransaction tx s).2.pendingQueue = s.pendingQueue ++ [tx] := rfl
    have hsubmitted : (submitTransaction tx s).2.submitted = s.submitted ++ [tx] := rfl
    have hheld : (submitTransaction tx s).2.holders tx' = s.holders tx' := rfl
    rw [hqueue, hsubmitted, hheld, List.count_append, List.count_append]
    have hbefore := h.bound tx'
    omega
  | distribute => exact h.distribute
  | produce hproduces =>
    have hdistributed := h.distribute
    obtain ⟨-, hsame, -⟩ := hproduces.alone hdistributed.own
    refine ⟨?_, fun tx => ?_⟩
    · rw [OwnCoordinators, hsame.coordinators]
      exact hdistributed.own
    · rw [hsame.pendingQueue, hsame.submitted]
      have hbefore := hdistributed.bound tx
      have hafter := (hproduces.holders hdistributed.own tx).2
      omega

/-- From construction on, with a new coordinator of its own for every zone, a call of
`produce_blocks_parallel` whose distribution does not raise can return; and however its threads
interleave and in whatever order they finish, every zone produces what its coordinator produces
alone, and no transaction is in the blocks of more zones than it was submitted times. -/
theorem production_in_parallel {numZones workersPerZone : ℤ} {objects : C → BlockCoordinator}
    {constructed : ParallelBlockBuilder C}
    (h : init numZones workersPerZone objects = .ok constructed) (registrations : List (ℤ × C))
    (hown : (registered registrations constructed).OwnCoordinators)
    (hnew : ∀ c tx, ¬ (objects c).zoneMempool.Holds tx) {events : List (Event F)}
    (hrun : Run Step (registered registrations constructed) events s) (p : Production F) :
    (∀ distribution d, distributeTransactions s = (.ok distribution, d) →
      ∃ proposals s', Produces p s proposals s') ∧
    ∀ proposals s', Produces p s proposals s' →
      proposals.Perm ((distributeTransactions s).2.coordinators.items.filterMap fun zone =>
        (Stage.done (alone p (distributeTransactions s).2 zone).1).proposal) ∧
      (∀ zone ∈ (distributeTransactions s).2.coordinators.items,
        s'.objects zone.2 = (alone p (distributeTransactions s).2 zone).2) ∧
      ∀ tx, (proposals.countP fun q => tx ∈ q.carried) ≤ s.submitted.count tx := by
  have hstart : (registered registrations constructed).Accounted := by
    refine ⟨hown, fun tx => ?_⟩
    obtain ⟨coordinators, hregistered⟩ := registered_eq registrations constructed
    rw [init] at h
    split_ifs at h
    obtain rfl := Except.ok.inj h
    rw [hregistered, holders, List.countP_eq_zero.mpr fun zone _ => by simp [hnew zone.2 tx]]
    exact le_rfl
  have hs : s.Accounted := hrun.invariant (fun _ _ _ hs hstep => hs.step hstep) hstart
  have hdistributed := hs.distribute
  constructor
  · intro distribution d hd
    rw [hd] at hdistributed
    obtain ⟨schedule, hschedule, hdone⟩ := exists_schedule p hdistributed.own
    exact ⟨_, _, .mk hd hschedule hdone (List.Perm.refl _)⟩
  · intro proposals s' hproduces
    obtain ⟨hproposals, hsame, hobjects, -⟩ := hproduces.alone hdistributed.own
    refine ⟨hproposals, hobjects, fun tx => ?_⟩
    have hcarried := (hproduces.holders hdistributed.own tx).1
    have hbound := hdistributed.bound tx
    rw [(holders_distributeTransactions hs.own).1.submitted] at hbound
    exact hcarried.trans ((Nat.le_add_right _ _).trans hbound)

end Runs

section BothZones

open BlockProducer Ledger

/-- A zone of two validators over the ledger that has paid the registrant. -/
def payingZone (zoneId : ℤ) : BlockCoordinator where
  zoneId := zoneId
  validators := ((∅ : OrderedDict Bytes ℤ).set [1] 1 |>.set [2] 1).map fun stake =>
    { zoneId := zoneId, stake := some stake, address := some [] }
  zoneLedger := funded registrant 1

def ownZones : ParallelBlockBuilder Bool :=
  registered [(0, false), (1, true)]
    { numZones := 2
      workersPerZone := 4
      objects := fun c => payingZone (if c then 1 else 0) }

/-- A production of epoch zero, at time zero. -/
def firstProduction : Production ℚ where
  epoch := 0
  entropy := []
  measurements := ∅
  coinbaseTime _ := 0
  time _ := 0
  nonce _ := List.replicate 8 0

/-- The pool that was handed the registration. -/
def handedPool : Mempool := (Mempool.addTransaction (registration.signedBy []) {}).2

theorem selectProposer_payingZone (c : Bool) (pool : Mempool) :
    ({ payingZone (if c then 1 else 0) with zoneMempool := pool }.selectProposer 0 []).1 =
      .ok [2] := by
  have hselect : ((payingZone (if c then 1 else 0)).selectProposer 0 []).1 = .ok [2] := by
    cases c
    · decide +kernel
    · decide +kernel
  rw [← hselect]
  exact BlockCoordinator.fst_selectProposer_congr rfl

theorem candidates_handedPool :
    handedPool.getTransactionsForBlock MAX_BLOCK_SIZE = [registration.signedBy []] :=
  getTransactionsForBlock_singleton
    ((registration.packable_signedBy []).mpr readyToSign_registration.1)
    (by rw [size_registration]; decide)

theorem exists_call_payingZone (c : Bool) (zoneId : ℤ) {pool : Mempool}
    (hcand : pool.getTransactionsForBlock MAX_BLOCK_SIZE = [registration.signedBy []]) :
    ∃ q, ((firstProduction.job zoneId).call
        { payingZone (if c then 1 else 0) with zoneMempool := pool }).1 = .ok (some q) ∧
      q.carried = [registration.signedBy []] := by
  let j := firstProduction.job zoneId
  let b : BlockCoordinator := { payingZone (if c then 1 else 0) with zoneMempool := pool }
  let b' : BlockCoordinator := { b with currentProposer := (b.selectProposer 0 []).2.currentProposer }
  have hselect : b.selectProposer j.epoch j.entropy = (.ok [2], b') :=
    Prod.ext (selectProposer_payingZone c pool) (BlockCoordinator.selectProposer_frame 0 [] b)
  obtain ⟨t, htxs, hfees, hepoch, hcall⟩ := j.call_of_accepted hselect (List.cons_ne_nil _ _) hcand
    (List.forall_mem_singleton.mpr accepts_registration) (by simp [MAX_TXS_PER_BLOCK])
  have hpack : (registration.signedBy []).Packable :=
    (registration.packable_signedBy []).mpr readyToSign_registration.1
  have hcoinbase : (createCoinbase t [] (PyFloat.milliseconds (0 : ℚ)) (List.replicate 8 0)).Packable := by
    rw [createCoinbase_packable_iff, hfees, show t.epoch = 0 from hepoch]
    simp only [List.map_cons, List.map_nil, Transaction.fee_signedBy, registration, fee_spending]
    decide +kernel
  obtain ⟨q, hq⟩ := ((b'.producer [2]).buildBlock_returns t (List.replicate 32 0) [] (0 : ℚ) 0
    (List.replicate 8 0)).mpr ⟨hcoinbase, by simpa [htxs] using hpack⟩
  refine ⟨q, ?_, ?_⟩
  · rw [hcall]
    simp only [Job.built, Except.bind_eq_ok]
    exact ⟨[], rfl, q, hq, rfl⟩
  · obtain ⟨hashes, -, rfl⟩ := buildBlock_eq_ok.mp hq
    exact htxs

/-- The registration is submitted twice and goes to both zones. -/
def twiceSubmitted : ParallelBlockBuilder Bool :=
  (submitTransaction (registration.signedBy [])
    (submitTransaction (registration.signedBy []) ownZones).2).2

theorem hand_registration (c : Bool) {s : ParallelBlockBuilder Bool}
    (hc : s.objects c = payingZone (if c then 1 else 0)) :
    (∃ success, (hand c (registration.signedBy []) s).1 = .ok success) ∧
      SameQueue s (hand c (registration.signedBy []) s).2 ∧
      (hand c (registration.signedBy []) s).2.objects = Function.update s.objects c
        { payingZone (if c then 1 else 0) with zoneMempool := handedPool } := by
  obtain ⟨hresult, hsame, hobjects⟩ := hand_adds c (registration.signedBy []) s
  have hempty : (s.objects c).zoneMempool = {} := by rw [hc]; rfl
  refine ⟨?_, hsame, by rw [hobjects, hempty, hc, handedPool]⟩
  rw [hresult]
  rcases (s.objects c).zoneMempool.addTransaction_outcome (registration.signedBy []) with
    ⟨hraises, -⟩ | ⟨-, reason, hadd⟩ | ⟨-, reason, m, hadd, -⟩
  · exact absurd ((registration.packable_signedBy []).mpr readyToSign_registration.1) hraises
  · exact ⟨false, by rw [hadd]; rfl⟩
  · exact ⟨true, by rw [hadd]; rfl⟩

theorem distributeTransactions_twiceSubmitted : ∃ distribution d,
    distributeTransactions twiceSubmitted = (.ok distribution, d) ∧
      d.coordinators.items = [(0, false), (1, true)] ∧
      ∀ c, d.objects c = { payingZone (if c then 1 else 0) with zoneMempool := handedPool } := by
  have hpending : twiceSubmitted.pendingQueue =
      [registration.signedBy [], registration.signedBy []] := rfl
  have hstart := distributeTransactions_eq twiceSubmitted
  rw [hpending] at hstart
  let s : ParallelBlockBuilder Bool := { twiceSubmitted with pendingQueue := [] }
  obtain ⟨⟨success, hfirst⟩, hsame, hobjects⟩ := @hand_registration false s rfl
  obtain ⟨distribution, hloop⟩ := distributeLoop_hands (i := 0) (c := false) rfl rfl hfirst
    [registration.signedBy []] (s.coordinators.map fun _ => 0)
  generalize (hand false (registration.signedBy []) s).2 = s' at hsame hobjects hloop
  have htrue : s'.objects true = payingZone (if true then 1 else 0) := by
    rw [hobjects]
    rfl
  have hzone : zoneAt 1 s' = .ok 1 := by
    rw [zoneAt, hsame.numZones]
    rfl
  have hcoordinator : s'.coordinators.get? 1 = some true := by
    rw [hsame.coordinators]
    rfl
  obtain ⟨⟨success', hsecond⟩, hsame', hobjects'⟩ := hand_registration true htrue
  obtain ⟨distribution', hloop'⟩ :=
    distributeLoop_hands hzone hcoordinator hsecond [] distribution
  generalize (hand true (registration.signedBy []) s').2 = d at hsame' hobjects' hloop'
  refine ⟨distribution', d, hstart.trans (hloop.trans (hloop'.trans rfl)), ?_, ?_⟩
  · rw [hsame'.coordinators, hsame.coordinators]
    rfl
  · intro c
    rw [hobjects', hobjects]
    cases c <;> rfl

theorem production_in_parallel_both : ∃ (proposals : List (ConsensusProposal ℚ))
    (s' : ParallelBlockBuilder Bool),
    Produces firstProduction twiceSubmitted proposals s' ∧ proposals.length = 2 ∧
      (∀ q ∈ proposals, q.carried = [registration.signedBy []]) ∧
      (proposals.countP fun q => registration.signedBy [] ∈ q.carried) ≤
        twiceSubmitted.submitted.count (registration.signedBy []) := by
  have hinit : init 2 4 (fun c : Bool => payingZone (if c then 1 else 0)) =
      .ok { numZones := 2
            workersPerZone := 4
            objects := fun c => payingZone (if c then 1 else 0) } := rfl
  have hown : ownZones.OwnCoordinators := by
    unfold OwnCoordinators
    decide
  have hrun : Run (Step (F := ℚ)) ownZones
      [.submit (registration.signedBy []), .submit (registration.signedBy [])] twiceSubmitted :=
    .cons (.submit _ _) (.single (.submit _ _))
  obtain ⟨hreturns, hall⟩ := production_in_parallel hinit [(0, false), (1, true)] hown
    (by rintro c tx ⟨k, hk⟩; cases hk) hrun firstProduction
  obtain ⟨distribution, d, hd, hitems, hobjects⟩ := distributeTransactions_twiceSubmitted
  obtain ⟨proposals, s', hproduces⟩ := hreturns distribution d hd
  obtain ⟨hperm, -, hcount⟩ := hall proposals s' hproduces
  obtain ⟨q, hq, hcarried⟩ := exists_call_payingZone false 0 candidates_handedPool
  obtain ⟨q', hq', hcarried'⟩ := exists_call_payingZone true 1 candidates_handedPool
  have hblocks : proposals.Perm [q, q'] := by
    have hfirst : (alone firstProduction d (0, false)).1 = .ok (some q) := by
      rw [alone, hobjects]
      exact hq
    have hsecond : (alone firstProduction d (1, true)).1 = .ok (some q') := by
      rw [alone, hobjects]
      exact hq'
    rw [hd] at hperm
    simpa [hitems, hfirst, hsecond, Stage.proposal] using hperm
  refine ⟨proposals, s', hproduces, hblocks.length_eq, fun r hr => ?_, hcount _⟩
  obtain rfl | rfl := List.mem_pair.mp (hblocks.subset hr)
  · exact hcarried
  · exact hcarried'

end BothZones

end ParallelBlockBuilder

end Qrtb
