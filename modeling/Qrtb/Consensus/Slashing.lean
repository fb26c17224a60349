import Qrtb.Consensus.BFT
import Qrtb.Lib.Transition

/-!
# Slashing by vote (`src/consensus.py`)

A proposal is recorded under the hash of its evidence, collects the stake of its
voters and is executed at most once. Creating a proposal never looks whether one
is recorded under its hash already: several detectors that find the same evidence
replace each other's proposal, with its votes and its mark of execution. A decision
stands through a run exactly when no recorded proposal that was voted on or executed
is created again.
-/

namespace Qrtb

open Keccak PyFloat Transition

structure SlashingProposal where
  targetId : Bytes
  epoch : ℤ
  reason : String
  evidenceHash : Bytes
  proposerId : Bytes
  supportingStake : ℤ := 0
  voters : Finset Bytes := ∅
  executed : Bool := false
  deriving DecidableEq

structure SlashingManager where
  proposals : OrderedDict Bytes SlashingProposal := ∅
  slashedValidators : Finset Bytes := ∅

variable {F : Type} [PyFloat F]

/-- The key of a proposal; the proposer is not part of it. -/
def evidenceHash (targetId : Bytes) (epoch : ℤ) (detectionResult : DetectionResult F) :
    Except PyError Bytes := do
  return sha3_256 (← concat [.bytes targetId, .int epoch, .float (ieee detectionResult.confidence),
    .bytes (detectionResult.reasons.map fun r => r.toUTF8.toList).flatten])

namespace SlashingManager

def createProposal (targetId : Bytes) (epoch : ℤ) (detectionResult : DetectionResult F)
    (proposerId : Bytes) (m : SlashingManager) :
    Except PyError (SlashingProposal × SlashingManager) := do
  let hash ← evidenceHash targetId epoch detectionResult
  let proposal :=
    { targetId := targetId, epoch := epoch, reason := "; ".intercalate detectionResult.reasons,
      evidenceHash := hash, proposerId := proposerId }
  return (proposal, { m with proposals := m.proposals.set hash proposal })

def voteForSlashing (evidenceHash voterId : Bytes) (voterStake : ℤ) (m : SlashingManager) :
    Bool × SlashingManager :=
  match m.proposals.get? evidenceHash with
  | none => (false, m)
  | some proposal =>
    if proposal.executed then (false, m)
    else if voterId ∈ proposal.voters then (false, m)
    else
      (true, { m with proposals := m.proposals.set evidenceHash { proposal with
        voters := insert voterId proposal.voters
        supportingStake := proposal.supportingStake + voterStake } })

def executeSlashing (evidenceHash : Bytes) (totalStake : ℤ) (threshold : F)
    (m : SlashingManager) : Bool × SlashingManager :=
  match m.proposals.get? evidenceHash with
  | none => (false, m)
  | some proposal =>
    if proposal.executed then (false, m)
    else if totalStake = 0 then (false, m)
    else if lt (divInt proposal.supportingStake totalStake) threshold then (false, m)
    else
      (true, { m with
        proposals := m.proposals.set evidenceHash { proposal with executed := true }
        slashedValidators := insert proposal.targetId m.slashedValidators })

end SlashingManager

section

variable {m m' : SlashingManager} {target proposer : Bytes} {epoch : ℤ}
  {result : DetectionResult F} {p : SlashingProposal}

theorem createProposal_eq_ok (h : m.createProposal target epoch result proposer = .ok (p, m')) :
    ∃ key, evidenceHash target epoch result = .ok key ∧ p.voters = ∅ ∧ p.supportingStake = 0 ∧
      p.executed = false ∧ m' = { m with proposals := m.proposals.set key p } := by
  rw [SlashingManager.createProposal, Except.bind_eq_ok] at h
  obtain ⟨key, hkey, h⟩ := h
  obtain ⟨rfl, rfl⟩ := Prod.mk.inj (Except.ok.inj h)
  exact ⟨key, hkey, rfl, rfl, rfl, rfl⟩

theorem createProposal_error {e : PyError}
    (h : m.createProposal target epoch result proposer = .error e) :
    evidenceHash target epoch result = .error e := by
  cases hkey : evidenceHash target epoch result with
  | error e' => simpa [SlashingManager.createProposal, hkey, bind, Except.bind] using h
  | ok key => simp [SlashingManager.createProposal, hkey, bind, Except.bind, pure, Except.pure] at h

theorem voteForSlashing_cases (m : SlashingManager) (hash voter : Bytes) (stake : ℤ) :
    m.voteForSlashing hash voter stake = (false, m) ∨
      ∃ p, m.proposals.get? hash = some p ∧ voter ∉ p.voters ∧
        m.voteForSlashing hash voter stake = (true, { m with
          proposals := m.proposals.set hash { p with
            voters := insert voter p.voters
            supportingStake := p.supportingStake + stake } }) := by
  unfold SlashingManager.voteForSlashing
  cases hp : m.proposals.get? hash with
  | none => exact Or.inl rfl
  | some p =>
    dsimp only
    split_ifs with hexecuted hvoter
    · exact Or.inl rfl
    · exact Or.inl rfl
    · exact Or.inr ⟨p, rfl, hvoter, rfl⟩

theorem executeSlashing_cases (m : SlashingManager) (hash : Bytes) (total : ℤ) (threshold : F) :
    m.executeSlashing hash total threshold = (false, m) ∨
      ∃ p, m.proposals.get? hash = some p ∧ p.executed = false ∧
        m.executeSlashing hash total threshold = (true, { m with
          proposals := m.proposals.set hash { p with executed := true }
          slashedValidators := insert p.targetId m.slashedValidators }) := by
  unfold SlashingManager.executeSlashing
  cases hp : m.proposals.get? hash with
  | none => exact Or.inl rfl
  | some p =>
    dsimp only
    split_ifs with hexecuted htotal hsupport
    · exact Or.inl rfl
    · exact Or.inl rfl
    · exact Or.inl rfl
    · exact Or.inr ⟨p, rfl, by simpa using hexecuted, rfl⟩

end

inductive SlashingCall (F : Type) where
  | create (targetId : Bytes) (epoch : ℤ) (detectionResult : DetectionResult F)
      (proposerId : Bytes)
  | vote (evidenceHash voterId : Bytes) (voterStake : ℤ)
  | execute (evidenceHash : Bytes) (totalStake : ℤ) (threshold : F)

/-- A vote that was answered with true. -/
structure AcceptedVote where
  evidenceHash : Bytes
  voterId : Bytes
  stake : ℤ
  deriving DecidableEq

/-- The manager with the record of its answers: the accepted votes, and the hash of every
execution that returned true. -/
structure SlashingHistory where
  manager : SlashingManager := {}
  accepted : List AcceptedVote := []
  executions : List Bytes := []

/-- A call that raises leaves everything as it was. -/
def SlashingCall.act : SlashingCall F → SlashingHistory → SlashingHistory
  | .create targetId epoch detectionResult proposerId, s =>
    match s.manager.createProposal targetId epoch detectionResult proposerId with
    | .error _ => s
    | .ok (_, m) => { s with manager := m }
  | .vote hash voterId voterStake, s =>
    let (answer, m) := s.manager.voteForSlashing hash voterId voterStake
    { s with
      manager := m
      accepted := if answer then s.accepted ++ [⟨hash, voterId, voterStake⟩] else s.accepted }
  | .execute hash totalStake threshold, s =>
    let (answer, m) := s.manager.executeSlashing hash totalStake threshold
    { s with
      manager := m
      executions := if answer then s.executions ++ [hash] else s.executions }

namespace SlashingHistory

/-- The stake of the votes accepted for a hash. -/
def acceptedStake (hash : Bytes) (s : SlashingHistory) : ℤ :=
  ((s.accepted.filter fun b => b.evidenceHash = hash).map AcceptedVote.stake).sum

/-- A slashing decision is taken once and on all the votes accepted for it. -/
structure DecidedOnce (s : SlashingHistory) : Prop where
  once : ∀ hash, s.executions.count hash ≤ 1
  voters : ∀ b ∈ s.accepted, ∃ p,
    s.manager.proposals.get? b.evidenceHash = some p ∧ b.voterId ∈ p.voters
  stake : ∀ hash p, s.manager.proposals.get? hash = some p →
    p.supportingStake = s.acceptedStake hash

/-- The proposal of an execution is recorded as executed. -/
def Marked (s : SlashingHistory) : Prop :=
  ∀ hash ∈ s.executions, ∃ p, s.manager.proposals.get? hash = some p ∧ p.executed = true

/-- Voters and marks come from answers. -/
structure Justified (s : SlashingHistory) : Prop where
  voters : ∀ hash p, s.manager.proposals.get? hash = some p → ∀ v ∈ p.voters,
    ∃ b ∈ s.accepted, b.evidenceHash = hash
  marks : ∀ hash p, s.manager.proposals.get? hash = some p → p.executed = true →
    hash ∈ s.executions

end SlashingHistory

/-- No proposal with a vote or a mark is created again. -/
def SlashingCall.KeepsProposals : SlashingCall F → SlashingManager → Prop
  | .create targetId epoch detectionResult _, m =>
    ∀ hash, evidenceHash targetId epoch detectionResult = .ok hash →
      ∀ p, m.proposals.get? hash = some p → p.voters = ∅ ∧ p.executed = false
  | .vote .., _ => True
  | .execute .., _ => True

namespace SlashingHistory

/-- A fresh proposal is recorded under a hash. -/
def recorded (hash : Bytes) (p : SlashingProposal) (s : SlashingHistory) : SlashingHistory :=
  { s with manager := { s.manager with proposals := s.manager.proposals.set hash p } }

def voted (hash voterId : Bytes) (stake : ℤ) (p : SlashingProposal) (s : SlashingHistory) :
    SlashingHistory where
  manager := { s.manager with
    proposals := s.manager.proposals.set hash { p with
      voters := insert voterId p.voters
      supportingStake := p.supportingStake + stake } }
  accepted := s.accepted ++ [⟨hash, voterId, stake⟩]
  executions := s.executions

def executed (hash : Bytes) (p : SlashingProposal) (s : SlashingHistory) : SlashingHistory where
  manager := { s.manager with
    proposals := s.manager.proposals.set hash { p with executed := true }
    slashedValidators := insert p.targetId s.manager.slashedValidators }
  accepted := s.accepted
  executions := s.executions ++ [hash]

variable {s : SlashingHistory} {hash voterId : Bytes} {stake : ℤ} {p : SlashingProposal}

theorem acceptedStake_voted (key : Bytes) :
    (s.voted hash voterId stake p).acceptedStake key =
      s.acceptedStake key + if key = hash then stake else 0 := by
  by_cases h : key = hash
  · simp [acceptedStake, voted, List.filter_append, h]
  · have hne : ¬ hash = key := fun e => h e.symm
    simp [acceptedStake, voted, List.filter_append, h, hne]

end SlashingHistory

open SlashingHistory

theorem SlashingCall.act_cases (c : SlashingCall F) (s : SlashingHistory) :
    (c.act s = s ∧ c.KeepsProposals s.manager) ∨
      (∃ target epoch result proposer hash p, c = .create target epoch result proposer ∧
        evidenceHash target epoch result = .ok hash ∧ p.voters = ∅ ∧ p.supportingStake = 0 ∧
        p.executed = false ∧ c.act s = s.recorded hash p) ∨
      (∃ hash voterId stake p, c = .vote hash voterId stake ∧
        s.manager.proposals.get? hash = some p ∧ voterId ∉ p.voters ∧
        c.act s = s.voted hash voterId stake p) ∨
      ∃ hash total threshold p, c = .execute hash total threshold ∧
        s.manager.proposals.get? hash = some p ∧ p.executed = false ∧
        c.act s = s.executed hash p := by
  cases c with
  | create target epoch result proposer =>
    cases h : s.manager.createProposal target epoch result proposer with
    | error e =>
      refine Or.inl ⟨by simp only [act, h], ?_⟩
      intro hash hhash
      rw [createProposal_error h] at hhash
      cases hhash
    | ok made =>
      obtain ⟨p, m⟩ := made
      obtain ⟨hash, hhash, hvoters, hstake, hexecuted, rfl⟩ := createProposal_eq_ok h
      exact Or.inr (Or.inl ⟨target, epoch, result, proposer, hash, p, rfl, hhash, hvoters, hstake,
        hexecuted, by simp only [act, h, recorded]⟩)
  | vote hash voterId stake =>
    rcases voteForSlashing_cases s.manager hash voterId stake with h | ⟨p, hp, hvoter, h⟩
    · exact Or.inl ⟨by simp [act, h], trivial⟩
    · exact Or.inr (Or.inr (Or.inl ⟨hash, voterId, stake, p, rfl, hp, hvoter,
        by simp [act, h, voted]⟩))
  | execute hash total threshold =>
    rcases executeSlashing_cases s.manager hash total threshold with h | ⟨p, hp, hexecuted, h⟩
    · exact Or.inl ⟨by simp [act, h], trivial⟩
    · exact Or.inr (Or.inr (Or.inr ⟨hash, total, threshold, p, rfl, hp, hexecuted,
        by simp [act, h, executed]⟩))

namespace SlashingHistory

variable {s : SlashingHistory} {hash voterId : Bytes} {stake : ℤ} {p : SlashingProposal}

theorem Justified.recorded (h : s.Justified) (hvoters : p.voters = ∅)
    (hexecuted : p.executed = false) : (s.recorded hash p).Justified where
  voters := by
    apply OrderedDict.forall_get?_set _ h.voters
    intro v hv
    simp [hvoters] at hv
  marks := by
    apply OrderedDict.forall_get?_set _ h.marks
    intro hmark
    simp [hexecuted] at hmark

theorem Justified.voted (h : s.Justified) (hp : s.manager.proposals.get? hash = some p) :
    (s.voted hash voterId stake p).Justified where
  voters := by
    apply OrderedDict.forall_get?_set
    · intro v _
      exact ⟨⟨hash, voterId, stake⟩, by simp [SlashingHistory.voted], rfl⟩
    · intro key q hq v hv
      obtain ⟨b, hb, hkey⟩ := h.voters key q hq v hv
      exact ⟨b, List.mem_append_left _ hb, hkey⟩
  marks := OrderedDict.forall_get?_set (h.marks hash p hp) h.marks

theorem Justified.executed (h : s.Justified) (hp : s.manager.proposals.get? hash = some p) :
    (s.executed hash p).Justified where
  voters := OrderedDict.forall_get?_set (h.voters hash p hp) h.voters
  marks := by
    apply OrderedDict.forall_get?_set
    · intro _
      exact List.mem_append_right _ List.mem_cons_self
    · intro key q hq hmark
      exact List.mem_append_left _ (h.marks key q hq hmark)

theorem Justified.act (h : s.Justified) (c : SlashingCall F) : (c.act s).Justified := by
  rcases c.act_cases s with ⟨heq, -⟩ | ⟨_, _, _, _, _, p, -, -, hvoters, -, hexecuted, heq⟩ |
    ⟨_, _, _, p, -, hp, -, heq⟩ | ⟨_, _, _, p, -, hp, -, heq⟩
  · rw [heq]
    exact h
  · rw [heq]
    exact h.recorded hvoters hexecuted
  · rw [heq]
    exact h.voted hp
  · rw [heq]
    exact h.executed hp

/-- What is asked of every state of a run. -/
structure Kept (s : SlashingHistory) : Prop extends s.DecidedOnce where
  marked : s.Marked

theorem Kept.recorded (h : s.Kept) (hp : p.voters = ∅ ∧ p.supportingStake = 0)
    (hkeeps : ∀ q, s.manager.proposals.get? hash = some q → q.voters = ∅ ∧ q.executed = false) :
    (s.recorded hash p).Kept where
  once := h.once
  voters := by
    intro b hb
    apply OrderedDict.exists_get?_set _ (h.voters b hb)
    intro q hq hvoter
    simp [(hkeeps q hq).1] at hvoter
  stake := by
    intro key q hq
    rcases OrderedDict.get?_set_eq_some.mp hq with ⟨rfl, rfl⟩ | ⟨-, hq⟩
    · have hnone : s.accepted.filter (fun b => b.evidenceHash = key) = [] := by
        rw [List.filter_eq_nil_iff]
        intro b hb hkey
        rw [decide_eq_true_iff] at hkey
        subst hkey
        obtain ⟨old, hold, hvoter⟩ := h.voters b hb
        simp [(hkeeps old hold).1] at hvoter
      rw [hp.2, acceptedStake, SlashingHistory.recorded, hnone]
      rfl
    · exact h.stake key q hq
  marked := by
    intro key hkey
    apply OrderedDict.exists_get?_set _ (h.marked key hkey)
    intro q hq hmark
    simp [(hkeeps q hq).2] at hmark

theorem Kept.keeps_of_recorded (hjust : s.Justified) (hp : p.voters = ∅ ∧ p.executed = false)
    (h : (s.recorded hash p).Kept) {q : SlashingProposal}
    (hq : s.manager.proposals.get? hash = some q) : q.voters = ∅ ∧ q.executed = false := by
  have hnow : (s.recorded hash p).manager.proposals.get? hash = some p :=
    OrderedDict.get?_set_self ..
  constructor
  · by_contra hne
    obtain ⟨v, hv⟩ := Finset.nonempty_iff_ne_empty.mpr hne
    obtain ⟨b, hb, rfl⟩ := hjust.voters hash q hq v hv
    obtain ⟨q', hq', hvoter⟩ := h.voters b hb
    obtain rfl := Option.some.inj (hnow.symm.trans hq')
    simp [hp.1] at hvoter
  · by_contra hmark
    obtain ⟨q', hq', hmark'⟩ := h.marked hash (hjust.marks hash q hq (by simpa using hmark))
    obtain rfl := Option.some.inj (hnow.symm.trans hq')
    simp [hp.2] at hmark'

theorem Kept.voted (h : s.Kept) (hp : s.manager.proposals.get? hash = some p) :
    (s.voted hash voterId stake p).Kept where
  once := h.once
  voters := by
    intro b hb
    rcases List.mem_append.mp hb with hb | hb
    · apply OrderedDict.exists_get?_set _ (h.voters b hb)
      intro q hq hvoter
      obtain rfl := Option.some.inj (hp.symm.trans hq)
      exact Finset.mem_insert_of_mem hvoter
    · obtain rfl := List.mem_singleton.mp hb
      exact ⟨_, OrderedDict.get?_set_self .., Finset.mem_insert_self ..⟩
  stake := by
    intro key q hq
    rw [acceptedStake_voted]
    rcases OrderedDict.get?_set_eq_some.mp hq with ⟨rfl, rfl⟩ | ⟨hne, hq⟩
    · rw [if_pos rfl, ← h.stake key p hp]
    · rw [if_neg hne, add_zero, h.stake key q hq]
  marked := by
    intro key hkey
    apply OrderedDict.exists_get?_set _ (h.marked key hkey)
    intro q hq hmark
    obtain rfl := Option.some.inj (hp.symm.trans hq)
    exact hmark

theorem Kept.executed (h : s.Kept) (hp : s.manager.proposals.get? hash = some p)
    (hfresh : p.executed = false) : (s.executed hash p).Kept where
  once := by
    intro key
    by_cases hne : key = hash
    · subst hne
      have hnew : key ∉ s.executions := by
        intro hkey
        obtain ⟨q, hq, hmark⟩ := h.marked key hkey
        obtain rfl := Option.some.inj (hp.symm.trans hq)
        simp [hfresh] at hmark
      simp [SlashingHistory.executed, List.count_eq_zero.mpr hnew]
    · have hne' : ¬ hash = key := fun e => hne e.symm
      simpa [SlashingHistory.executed, List.count_singleton, hne'] using h.once key
  voters := by
    intro b hb
    apply OrderedDict.exists_get?_set _ (h.voters b hb)
    intro q hq hvoter
    obtain rfl := Option.some.inj (hp.symm.trans hq)
    exact hvoter
  stake := OrderedDict.forall_get?_set (h.stake hash p hp) h.stake
  marked := by
    intro key hkey
    by_cases hne : key = hash
    · subst hne
      exact ⟨_, OrderedDict.get?_set_self .., rfl⟩
    · have hold : key ∈ s.executions := by
        simpa [SlashingHistory.executed, hne] using hkey
      apply OrderedDict.exists_get?_set _ (h.marked key hold)
      intro _ _ _
      rfl

theorem Kept.act_iff (c : SlashingCall F) (hjust : s.Justified) (h : s.Kept) :
    (c.act s).Kept ↔ c.KeepsProposals s.manager := by
  rcases c.act_cases s with ⟨heq, hkeeps⟩ |
    ⟨target, epoch, result, proposer, hash, p, rfl, hhash, hvoters, hstake, hexecuted, heq⟩ |
    ⟨_, _, _, p, rfl, hp, -, heq⟩ | ⟨_, _, _, p, rfl, hp, hfresh, heq⟩
  · rw [heq]
    exact iff_of_true h hkeeps
  · rw [heq]
    constructor
    · intro hnext key hkey q hq
      obtain rfl := Except.ok.inj (hhash.symm.trans hkey)
      exact hnext.keeps_of_recorded hjust ⟨hvoters, hexecuted⟩ hq
    · intro hkeeps
      exact h.recorded ⟨hvoters, hstake⟩ fun q hq => hkeeps hash hhash q hq
  · rw [heq]
    exact iff_of_true (h.voted hp) trivial
  · rw [heq]
    exact iff_of_true (h.executed hp hfresh) trivial

theorem justified_initial : ({} : SlashingHistory).Justified where
  voters := nofun
  marks := nofun

theorem kept_initial : ({} : SlashingHistory).Kept where
  once := by simp
  voters := nofun
  stake := nofun
  marked := nofun

end SlashingHistory

/-- Decisions stand through a run exactly when no call of it creates a proposal anew over one
with a vote or a mark. -/
theorem slashing_decided_once_iff (cs : List (SlashingCall F)) :
    (∀ pre post, cs = pre ++ post → (runs SlashingCall.act pre {}).Kept) ↔
      ∀ pre c post, cs = pre ++ c :: post →
        c.KeepsProposals (runs SlashingCall.act pre {}).manager :=
  throughout_iff _ (fun c _ h => h.act c) (fun c _ hjust h => h.act_iff c hjust)
    justified_initial kept_initial cs

/-- The same evidence found again: a second proposal, and a second execution on one new vote. -/
def foundTwice : List (SlashingCall ℚ) :=
  let found : DetectionResult ℚ :=
    { validatorId := [7], isSuspicious := true, confidence := 0, ratioScore := 0,
      varianceScore := 0, pathConsistencyScore := 0 }
  let hash := sha3_256 ([7] ++ Bytes.bigEndian 8 3 ++ Bytes.bigEndian 8 0)
  [.create [7] 3 found [1], .vote hash [1] 70, .execute hash 100 (67 / 100),
    .create [7] 3 found [2], .vote hash [2] 90, .execute hash 100 (67 / 100)]

theorem slashing_not_decided_once :
    ¬ ∀ cs : List (SlashingCall ℚ), (runs SlashingCall.act cs {}).DecidedOnce := by
  intro h
  have honce := (h foundTwice).once (sha3_256 ([7] ++ Bytes.bigEndian 8 3 ++ Bytes.bigEndian 8 0))
  revert honce
  decide +kernel

end Qrtb
