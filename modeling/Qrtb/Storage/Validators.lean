import Qrtb.Storage.BlockStore

/-!
# The validator tables (`src/storage.py`)

The state database keeps a row for each validator and a log of slashings. Slashing
clears the flag `active` and sets the flag `slashed` of the row. Registering uses
`INSERT OR REPLACE` without the two columns, so a later registration of the same id
gives a row with their defaults, and the validator is active again. A slashing is
final exactly when its id is not registered again.
-/

namespace Qrtb

open PyFloat Transition

/-- A row of the table `validators`, without its key; no statement writes the last column. -/
structure ValidatorRow where
  address : Bytes
  stake : ℤ
  zoneId : ℤ
  active : ℤ := 1
  slashed : ℤ := 0
  registeredEpoch : ℤ
  lastActiveEpoch : Option ℤ := none
  deriving DecidableEq

structure SlashingEvent where
  validatorId : Bytes
  epoch : ℤ
  reason : String
  evidenceHash : Bytes
  slashAmount : ℤ
  timestamp : ℤ
  deriving DecidableEq

/-- The tables `validators`, in the order of its row ids, and `slashing_events`. -/
structure ValidatorTables where
  validators : OrderedDict Bytes ValidatorRow := ∅
  slashingEvents : List SlashingEvent := []

namespace ValidatorTables

/-- `INSERT OR REPLACE`: a replaced row is deleted, the new one goes to the end. -/
def insertValidator (validatorId : Bytes) (row : ValidatorRow) (s : ValidatorTables) :
    ValidatorTables :=
  { s with validators := (s.validators.erase validatorId).set validatorId row }

/-- `UPDATE validators SET … WHERE validator_id = ?`. -/
def updateValidator (validatorId : Bytes) (change : ValidatorRow → ValidatorRow)
    (s : ValidatorTables) : ValidatorTables :=
  match s.validators.get? validatorId with
  | none => s
  | some row => { s with validators := s.validators.set validatorId (change row) }

def registerValidator (fault : Bool) (validatorId address : Bytes) (stake zoneId epoch : ℤ)
    (s : ValidatorTables) : Bool × ValidatorTables :=
  sqlTransaction fault (fun s => do
    let stake ← sqlInt stake
    let zoneId ← sqlInt zoneId
    let epoch ← sqlInt epoch
    return s.insertValidator validatorId
      { address := address, stake := stake, zoneId := zoneId, registeredEpoch := epoch }) s

def updateValidatorStake (fault : Bool) (validatorId : Bytes) (stake : ℤ) (s : ValidatorTables) :
    Bool × ValidatorTables :=
  sqlTransaction fault (fun s => do
    let stake ← sqlInt stake
    return s.updateValidator validatorId fun row => { row with stake := stake }) s

/-- Mark the row, then record the event; an id without a row is only recorded. -/
def slashValidator (fault : Bool) (validatorId : Bytes) (reason : String) (evidenceHash : Bytes)
    (slashAmount epoch timestamp : ℤ) (s : ValidatorTables) : Bool × ValidatorTables :=
  sqlTransaction fault (fun s => do
    let s := s.updateValidator validatorId fun row => { row with slashed := 1, active := 0 }
    let epoch ← sqlInt epoch
    let slashAmount ← sqlInt slashAmount
    let timestamp ← sqlInt timestamp
    return { s with slashingEvents := s.slashingEvents ++
      [{ validatorId := validatorId, epoch := epoch, reason := reason,
         evidenceHash := evidenceHash, slashAmount := slashAmount, timestamp := timestamp }] }) s

/-- The rows with their keys; binding the zone may raise. -/
def getActiveValidators (zoneId : Option ℤ) (s : ValidatorTables) :
    Except PyError (List (Bytes × ValidatorRow)) :=
  match zoneId with
  | some zone => do
    let zone ← sqlInt zone
    return s.validators.items.filter fun r => r.2.active = 1 ∧ r.2.zoneId = zone
  | none => .ok (s.validators.items.filter fun r => r.2.active = 1)

/-- `SUM`, which raises when a partial sum leaves the range of a column. -/
def sqlSum : ℤ → List ℤ → Except PyError ℤ
  | acc, [] => .ok acc
  | acc, x :: xs => if FitsSql (acc + x) then sqlSum (acc + x) xs else .error .operationalError

def getTotalStake (s : ValidatorTables) : Except PyError ℤ :=
  sqlSum 0 ((s.validators.items.filter fun r => r.2.active = 1).map fun r => r.2.stake)

variable {s : ValidatorTables} {key id : Bytes}

theorem get?_insertValidator (row : ValidatorRow) :
    (s.insertValidator id row).validators.get? key =
      if key = id then some row else s.validators.get? key := by
  rw [insertValidator, OrderedDict.get?_set, OrderedDict.get?_erase]
  split_ifs <;> rfl

theorem get?_updateValidator (change : ValidatorRow → ValidatorRow) :
    (s.updateValidator id change).validators.get? key =
      if key = id then (s.validators.get? key).map change else s.validators.get? key := by
  apply OrderedDict.get?_of_update
  · intro h
    rw [updateValidator, h]
  · intro row h
    rw [updateValidator, h]

theorem registerValidator_eq (fault : Bool) (address : Bytes) (stake zoneId epoch : ℤ) :
    s.registerValidator fault id address stake zoneId epoch =
      if fault = false ∧ FitsSql stake ∧ FitsSql zoneId ∧ FitsSql epoch then
        (true, s.insertValidator id
          { address := address, stake := stake, zoneId := zoneId, registeredEpoch := epoch })
      else (false, s) := by
  unfold registerValidator
  split_ifs with h
  · obtain ⟨hfault, hstake, hzone, hepoch⟩ := h
    apply sqlTransaction_of_ok hfault
    simp [sqlInt, hstake, hzone, hepoch, bind, Except.bind, pure, Except.pure]
  · apply sqlTransaction_of_not
    rintro ⟨hfault, hret⟩
    simp only [Except.returns_bind, sqlInt_eq_ok] at hret
    obtain ⟨_, ⟨hstake, -⟩, _, ⟨hzone, -⟩, _, ⟨hepoch, -⟩, -⟩ := hret
    exact h ⟨hfault, hstake, hzone, hepoch⟩

theorem updateValidatorStake_cases (fault : Bool) (id : Bytes) (stake : ℤ) :
    s.updateValidatorStake fault id stake = (false, s) ∨
      s.updateValidatorStake fault id stake =
        (true, s.updateValidator id fun row => { row with stake := stake }) := by
  unfold updateValidatorStake
  by_cases h : fault = false ∧ FitsSql stake
  · right
    apply sqlTransaction_of_ok h.1
    simp [sqlInt, h.2, bind, Except.bind, pure, Except.pure]
  · left
    apply sqlTransaction_of_not
    rintro ⟨hfault, hret⟩
    simp only [Except.returns_bind, sqlInt_eq_ok] at hret
    obtain ⟨_, ⟨hstake, -⟩, -⟩ := hret
    exact h ⟨hfault, hstake⟩

theorem slashValidator_cases (fault : Bool) (id : Bytes) (reason : String)
    (evidenceHash : Bytes) (slashAmount epoch timestamp : ℤ) :
    s.slashValidator fault id reason evidenceHash slashAmount epoch timestamp = (false, s) ∨
      ∃ s', s.slashValidator fault id reason evidenceHash slashAmount epoch timestamp = (true, s') ∧
        s'.validators =
          (s.updateValidator id fun row => { row with slashed := 1, active := 0 }).validators := by
  unfold slashValidator
  by_cases h : fault = false ∧ FitsSql epoch ∧ FitsSql slashAmount ∧ FitsSql timestamp
  · obtain ⟨hfault, hepoch, hamount, htime⟩ := h
    let marked := s.updateValidator id fun row => { row with slashed := 1, active := 0 }
    let event : SlashingEvent := ⟨id, epoch, reason, evidenceHash, slashAmount, timestamp⟩
    refine Or.inr ⟨{ marked with slashingEvents := marked.slashingEvents ++ [event] },
      sqlTransaction_of_ok hfault ?_, rfl⟩
    simp [sqlInt, hepoch, hamount, htime, bind, Except.bind, pure, Except.pure, marked, event]
  · left
    apply sqlTransaction_of_not
    rintro ⟨hfault, hret⟩
    simp only [Except.returns_bind, sqlInt_eq_ok] at hret
    obtain ⟨_, ⟨hepoch, -⟩, _, ⟨hamount, -⟩, _, ⟨htime, -⟩, -⟩ := hret
    exact h ⟨hfault, hepoch, hamount, htime⟩

/-- The tables with the row of an id taken out. -/
def without (id : Bytes) (s : ValidatorTables) : ValidatorTables :=
  { s with validators := s.validators.erase id }

/-- An id is in no result of `get_active_validators` and adds nothing to `get_total_stake`. -/
structure Retired (id : Bytes) (s : ValidatorTables) : Prop where
  absent : ∀ zoneId rows, s.getActiveValidators zoneId = .ok rows → ∀ r ∈ rows, r.1 ≠ id
  noStake : s.getTotalStake = (s.without id).getTotalStake

theorem mem_getActiveValidators {zoneId : Option ℤ} {rows : List (Bytes × ValidatorRow)}
    (h : s.getActiveValidators zoneId = .ok rows) {r : Bytes × ValidatorRow} (hr : r ∈ rows) :
    s.validators.get? r.1 = some r.2 ∧ r.2.active = 1 := by
  rw [← OrderedDict.mem_items_iff]
  cases zoneId with
  | none =>
    obtain rfl := Except.ok.inj h
    simpa using hr
  | some zone =>
    rw [getActiveValidators, Except.bind_eq_ok] at h
    obtain ⟨zone', -, h⟩ := h
    obtain rfl := Except.ok.inj h
    rw [List.mem_filter, decide_eq_true_iff] at hr
    exact ⟨hr.1, hr.2.1⟩

theorem retired_iff : s.Retired id ↔ ∀ row, s.validators.get? id = some row → row.active ≠ 1 := by
  constructor
  · intro h row hrow hactive
    have hmem : (id, row) ∈ s.validators.items.filter fun r => r.2.active = 1 := by
      simpa [OrderedDict.mem_items_iff, hrow] using hactive
    exact h.absent none _ rfl _ hmem rfl
  · intro h
    refine ⟨?_, ?_⟩
    · rintro zoneId rows hrows r hr rfl
      obtain ⟨hrow, hactive⟩ := mem_getActiveValidators hrows hr
      exact h _ hrow hactive
    · have hsame : ((s.validators.erase id).items.filter fun r => r.2.active = 1) =
          s.validators.items.filter fun r => r.2.active = 1 := by
        simp only [OrderedDict.erase, List.filter_filter]
        apply List.filter_congr
        intro r hr
        rw [OrderedDict.mem_items_iff] at hr
        by_cases hid : r.1 = id
        · simp [h r.2 (hid ▸ hr)]
        · simp [hid]
      rw [getTotalStake, getTotalStake, without, hsame]

theorem retired_insertValidator {other : Bytes} {row : ValidatorRow} (h : s.Retired id) :
    (s.insertValidator other row).Retired id ↔ (id = other → row.active ≠ 1) := by
  rw [retired_iff] at h ⊢
  simp only [get?_insertValidator]
  by_cases hid : id = other
  · simp [hid]
  · simpa [hid] using h

theorem Retired.updateValidator {other : Bytes} {change : ValidatorRow → ValidatorRow}
    (hchange : ∀ row, row.active ≠ 1 → (change row).active ≠ 1) (h : s.Retired id) :
    (s.updateValidator other change).Retired id := by
  rw [retired_iff] at h ⊢
  intro row hrow
  rw [get?_updateValidator] at hrow
  split_ifs at hrow with hid
  · obtain ⟨old, hold, rfl⟩ := Option.map_eq_some_iff.mp hrow
    exact hchange old (h old hold)
  · exact h row hrow

/-- A statement that clears the flag takes its id out of service, registered or not. -/
theorem retired_updateValidator_self {change : ValidatorRow → ValidatorRow}
    (hchange : ∀ row, (change row).active ≠ 1) : (s.updateValidator id change).Retired id := by
  rw [retired_iff]
  intro row hrow
  rw [get?_updateValidator, if_pos rfl] at hrow
  obtain ⟨old, -, rfl⟩ := Option.map_eq_some_iff.mp hrow
  exact hchange old

theorem Retired.congr {s' : ValidatorTables} (h : s.Retired id)
    (heq : s'.validators = s.validators) : s'.Retired id := by
  rw [retired_iff] at h ⊢
  rw [heq]
  exact h

end ValidatorTables

inductive ValidatorCall where
  | register (fault : Bool) (validatorId address : Bytes) (stake zoneId epoch : ℤ)
  | updateStake (fault : Bool) (validatorId : Bytes) (stake : ℤ)
  | slash (fault : Bool) (validatorId : Bytes) (reason : String) (evidenceHash : Bytes)
      (slashAmount epoch timestamp : ℤ)

/-- The tables with the ids that `slash_validator` answered true for while they were registered. -/
structure SlashingRecord where
  tables : ValidatorTables
  slashed : Finset Bytes := ∅

def ValidatorCall.act : ValidatorCall → SlashingRecord → SlashingRecord
  | .register fault id address stake zoneId epoch, s =>
    { s with tables := (s.tables.registerValidator fault id address stake zoneId epoch).2 }
  | .updateStake fault id stake, s =>
    { s with tables := (s.tables.updateValidatorStake fault id stake).2 }
  | .slash fault id reason evidenceHash slashAmount epoch timestamp, s =>
    let (answer, tables) :=
      s.tables.slashValidator fault id reason evidenceHash slashAmount epoch timestamp
    { tables := tables
      slashed := if answer ∧ s.tables.validators.contains id then insert id s.slashed
        else s.slashed }

/-- Whoever was slashed is out of service. -/
def SlashingRecord.Final (s : SlashingRecord) : Prop := ∀ id ∈ s.slashed, s.tables.Retired id

/-- A registration of a slashed id does not go through: a statement fails or an integer is
outside its column. -/
def ValidatorCall.KeepsSlashed : ValidatorCall → SlashingRecord → Prop
  | .register fault id _ stake zoneId epoch, s =>
    id ∈ s.slashed → ¬ (fault = false ∧ FitsSql stake ∧ FitsSql zoneId ∧ FitsSql epoch)
  | .updateStake .., _ => True
  | .slash .., _ => True

namespace SlashingRecord

variable {s : SlashingRecord}

theorem Final.register_iff (h : s.Final) (fault : Bool) (id address : Bytes)
    (stake zoneId epoch : ℤ) :
    ((ValidatorCall.register fault id address stake zoneId epoch).act s).Final ↔
      (ValidatorCall.register fault id address stake zoneId epoch).KeepsSlashed s := by
  rw [ValidatorCall.act, ValidatorTables.registerValidator_eq, ValidatorCall.KeepsSlashed]
  split_ifs with hfits
  · constructor
    · intro hnext hid
      exact absurd rfl ((ValidatorTables.retired_insertValidator (h id hid)).mp (hnext id hid) rfl)
    · intro hkeeps key hkey
      apply (ValidatorTables.retired_insertValidator (h key hkey)).mpr
      rintro rfl
      exact absurd hfits (hkeeps hkey)
  · exact iff_of_true h fun _ => hfits

theorem Final.updateStake (h : s.Final) (fault : Bool) (id : Bytes) (stake : ℤ) :
    ((ValidatorCall.updateStake fault id stake).act s).Final := by
  intro key hkey
  rw [ValidatorCall.act]
  rcases s.tables.updateValidatorStake_cases fault id stake with heq | heq
  · rw [heq]
    exact h key hkey
  · rw [heq]
    exact (h key hkey).updateValidator fun row hrow => hrow

theorem Final.slash (h : s.Final) (fault : Bool) (id : Bytes) (reason : String)
    (evidenceHash : Bytes) (slashAmount epoch timestamp : ℤ) :
    ((ValidatorCall.slash fault id reason evidenceHash slashAmount epoch timestamp).act s).Final := by
  intro key hkey
  rw [ValidatorCall.act] at hkey ⊢
  rcases s.tables.slashValidator_cases fault id reason evidenceHash slashAmount epoch timestamp
    with heq | ⟨s', heq, hs'⟩
  · simp only [heq] at hkey ⊢
    exact h key (by simpa using hkey)
  · simp only [heq] at hkey ⊢
    apply ValidatorTables.Retired.congr _ hs'
    by_cases hid : key = id
    · subst hid
      exact ValidatorTables.retired_updateValidator_self fun row => by simp
    · have hold : key ∈ s.slashed := by
        split_ifs at hkey
        · exact Finset.mem_of_mem_insert_of_ne hkey hid
        · exact hkey
      exact (h key hold).updateValidator fun row _ => by simp

theorem Final.act_iff (h : s.Final) (c : ValidatorCall) : (c.act s).Final ↔ c.KeepsSlashed s := by
  cases c with
  | register fault id address stake zoneId epoch =>
    exact h.register_iff fault id address stake zoneId epoch
  | updateStake fault id stake => exact iff_of_true (h.updateStake fault id stake) trivial
  | slash fault id reason evidenceHash slashAmount epoch timestamp =>
    exact iff_of_true (h.slash fault id reason evidenceHash slashAmount epoch timestamp) trivial

end SlashingRecord

/-- From any tables: the slashed validators stay out of service exactly when no later registration
of one of them goes through. -/
theorem slashed_stays_retired_iff (tables : ValidatorTables) (cs : List ValidatorCall) :
    (∀ pre post, cs = pre ++ post → (runs ValidatorCall.act pre { tables := tables }).Final) ↔
      ∀ pre c post, cs = pre ++ c :: post →
        c.KeepsSlashed (runs ValidatorCall.act pre { tables := tables }) :=
  throughout_iff (J := fun _ => True) ValidatorCall.act (fun _ _ _ => trivial)
    (fun c _ _ h => h.act_iff c) trivial (fun _ h => absurd h (Finset.notMem_empty _)) cs

/-- A validator that registers again after it was slashed. -/
def backInService : List ValidatorCall :=
  [.register false [7] [1] 100 0 1, .slash false [7] "ratio" [9] 50 2 2000,
    .register false [7] [1] 100 0 3]

theorem slashed_not_final :
    ¬ ∀ (tables : ValidatorTables) (cs : List ValidatorCall),
      (runs ValidatorCall.act cs { tables := tables }).Final := by
  intro h
  have hid : [7] ∈ (runs ValidatorCall.act backInService { tables := {} }).slashed := by
    decide +kernel
  have habsent := (h {} backInService [7] hid).absent none _ rfl
  revert habsent
  decide +kernel

end Qrtb
