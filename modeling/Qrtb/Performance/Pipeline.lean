import Qrtb.Ledger.Validator
import Qrtb.Performance.ShardedUtxoSet

/-!
# The transaction pipeline (`src/performance.py`)

A batch goes through four stages, each of which splits what the one before it
passed on into the valid transactions and the invalid ones with a reason. The
counters and times of the stages are left out. Reading a transaction's hash
raises when an integer of it does not fit its width.
-/

namespace Qrtb

open Keccak

abbrev SignatureItem := Bytes × Bytes × Bytes

namespace BatchWotsVerifier

def verifySingle (item : SignatureItem) : Bool := Wots.verify item.1 item.2.1 item.2.2

/-- Sorted by index, whatever the order in which the workers finish. -/
def verifyBatch (items : List SignatureItem) : List (ℕ × Bool) :=
  items.zipIdx.map fun item => (item.2, verifySingle item.1)

/-- The signing hash of the transaction at hand; a non-empty list of given hashes is read at the
number of inputs collected so far. -/
def itemHash (signingHashes : Option (List Bytes)) (collected : ℕ) (tx : Transaction) :
    Except PyError Bytes :=
  match signingHashes with
  | some (h :: hs) =>
    match (h :: hs)[collected]? with
    | some signingHash => .ok signingHash
    | none => .error .indexError
  | _ => tx.signingHash

/-- `items` beside `tx_mapping`: each signature with the hash of its transaction. -/
def collectItems (signingHashes : Option (List Bytes)) (acc : List (SignatureItem × Bytes))
    (tx : Transaction) : Except PyError (List (SignatureItem × Bytes)) := do
  let signingHash ← itemHash signingHashes acc.length tx
  let mapped ← tx.inputs.mapM fun inp => do
    return ((signingHash, inp.signature, inp.publicKey), ← tx.txHash)
  return acc ++ mapped

/-- Only a failed signature writes into the result. -/
def recordResult (txMapping : List Bytes) (txValid : OrderedDict Bytes Bool)
    (result : ℕ × Bool) : OrderedDict Bytes Bool :=
  match txMapping[result.1]? with
  | some txHash => if result.2 then txValid else txValid.set txHash false
  | none => txValid

def aggregate (txMapping : List Bytes) (results : List (ℕ × Bool)) : OrderedDict Bytes Bool :=
  results.foldl (recordResult txMapping) ∅

def verifyTransactions (transactions : List Transaction) (signingHashes : Option (List Bytes)) :
    Except PyError (OrderedDict Bytes Bool) := do
  let items ← transactions.foldlM (collectItems signingHashes) []
  if items = [] then
    return OrderedDict.ofKeys (fun _ => true) (← transactions.mapM Transaction.txHash)
  else return aggregate (items.map Prod.snd) (verifyBatch (items.map Prod.fst))

end BatchWotsVerifier

namespace TransactionPipeline

/-- What a stage returns: the valid transactions and the invalid ones with their reasons. -/
abbrev Split := List Transaction × List (Transaction × String)

/-- A stage looks at one transaction after another; no reason means that it is valid. -/
def stage (check : Transaction → Except PyError (Option String)) :
    List Transaction → Except PyError Split
  | [] => .ok ([], [])
  | tx :: txs => do
    let reason ← check tx
    let (valid, invalid) ← stage check txs
    return match reason with
      | none => (tx :: valid, invalid)
      | some reason => (valid, (tx, reason) :: invalid)

def stageStructure (transactions : List Transaction) : Except PyError Split :=
  stage (fun tx =>
    match tx.isValidStructure with
    | .ok _ => .ok none
    | .error (.reject reason) => .ok (some s!"structure: {reason}")
    | .error (.raised e) => .error e) transactions

/-- The record of one looked-up input; the first issue of a transaction is kept, so the keys of
`tx_issues` are the `seen_txs`. -/
def noteIssue (currentEpoch : ℤ) (txIssues : OrderedDict Bytes String)
    (found : Transaction × Option Utxo) : Except PyError (OrderedDict Bytes String) := do
  let txHash ← found.1.txHash
  if txIssues.contains txHash then return txIssues
  else
    return match found.2 with
      | none => txIssues.set txHash "utxo: not found"
      | some utxo =>
        if utxo.isSpent then txIssues.set txHash "utxo: already spent"
        else if utxo.output.lockEpoch > currentEpoch then
          txIssues.set txHash s!"utxo: locked until epoch {utxo.output.lockEpoch}"
        else txIssues

def stageUtxo (utxoSet : ShardedUtxoSet) (transactions : List Transaction) (currentEpoch : ℤ) :
    Except PyError Split := do
  let refs := transactions.flatMap Transaction.refs
  let txMapping := transactions.flatMap fun tx => tx.inputs.map fun _ => tx
  let utxos := utxoSet.batchLookup refs
  let txIssues ← (txMapping.zip utxos).foldlM (noteIssue currentEpoch) ∅
  stage (fun tx => do return txIssues.get? (← tx.txHash)) transactions

def stageSignature (transactions : List Transaction) : Except PyError Split := do
  let txValid ← BatchWotsVerifier.verifyTransactions transactions none
  stage (fun tx => do
    return if txValid.getD (← tx.txHash) false then none else some "signature: invalid") transactions

def stageFinal (transactions : List Transaction) (currentEpoch : ℤ) : Except PyError Split :=
  stage (fun tx =>
    .ok (if tx.epoch > currentEpoch then some s!"final: future epoch {tx.epoch}"
      else if tx.epoch < currentEpoch - 1 then some s!"final: expired epoch {tx.epoch}"
      else none)) transactions

/-- A batch of which nothing is left ends early. -/
def processBatch (utxoSet : ShardedUtxoSet) (transactions : List Transaction) (currentEpoch : ℤ) :
    Except PyError Split := do
  let (valid, invalid) ← stageStructure transactions
  if valid = [] then return ([], invalid)
  let (valid, stageInvalid) ← stageUtxo utxoSet valid currentEpoch
  let invalid := invalid ++ stageInvalid
  if valid = [] then return ([], invalid)
  let (valid, stageInvalid) ← stageSignature valid
  let invalid := invalid ++ stageInvalid
  if valid = [] then return ([], invalid)
  let (valid, stageInvalid) ← stageFinal valid currentEpoch
  return (valid, invalid ++ stageInvalid)

/-- The stage returns, and passes on the transactions with the property, in their order. -/
def Passes (result : Except PyError Split) (transactions : List Transaction)
    (P : Transaction → Prop) : Prop :=
  ∃ valid invalid, result = .ok (valid, invalid) ∧ valid.Sublist transactions ∧
    ∀ tx, tx ∈ valid ↔ tx ∈ transactions ∧ P tx

variable {txs : List Transaction} {P : Transaction → Prop}

theorem stage_passes {check : Transaction → Except PyError (Option String)}
    (h : ∀ tx ∈ txs, ∃ reason, check tx = .ok reason ∧ (reason = none ↔ P tx)) :
    Passes (stage check txs) txs P := by
  induction txs with
  | nil => exact ⟨[], [], rfl, .slnil, by simp⟩
  | cons tx txs ih =>
    obtain ⟨reason, hcheck, hreason⟩ := h tx List.mem_cons_self
    obtain ⟨valid, invalid, hrest, hsub, hmem⟩ :=
      ih fun other hother => h other (List.mem_cons_of_mem _ hother)
    cases reason with
    | none =>
      refine ⟨tx :: valid, invalid, by simp [stage, hcheck, hrest, bind, Except.bind, pure,
        Except.pure], hsub.cons_cons tx, fun other => ?_⟩
      have htx : P tx := hreason.mp rfl
      simp only [List.mem_cons, hmem]
      constructor
      · rintro (rfl | ⟨hother, hP⟩)
        · exact ⟨Or.inl rfl, htx⟩
        · exact ⟨Or.inr hother, hP⟩
      · rintro ⟨rfl | hother, hP⟩
        · exact Or.inl rfl
        · exact Or.inr ⟨hother, hP⟩
    | some reason =>
      refine ⟨valid, (tx, reason) :: invalid, by simp [stage, hcheck, hrest, bind, Except.bind,
        pure, Except.pure], hsub.cons tx, fun other => ?_⟩
      have htx : ¬ P tx := fun hP => by simpa using hreason.mpr hP
      simp only [List.mem_cons, hmem]
      constructor
      · rintro ⟨hother, hP⟩
        exact ⟨Or.inr hother, hP⟩
      · rintro ⟨rfl | hother, hP⟩
        · exact absurd hP htx
        · exact ⟨hother, hP⟩

theorem isValidStructure_returns (tx : Transaction) :
    tx.isValidStructure = .ok () ∨ ∃ reason, tx.isValidStructure = .error (.reject reason) := by
  have hbind : ∀ {condition : Prop} [Decidable condition] (reason : String) (f : Unit → Check Unit),
      (f () = .ok () ∨ ∃ r, f () = .error (.reject r)) →
      ((Check.rejectIf condition reason >>= f) = .ok () ∨
        ∃ r, (Check.rejectIf condition reason >>= f) = .error (.reject r)) := by
    intro condition _ reason f hf
    by_cases hc : condition
    · exact Or.inr ⟨reason, by simp [Check.rejectIf, hc, bind, Except.bind]⟩
    · simpa [Check.rejectIf, hc, bind, Except.bind] using hf
  have hlast : ∀ {condition : Prop} [Decidable condition] (reason : String),
      Check.rejectIf condition reason = .ok () ∨
        ∃ r, Check.rejectIf condition reason = .error (.reject r) := by
    intro condition _ reason
    by_cases hc : condition
    · exact Or.inr ⟨reason, by simp [Check.rejectIf, hc]⟩
    · exact Or.inl (by simp [Check.rejectIf, hc])
  have hdust : ∀ (outs : List TxOutput) (i : ℕ), Transaction.checkDust i outs = .ok () ∨
      ∃ r, Transaction.checkDust i outs = .error (.reject r) := by
    intro outs
    induction outs with
    | nil => exact fun i => Or.inl rfl
    | cons out outs ih => exact fun i => hbind _ _ (ih (i + 1))
  unfold Transaction.isValidStructure
  iterate 6 apply hbind
  rcases hdust tx.outputs 0 with hok | ⟨r, hr⟩
  · rw [hok]
    exact hlast _
  · rw [hr]
    exact Or.inr ⟨r, rfl⟩

theorem stageStructure_passes : Passes (stageStructure txs) txs Transaction.WellFormed := by
  apply stage_passes
  intro tx _
  rcases isValidStructure_returns tx with hok | ⟨reason, hreason⟩
  · exact ⟨none, by simp [hok], by simp [← Transaction.isValidStructure_eq_ok tx (), hok]⟩
  · refine ⟨_, by simp only [hreason]; rfl, ?_⟩
    simp [← Transaction.isValidStructure_eq_ok tx (), hreason]

theorem stageFinal_passes (currentEpoch : ℤ) : Passes (stageFinal txs currentEpoch) txs
    fun tx => tx.epoch ≤ currentEpoch ∧ currentEpoch - 1 ≤ tx.epoch := by
  apply stage_passes
  intro tx _
  refine ⟨_, rfl, ?_⟩
  split_ifs with hfuture hexpired
  · simp [not_le.mpr hfuture]
  · simp [not_le.mpr hexpired]
  · simp [not_lt.mp hfuture, not_lt.mp hexpired]

/-- An output that is there, unspent and unlocked. -/
def Fine (currentEpoch : ℤ) (found : Option Utxo) : Prop :=
  ∃ u, found = some u ∧ u.isSpent = false ∧ u.output.lockEpoch ≤ currentEpoch

def Available (get : OutRef → Option Utxo) (currentEpoch : ℤ) (tx : Transaction) : Prop :=
  ∀ inp ∈ tx.inputs, Fine currentEpoch (get inp.ref)

theorem zip_lookups (utxoSet : ShardedUtxoSet) (txs : List Transaction) :
    (txs.flatMap fun tx => tx.inputs.map fun _ => tx).zip
        (utxoSet.batchLookup (txs.flatMap Transaction.refs)) =
      txs.flatMap fun tx => tx.inputs.map fun inp => (tx, utxoSet.getSection inp.ref) := by
  rw [ShardedUtxoSet.batchLookup_eq]
  induction txs with
  | nil => rfl
  | cons tx txs ih =>
    simp only [List.flatMap_cons, List.map_append]
    rw [List.zip_append (by simp [Transaction.refs]), ih]
    congr 1
    rw [Transaction.refs, List.map_map, ← List.zip_map']
    rfl

variable {hashOf : Transaction → Bytes}

theorem noteIssue_returns (currentEpoch : ℤ) (issues : OrderedDict Bytes String)
    {found : Transaction × Option Utxo} (hhash : found.1.txHash = .ok (hashOf found.1)) :
    ∃ issues', noteIssue currentEpoch issues found = .ok issues' ∧
      ∀ h, issues'.get? h = none ↔ issues.get? h = none ∧
        (hashOf found.1 = h → Fine currentEpoch found.2) := by
  have hset : ∀ (reason : String) (h : Bytes), ¬ Fine currentEpoch found.2 →
      ((issues.set (hashOf found.1) reason).get? h = none ↔
        issues.get? h = none ∧ (hashOf found.1 = h → Fine currentEpoch found.2)) := by
    intro reason h hbad
    rw [OrderedDict.get?_set]
    by_cases hh : h = hashOf found.1
    · simp [hh, hbad]
    · have hne : hashOf found.1 ≠ h := fun e => hh e.symm
      simp [hh, hne]
  simp only [noteIssue, hhash, bind, Except.bind, pure, Except.pure]
  by_cases hseen : issues.contains (hashOf found.1) = true
  · refine ⟨issues, if_pos hseen, fun h => ⟨fun hnone => ⟨hnone, ?_⟩, And.left⟩⟩
    rintro rfl
    rw [OrderedDict.contains, hnone] at hseen
    cases hseen
  · rw [if_neg hseen]
    refine ⟨_, rfl, fun h => ?_⟩
    split
    · rename_i hfound
      exact hset _ h (by simp [Fine, hfound])
    · rename_i u hfound
      split_ifs with hs hlock
      · exact hset _ h (by simp [Fine, hfound, hs])
      · exact hset _ h (by simp [Fine, hfound, hs, hlock])
      · have hfine : Fine currentEpoch found.2 := ⟨u, hfound, by simpa using hs, not_lt.mp hlock⟩
        exact ⟨fun hnone => ⟨hnone, fun _ => hfine⟩, And.left⟩

theorem foldlM_noteIssue (currentEpoch : ℤ) (founds : List (Transaction × Option Utxo))
    (hhash : ∀ p ∈ founds, p.1.txHash = .ok (hashOf p.1)) (issues : OrderedDict Bytes String) :
    ∃ issues', founds.foldlM (noteIssue currentEpoch) issues = .ok issues' ∧
      ∀ h, issues'.get? h = none ↔ issues.get? h = none ∧
        ∀ p ∈ founds, hashOf p.1 = h → Fine currentEpoch p.2 := by
  induction founds generalizing issues with
  | nil => exact ⟨issues, rfl, by simp⟩
  | cons found founds ih =>
    obtain ⟨next, hnext, hget⟩ :=
      noteIssue_returns currentEpoch issues (hhash found List.mem_cons_self)
    obtain ⟨last, hlast, hget'⟩ := ih (fun p hp => hhash p (List.mem_cons_of_mem _ hp)) next
    refine ⟨last, by simp [List.foldlM_cons, hnext, hlast, bind, Except.bind], fun h => ?_⟩
    rw [hget', hget]
    simp only [List.forall_mem_cons, and_assoc]

/-- With distinct hashes an issue falls on the transaction whose input has it. -/
theorem stageUtxo_passes (utxoSet : ShardedUtxoSet) (currentEpoch : ℤ)
    (hhash : ∀ tx ∈ txs, tx.txHash = .ok (hashOf tx)) (hdistinct : (txs.map hashOf).Nodup) :
    Passes (stageUtxo utxoSet txs currentEpoch) txs (Available utxoSet.getSection currentEpoch) := by
  have hfounds : ∀ p, p ∈ (txs.flatMap fun tx => tx.inputs.map fun inp =>
      (tx, utxoSet.getSection inp.ref)) ↔
      ∃ tx ∈ txs, ∃ inp ∈ tx.inputs, (tx, utxoSet.getSection inp.ref) = p := by
    intro p
    simp only [List.mem_flatMap, List.mem_map]
  obtain ⟨issues, hissues, hget⟩ := @foldlM_noteIssue hashOf currentEpoch
    (txs.flatMap fun tx => tx.inputs.map fun inp => (tx, utxoSet.getSection inp.ref)) (by
      intro p hp
      obtain ⟨tx, htx, inp, -, rfl⟩ := (hfounds p).mp hp
      exact hhash tx htx) ∅
  unfold stageUtxo
  simp only [zip_lookups, hissues, bind, Except.bind]
  apply stage_passes
  intro tx htx
  refine ⟨issues.get? (hashOf tx), by simp only [hhash tx htx]; rfl, ?_⟩
  rw [hget]
  constructor
  · rintro ⟨-, hall⟩ inp hinp
    exact hall _ ((hfounds _).mpr ⟨tx, htx, inp, hinp, rfl⟩) rfl
  · intro havail
    refine ⟨rfl, fun p hp heq => ?_⟩
    obtain ⟨other, hother, inp, hinp, rfl⟩ := (hfounds p).mp hp
    obtain rfl := List.inj_on_of_nodup_map hdistinct hother htx heq
    exact havail inp hinp

open BatchWotsVerifier

def itemsOf (signingHash txHash : Bytes) (tx : Transaction) : List (SignatureItem × Bytes) :=
  tx.inputs.map fun inp => ((signingHash, inp.signature, inp.publicKey), txHash)

theorem collectItems_eq {signingHashes : Option (List Bytes)} {acc : List (SignatureItem × Bytes)}
    {tx : Transaction} {signingHash txHash : Bytes}
    (hitem : itemHash signingHashes acc.length tx = .ok signingHash) (hhash : tx.txHash = .ok txHash) :
    collectItems signingHashes acc tx = .ok (acc ++ itemsOf signingHash txHash tx) := by
  have hmapped : (tx.inputs.mapM fun inp => do
      return ((signingHash, inp.signature, inp.publicKey), ← tx.txHash)) =
      (.ok (itemsOf signingHash txHash tx) : Except PyError _) := by
    apply Except.mapM_eq_ok_map
    intro inp _
    rw [hhash]
    rfl
  rw [collectItems, hitem]
  exact Except.bind_eq_ok.mpr ⟨_, rfl, Except.bind_eq_ok.mpr ⟨_, hmapped, rfl⟩⟩

theorem foldlM_collectItems_none (hhash : ∀ tx ∈ txs, tx.txHash = .ok (hashOf tx))
    (acc : List (SignatureItem × Bytes)) :
    txs.foldlM (collectItems none) acc =
      .ok (acc ++ txs.flatMap fun tx => itemsOf (hashOf tx) (hashOf tx) tx) := by
  induction txs generalizing acc with
  | nil => simp [pure, Except.pure]
  | cons tx txs ih =>
    have htx := hhash tx List.mem_cons_self
    have hitem : itemHash none acc.length tx = .ok (hashOf tx) := htx
    rw [List.foldlM_cons, collectItems_eq hitem htx, List.flatMap_cons, ← List.append_assoc]
    exact ih (fun other hother => hhash other (List.mem_cons_of_mem _ hother)) _

theorem flatMap_itemsOf_eq_nil_iff (signingHash : Transaction → Bytes) :
    (txs.flatMap fun tx => itemsOf (signingHash tx) (hashOf tx) tx) = [] ↔
      ∀ tx ∈ txs, tx.inputs = [] := by
  simp only [List.flatMap_eq_nil_iff, itemsOf, List.map_eq_nil_iff]

theorem get?_aggregate (txMapping : List Bytes) (results : List (ℕ × Bool)) (h : Bytes) :
    (aggregate txMapping results).get? h =
      if ∃ r ∈ results, txMapping[r.1]? = some h ∧ r.2 = false then some false else none := by
  have hfold : ∀ (results : List (ℕ × Bool)) (d : OrderedDict Bytes Bool),
      (results.foldl (recordResult txMapping) d).get? h =
        if ∃ r ∈ results, txMapping[r.1]? = some h ∧ r.2 = false then some false
        else d.get? h := by
    intro results
    induction results with
    | nil => exact fun d => rfl
    | cons result results ih =>
      intro d
      have hstep : (recordResult txMapping d result).get? h =
          if txMapping[result.1]? = some h ∧ result.2 = false then some false else d.get? h := by
        unfold recordResult
        cases hmap : txMapping[result.1]? with
        | none => simp
        | some txHash =>
          cases hres : result.2 with
          | true => simp
          | false => simp [OrderedDict.get?_set, eq_comm]
      rw [List.foldl_cons, ih, hstep]
      simp only [List.exists_mem_cons_iff]
      by_cases hrest : ∃ r ∈ results, txMapping[r.1]? = some h ∧ r.2 = false
      · simp only [hrest, or_true, if_true]
      · simp only [hrest, or_false, if_false]
  exact hfold results ∅

theorem getD_aggregate (txMapping : List Bytes) (results : List (ℕ × Bool)) (h : Bytes) :
    (aggregate txMapping results).getD h false = false := by
  rw [OrderedDict.getD, get?_aggregate]
  split_ifs <;> rfl

theorem stageSignature_passes (hhash : ∀ tx ∈ txs, tx.txHash = .ok (hashOf tx)) :
    Passes (stageSignature txs) txs fun _ => ∀ other ∈ txs, other.inputs = [] := by
  have hitems := foldlM_collectItems_none hhash []
  have hempty := @flatMap_itemsOf_eq_nil_iff txs hashOf hashOf
  rw [List.nil_append] at hitems
  generalize (txs.flatMap fun tx => itemsOf (hashOf tx) (hashOf tx) tx) = items at hitems hempty
  by_cases hnone : items = []
  · have hhashes : txs.mapM Transaction.txHash = Except.ok (txs.map hashOf) :=
      Except.mapM_eq_ok_map hhash
    simp only [stageSignature, verifyTransactions, hitems, hnone, if_true, hhashes, bind,
      Except.bind, pure, Except.pure]
    apply stage_passes
    intro tx htx
    refine ⟨none, ?_, by simpa using hempty.mp hnone⟩
    simp [hhash tx htx, OrderedDict.getD, OrderedDict.get?_ofKeys, List.mem_map_of_mem htx]
  · simp only [stageSignature, verifyTransactions, hitems, hnone, if_false, bind, Except.bind,
      pure, Except.pure]
    apply stage_passes
    intro tx htx
    refine ⟨some "signature: invalid", by simp [hhash tx htx, getD_aggregate], ?_⟩
    simpa [← hempty] using hnone

theorem passes_of_empty {result : Except PyError Split} {invalid : List (Transaction × String)}
    (hresult : result = .ok ([], invalid)) (hP : ∀ tx ∈ txs, ¬ P tx) : Passes result txs P :=
  ⟨[], invalid, hresult, List.nil_sublist _, fun tx => by simpa using hP tx⟩

/-- No transaction that comes as far as the signatures has inputs. -/
def NoInputsLeft (get : OutRef → Option Utxo) (currentEpoch : ℤ) (txs : List Transaction) : Prop :=
  ∀ tx ∈ txs, tx.WellFormed → Available get currentEpoch tx → tx.inputs = []

theorem processBatch_passes (utxoSet : ShardedUtxoSet) (currentEpoch : ℤ)
    (hhash : ∀ tx ∈ txs, tx.txHash = .ok (hashOf tx)) (hdistinct : (txs.map hashOf).Nodup) :
    Passes (processBatch utxoSet txs currentEpoch) txs fun tx =>
      Ledger.Admissible tx currentEpoch ∧ Available utxoSet.getSection currentEpoch tx ∧
        NoInputsLeft utxoSet.getSection currentEpoch txs := by
  obtain ⟨valid₁, invalid₁, h₁, hsub₁, hmem₁⟩ := @stageStructure_passes txs
  have hhash₁ : ∀ tx ∈ valid₁, tx.txHash = .ok (hashOf tx) :=
    fun tx htx => hhash tx (hsub₁.subset htx)
  obtain ⟨valid₂, invalid₂, h₂, hsub₂, hmem₂⟩ := stageUtxo_passes utxoSet currentEpoch hhash₁
    ((hsub₁.map hashOf).nodup hdistinct)
  have hhash₂ : ∀ tx ∈ valid₂, tx.txHash = .ok (hashOf tx) :=
    fun tx htx => hhash₁ tx (hsub₂.subset htx)
  obtain ⟨valid₃, invalid₃, h₃, hsub₃, hmem₃⟩ := stageSignature_passes hhash₂
  obtain ⟨valid₄, invalid₄, h₄, hsub₄, hmem₄⟩ := @stageFinal_passes valid₃ currentEpoch
  have hleft : (∀ other ∈ valid₂, other.inputs = []) ↔
      NoInputsLeft utxoSet.getSection currentEpoch txs := by
    simp only [NoInputsLeft, hmem₂, hmem₁, and_imp]
  have hall : ∀ tx, tx ∈ valid₄ ↔ tx ∈ txs ∧ Ledger.Admissible tx currentEpoch ∧
      Available utxoSet.getSection currentEpoch tx ∧
      NoInputsLeft utxoSet.getSection currentEpoch txs := by
    intro tx
    rw [hmem₄, hmem₃, hmem₂, hmem₁, hleft]
    constructor
    · rintro ⟨⟨⟨⟨htx, hwf⟩, havail⟩, hnone⟩, hle, hge⟩
      exact ⟨htx, ⟨hwf, hle, hge⟩, havail, hnone⟩
    · rintro ⟨htx, hadm, havail, hnone⟩
      exact ⟨⟨⟨⟨htx, hadm.wellFormed⟩, havail⟩, hnone⟩, hadm.notFuture, hadm.notExpired⟩
  have hdry : valid₄ = [] → ∀ tx ∈ txs, ¬ (Ledger.Admissible tx currentEpoch ∧
      Available utxoSet.getSection currentEpoch tx ∧
      NoInputsLeft utxoSet.getSection currentEpoch txs) := by
    rintro hempty tx htx hP
    have hmem := (hall tx).mpr ⟨htx, hP⟩
    rw [hempty] at hmem
    exact List.not_mem_nil hmem
  have hempty₃ : valid₃ = [] → valid₄ = [] := by
    rintro rfl
    exact List.sublist_nil.mp hsub₄
  have hempty₂ : valid₂ = [] → valid₃ = [] := by
    rintro rfl
    exact List.sublist_nil.mp hsub₃
  have hempty₁ : valid₁ = [] → valid₂ = [] := by
    rintro rfl
    exact List.sublist_nil.mp hsub₂
  unfold processBatch
  simp only [h₁, bind, Except.bind, pure, Except.pure]
  by_cases he₁ : valid₁ = []
  · rw [if_pos he₁]
    exact passes_of_empty rfl (hdry (hempty₃ (hempty₂ (hempty₁ he₁))))
  · simp only [he₁, if_false, h₂]
    by_cases he₂ : valid₂ = []
    · rw [if_pos he₂]
      exact passes_of_empty rfl (hdry (hempty₃ (hempty₂ he₂)))
    · simp only [he₂, if_false, h₃]
      by_cases he₃ : valid₃ = []
      · rw [if_pos he₃]
        exact passes_of_empty rfl (hdry (hempty₃ he₃))
      · simp only [he₃, if_false, h₄]
        exact ⟨valid₄, _, rfl, ((hsub₄.trans hsub₃).trans hsub₂).trans hsub₁, hall⟩

end TransactionPipeline

end Qrtb
