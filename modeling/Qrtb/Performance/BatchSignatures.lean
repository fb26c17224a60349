import Qrtb.Performance.PipelineAgreement

/-!
# Reports of the batch verifier (`src/performance.py`)

The futures of a batch complete in any order; sorting by index undoes it. What is
grouped by transaction are the failures alone, so the report covers a batch only where
there is nothing but failures or nothing to verify. Given hashes are read at the number
of inputs of the earlier transactions.
-/

namespace Qrtb

namespace BatchWotsVerifier

open Ledger (funding spending exists_fundingHash packable_spending)
open TransactionPipeline

/-- The results as the futures complete. -/
def completed (items : List SignatureItem) (order : List ℕ) : List (ℕ × Bool) :=
  order.filterMap fun i => items[i]?.map fun item => (i, verifySingle item)

/-- `verify_batch`, sorting by the index of the item. -/
def verifyBatchIn (order : List ℕ) (items : List SignatureItem) : List (ℕ × Bool) :=
  (completed items order).mergeSort fun a b => a.1 ≤ b.1

def verifyTransactionsIn (order : List ℕ) (transactions : List Transaction)
    (signingHashes : Option (List Bytes)) : Except PyError (OrderedDict Bytes Bool) := do
  let items ← transactions.foldlM (collectItems signingHashes) []
  if items = [] then
    return OrderedDict.ofKeys (fun _ => true) (← transactions.mapM Transaction.txHash)
  else return aggregate (items.map Prod.snd) (verifyBatchIn order (items.map Prod.fst))

theorem mem_verifyBatch {items : List SignatureItem} {r : ℕ × Bool} :
    r ∈ verifyBatch items ↔ ∃ item, items[r.1]? = some item ∧ verifySingle item = r.2 := by
  rw [verifyBatch, List.mem_map]
  constructor
  · rintro ⟨p, hp, rfl⟩
    exact ⟨p.1, List.mem_zipIdx_iff_getElem?.mp hp, rfl⟩
  · rintro ⟨item, hitem, hr⟩
    exact ⟨(item, r.1), List.mem_zipIdx_iff_getElem?.mpr hitem, Prod.ext rfl hr⟩

theorem verifyBatch_eq_completed (items : List SignatureItem) :
    verifyBatch items = completed items (List.range items.length) := by
  unfold completed
  induction items using List.reverseRecOn with
  | nil => rfl
  | append_singleton items item ih =>
    have hfront : ∀ i ∈ List.range items.length,
        ((items ++ [item])[i]?.map fun item => (i, verifySingle item)) =
          items[i]?.map fun item => (i, verifySingle item) := by
      intro i hi
      rw [List.getElem?_append_left (List.mem_range.mp hi)]
    rw [List.length_append, List.length_singleton, List.range_succ, List.filterMap_append,
      List.filterMap_congr hfront, ← ih, verifyBatch, List.zipIdx_append, List.map_append]
    simp [verifyBatch]

theorem pairwise_verifyBatch (items : List SignatureItem) :
    (verifyBatch items).Pairwise fun a b => a.1 ≤ b.1 := by
  rw [verifyBatch_eq_completed, completed, List.pairwise_filterMap]
  apply List.pairwise_lt_range.imp
  intro i j hij a ha b hb
  obtain ⟨_, _, rfl⟩ := Option.map_eq_some_iff.mp ha
  obtain ⟨_, _, rfl⟩ := Option.map_eq_some_iff.mp hb
  exact hij.le

theorem pairwise_verifyBatchIn (order : List ℕ) (items : List SignatureItem) :
    (verifyBatchIn order items).Pairwise fun a b => a.1 ≤ b.1 := by
  have hsorted := @List.pairwise_mergeSort (ℕ × Bool) (fun a b => a.1 ≤ b.1)
    (by simpa using fun _ _ _ => Nat.le_trans) (by simpa using fun _ _ => Nat.le_total _ _)
    (completed items order)
  unfold verifyBatchIn
  simpa using hsorted

theorem verifyBatchIn_eq {order : List ℕ} {items : List SignatureItem}
    (horder : order.Perm (List.range items.length)) :
    verifyBatchIn order items = verifyBatch items := by
  have hperm : (verifyBatchIn order items).Perm (verifyBatch items) := by
    rw [verifyBatch_eq_completed]
    exact (List.mergeSort_perm _ _).trans (horder.filterMap _)
  apply hperm.eq_of_pairwise _ (pairwise_verifyBatchIn order items) (pairwise_verifyBatch items)
  intro a b ha hb hab hba
  obtain ⟨item, hitem, hvalid⟩ := mem_verifyBatch.mp (hperm.subset ha)
  obtain ⟨item', hitem', hvalid'⟩ := mem_verifyBatch.mp hb
  have hindex : a.1 = b.1 := Nat.le_antisymm hab hba
  rw [hindex, hitem'] at hitem
  obtain rfl := Option.some.inj hitem
  exact Prod.ext hindex (hvalid.symm.trans hvalid')

section Report

variable {batch : List Transaction} {hashOf : Transaction → Bytes} {order : List ℕ}
  {signingHashes : Option (List Bytes)} {items : List (SignatureItem × Bytes)}

/-- An item of the transactions with a hash failed. -/
def HasFailure (items : List (SignatureItem × Bytes)) (h : Bytes) : Prop :=
  ∃ item ∈ items, item.2 = h ∧ verifySingle item.1 = false

instance (items : List (SignatureItem × Bytes)) (h : Bytes) : Decidable (HasFailure items h) :=
  inferInstanceAs (Decidable (∃ item ∈ items, item.2 = h ∧ verifySingle item.1 = false))

theorem exists_result_iff (h : Bytes) :
    (∃ r ∈ verifyBatch (items.map Prod.fst), (items.map Prod.snd)[r.1]? = some h ∧ r.2 = false) ↔
      HasFailure items h := by
  constructor
  · rintro ⟨r, hr, hmap, hfalse⟩
    obtain ⟨item, hitem, hvalid⟩ := mem_verifyBatch.mp hr
    rw [List.getElem?_map, Option.map_eq_some_iff] at hitem hmap
    obtain ⟨mapped, hget, rfl⟩ := hitem
    obtain ⟨mapped', hget', rfl⟩ := hmap
    rw [hget] at hget'
    obtain rfl := Option.some.inj hget'
    exact ⟨mapped, List.mem_of_getElem? hget, rfl, hvalid.trans hfalse⟩
  · rintro ⟨mapped, hmem, rfl, hfalse⟩
    obtain ⟨i, hi⟩ := List.mem_iff_getElem?.mp hmem
    refine ⟨(i, false), mem_verifyBatch.mpr ⟨mapped.1, ?_, hfalse⟩, ?_, rfl⟩
    · rw [List.getElem?_map, hi, Option.map_some]
    · rw [List.getElem?_map, hi, Option.map_some]

theorem exists_report (hhash : ∀ tx ∈ batch, tx.txHash = .ok (hashOf tx))
    (hitems : batch.foldlM (collectItems signingHashes) [] = .ok items)
    (horder : order.Perm (List.range items.length)) :
    ∃ txValid, verifyTransactionsIn order batch signingHashes = .ok txValid ∧
      ∀ h, txValid.get? h =
        if items = [] then if h ∈ batch.map hashOf then some true else none
        else if HasFailure items h then some false else none := by
  have hlen : (items.map Prod.fst).length = items.length := List.length_map _
  rw [← hlen] at horder
  rw [verifyTransactionsIn, hitems]
  by_cases hnone : items = []
  · refine ⟨OrderedDict.ofKeys (fun _ => true) (batch.map hashOf), ?_, ?_⟩
    · rw [Except.mapM_eq_ok_map hhash, hnone]
      rfl
    · intro h
      rw [if_pos hnone, OrderedDict.get?_ofKeys]
      split_ifs <;> rfl
  · refine ⟨aggregate (items.map Prod.snd) (verifyBatchIn order (items.map Prod.fst)), ?_, ?_⟩
    · exact if_neg hnone
    · intro h
      rw [if_neg hnone, verifyBatchIn_eq horder, get?_aggregate]
      exact if_congr (exists_result_iff h) rfl rfl

/-- The items of a batch whose hashes are computed. -/
def ownItems (hashOf : Transaction → Bytes) (batch : List Transaction) :
    List (SignatureItem × Bytes) :=
  batch.flatMap fun tx => itemsOf (hashOf tx) (hashOf tx) tx

theorem exists_own_report (hhash : ∀ tx ∈ batch, tx.txHash = .ok (hashOf tx))
    (horder : order.Perm (List.range (batch.flatMap Transaction.inputs).length)) :
    ∃ txValid, verifyTransactionsIn order batch none = .ok txValid ∧
      ∀ h, txValid.get? h =
        if ∀ tx ∈ batch, tx.inputs = [] then if h ∈ batch.map hashOf then some true else none
        else if HasFailure (ownItems hashOf batch) h then some false else none := by
  have hitems := foldlM_collectItems_none hhash []
  rw [List.nil_append] at hitems
  have hlen : (batch.flatMap fun tx => itemsOf (hashOf tx) (hashOf tx) tx).length =
      (batch.flatMap Transaction.inputs).length := by
    simp only [List.length_flatMap, itemsOf, List.length_map]
  rw [← hlen] at horder
  obtain ⟨txValid, hresult, hget⟩ := exists_report hhash hitems horder
  simp only [flatMap_itemsOf_eq_nil_iff] at hget
  exact ⟨txValid, hresult, hget⟩

/-- Every signature of the transaction verifies under its signing hash. -/
def Signed (tx : Transaction) : Prop :=
  ∃ signingHash, tx.signingHash = .ok signingHash ∧
    ∀ inp ∈ tx.inputs, Wots.verify signingHash inp.signature inp.publicKey = true

instance (tx : Transaction) : Decidable (Signed tx) :=
  decidable_of_iff
    ((tx.signingHash.toOption.map fun signingHash =>
      decide (∀ inp ∈ tx.inputs, Wots.verify signingHash inp.signature inp.publicKey = true)) =
      some true) <|
    by cases h : tx.signingHash <;> simp [Signed, h, Except.toOption]

/-- There is an entry for every transaction of the batch, and it is true just for signed ones. -/
def Reports (txValid : OrderedDict Bytes Bool) (batch : List Transaction) : Prop :=
  ∀ tx ∈ batch, ∃ txHash valid, tx.txHash = .ok txHash ∧ txValid.get? txHash = some valid ∧
    (valid = true ↔ Signed tx)

theorem hasFailure_iff (hhash : ∀ tx ∈ batch, tx.txHash = .ok (hashOf tx))
    (hdistinct : (batch.map hashOf).Nodup) {tx : Transaction} (htx : tx ∈ batch) :
    HasFailure (ownItems hashOf batch) (hashOf tx) ↔ ¬ Signed tx := by
  have hsigned : Signed tx ↔
      ∀ inp ∈ tx.inputs, Wots.verify (hashOf tx) inp.signature inp.publicKey = true := by
    have hsigning : tx.signingHash = .ok (hashOf tx) := hhash tx htx
    constructor
    · rintro ⟨signingHash, hh, hall⟩
      obtain rfl := Except.ok.inj (hh.symm.trans hsigning)
      exact hall
    · exact fun hall => ⟨_, hsigning, hall⟩
  rw [hsigned]
  constructor
  · rintro ⟨item, hmem, hhashes, hfalse⟩ hall
    obtain ⟨other, hother, hitem⟩ := List.mem_flatMap.mp hmem
    obtain ⟨inp, hinp, rfl⟩ := List.mem_map.mp hitem
    obtain rfl := List.inj_on_of_nodup_map hdistinct hother htx hhashes
    exact absurd (hall inp hinp) (by simpa [verifySingle] using hfalse)
  · intro hnot
    push Not at hnot
    obtain ⟨inp, hinp, hfalse⟩ := hnot
    exact ⟨_, List.mem_flatMap.mpr ⟨tx, htx, List.mem_map.mpr ⟨inp, hinp, rfl⟩⟩, rfl,
      by simpa [verifySingle] using hfalse⟩

/-- The report is complete and exact just for a batch without inputs, and for one in which
every transaction has a signature that does not verify. -/
theorem verifyTransactions_reports_iff (hdistinct : DistinctHashes batch)
    (horder : order.Perm (List.range (batch.flatMap Transaction.inputs).length)) :
    (∃ txValid, verifyTransactionsIn order batch none = .ok txValid ∧ Reports txValid batch) ↔
      (∀ tx ∈ batch, tx.inputs = []) ∨ ∀ tx ∈ batch, ¬ Signed tx := by
  obtain ⟨hashOf, hhash, hnodup⟩ := hdistinct.exists_hashOf
  obtain ⟨txValid, hresult, hget⟩ := exists_own_report hhash horder
  constructor
  · rintro ⟨txValid', hresult', hreports⟩
    obtain rfl := Except.ok.inj (hresult.symm.trans hresult')
    by_cases hnone : ∀ tx ∈ batch, tx.inputs = []
    · exact Or.inl hnone
    · refine Or.inr fun tx htx hsigned => ?_
      obtain ⟨txHash, valid, hh, hentry, -⟩ := hreports tx htx
      obtain rfl := Except.ok.inj (hh.symm.trans (hhash tx htx))
      rw [hget, if_neg hnone, if_neg fun hf => (hasFailure_iff hhash hnodup htx).mp hf hsigned]
        at hentry
      cases hentry
  · intro hcases
    refine ⟨txValid, hresult, fun tx htx => ?_⟩
    have hkey := hget (hashOf tx)
    by_cases hnone : ∀ tx ∈ batch, tx.inputs = []
    · have hmem : hashOf tx ∈ batch.map hashOf := List.mem_map_of_mem htx
      have hsigned : Signed tx := ⟨_, hhash tx htx, by simp [hnone tx htx]⟩
      rw [if_pos hnone, if_pos hmem] at hkey
      exact ⟨_, true, hhash tx htx, hkey, iff_of_true rfl hsigned⟩
    · have hunsigned := hcases.resolve_left hnone tx htx
      rw [if_neg hnone, if_pos ((hasFailure_iff hhash hnodup htx).mpr hunsigned)] at hkey
      exact ⟨_, false, hhash tx htx, hkey, iff_of_false Bool.false_ne_true hunsigned⟩

def transferOf (refs : List OutRef) : Transaction :=
  spending .transfer refs none { value := 900000, address := [] } 0

/-- The same with a signature of zero bytes beside the key of the empty seed. -/
def forgedTransferOf (refs : List OutRef) : Transaction :=
  { transferOf refs with
    inputs := (transferOf refs).inputs.map fun inp =>
      { inp with signature := List.replicate 2144 0, publicKey := List.replicate 2144 0 } }

/-- Two forged transfers of three outputs together, whose futures complete out of order. -/
theorem verifyTransactions_reports_forged :
    ∃ txValid, verifyTransactionsIn [2, 0, 1]
        [forgedTransferOf [([7], 0), ([7], 1)], forgedTransferOf [([8], 0)]] none = .ok txValid ∧
      Reports txValid [forgedTransferOf [([7], 0), ([7], 1)], forgedTransferOf [([8], 0)]] := by
  apply (verifyTransactions_reports_iff (by decide +kernel) (by decide)).mpr
  right
  intro tx htx
  obtain rfl | rfl := List.mem_pair.mp htx
  · decide +kernel
  · decide +kernel

theorem exists_hash_transferOf (refs : List OutRef) (hlen : refs.length ≤ 2)
    (hidx : ∀ k ∈ refs, 0 ≤ k.2 ∧ k.2 < 256 ^ 8) : ∃ h, (transferOf refs).txHash = .ok h :=
  (Transaction.txHash_returns _).mpr
    (packable_spending hlen hidx (by decide) (by decide) (by decide) (by decide))

theorem exists_hashes_transferOf (first second : List OutRef)
    (hfirst : first.length ≤ 2 ∧ ∀ k ∈ first, 0 ≤ k.2 ∧ k.2 < 256 ^ 8)
    (hsecond : second.length ≤ 2 ∧ ∀ k ∈ second, 0 ≤ k.2 ∧ k.2 < 256 ^ 8) :
    ∃ hashes, [transferOf first, transferOf second].mapM Transaction.signingHash = .ok hashes := by
  apply Except.returns_mapM.mpr
  simp only [List.forall_mem_cons, List.not_mem_nil, false_imp_iff, implies_true, and_true]
  exact ⟨exists_hash_transferOf first hfirst.1 hfirst.2,
    exists_hash_transferOf second hsecond.1 hsecond.2⟩

/-- A signed transfer alone in its batch has no entry. -/
theorem verifyTransactions_omits_signed :
    DistinctHashes [(transferOf [([7], 0)]).signedBy []] ∧
      Signed ((transferOf [([7], 0)]).signedBy []) ∧
      ∃ txValid, verifyTransactionsIn [0] [(transferOf [([7], 0)]).signedBy []] none = .ok txValid ∧
        (∀ h, txValid.get? h = none) ∧
        ¬ Reports txValid [(transferOf [([7], 0)]).signedBy []] := by
  obtain ⟨h, hh⟩ := exists_hash_transferOf [([7], 0)] (by decide) (by decide)
  have htx : ((transferOf [([7], 0)]).signedBy []).txHash = .ok h := by
    rw [Transaction.txHash_signedBy, hh]
  have hinputs : ((transferOf [([7], 0)]).signedBy []).inputs.length = 1 := by
    rw [Transaction.signedBy_eq _ _ hh]
    rfl
  have hvalid : ∀ inp ∈ ((transferOf [([7], 0)]).signedBy []).inputs,
      Wots.verify h inp.signature inp.publicKey = true := by
    intro inp hinp
    rw [Transaction.signedBy_eq _ _ hh] at hinp
    obtain ⟨bare, -, rfl⟩ := List.mem_map.mp hinp
    exact Wots.verify_sign h []
  generalize (transferOf [([7], 0)]).signedBy [] = tx at htx hinputs hvalid
  have hdistinct : DistinctHashes [tx] := by
    refine ⟨[h], ?_, List.nodup_singleton h⟩
    rw [List.mapM_cons, htx]
    rfl
  have hhash : ∀ tx' ∈ [tx], tx'.txHash = .ok ((fun _ => h) tx') := by
    intro tx' htx'
    rw [List.mem_singleton.mp htx', htx]
  have horder : [0].Perm (List.range ([tx].flatMap Transaction.inputs).length) := by
    rw [List.flatMap_singleton, hinputs]
    rfl
  obtain ⟨txValid, hresult, hget⟩ := exists_own_report hhash horder
  have hnone : ∀ k, txValid.get? k = none := by
    intro k
    have hsome : ¬ ∀ tx' ∈ [tx], tx'.inputs = [] := by
      intro hall
      rw [hall tx List.mem_cons_self] at hinputs
      cases hinputs
    have hall : ¬ HasFailure (ownItems (fun _ => h) [tx]) k := by
      rintro ⟨item, hitem, -, hfalse⟩
      rw [ownItems, List.flatMap_singleton] at hitem
      obtain ⟨inp, hinp, rfl⟩ := List.mem_map.mp hitem
      exact Bool.false_ne_true (hfalse.symm.trans (hvalid inp hinp))
    rw [hget, if_neg hsome, if_neg hall]
  refine ⟨hdistinct, ⟨h, htx, hvalid⟩, txValid, hresult, hnone, fun hreports => ?_⟩
  obtain ⟨txHash, valid, -, hentry, -⟩ := hreports tx List.mem_cons_self
  rw [hnone] at hentry
  cases hentry

/-- The number of inputs of the transactions before a place. -/
def inputsBefore (batch : List Transaction) (i : ℕ) : ℕ :=
  ((batch.take i).flatMap Transaction.inputs).length

theorem inputsBefore_succ (tx : Transaction) (batch : List Transaction) (i : ℕ) :
    inputsBefore (tx :: batch) (i + 1) = tx.inputs.length + inputsBefore batch i := by
  rw [inputsBefore, List.take_succ_cons, List.flatMap_cons, List.length_append, inputsBefore]

theorem inputsBefore_of_single (hsingle : ∀ tx ∈ batch, tx.inputs.length = 1) {i : ℕ}
    (hi : i ≤ batch.length) : inputsBefore batch i = i := by
  induction batch generalizing i with
  | nil => rw [Nat.le_zero.mp hi, inputsBefore, List.take_zero]; rfl
  | cons tx batch ih =>
    obtain ⟨htx, hrest⟩ := List.forall_mem_cons.mp hsingle
    cases i with
    | zero => rfl
    | succ i => rw [inputsBefore_succ, htx, ih hrest (Nat.le_of_succ_le_succ hi), Nat.add_comm]

theorem length_itemsOf (signingHash txHash : Bytes) (tx : Transaction) :
    (itemsOf signingHash txHash tx).length = tx.inputs.length :=
  List.length_map _

section GivenHashes

variable {hashes : List Bytes}

theorem itemHash_of_getElem? {collected : ℕ} {signingHash : Bytes}
    (h : hashes[collected]? = some signingHash) (tx : Transaction) :
    itemHash (some hashes) collected tx = .ok signingHash := by
  cases hashes with
  | nil => cases h
  | cons first rest => simp only [itemHash, h]

theorem itemHash_of_length_le {collected : ℕ} (hne : hashes ≠ []) (h : hashes.length ≤ collected)
    (tx : Transaction) : itemHash (some hashes) collected tx = .error .indexError := by
  cases hashes with
  | nil => exact absurd rfl hne
  | cons first rest => simp only [itemHash, List.getElem?_eq_none h]

theorem foldlM_collectItems_some (hhash : ∀ tx ∈ batch, tx.txHash = .ok (hashOf tx))
    (acc : List (SignatureItem × Bytes))
    (hcount : ∀ i < batch.length, acc.length + inputsBefore batch i < hashes.length) :
    ∃ items, batch.foldlM (collectItems (some hashes)) acc = .ok (acc ++ items) ∧
      items.length = (batch.flatMap Transaction.inputs).length ∧
      ∀ item, item ∈ items ↔ ∃ i tx signingHash, batch[i]? = some tx ∧
        hashes[acc.length + inputsBefore batch i]? = some signingHash ∧
        item ∈ itemsOf signingHash (hashOf tx) tx := by
  induction batch generalizing acc with
  | nil => exact ⟨[], by simp [pure, Except.pure], rfl, by simp⟩
  | cons tx batch ih =>
    have hread : acc.length < hashes.length := hcount 0 (Nat.zero_lt_succ _)
    have hget := List.getElem?_eq_getElem hread
    have hfirst := collectItems_eq (itemHash_of_getElem? hget tx) (hhash tx List.mem_cons_self)
    have hnext : (acc ++ itemsOf hashes[acc.length] (hashOf tx) tx).length =
        acc.length + tx.inputs.length := by
      rw [List.length_append, length_itemsOf]
    have hplace : ∀ i, acc.length + inputsBefore (tx :: batch) (i + 1) =
        acc.length + tx.inputs.length + inputsBefore batch i := by
      intro i
      rw [inputsBefore_succ, Nat.add_assoc]
    obtain ⟨items, hitems, hlen, hmem⟩ := ih
      (fun other hother => hhash other (List.mem_cons_of_mem _ hother))
      (acc ++ itemsOf hashes[acc.length] (hashOf tx) tx) (by
        intro i hi
        rw [hnext, ← hplace]
        exact hcount (i + 1) (Nat.succ_lt_succ hi))
    refine ⟨itemsOf hashes[acc.length] (hashOf tx) tx ++ items, ?_, ?_, fun item => ?_⟩
    · rw [List.foldlM_cons, hfirst, ← List.append_assoc]
      exact hitems
    · rw [List.length_append, length_itemsOf, hlen, List.flatMap_cons, List.length_append]
    · rw [List.mem_append, hmem, hnext]
      constructor
      · rintro (hhead | ⟨i, other, signingHash, hother, hsigning, hitem⟩)
        · exact ⟨0, tx, _, rfl, hget, hhead⟩
        · exact ⟨i + 1, other, signingHash, hother, by rwa [hplace], hitem⟩
      · rintro ⟨i, other, signingHash, hother, hsigning, hitem⟩
        cases i with
        | zero =>
          obtain rfl := Option.some.inj hother
          obtain rfl := Option.some.inj (hget.symm.trans hsigning)
          exact Or.inl hitem
        | succ i =>
          rw [hplace] at hsigning
          exact Or.inr ⟨i, other, signingHash, hother, hsigning, hitem⟩

/-- A read behind the end of the list raises, also for a transaction without inputs. -/
theorem foldlM_collectItems_raises (hhash : ∀ tx ∈ batch, tx.txHash = .ok (hashOf tx))
    (hne : hashes ≠ []) (acc : List (SignatureItem × Bytes))
    (hcount : ∃ i < batch.length, hashes.length ≤ acc.length + inputsBefore batch i) :
    batch.foldlM (collectItems (some hashes)) acc = .error .indexError := by
  induction batch generalizing acc with
  | nil =>
    obtain ⟨i, hi, -⟩ := hcount
    cases hi
  | cons tx batch ih =>
    rw [List.foldlM_cons]
    by_cases hread : acc.length < hashes.length
    · have hget := List.getElem?_eq_getElem hread
      have hfirst := collectItems_eq (itemHash_of_getElem? hget tx) (hhash tx List.mem_cons_self)
      rw [hfirst]
      apply ih fun other hother => hhash other (List.mem_cons_of_mem _ hother)
      obtain ⟨i, hi, hle⟩ := hcount
      cases i with
      | zero => exact absurd hle (not_le.mpr hread)
      | succ i =>
        refine ⟨i, Nat.lt_of_succ_lt_succ hi, ?_⟩
        rw [inputsBefore_succ] at hle
        rw [List.length_append, length_itemsOf]
        omega
    · rw [collectItems, itemHash_of_length_le hne (not_lt.mp hread)]
      rfl

theorem verifyTransactionsIn_raises (hhash : ∀ tx ∈ batch, tx.txHash = .ok (hashOf tx))
    (hne : hashes ≠ [])
    (hcount : ∃ i < batch.length, hashes.length ≤ inputsBefore batch i) :
    verifyTransactionsIn order batch (some hashes) = .error .indexError := by
  rw [verifyTransactionsIn, foldlM_collectItems_raises hhash hne [] (by simpa using hcount)]
  rfl

/-- A transaction with this hash has a signature that does not verify under the hash that is
given at the place read for it. -/
def FailsAt (hashes : List Bytes) (batch : List Transaction) (place : ℕ → ℕ) (h : Bytes) : Prop :=
  ∃ i tx signingHash, batch[i]? = some tx ∧ tx.txHash = .ok h ∧
    hashes[place i]? = some signingHash ∧
    ∃ inp ∈ tx.inputs, Wots.verify signingHash inp.signature inp.publicKey = false

theorem hasFailure_itemsOf_iff {signingHash txHash h : Bytes} {tx : Transaction} :
    HasFailure (itemsOf signingHash txHash tx) h ↔ txHash = h ∧
      ∃ inp ∈ tx.inputs, Wots.verify signingHash inp.signature inp.publicKey = false := by
  constructor
  · rintro ⟨item, hitem, rfl, hfalse⟩
    obtain ⟨inp, hinp, rfl⟩ := List.mem_map.mp hitem
    exact ⟨rfl, inp, hinp, hfalse⟩
  · rintro ⟨rfl, inp, hinp, hfalse⟩
    exact ⟨_, List.mem_map.mpr ⟨inp, hinp, rfl⟩, rfl, hfalse⟩

theorem hasFailure_iff_failsAt (hhash : ∀ tx ∈ batch, tx.txHash = .ok (hashOf tx))
    {place : ℕ → ℕ}
    (hmem : ∀ item, item ∈ items ↔ ∃ i tx signingHash, batch[i]? = some tx ∧
      hashes[place i]? = some signingHash ∧ item ∈ itemsOf signingHash (hashOf tx) tx) (h : Bytes) :
    HasFailure items h ↔ FailsAt hashes batch place h := by
  constructor
  · rintro ⟨item, hitem, hitemHash, hfalse⟩
    obtain ⟨i, tx, signingHash, htx, hsigning, hof⟩ := (hmem item).mp hitem
    obtain ⟨rfl, hinp⟩ := hasFailure_itemsOf_iff.mp ⟨item, hof, hitemHash, hfalse⟩
    exact ⟨i, tx, signingHash, htx, hhash tx (List.mem_of_getElem? htx), hsigning, hinp⟩
  · rintro ⟨i, tx, signingHash, htx, hh, hsigning, hinp⟩
    have hhashes := Except.ok.inj ((hhash tx (List.mem_of_getElem? htx)).symm.trans hh)
    obtain ⟨item, hof, hitemHash, hfalse⟩ := hasFailure_itemsOf_iff.mpr ⟨hhashes, hinp⟩
    exact ⟨item, (hmem item).mpr ⟨i, tx, signingHash, htx, hsigning, hof⟩, hitemHash, hfalse⟩

theorem mem_ownItems {item : SignatureItem × Bytes} :
    item ∈ ownItems hashOf batch ↔ ∃ (i : ℕ) (tx : Transaction) (signingHash : Bytes),
      batch[i]? = some tx ∧ (batch.map hashOf)[i]? = some signingHash ∧
        item ∈ itemsOf signingHash (hashOf tx) tx := by
  rw [ownItems, List.mem_flatMap]
  constructor
  · rintro ⟨tx, htx, hitem⟩
    obtain ⟨i, hi⟩ := List.mem_iff_getElem?.mp htx
    exact ⟨i, tx, hashOf tx, hi, by rw [List.getElem?_map, hi, Option.map_some], hitem⟩
  · rintro ⟨i, tx, signingHash, htx, hsigning, hitem⟩
    rw [List.getElem?_map, htx] at hsigning
    obtain rfl := Option.some.inj hsigning
    exact ⟨tx, List.mem_of_getElem? htx, hitem⟩

theorem not_failsAt_of_no_inputs (hnone : ∀ tx ∈ batch, tx.inputs = []) (place : ℕ → ℕ)
    (h : Bytes) : ¬ FailsAt hashes batch place h := by
  rintro ⟨i, tx, signingHash, htx, -, -, inp, hinp, -⟩
  rw [hnone tx (List.mem_of_getElem? htx)] at hinp
  cases hinp

theorem failsAt_congr {place place' : ℕ → ℕ} (hplace : ∀ i < batch.length, place i = place' i)
    (h : Bytes) : FailsAt hashes batch place h ↔ FailsAt hashes batch place' h := by
  have hmono : ∀ {p q : ℕ → ℕ}, (∀ i < batch.length, p i = q i) →
      FailsAt hashes batch p h → FailsAt hashes batch q h := by
    rintro p q hpq ⟨i, tx, signingHash, htx, hh, hsigning, hinp⟩
    obtain ⟨hi, -⟩ := List.getElem?_eq_some_iff.mp htx
    rw [hpq i hi] at hsigning
    exact ⟨i, tx, signingHash, htx, hh, hsigning, hinp⟩
  exact ⟨hmono hplace, hmono fun i hi => (hplace i hi).symm⟩

theorem mem_hashes_of_failsAt (hhash : ∀ tx ∈ batch, tx.txHash = .ok (hashOf tx))
    {place : ℕ → ℕ} {h : Bytes} (hfails : FailsAt hashes batch place h) :
    h ∈ batch.map hashOf := by
  obtain ⟨i, tx, signingHash, htx, hh, -⟩ := hfails
  have hmem := List.mem_of_getElem? htx
  rw [← Except.ok.inj ((hhash tx hmem).symm.trans hh)]
  exact List.mem_map_of_mem hmem

/-- With a hash for each read, the report on the items that are collected. -/
theorem exists_given_report (hhash : ∀ tx ∈ batch, tx.txHash = .ok (hashOf tx))
    (horder : order.Perm (List.range (batch.flatMap Transaction.inputs).length))
    (hcount : ∀ i < batch.length, inputsBefore batch i < batch.length) :
    ∃ items txValid, verifyTransactionsIn order batch (some (batch.map hashOf)) = .ok txValid ∧
      (∀ h, txValid.get? h =
        if ∀ tx ∈ batch, tx.inputs = [] then if h ∈ batch.map hashOf then some true else none
        else if HasFailure items h then some false else none) ∧
      ∀ h, HasFailure items h ↔ FailsAt (batch.map hashOf) batch (inputsBefore batch) h := by
  have hread : ∀ i < batch.length, ([] : List (SignatureItem × Bytes)).length +
      inputsBefore batch i < (batch.map hashOf).length := by
    intro i hi
    rw [List.length_map, List.length_nil, Nat.zero_add]
    exact hcount i hi
  obtain ⟨items, hitems, hlen, hmem⟩ := foldlM_collectItems_some hhash [] hread
  rw [List.nil_append] at hitems
  simp only [List.length_nil, Nat.zero_add] at hmem
  have hnil : items = [] ↔ ∀ tx ∈ batch, tx.inputs = [] := by
    rw [← List.length_eq_zero_iff, hlen, List.length_eq_zero_iff, List.flatMap_eq_nil_iff]
  rw [← hlen] at horder
  obtain ⟨txValid, hresult, hget⟩ := exists_report hhash hitems horder
  simp only [hnil] at hget
  exact ⟨items, txValid, hresult, hget, hasFailure_iff_failsAt hhash hmem⟩

/-- The given hashes change nothing just when no read is behind the end of the list and the
hashes read find the failures that the own hashes find. -/
theorem given_hashes_agree_iff {order' : List ℕ}
    (hhashes : batch.mapM Transaction.signingHash = .ok hashes)
    (horder : order.Perm (List.range (batch.flatMap Transaction.inputs).length))
    (horder' : order'.Perm (List.range (batch.flatMap Transaction.inputs).length)) :
    (∃ txValid txValid', verifyTransactionsIn order batch (some hashes) = .ok txValid ∧
        verifyTransactionsIn order' batch none = .ok txValid' ∧
        ∀ h, txValid.get? h = txValid'.get? h) ↔
      (∀ i < batch.length, inputsBefore batch i < batch.length) ∧
        ∀ h ∈ hashes,
          (FailsAt hashes batch (inputsBefore batch) h ↔ FailsAt hashes batch id h) := by
  obtain ⟨hashOf, hhash, rfl⟩ := TransactionPipeline.exists_hashOf hhashes
  obtain ⟨own, hown, hgetOwn⟩ := exists_own_report hhash horder'
  have hfailOwn : ∀ h, HasFailure (ownItems hashOf batch) h ↔
      FailsAt (batch.map hashOf) batch id h :=
    hasFailure_iff_failsAt hhash fun _ => mem_ownItems
  by_cases hcount : ∀ i < batch.length, inputsBefore batch i < batch.length
  · obtain ⟨items, given, hgiven, hget, hfail⟩ := exists_given_report hhash horder hcount
    constructor
    · rintro ⟨txValid, txValid', hresult, hresult', hsame⟩
      obtain rfl := Except.ok.inj (hgiven.symm.trans hresult)
      obtain rfl := Except.ok.inj (hown.symm.trans hresult')
      refine ⟨hcount, fun h _ => ?_⟩
      by_cases hnone : ∀ tx ∈ batch, tx.inputs = []
      · exact iff_of_false (not_failsAt_of_no_inputs hnone _ h) (not_failsAt_of_no_inputs hnone _ h)
      · have hentry := hsame h
        rw [hget, hgetOwn, if_neg hnone, if_neg hnone] at hentry
        rw [← hfail, ← hfailOwn]
        by_cases hgivenFails : HasFailure items h
        · rw [if_pos hgivenFails] at hentry
          exact iff_of_true hgivenFails (by_contra fun hno => by simp [hno] at hentry)
        · rw [if_neg hgivenFails] at hentry
          exact iff_of_false hgivenFails fun hyes => by simp [hyes] at hentry
    · rintro ⟨-, hagree⟩
      refine ⟨given, own, hgiven, hown, fun h => ?_⟩
      have hfailures : HasFailure items h ↔ HasFailure (ownItems hashOf batch) h := by
        rw [hfail, hfailOwn]
        by_cases hh : h ∈ batch.map hashOf
        · exact hagree h hh
        · exact iff_of_false (fun hf => hh (mem_hashes_of_failsAt hhash hf))
            fun hf => hh (mem_hashes_of_failsAt hhash hf)
      rw [hget, hgetOwn]
      simp only [hfailures]
  · refine iff_of_false ?_ fun hholds => hcount hholds.1
    rintro ⟨txValid, -, hresult, -⟩
    push Not at hcount
    obtain ⟨i, hi, hle⟩ := hcount
    have hne : batch.map hashOf ≠ [] :=
      List.ne_nil_of_length_pos (by rw [List.length_map]; omega)
    rw [verifyTransactionsIn_raises hhash hne ⟨i, hi, (List.length_map _).trans_le hle⟩] at hresult
    cases hresult

theorem given_hashes_agree_on_single :
    ∃ hashes, [transferOf [([7], 0)], transferOf [([7], 1)]].mapM Transaction.signingHash =
        .ok hashes ∧
      ∃ txValid txValid',
        verifyTransactionsIn [0, 1] [transferOf [([7], 0)], transferOf [([7], 1)]] (some hashes) =
          .ok txValid ∧
        verifyTransactionsIn [1, 0] [transferOf [([7], 0)], transferOf [([7], 1)]] none =
          .ok txValid' ∧
        ∀ h, txValid.get? h = txValid'.get? h := by
  obtain ⟨hashes, hhashes⟩ := exists_hashes_transferOf [([7], 0)] [([7], 1)] (by decide) (by decide)
  have hplace : ∀ i < [transferOf [([7], 0)], transferOf [([7], 1)]].length,
      inputsBefore [transferOf [([7], 0)], transferOf [([7], 1)]] i = id i :=
    fun i hi => inputsBefore_of_single (by simp [transferOf, spending]) hi.le
  refine ⟨hashes, hhashes, (given_hashes_agree_iff hhashes (List.Perm.refl _) (by decide)).mpr ?_⟩
  refine ⟨fun i hi => ?_, fun h _ => failsAt_congr hplace h⟩
  rw [hplace i hi]
  exact hi

/-- After a transfer of two inputs the next one is read behind the end of the list. -/
theorem given_hashes_raise :
    ∃ hashes, [transferOf [([7], 0), ([7], 1)], transferOf [([7], 0)]].mapM
        Transaction.signingHash = .ok hashes ∧
      (∀ order, verifyTransactionsIn order [transferOf [([7], 0), ([7], 1)],
        transferOf [([7], 0)]] (some hashes) = .error .indexError) ∧
      ∃ txValid, verifyTransactionsIn [0, 1, 2] [transferOf [([7], 0), ([7], 1)],
        transferOf [([7], 0)]] none = .ok txValid := by
  obtain ⟨hashes, hhashes⟩ := exists_hashes_transferOf [([7], 0), ([7], 1)] [([7], 0)] (by decide)
    (by decide)
  obtain ⟨hashOf, hhash, rfl⟩ := TransactionPipeline.exists_hashOf hhashes
  refine ⟨_, hhashes, fun order => ?_, ?_⟩
  · have hcount : ∃ i < [transferOf [([7], 0), ([7], 1)], transferOf [([7], 0)]].length,
        ([transferOf [([7], 0), ([7], 1)], transferOf [([7], 0)]].map hashOf).length ≤
          inputsBefore [transferOf [([7], 0), ([7], 1)], transferOf [([7], 0)]] i :=
      ⟨1, Nat.one_lt_two, le_refl 2⟩
    exact verifyTransactionsIn_raises hhash (List.cons_ne_nil _ _) hcount
  · obtain ⟨txValid, hresult, -⟩ := exists_own_report hhash (List.Perm.refl [0, 1, 2])
    exact ⟨txValid, hresult⟩

end GivenHashes

end Report

end BatchWotsVerifier

end Qrtb
