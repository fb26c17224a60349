import Qrtb.Ledger.UtxoSet
import Mathlib.Data.Finset.Dedup

/-!
# The sharded UTXO set (`src/performance.py`)

The entries are spread over 256 shards by the first byte of the transaction
hash, each under a lock of its own, and an address index under one more lock
names the keys of each address. A definition below that ends in `Section` is
what one `with` block does; the operations run their sections one after the
other. The address hints of the source are never read and are left out.
-/

namespace Qrtb

structure ShardedUtxoSet where
  shards : Fin 256 → OrderedDict OutRef Utxo := fun _ => ∅
  byAddress : OrderedDict Bytes (Finset OutRef) := ∅

namespace ShardedUtxoSet

variable (s : ShardedUtxoSet)

/-- The shard of a hash; the empty hash goes to shard zero. -/
def getShard : Bytes → Fin 256
  | [] => 0
  | b :: _ => b.toFin

/-- `self.shards[shard_id].get(key)` under the shard lock. -/
def getSection (key : OutRef) : Option Utxo := (s.shards (getShard key.1)).get? key

def putSection (key : OutRef) (utxo : Utxo) : ShardedUtxoSet :=
  let shardId := getShard key.1
  { s with shards := Function.update s.shards shardId ((s.shards shardId).set key utxo) }

/-- The record is marked in place; an absent or spent one makes the call return `None`. -/
def markSection (key : OutRef) (spendingTx : Bytes) : Option Utxo × ShardedUtxoSet :=
  match s.getSection key with
  | none => (none, s)
  | some utxo =>
    if utxo.isSpent then (none, s)
    else (some (utxo.markSpent spendingTx), s.putSection key (utxo.markSpent spendingTx))

def keysOf (address : Bytes) : Finset OutRef := s.byAddress.getD address ∅

def addKeySection (key : OutRef) (address : Bytes) : ShardedUtxoSet :=
  { s with byAddress := s.byAddress.set address (insert key (s.keysOf address)) }

def discardKeySection (key : OutRef) (address : Bytes) : ShardedUtxoSet :=
  { s with byAddress := s.byAddress.set address ((s.keysOf address).erase key) }

/-- One thread of a batch lookup: every item of one shard. -/
def lookupShardSection (shardId : Fin 256) (items : List (ℕ × OutRef))
    (results : List (Option Utxo)) : List (Option Utxo) :=
  items.foldl (fun results item => results.set item.1 ((s.shards shardId).get? item.2)) results

def addUtxo (txHash : Bytes) (outputIndex : ℤ) (output : TxOutput) (epoch : ℤ) : ShardedUtxoSet :=
  let key := (txHash, outputIndex)
  (s.putSection key { txHash, outputIndex, output, epochCreated := epoch }).addKeySection key
    output.address

def getUtxo (txHash : Bytes) (outputIndex : ℤ) : Option Utxo := s.getSection (txHash, outputIndex)

def spendUtxo (txHash : Bytes) (outputIndex : ℤ) (spendingTx : Bytes) :
    Option Utxo × ShardedUtxoSet :=
  let key := (txHash, outputIndex)
  match s.markSection key spendingTx with
  | (none, s') => (none, s')
  | (some utxo, s') => (some utxo, s'.discardKeySection key utxo.output.address)

/-- The positions and keys that each shard has to look up. -/
def shardGroups (refs : List OutRef) : OrderedDict (Fin 256) (List (ℕ × OutRef)) :=
  refs.zipIdx.foldl (fun groups item =>
    let shardId := getShard item.1.1
    groups.set shardId (groups.getD shardId [] ++ [(item.2, item.1)])) ∅

def batchLookup (refs : List OutRef) : List (Option Utxo) :=
  (shardGroups refs).items.foldl
    (fun results group => s.lookupShardSection group.1 group.2 results)
    (List.replicate refs.length none)

def spendableValue (currentEpoch : ℤ) (key : OutRef) : ℤ :=
  match s.getSection key with
  | none => 0
  | some utxo =>
    if utxo.isSpent = false ∧ utxo.output.lockEpoch ≤ currentEpoch then utxo.output.value else 0

/-- A sum does not depend on the order in which the set lists its keys. -/
def getBalance (address : Bytes) (currentEpoch : ℤ) : ℤ :=
  ∑ key ∈ s.keysOf address, s.spendableValue currentEpoch key

/-- The key names an entry that is marked as spent. -/
def Spent (key : OutRef) : Prop := ∃ u, s.getSection key = some u ∧ u.isSpent = true

theorem not_spent_of_getSection {s : ShardedUtxoSet} {key : OutRef} {u : Utxo}
    (hu : s.getSection key = some u) (hs : u.isSpent = false) : ¬ s.Spent key := by
  rintro ⟨v, hv, hspent⟩
  cases hu.symm.trans hv
  rw [hs] at hspent
  cases hspent

@[simp] theorem getSection_empty (key : OutRef) : ({} : ShardedUtxoSet).getSection key = none := rfl

@[simp] theorem keysOf_empty (address : Bytes) : ({} : ShardedUtxoSet).keysOf address = ∅ := rfl

theorem getSection_putSection (key k : OutRef) (utxo : Utxo) :
    (s.putSection key utxo).getSection k = if k = key then some utxo else s.getSection k := by
  unfold getSection putSection
  by_cases hshard : getShard k.1 = getShard key.1
  · simp [hshard, OrderedDict.get?_set]
  · have hk : k ≠ key := fun e => hshard (e ▸ rfl)
    simp [hshard, hk]

@[simp] theorem keysOf_putSection (key : OutRef) (utxo : Utxo) (address : Bytes) :
    (s.putSection key utxo).keysOf address = s.keysOf address := rfl

@[simp] theorem getSection_addKeySection (key k : OutRef) (address : Bytes) :
    (s.addKeySection key address).getSection k = s.getSection k := rfl

@[simp] theorem getSection_discardKeySection (key k : OutRef) (address : Bytes) :
    (s.discardKeySection key address).getSection k = s.getSection k := rfl

theorem mem_keysOf_addKeySection {key k : OutRef} {address a : Bytes} :
    k ∈ (s.addKeySection key address).keysOf a ↔ (k = key ∧ a = address) ∨ k ∈ s.keysOf a := by
  by_cases ha : a = address
  · subst ha
    simp [addKeySection, keysOf, OrderedDict.getD]
  · simp [addKeySection, keysOf, OrderedDict.getD, OrderedDict.get?_set_of_ne _ ha, ha]

theorem mem_keysOf_discardKeySection {key k : OutRef} {address a : Bytes} :
    k ∈ (s.discardKeySection key address).keysOf a ↔
      ¬ (k = key ∧ a = address) ∧ k ∈ s.keysOf a := by
  by_cases ha : a = address
  · subst ha
    simp [discardKeySection, keysOf, OrderedDict.getD]
  · simp [discardKeySection, keysOf, OrderedDict.getD, OrderedDict.get?_set_of_ne _ ha, ha]

/-- What the shard section of a spend can do: nothing, or mark one unspent entry. -/
theorem markSection_cases (key : OutRef) (t : Bytes) :
    ((∀ u, s.getSection key = some u → u.isSpent = true) ∧ s.markSection key t = (none, s)) ∨
    ∃ u, s.getSection key = some u ∧ u.isSpent = false ∧
      s.markSection key t = (some (u.markSpent t), s.putSection key (u.markSpent t)) := by
  unfold markSection
  cases hg : s.getSection key with
  | none => exact Or.inl ⟨by simp, rfl⟩
  | some u =>
    cases hs : u.isSpent with
    | true => exact Or.inl ⟨by simp [hs], by simp [hs]⟩
    | false => exact Or.inr ⟨u, rfl, hs, by simp [hs]⟩

theorem shardGroups_append_singleton (refs : List OutRef) (ref : OutRef) :
    shardGroups (refs ++ [ref]) = (shardGroups refs).set (getShard ref.1)
      ((shardGroups refs).getD (getShard ref.1) [] ++ [(refs.length, ref)]) := by
  simp [shardGroups, List.zipIdx_append]

/-- Every position stands in the group of its shard, and nothing else does. -/
theorem mem_shardGroups (refs : List OutRef) (shardId : Fin 256) (i : ℕ) (key : OutRef) :
    (i, key) ∈ (shardGroups refs).getD shardId [] ↔
      refs[i]? = some key ∧ getShard key.1 = shardId := by
  induction refs using List.reverseRecOn with
  | nil => simp [shardGroups, OrderedDict.getD]
  | append_singleton refs ref ih =>
    have hlast : (refs ++ [ref])[i]? = some key ↔
        refs[i]? = some key ∨ (i = refs.length ∧ ref = key) := by
      rcases Nat.lt_trichotomy i refs.length with hi | hi | hi
      · rw [List.getElem?_append_left hi]
        simp [hi.ne]
      · subst hi
        simp
      · have hout : (refs ++ [ref]).length ≤ i := by
          rw [List.length_append, List.length_singleton]
          omega
        rw [List.getElem?_eq_none hout, List.getElem?_eq_none hi.le]
        simp [hi.ne']
    rw [shardGroups_append_singleton, OrderedDict.getD, OrderedDict.get?_set, hlast]
    by_cases hshard : shardId = getShard ref.1
    · subst hshard
      rw [if_pos rfl, Option.getD_some, List.mem_append, ih]
      simp only [List.mem_singleton, Prod.mk.injEq]
      constructor
      · rintro (⟨hi, hk⟩ | ⟨hi, rfl⟩)
        · exact ⟨Or.inl hi, hk⟩
        · exact ⟨Or.inr ⟨hi, rfl⟩, rfl⟩
      · rintro ⟨hi | ⟨hi, rfl⟩, hk⟩
        · exact Or.inl ⟨hi, hk⟩
        · exact Or.inr ⟨hi, rfl⟩
    · rw [if_neg hshard]
      change (i, key) ∈ (shardGroups refs).getD shardId [] ↔ _
      rw [ih]
      constructor
      · rintro ⟨hi, hk⟩
        exact ⟨Or.inl hi, hk⟩
      · rintro ⟨hi | ⟨_, rfl⟩, hk⟩
        · exact ⟨hi, hk⟩
        · exact absurd hk.symm hshard

/-- Where a batch lookup stands when these groups are left: every position has its answer or
waits in one of them. -/
structure Looked (refs : List OutRef) (groups : List (Fin 256 × List (ℕ × OutRef)))
    (results : List (Option Utxo)) : Prop where
  length : results.length = refs.length
  answered : ∀ i key, refs[i]? = some key →
    results[i]? = some (s.getSection key) ∨ ∃ group ∈ groups, (i, key) ∈ group.2
  waiting : ∀ group ∈ groups, ∀ item ∈ group.2,
    refs[item.1]? = some item.2 ∧ getShard item.2.1 = group.1

theorem looked_shardGroups (refs : List OutRef) :
    s.Looked refs (shardGroups refs).items (List.replicate refs.length none) where
  length := List.length_replicate
  answered i key hi := by
    have hmem := (mem_shardGroups refs (getShard key.1) i key).mpr ⟨hi, rfl⟩
    unfold OrderedDict.getD at hmem
    cases hg : (shardGroups refs).get? (getShard key.1) with
    | none => simp [hg] at hmem
    | some items =>
      rw [hg, Option.getD_some] at hmem
      exact Or.inr ⟨_, (OrderedDict.mem_items_iff _ _ _).mpr hg, hmem⟩
  waiting group hgroup item hitem := by
    have hg := (OrderedDict.mem_items_iff _ group.1 group.2).mp hgroup
    apply (mem_shardGroups refs group.1 item.1 item.2).mp
    simpa [OrderedDict.getD, hg] using hitem

@[simp] theorem length_lookupShardSection (shardId : Fin 256) (items : List (ℕ × OutRef))
    (results : List (Option Utxo)) :
    (s.lookupShardSection shardId items results).length = results.length := by
  induction items generalizing results with
  | nil => rfl
  | cons item items ih => simpa [lookupShardSection] using ih (results.set item.1 _)

/-- A thread answers its own positions and keeps the answers that are there. -/
theorem getElem?_lookupShardSection {refs : List OutRef} {shardId : Fin 256}
    {items : List (ℕ × OutRef)} {results : List (Option Utxo)}
    (hlen : results.length = refs.length)
    (hitems : ∀ item ∈ items, refs[item.1]? = some item.2 ∧ getShard item.2.1 = shardId)
    {i : ℕ} {key : OutRef} (hi : refs[i]? = some key)
    (h : results[i]? = some (s.getSection key) ∨ (i, key) ∈ items) :
    (s.lookupShardSection shardId items results)[i]? = some (s.getSection key) := by
  induction items generalizing results with
  | nil => simpa [lookupShardSection] using h
  | cons item items ih =>
    obtain ⟨j, k⟩ := item
    obtain ⟨hj, hshard⟩ := hitems (j, k) List.mem_cons_self
    change (s.lookupShardSection shardId items (results.set j ((s.shards shardId).get? k)))[i]? = _
    apply ih (by simpa using hlen) fun item hitem => hitems item (List.mem_cons_of_mem _ hitem)
    by_cases hij : j = i
    · subst hij
      have hk : k = key := Option.some.inj (hj.symm.trans hi)
      subst hk
      have hlt : j < results.length := by
        rw [hlen]
        exact (List.getElem?_eq_some_iff.mp hi).1
      refine Or.inl ?_
      rw [List.getElem?_set_self hlt, getSection, hshard]
    · rw [List.getElem?_set_ne hij]
      refine h.imp id fun hmem => ?_
      rcases List.mem_cons.mp hmem with heq | hmem
      · exact absurd (congrArg Prod.fst heq).symm hij
      · exact hmem

variable {s} in
theorem Looked.next {refs : List OutRef} {pre post : List (Fin 256 × List (ℕ × OutRef))}
    {group : Fin 256 × List (ℕ × OutRef)} {results : List (Option Utxo)}
    (h : s.Looked refs (pre ++ group :: post) results) :
    s.Looked refs (pre ++ post) (s.lookupShardSection group.1 group.2 results) where
  length := by rw [length_lookupShardSection, h.length]
  answered i key hi := by
    have hitems := h.waiting group (by simp)
    rcases h.answered i key hi with hdone | ⟨g, hg, hmem⟩
    · exact Or.inl (s.getElem?_lookupShardSection h.length hitems hi (Or.inl hdone))
    · by_cases hgroup : (i, key) ∈ group.2
      · exact Or.inl (s.getElem?_lookupShardSection h.length hitems hi (Or.inr hgroup))
      · have hother : g ∈ pre ++ post := by
          simp only [List.mem_append, List.mem_cons] at hg ⊢
          rcases hg with hpre | rfl | hpost
          · exact Or.inl hpre
          · exact absurd hmem hgroup
          · exact Or.inr hpost
        exact Or.inr ⟨g, hother, hmem⟩
  waiting g hg := by
    apply h.waiting g
    simp only [List.mem_append, List.mem_cons] at hg ⊢
    exact hg.imp id Or.inr

variable {s} in
/-- With no group left the results are the answers, reference by reference. -/
theorem Looked.results_eq {refs : List OutRef} {results : List (Option Utxo)}
    (h : s.Looked refs [] results) : results = refs.map s.getSection := by
  apply List.ext_getElem?
  intro i
  rw [List.getElem?_map]
  cases hi : refs[i]? with
  | none =>
    have hout : refs.length ≤ i := List.getElem?_eq_none_iff.mp hi
    simp [h.length, hout]
  | some key =>
    rcases h.answered i key hi with hdone | ⟨g, hg, _⟩
    · simp [hdone]
    · simp at hg

theorem batchLookup_eq (refs : List OutRef) : s.batchLookup refs = refs.map s.getSection := by
  have hall : ∀ groups results, s.Looked refs groups results →
      groups.foldl (fun results group => s.lookupShardSection group.1 group.2 results) results =
        refs.map s.getSection := by
    intro groups
    induction groups with
    | nil => exact fun _ h => h.results_eq
    | cons group groups ih => exact fun _ h => ih _ (@Looked.next s refs [] groups group _ h)
  exact hall _ _ (s.looked_shardGroups refs)

/-- Both sets hold the same entries under the same keys. -/
def Holds (utxoSet : UtxoSet) : Prop := ∀ k, s.getSection k = utxoSet.utxos.get? k

variable {s} {utxoSet : UtxoSet}

theorem Holds.putSection (h : s.Holds utxoSet) (key : OutRef) (utxo : Utxo) (k : OutRef) :
    (s.putSection key utxo).getSection k = (utxoSet.utxos.set key utxo).get? k := by
  rw [getSection_putSection, OrderedDict.get?_set, h k]

/-- The shard section of an addition is all that the unsharded set sees of it. -/
theorem Holds.add (h : s.Holds utxoSet) (txHash : Bytes) (i : ℤ) (output : TxOutput) (epoch : ℤ) :
    (s.putSection (txHash, i)
      { txHash, outputIndex := i, output, epochCreated := epoch }).Holds
      (utxoSet.addUtxo txHash i output epoch) :=
  h.putSection _ _

theorem Holds.spend (h : s.Holds utxoSet) (txHash : Bytes) (i : ℤ) (t : Bytes) :
    (s.markSection (txHash, i) t).1 = (utxoSet.spendUtxo txHash i t).1 ∧
      (s.markSection (txHash, i) t).2.Holds (utxoSet.spendUtxo txHash i t).2 := by
  unfold markSection UtxoSet.spendUtxo
  rw [h (txHash, i)]
  cases hg : utxoSet.utxos.get? (txHash, i) with
  | none => exact ⟨by simp [hg], by simpa [hg] using h⟩
  | some u =>
    cases hs : u.isSpent with
    | true => exact ⟨by simp [hg, hs], by simpa [hg, hs] using h⟩
    | false =>
      refine ⟨by simp [hg, hs], ?_⟩
      intro k
      simpa [hg, hs] using h.putSection (txHash, i) (u.markSpent t) k

end ShardedUtxoSet

end Qrtb
