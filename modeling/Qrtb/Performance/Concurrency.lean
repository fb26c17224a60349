import Qrtb.Lib.Interleaving
import Qrtb.Performance.ShardedUtxoSet

/-!
# Concurrent calls on the sharded UTXO set (`src/performance.py`)

`add_utxo` and `spend_utxo` take the shard lock first and the lock of the
address index after they have released it, so other calls run in between and the
index may lag behind the shards: a key may be missing from it while its addition
is under way, and a spent key may be put back by an addition that was overtaken.
-/

namespace Qrtb

namespace ShardedUtxoSet

open Interleaving Transition

inductive Call where
  | addUtxo (txHash : Bytes) (outputIndex : ℤ) (output : TxOutput) (epoch : ℤ)
  | spendUtxo (txHash : Bytes) (outputIndex : ℤ) (spendingTx : Bytes)
  | getUtxo (txHash : Bytes) (outputIndex : ℤ)
  | batchLookup (refs : List OutRef)
  | getBalance (address : Bytes) (currentEpoch : ℤ)
  deriving DecidableEq

inductive Response where
  | nothing
  | utxo (utxo : Option Utxo)
  | utxos (results : List (Option Utxo))
  | balance (total : ℤ)
  deriving DecidableEq

/-- Where a call stands between its sections. -/
inductive Local where
  | entered (call : Call)
  | stored (txHash : Bytes) (outputIndex : ℤ) (output : TxOutput) (epoch : ℤ)
  | marked (txHash : Bytes) (outputIndex : ℤ) (spendingTx : Bytes) (utxo : Utxo)
  | looking (refs : List OutRef) (groups : List (Fin 256 × List (ℕ × OutRef)))
      (results : List (Option Utxo))
  | counting (address : Bytes) (currentEpoch : ℤ) (keys : List OutRef) (total : ℤ)
  | finished (call : Call) (response : Response)

/-- What a section did, as far as an unsharded set would see it. -/
inductive Section where
  | added (txHash : Bytes) (outputIndex : ℤ) (output : TxOutput) (epoch : ℤ)
  | spent (txHash : Bytes) (outputIndex : ℤ) (spendingTx : Bytes)
  | missed (txHash : Bytes) (outputIndex : ℤ) (spendingTx : Bytes)
  | indexed
  | read
  deriving DecidableEq

/-- A batch lookup forms its groups before it takes any lock. -/
def Call.start : Call → Local
  | .batchLookup refs =>
    .looking refs (shardGroups refs).items (List.replicate refs.length none)
  | call => .entered call

def Local.returns : Local → Option (Call × Response)
  | .looking refs [] results => some (.batchLookup refs, .utxos results)
  | .counting address currentEpoch [] total =>
    some (.getBalance address currentEpoch, .balance total)
  | .finished call response => some (call, response)
  | _ => none

/-- One critical section of a call. A balance query copies its index entry in any order and reads
the flag of each record with the section that fetches it. -/
inductive Act : ShardedUtxoSet → Local → Section → ShardedUtxoSet → Local → Prop
  | store (s : ShardedUtxoSet) (txHash : Bytes) (i : ℤ) (output : TxOutput) (epoch : ℤ) :
      Act s (.entered (.addUtxo txHash i output epoch)) (.added txHash i output epoch)
        (s.putSection (txHash, i) { txHash, outputIndex := i, output, epochCreated := epoch })
        (.stored txHash i output epoch)
  | index (s : ShardedUtxoSet) (txHash : Bytes) (i : ℤ) (output : TxOutput) (epoch : ℤ) :
      Act s (.stored txHash i output epoch) .indexed
        (s.addKeySection (txHash, i) output.address)
        (.finished (.addUtxo txHash i output epoch) .nothing)
  | mark {s s' : ShardedUtxoSet} {txHash : Bytes} {i : ℤ} {t : Bytes} {u : Utxo}
      (h : s.markSection (txHash, i) t = (some u, s')) :
      Act s (.entered (.spendUtxo txHash i t)) (.spent txHash i t) s' (.marked txHash i t u)
  | miss {s s' : ShardedUtxoSet} {txHash : Bytes} {i : ℤ} {t : Bytes}
      (h : s.markSection (txHash, i) t = (none, s')) :
      Act s (.entered (.spendUtxo txHash i t)) (.missed txHash i t) s'
        (.finished (.spendUtxo txHash i t) (.utxo none))
  | discard (s : ShardedUtxoSet) (txHash : Bytes) (i : ℤ) (t : Bytes) (u : Utxo) :
      Act s (.marked txHash i t u) .indexed
        (s.discardKeySection (txHash, i) u.output.address)
        (.finished (.spendUtxo txHash i t) (.utxo (some u)))
  | get (s : ShardedUtxoSet) (txHash : Bytes) (i : ℤ) :
      Act s (.entered (.getUtxo txHash i)) .read s
        (.finished (.getUtxo txHash i) (.utxo (s.getSection (txHash, i))))
  | lookupShard (s : ShardedUtxoSet) (refs : List OutRef)
      (pre post : List (Fin 256 × List (ℕ × OutRef))) (group : Fin 256 × List (ℕ × OutRef))
      (results : List (Option Utxo)) :
      Act s (.looking refs (pre ++ group :: post) results) .read s
        (.looking refs (pre ++ post) (s.lookupShardSection group.1 group.2 results))
  | listKeys (s : ShardedUtxoSet) (address : Bytes) (currentEpoch : ℤ) {keys : List OutRef}
      (hnodup : keys.Nodup) (hkeys : keys.toFinset = s.keysOf address) :
      Act s (.entered (.getBalance address currentEpoch)) .read s
        (.counting address currentEpoch keys 0)
  | count (s : ShardedUtxoSet) (address : Bytes) (currentEpoch : ℤ) (key : OutRef)
      (keys : List OutRef) (total : ℤ) :
      Act s (.counting address currentEpoch (key :: keys) total) .read s
        (.counting address currentEpoch keys (total + s.spendableValue currentEpoch key))

def calls : CallSystem ShardedUtxoSet Local Call Response Section where
  start := Call.start
  act := Act
  returns := Local.returns

abbrev History := List (Interleaving.Event Call Response Section)

/-- Any number of calls, interleaved section by section, on a fresh set. -/
abbrev Runs (history : History) (c : Config ShardedUtxoSet Local) : Prop :=
  Run (Step calls) ⟨{}, 0⟩ history c

/-- The outputs that the history has asked to add. -/
def addedBy : Interleaving.Event Call Response Section → Multiset (OutRef × TxOutput)
  | .invoke (.addUtxo txHash i output _) => {((txHash, i), output)}
  | _ => 0

def addedOutputs (history : History) : Multiset (OutRef × TxOutput) := (history.map addedBy).sum

/-- The keys for which a `spend_utxo` call returned a UTXO. -/
def spentBy : Interleaving.Event Call Response Section → Multiset OutRef
  | .respond (.spendUtxo txHash i _) (.utxo (some _)) => {(txHash, i)}
  | _ => 0

def spentKeys (history : History) : Multiset OutRef := (history.map spentBy).sum

/-- The outputs at an address, added and never spent, that the epoch can spend. -/
def balanceOutputs (history : History) (address : Bytes) (currentEpoch : ℤ) :
    Multiset (OutRef × TxOutput) :=
  (addedOutputs history).filter fun p =>
    p.1 ∉ spentKeys history ∧ p.2.address = address ∧ p.2.lockEpoch ≤ currentEpoch

/-- The unsharded set that takes each addition and each spend when its shard section runs. -/
def referenceStep (utxoSet : UtxoSet) : Interleaving.Event Call Response Section → UtxoSet
  | .act (.added txHash i output epoch) => utxoSet.addUtxo txHash i output epoch
  | .act (.spent txHash i t) => (utxoSet.spendUtxo txHash i t).2
  | .act (.missed txHash i t) => (utxoSet.spendUtxo txHash i t).2
  | _ => utxoSet

def reference (history : History) : UtxoSet := history.foldl referenceStep {}

/-- The outputs whose shard section has run. -/
def storedBy : Interleaving.Event Call Response Section → Multiset (OutRef × TxOutput)
  | .act (.added txHash i output _) => {((txHash, i), output)}
  | _ => 0

def storedOutputs (history : History) : Multiset (OutRef × TxOutput) := (history.map storedBy).sum

def Local.unstored : Local → Multiset (OutRef × TxOutput)
  | .entered (.addUtxo txHash i output _) => {((txHash, i), output)}
  | _ => 0

/-- The keys that a shard section of a spend has marked. -/
def markedBy : Interleaving.Event Call Response Section → Multiset OutRef
  | .act (.spent txHash i _) => {(txHash, i)}
  | _ => 0

def markedKeys (history : History) : Multiset OutRef := (history.map markedBy).sum

/-- The key that a call has marked and not yet reported. -/
def Local.unreported : Local → Multiset OutRef
  | .marked txHash i _ _ => {(txHash, i)}
  | .finished call response => spentBy (.respond call response)
  | _ => 0

theorem passes_additions : Passes calls addedBy storedBy Local.unstored where
  invoke call := by cases call <;> rfl
  act h := by cases h <;> rfl
  respond {l call response} h := by
    cases l with
    | entered call => cases h
    | stored txHash i output epoch => cases h
    | marked txHash i t u => cases h
    | looking refs groups results => cases call <;> rfl
    | counting address currentEpoch keys total => cases call <;> rfl
    | finished call' response' => cases call <;> rfl

theorem passes_spends : Passes calls markedBy spentBy Local.unreported where
  invoke call := by cases call <;> rfl
  act h := by cases h <;> rfl
  respond {l call response} h := by
    cases l with
    | entered call => cases h
    | stored txHash i output epoch => cases h
    | marked txHash i t u => cases h
    | looking refs groups results =>
      cases groups with
      | nil => cases h; rfl
      | cons group groups => cases h
    | counting address currentEpoch keys total =>
      cases keys with
      | nil => cases h; rfl
      | cons key keys => cases h
    | finished call' response' => cases h; exact zero_add _

variable {history : History} {c c' : Config ShardedUtxoSet Local}
  {e : Interleaving.Event Call Response Section}

theorem addedOutputs_eq (hrun : Runs history c) :
    addedOutputs history = storedOutputs history + (c.running.map Local.unstored).sum :=
  passes_additions.run hrun

theorem markedKeys_eq (hrun : Runs history c) :
    markedKeys history = spentKeys history + (c.running.map Local.unreported).sum :=
  passes_spends.run hrun

@[simp] theorem storedOutputs_append_singleton :
    storedOutputs (history ++ [e]) = storedOutputs history + storedBy e := by
  simp [storedOutputs]

@[simp] theorem markedKeys_append_singleton :
    markedKeys (history ++ [e]) = markedKeys history + markedBy e := by
  simp [markedKeys]

@[simp] theorem addedOutputs_append_singleton :
    addedOutputs (history ++ [e]) = addedOutputs history + addedBy e := by
  simp [addedOutputs]

@[simp] theorem reference_append_singleton :
    reference (history ++ [e]) = referenceStep (reference history) e := by
  simp [reference]

/-- What a step can do to the entries: add one, mark one, or leave them all. -/
theorem step_entries (hst : Step calls c e c') :
    (∃ txHash i output epoch, e = .act (.added txHash i output epoch) ∧
      ∀ k, c'.shared.getSection k = if k = (txHash, i) then
        some { txHash, outputIndex := i, output, epochCreated := epoch }
        else c.shared.getSection k) ∨
    (∃ txHash i t u, e = .act (.spent txHash i t) ∧ c.shared.getSection (txHash, i) = some u ∧
      u.isSpent = false ∧ ∀ k, c'.shared.getSection k =
        if k = (txHash, i) then some (u.markSpent t) else c.shared.getSection k) ∨
    (storedBy e = 0 ∧ markedBy e = 0 ∧ ∀ k, c'.shared.getSection k = c.shared.getSection k) := by
  cases hst with
  | invoke s ls call => exact Or.inr (Or.inr ⟨rfl, rfl, fun _ => rfl⟩)
  | respond s ls h => exact Or.inr (Or.inr ⟨rfl, rfl, fun _ => rfl⟩)
  | @act s _ _ _ _ ls h =>
    cases h with
    | store txHash i output epoch =>
      exact Or.inl ⟨txHash, i, output, epoch, rfl, fun k => s.getSection_putSection _ k _⟩
    | @mark _ txHash i t u h =>
      rcases s.markSection_cases (txHash, i) t with ⟨_, hnone⟩ | ⟨v, hv, hs, hsome⟩
      · cases hnone.symm.trans h
      · cases hsome.symm.trans h
        exact Or.inr (Or.inl ⟨txHash, i, t, v, rfl, hv, hs,
          fun k => s.getSection_putSection _ k _⟩)
    | @miss _ txHash i t h =>
      rcases s.markSection_cases (txHash, i) t with ⟨_, hnone⟩ | ⟨v, hv, hs, hsome⟩
      · cases hnone.symm.trans h
        exact Or.inr (Or.inr ⟨rfl, rfl, fun _ => rfl⟩)
      · cases hsome.symm.trans h
    | index => exact Or.inr (Or.inr ⟨rfl, rfl, fun _ => rfl⟩)
    | discard => exact Or.inr (Or.inr ⟨rfl, rfl, fun _ => rfl⟩)
    | get => exact Or.inr (Or.inr ⟨rfl, rfl, fun _ => rfl⟩)
    | lookupShard => exact Or.inr (Or.inr ⟨rfl, rfl, fun _ => rfl⟩)
    | listKeys => exact Or.inr (Or.inr ⟨rfl, rfl, fun _ => rfl⟩)
    | count => exact Or.inr (Or.inr ⟨rfl, rfl, fun _ => rfl⟩)

/-- The shards follow the unsharded set section by section, whatever is added twice. -/
theorem step_holds {utxoSet : UtxoSet} (hst : Step calls c e c') (h : c.shared.Holds utxoSet) :
    c'.shared.Holds (referenceStep utxoSet e) := by
  cases hst with
  | invoke s ls call => exact h
  | respond s ls hret => exact h
  | act ls hact =>
    cases hact with
    | store txHash i output epoch => exact h.add txHash i output epoch
    | @mark _ txHash i t u hm =>
      have hspend := (h.spend txHash i t).2
      rw [hm] at hspend
      exact hspend
    | @miss _ txHash i t hm =>
      have hspend := (h.spend txHash i t).2
      rw [hm] at hspend
      exact hspend
    | index => exact h
    | discard => exact h
    | get => exact h
    | lookupShard => exact h
    | listKeys => exact h
    | count => exact h

theorem holds_reference (hrun : Runs history c) : c.shared.Holds (reference history) :=
  hrun.history (I := fun history c => c.shared.Holds (reference history)) (fun _ => rfl)
    fun history c e c' h hst => by
      rw [reference_append_singleton]
      exact step_holds hst h

/-- The entries are the additions whose shard section has run, spent as far as marked. -/
structure Recorded (history : History) (s : ShardedUtxoSet) : Prop where
  stored : ∀ k o, (k, o) ∈ storedOutputs history ↔ ∃ u, s.getSection k = some u ∧ u.output = o
  marked : ∀ k, k ∈ markedKeys history ↔ s.Spent k
  once : (markedKeys history).Nodup

theorem Recorded.step (h : Recorded history c.shared) (hst : Step calls c e c')
    (hfresh : ∀ txHash i output epoch, e = .act (.added txHash i output epoch) →
      c.shared.getSection (txHash, i) = none) : Recorded (history ++ [e]) c'.shared := by
  rcases step_entries hst with ⟨txHash, i, output, epoch, rfl, hget⟩ |
    ⟨txHash, i, t, u, rfl, hu, hs, hget⟩ | ⟨hstored, hmarked, hget⟩
  · have hnone := hfresh txHash i output epoch rfl
    refine ⟨fun k o => ?_, fun k => ?_, ?_⟩
    · rw [storedOutputs_append_singleton, hget]
      simp only [storedBy, Multiset.mem_add, Multiset.mem_singleton, Prod.mk.injEq, h.stored k o]
      by_cases hk : k = (txHash, i)
      · subst hk
        simp [hnone, eq_comm]
      · simp [hk]
    · rw [markedKeys_append_singleton]
      simp only [markedBy, add_zero, h.marked k, Spent, hget]
      by_cases hk : k = (txHash, i)
      · subst hk
        simp [hnone]
      · simp [hk]
    · simpa [markedBy] using h.once
  · refine ⟨fun k o => ?_, fun k => ?_, ?_⟩
    · rw [storedOutputs_append_singleton, hget]
      simp only [storedBy, add_zero, h.stored k o]
      by_cases hk : k = (txHash, i)
      · subst hk
        simp [hu, Utxo.markSpent]
      · simp [hk]
    · rw [markedKeys_append_singleton]
      simp only [markedBy, Multiset.mem_add, Multiset.mem_singleton, h.marked k, Spent, hget]
      by_cases hk : k = (txHash, i)
      · subst hk
        simp [Utxo.markSpent]
      · simp [hk]
    · have hunmarked : (txHash, i) ∉ markedKeys history := by
        rw [h.marked]
        exact not_spent_of_getSection hu hs
      rw [markedKeys_append_singleton, add_comm]
      exact Multiset.nodup_cons.mpr ⟨hunmarked, h.once⟩
  · refine ⟨fun k o => ?_, fun k => ?_, ?_⟩
    · rw [storedOutputs_append_singleton, hstored, add_zero, hget, h.stored]
    · rw [markedKeys_append_singleton, hmarked, add_zero, h.marked, Spent, Spent, hget]
    · rw [markedKeys_append_singleton, hmarked, add_zero]
      exact h.once

/-- Entries stay, keep their output and stay spent once they are. -/
def Keeps (s s' : ShardedUtxoSet) : Prop :=
  ∀ k u, s.getSection k = some u →
    ∃ u', s'.getSection k = some u' ∧ u'.output = u.output ∧ (u.isSpent = true → u'.isSpent = true)

theorem step_keeps (hst : Step calls c e c')
    (hfresh : ∀ txHash i output epoch, e = .act (.added txHash i output epoch) →
      c.shared.getSection (txHash, i) = none) : Keeps c.shared c'.shared := by
  intro k u hu
  rcases step_entries hst with ⟨txHash, i, output, epoch, rfl, hget⟩ |
    ⟨txHash, i, t, v, rfl, hv, hs, hget⟩ | ⟨_, _, hget⟩
  · have hk : k ≠ (txHash, i) := by
      rintro rfl
      cases (hfresh txHash i output epoch rfl).symm.trans hu
    exact ⟨u, by rw [hget, if_neg hk, hu], rfl, id⟩
  · by_cases hk : k = (txHash, i)
    · subst hk
      cases hu.symm.trans hv
      exact ⟨u.markSpent t, by rw [hget, if_pos rfl], rfl, fun _ => rfl⟩
    · exact ⟨u, by rw [hget, if_neg hk, hu], rfl, id⟩
  · exact ⟨u, by rw [hget, hu], rfl, id⟩

/-- What the second half of a call relies on. -/
def Local.Sound (s : ShardedUtxoSet) : Local → Prop
  | .stored txHash i output _ => ∃ u, s.getSection (txHash, i) = some u ∧ u.output = output
  | .marked txHash i _ _ => s.Spent (txHash, i)
  | _ => True

theorem Local.Sound.mono {s s' : ShardedUtxoSet} {l : Local} (h : l.Sound s) (hkeeps : Keeps s s') :
    l.Sound s' := by
  cases l with
  | stored txHash i output epoch =>
    obtain ⟨u, hu, rfl⟩ := h
    obtain ⟨u', hu', hout, _⟩ := hkeeps _ u hu
    exact ⟨u', hu', hout⟩
  | marked txHash i t v =>
    obtain ⟨u, hu, hs⟩ := h
    obtain ⟨u', hu', _, hspent⟩ := hkeeps _ u hu
    exact ⟨u', hu', hspent hs⟩
  | entered call => trivial
  | looking refs groups results => trivial
  | counting address currentEpoch keys total => trivial
  | finished call response => trivial

theorem Call.start_sound (call : Call) (s : ShardedUtxoSet) : call.start.Sound s := by
  cases call <;> trivial

/-- The index names only entries of the address, and every unspent entry is in it or about to be. -/
structure Indexed (c : Config ShardedUtxoSet Local) : Prop where
  named : ∀ a k, k ∈ c.shared.keysOf a → ∃ u, c.shared.getSection k = some u ∧ u.output.address = a
  running : ∀ l ∈ c.running, l.Sound c.shared
  covered : ∀ k u, c.shared.getSection k = some u → u.isSpent = false →
    k ∈ c.shared.keysOf u.output.address ∨
      ∃ epoch, Local.stored k.1 k.2 u.output epoch ∈ c.running

theorem Keeps.of_getSection {s s' : ShardedUtxoSet} (h : s'.getSection = s.getSection) :
    Keeps s s' :=
  fun k u hu => ⟨u, by rw [h, hu], rfl, id⟩

section Cons

variable {s s' : ShardedUtxoSet} {l l' : Local} {ls : Multiset Local}

theorem Indexed.named_of_keeps (h : Indexed ⟨s, ls⟩) (hkeeps : Keeps s s') {a : Bytes} {k : OutRef}
    (hk : k ∈ s.keysOf a) : ∃ u, s'.getSection k = some u ∧ u.output.address = a := by
  obtain ⟨v, hv, hva⟩ := h.named a k hk
  obtain ⟨v', hv', hout, -⟩ := hkeeps k v hv
  exact ⟨v', hv', by rw [hout, hva]⟩

theorem Indexed.running_cons (h : Indexed ⟨s, l ::ₘ ls⟩) (hkeeps : Keeps s s')
    (hl' : l'.Sound s') : ∀ m ∈ l' ::ₘ ls, m.Sound s' := by
  intro m hm
  rcases Multiset.mem_cons.mp hm with rfl | hm
  · exact hl'
  · exact (h.running m (Multiset.mem_cons_of_mem hm)).mono hkeeps

theorem stored_cons {txHash : Bytes} {i : ℤ} {output : TxOutput}
    (hl : ∀ epoch, l ≠ .stored txHash i output epoch)
    (h : ∃ epoch, Local.stored txHash i output epoch ∈ l ::ₘ ls) :
    ∃ epoch, Local.stored txHash i output epoch ∈ l' ::ₘ ls := by
  obtain ⟨epoch, hm⟩ := h
  rcases Multiset.mem_cons.mp hm with heq | hm
  · exact absurd heq.symm (hl epoch)
  · exact ⟨epoch, Multiset.mem_cons_of_mem hm⟩

end Cons

/-- A section that leaves the shards and the index alone keeps what they satisfy. -/
theorem Indexed.read {s : ShardedUtxoSet} {l l' : Local} {ls : Multiset Local}
    (h : Indexed ⟨s, l ::ₘ ls⟩) (hl : ∀ txHash i output epoch, l ≠ .stored txHash i output epoch)
    (hl' : l'.Sound s) : Indexed ⟨s, l' ::ₘ ls⟩ where
  named := h.named
  running := h.running_cons (.of_getSection rfl) hl'
  covered k u hu hs := (h.covered k u hu hs).imp id (stored_cons fun _ => hl _ _ _ _)

theorem Indexed.store {s : ShardedUtxoSet} {l : Local} {ls : Multiset Local} {txHash : Bytes}
    {i : ℤ} {output : TxOutput} {epoch : ℤ} (h : Indexed ⟨s, l ::ₘ ls⟩)
    (hl : l = .entered (.addUtxo txHash i output epoch)) {u : Utxo} (hu : u.output = output)
    (hkeeps : Keeps s (s.putSection (txHash, i) u)) :
    Indexed ⟨s.putSection (txHash, i) u, .stored txHash i output epoch ::ₘ ls⟩ where
  named _ _ hk := h.named_of_keeps hkeeps hk
  running := h.running_cons hkeeps ⟨u, by simp [getSection_putSection], hu⟩
  covered k v hv hs := by
    rw [getSection_putSection] at hv
    split_ifs at hv with hk
    · cases hv
      subst hk
      exact Or.inr ⟨epoch, hu ▸ Multiset.mem_cons_self _ _⟩
    · refine (h.covered k v hv hs).imp id (stored_cons ?_)
      rw [hl]
      nofun

/-- The index half of an addition names the entry, even one that was spent in between. -/
theorem Indexed.index {s : ShardedUtxoSet} {ls : Multiset Local} {txHash : Bytes} {i : ℤ}
    {output : TxOutput} {epoch : ℤ} {l' : Local} (h : Indexed ⟨s, .stored txHash i output epoch ::ₘ ls⟩)
    (hl' : ∀ s, l'.Sound s) :
    Indexed ⟨s.addKeySection (txHash, i) output.address, l' ::ₘ ls⟩ where
  named a k hk := by
    rcases s.mem_keysOf_addKeySection.mp hk with ⟨rfl, rfl⟩ | hk
    · obtain ⟨u, hu, rfl⟩ := h.running _ (Multiset.mem_cons_self _ _)
      exact ⟨u, hu, rfl⟩
    · exact h.named a k hk
  running := h.running_cons (.of_getSection rfl) (hl' _)
  covered k u hu hs := by
    rcases h.covered k u hu hs with hk | ⟨epoch', hm⟩
    · exact Or.inl (s.mem_keysOf_addKeySection.mpr (Or.inr hk))
    · rcases Multiset.mem_cons.mp hm with heq | hm
      · cases heq
        exact Or.inl (s.mem_keysOf_addKeySection.mpr (Or.inl ⟨rfl, rfl⟩))
      · exact Or.inr ⟨epoch', Multiset.mem_cons_of_mem hm⟩

theorem Indexed.mark {s : ShardedUtxoSet} {ls : Multiset Local} {txHash : Bytes} {i : ℤ}
    {t : Bytes} {u : Utxo} (h : Indexed ⟨s, .entered (.spendUtxo txHash i t) ::ₘ ls⟩)
    (hkeeps : Keeps s (s.putSection (txHash, i) (u.markSpent t))) :
    Indexed ⟨s.putSection (txHash, i) (u.markSpent t),
      .marked txHash i t (u.markSpent t) ::ₘ ls⟩ where
  named _ _ hk := h.named_of_keeps hkeeps hk
  running := h.running_cons hkeeps ⟨u.markSpent t, by simp [getSection_putSection], rfl⟩
  covered k v hv hs := by
    rw [getSection_putSection] at hv
    split_ifs at hv with hk
    · cases hv
      cases hs
    · refine (h.covered k v hv hs).imp id (stored_cons ?_)
      rintro epoch ⟨⟩

theorem Indexed.discard {s : ShardedUtxoSet} {ls : Multiset Local} {txHash : Bytes} {i : ℤ}
    {t : Bytes} {v : Utxo} {a : Bytes} {l' : Local} (h : Indexed ⟨s, .marked txHash i t v ::ₘ ls⟩)
    (hl' : ∀ s, l'.Sound s) : Indexed ⟨s.discardKeySection (txHash, i) a, l' ::ₘ ls⟩ where
  named b k hk := h.named b k (s.mem_keysOf_discardKeySection.mp hk).2
  running := h.running_cons (.of_getSection rfl) (hl' _)
  covered k u hu hs := by
    have hspent : s.Spent (txHash, i) := h.running _ (Multiset.mem_cons_self _ _)
    have hk : k ≠ (txHash, i) := by
      rintro rfl
      exact not_spent_of_getSection hu hs hspent
    refine (h.covered k u hu hs).imp ?_ (stored_cons ?_)
    · intro hmem
      exact s.mem_keysOf_discardKeySection.mpr ⟨fun hboth => hk hboth.1, hmem⟩
    · rintro epoch ⟨⟩

theorem Indexed.step (h : Indexed c) (hst : Step calls c e c')
    (hfresh : ∀ txHash i output epoch, e = .act (.added txHash i output epoch) →
      c.shared.getSection (txHash, i) = none) : Indexed c' := by
  have hkeeps := step_keeps hst hfresh
  cases hst with
  | invoke s ls call =>
    refine ⟨h.named, fun m hm => ?_, fun k u hu hs => ?_⟩
    · rcases Multiset.mem_cons.mp hm with rfl | hm
      · exact call.start_sound s
      · exact h.running m hm
    · refine (h.covered k u hu hs).imp id ?_
      rintro ⟨epoch, hm⟩
      exact ⟨epoch, Multiset.mem_cons_of_mem hm⟩
  | @respond s l call response ls hret =>
    refine ⟨h.named, fun m hm => h.running m (Multiset.mem_cons_of_mem hm), fun k u hu hs => ?_⟩
    refine (h.covered k u hu hs).imp id ?_
    rintro ⟨epoch, hm⟩
    rcases Multiset.mem_cons.mp hm with rfl | hm
    · cases hret
    · exact ⟨epoch, hm⟩
  | @act s _ _ _ _ ls hact =>
    cases hact with
    | store txHash i output epoch => exact h.store rfl rfl hkeeps
    | index txHash i output epoch => exact h.index fun _ => trivial
    | @mark _ txHash i t u hm =>
      rcases s.markSection_cases (txHash, i) t with ⟨_, hnone⟩ | ⟨v, _, _, hsome⟩
      · cases hnone.symm.trans hm
      · cases hsome.symm.trans hm
        exact h.mark hkeeps
    | @miss _ txHash i t hm =>
      rcases s.markSection_cases (txHash, i) t with ⟨_, hnone⟩ | ⟨v, _, _, hsome⟩
      · cases hnone.symm.trans hm
        exact h.read nofun trivial
      · cases hsome.symm.trans hm
    | discard txHash i t u => exact h.discard fun _ => trivial
    | get txHash i => exact h.read nofun trivial
    | lookupShard refs pre post group results => exact h.read nofun trivial
    | listKeys address currentEpoch hnodup hkeys => exact h.read nofun trivial
    | count address currentEpoch key keys total => exact h.read nofun trivial

end ShardedUtxoSet

end Qrtb
