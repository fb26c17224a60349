import Qrtb.Wallet.ForwardSecrecy

/-!
# The account of used keys

The keys of a batch are handed out by counters that only grow, a batch is never
taken up again, and a legacy key pair is marked when it signs. So each of these
keys signs at most once, whatever is called on the key manager. The registration
key has no counter and no mark, and its signatures are listed apart.
-/

namespace Qrtb

open Stateful SeedSpace

/-- No key signs two different messages. -/
def OneTime {S : Type} (signed : List (Signing S)) : Prop :=
  ∀ s ∈ signed, ∀ s' ∈ signed, s.seed = s'.seed → s.payload = s'.payload

namespace TemporalAuthTree

variable {S : Type}

/-- The key of this number has been handed out. -/
def Taken (t : TemporalAuthTree S) (i : ℕ) : Prop :=
  i < t.keyIndex ∨ 1022 ≤ i ∧ i < 1022 + t.rotationIndex

/-- A way of signing that takes a key not taken before and stays in the batch. -/
structure TakesFresh [SeedSpace S] (sign : Bytes → Stateful (TemporalAuthTree S) TemporalSignature) :
    Prop where
  batchSeed : ∀ message t, (sign message t).2.batchSeed = t.batchSeed
  keyIndex_le : ∀ message t, t.keyIndex ≤ 1022 → (sign message t).2.keyIndex ≤ 1022
  taken : ∀ message t i, t.Taken i → (sign message t).2.Taken i
  fresh : ∀ message t s, t.keyIndex ≤ 1022 → (sign message t).1 = .ok s →
    ¬ t.Taken s.keyIndex ∧ (sign message t).2.Taken s.keyIndex

variable [SeedSpace S]

theorem keyIndex_of_signWith {idx : ℕ} {message : Bytes} {t : TemporalAuthTree S}
    {s : TemporalSignature} (h : t.signWith idx message = .ok s) : s.keyIndex = idx := by
  unfold signWith at h
  cases htree : t.authTree with
  | none => simp [htree] at h
  | some leaves =>
    simp only [htree, Except.bind_eq_ok] at h
    obtain ⟨proof, -, hs⟩ := h
    obtain rfl := Except.ok.inj hs
    rfl

theorem takesFresh_sign : TakesFresh (sign (S := S)) where
  batchSeed message t := KeyManager.batchSeed_sign message t
  keyIndex_le message t h := by
    unfold sign
    split_ifs with hfull
    · exact h
    · have husable : USABLE_KEYS = 1022 := rfl
      simp only
      omega
  taken message t i h := by
    unfold sign
    split_ifs
    · exact h
    · simp only [Taken] at h ⊢
      omega
  fresh message t s hle hs := by
    unfold sign at hs ⊢
    split_ifs at hs ⊢ with hfull
    have hindex := keyIndex_of_signWith hs
    have husable : USABLE_KEYS = 1022 := rfl
    simp only [Taken, hindex]
    omega

theorem takesFresh_signRotation : TakesFresh (signRotation (S := S)) where
  batchSeed message t := KeyManager.batchSeed_signRotation message t
  keyIndex_le message t h := by
    unfold signRotation
    split_ifs
    · exact h
    · exact h
  taken message t i h := by
    unfold signRotation
    split_ifs
    · exact h
    · simp only [Taken] at h ⊢
      omega
  fresh message t s hle hs := by
    unfold signRotation at hs ⊢
    split_ifs at hs ⊢ with hfull
    have hindex := keyIndex_of_signWith hs
    have husable : USABLE_KEYS = 1022 := rfl
    simp only [Taken, hindex]
    omega

end TemporalAuthTree

namespace KeyManager

variable {seed : Bytes} {k : KeyManager SeedTerm}

def registrationSeed (seed : Bytes) : SeedTerm := .registration (.master seed)

/-- The seed is one the manager will not sign with again. -/
def Spent (seed : Bytes) (k : KeyManager SeedTerm) : SeedTerm → Prop
  | .key b i => (∃ n < k.batchNumber, b = batchSeed (.master seed) n) ∨
      b = batchSeed (.master seed) k.batchNumber ∧ k.authTree.Taken i
  | .legacy _ _ i => i < k.keyIndex
  | _ => False

/-- The signatures made with keys other than the registration key. -/
def otherSigned (seed : Bytes) (k : KeyManager SeedTerm) : List (Signing SeedTerm) :=
  k.signed.filter fun s => s.seed ≠ registrationSeed seed

/-- What was signed with the registration key. -/
def registrationSigned (seed : Bytes) (k : KeyManager SeedTerm) : List Payload :=
  (k.signed.filter fun s => s.seed = registrationSeed seed).map Signing.payload

/-- Every key but the registration key has signed at most once, and the counters and marks of the
manager know which have. -/
structure Accounted (seed : Bytes) (k : KeyManager SeedTerm) : Prop where
  batched : Batched (.master seed) k
  keyIndex_le : k.authTree.keyIndex ≤ 1022
  spent : ∀ s ∈ k.otherSigned seed, Spent seed k s.seed
  once : ((k.otherSigned seed).map Signing.seed).Nodup
  pair : ∀ ref pair, k.pairAt ref = some pair →
    ∃ b e i, pair.keySeed = .legacy b e i ∧ i < k.keyIndex
  pair_unique : ∀ ref ref' pair pair', k.pairAt ref = some pair → k.pairAt ref' = some pair' →
    pair.keySeed = pair'.keySeed → ref = ref'
  pair_unused : ∀ ref pair, k.pairAt ref = some pair → pair.used = false →
    ∀ s ∈ k.signed, s.seed ≠ pair.keySeed

theorem accounted_init (seed : Bytes) : Accounted seed (init (.master seed)) := by
  have hnone : ∀ ref, (init (SeedTerm.master seed)).pairAt ref = none := fun _ => rfl
  refine ⟨batched_init _, Nat.zero_le _, by simp [otherSigned, init], ?_, ?_, ?_, ?_⟩
  · simp [otherSigned, init]
  · intro ref pair h
    cases (hnone ref).symm.trans h
  · intro ref ref' pair pair' h
    cases (hnone ref).symm.trans h
  · intro ref pair h
    cases (hnone ref).symm.trans h

/-- With the keys other than the registration key one-time, only the registrations matter. -/
theorem Accounted.oneTime_iff_registrations (h : Accounted seed k) :
    OneTime k.signed ↔
      ∀ p ∈ k.registrationSigned seed, ∀ p' ∈ k.registrationSigned seed, p = p' := by
  constructor
  · intro hone p hp p' hp'
    obtain ⟨s, hs, rfl⟩ := List.mem_map.mp hp
    obtain ⟨s', hs', rfl⟩ := List.mem_map.mp hp'
    obtain ⟨hs, hseed⟩ := List.mem_filter.mp hs
    obtain ⟨hs', hseed'⟩ := List.mem_filter.mp hs'
    exact hone s hs s' hs' ((of_decide_eq_true hseed).trans (of_decide_eq_true hseed').symm)
  · intro hsame s hs s' hs' hseed
    by_cases hreg : s.seed = registrationSeed seed
    · exact hsame _ (List.mem_map.mpr ⟨s, List.mem_filter.mpr ⟨hs, by simp [hreg]⟩, rfl⟩) _
        (List.mem_map.mpr ⟨s', List.mem_filter.mpr ⟨hs', by simp [← hseed, hreg]⟩, rfl⟩)
    · have hmem : s ∈ k.otherSigned seed := List.mem_filter.mpr ⟨hs, by simp [hreg]⟩
      have hmem' : s' ∈ k.otherSigned seed := List.mem_filter.mpr ⟨hs', by simp [← hseed, hreg]⟩
      rw [List.inj_on_of_nodup_map h.once hmem hmem' hseed]

theorem getD_set_self {β : Type} (d : OrderedDict ℤ (List β)) (e : ℤ) (l : List β) :
    (d.set e l).getD e [] = l := by
  rw [OrderedDict.getD, OrderedDict.get?_set_self]
  rfl

theorem getD_set_of_ne {β : Type} (d : OrderedDict ℤ (List β)) {e e' : ℤ} (h : e' ≠ e)
    (l : List β) : (d.set e l).getD e' [] = d.getD e' [] := by
  rw [OrderedDict.getD, OrderedDict.get?_set_of_ne _ h]
  rfl

theorem pairAt_generated (epoch : ℤ) (k : KeyManager SeedTerm) (ref : KeyRef) :
    (k.generated epoch).pairAt ref =
      if ref = ⟨epoch, (k.keyCache.getD epoch []).length⟩ then some (k.newKeyPair epoch)
      else k.pairAt ref := by
  obtain ⟨e, position⟩ := ref
  simp only [pairAt, generated, KeyRef.mk.injEq]
  by_cases he : e = epoch
  · subst he
    simp only [getD_set_self, true_and]
    rw [List.getElem?_append]
    split_ifs with hlt heq heq
    · omega
    · rfl
    · simp [heq]
    · rw [List.getElem?_eq_none (by simp; omega), List.getElem?_eq_none (by omega)]
  · simp [he, getD_set_of_ne _ he]

theorem pairAt_markUsed (ref : KeyRef) (k : KeyManager SeedTerm) (ref' : KeyRef) :
    (k.markUsed ref).pairAt ref' =
      if ref' = ref then (k.pairAt ref).map fun pair => { pair with used := true }
      else k.pairAt ref' := by
  obtain ⟨e, position⟩ := ref
  obtain ⟨e', position'⟩ := ref'
  simp only [pairAt, markUsed, KeyRef.mk.injEq]
  by_cases he : e' = e
  · subst he
    simp only [getD_set_self, true_and, List.getElem?_modify]
    by_cases hp : position = position'
    · subst hp
      simp
    · simp [hp, Ne.symm hp]
  · simp [he, getD_set_of_ne _ he]

theorem Spent.mono {k' : KeyManager SeedTerm} {s : SeedTerm} (h : Spent seed k s)
    (hbatch : k'.batchNumber = k.batchNumber)
    (htaken : ∀ i, k.authTree.Taken i → k'.authTree.Taken i) (hkey : k.keyIndex ≤ k'.keyIndex) :
    Spent seed k' s := by
  cases s with
  | key b i =>
    rw [Spent, hbatch]
    exact h.imp_right fun hnow => ⟨hnow.1, htaken i hnow.2⟩
  | legacy b e i => exact Nat.lt_of_lt_of_le h hkey
  | master _ => exact h
  | wiped => exact h
  | initialBatch _ => exact h
  | nextBatch _ => exact h
  | registration _ => exact h

theorem Accounted.setTree (h : Accounted seed k) {t : TemporalAuthTree SeedTerm}
    (hseed : t.batchSeed = k.authTree.batchSeed) (hle : t.keyIndex ≤ 1022)
    (htaken : ∀ i, k.authTree.Taken i → t.Taken i) : Accounted seed { k with authTree := t } where
  batched := ⟨h.batched.master, h.batched.current, hseed.trans h.batched.tree, h.batched.next⟩
  keyIndex_le := hle
  spent s hs := (h.spent s hs).mono rfl htaken le_rfl
  once := h.once
  pair := h.pair
  pair_unique := h.pair_unique
  pair_unused := h.pair_unused

/-- A signature with a key that has not signed yet and will not sign again. -/
theorem Accounted.record (h : Accounted seed k) {s : SeedTerm} (hspent : Spent seed k s)
    (hfresh : ∀ e ∈ k.signed, e.seed ≠ s)
    (hpair : ∀ ref pair, k.pairAt ref = some pair → pair.used = false → pair.keySeed ≠ s)
    (payload : Payload) :
    Accounted seed { k with signed := k.signed ++ [⟨s, payload⟩] } := by
  have hother : s ≠ registrationSeed seed := by
    rintro rfl
    exact hspent
  have hsigned : otherSigned seed { k with signed := k.signed ++ [⟨s, payload⟩] } =
      k.otherSigned seed ++ [⟨s, payload⟩] := by
    simp [otherSigned, List.filter_append, hother]
  refine ⟨⟨h.batched.master, h.batched.current, h.batched.tree, h.batched.next⟩, h.keyIndex_le,
    ?_, ?_, h.pair, h.pair_unique, ?_⟩
  · intro e he
    rw [hsigned] at he
    rcases List.mem_append.mp he with he | he
    · exact (h.spent e he).mono rfl (fun _ hi => hi) le_rfl
    · obtain rfl := List.mem_singleton.mp he
      exact hspent.mono rfl (fun _ hi => hi) le_rfl
  · rw [hsigned, List.map_append, List.map_singleton, List.nodup_append]
    refine ⟨h.once, List.nodup_singleton _, ?_⟩
    intro a ha b hb
    obtain ⟨e, he, rfl⟩ := List.mem_map.mp ha
    obtain rfl := List.mem_singleton.mp hb
    exact hfresh e (List.mem_of_mem_filter he)
  · intro ref pair hget hused e he
    rcases List.mem_append.mp he with he | he
    · exact h.pair_unused ref pair hget hused e he
    · obtain rfl := List.mem_singleton.mp he
      exact (hpair ref pair hget hused).symm

/-- The registrations signed so far, next to the account of the other keys. -/
structure Tracks (seed : Bytes) (payloads : List Payload) (k : KeyManager SeedTerm) : Prop where
  accounted : Accounted seed k
  registrations : k.registrationSigned seed = payloads

variable {payloads : List Payload}

theorem registrationSigned_record {s : SeedTerm} (h : s ≠ registrationSeed seed) (payload : Payload)
    {k' : KeyManager SeedTerm} (hk' : k'.signed = k.signed ++ [⟨s, payload⟩]) :
    k'.registrationSigned seed = k.registrationSigned seed := by
  simp [registrationSigned, hk', List.filter_append, h]

theorem preserves_tracks_signOnTree
    {sign : Bytes → Stateful (TemporalAuthTree SeedTerm) TemporalSignature}
    (hsign : TemporalAuthTree.TakesFresh sign) (payload : Payload) :
    Preserves (Tracks seed payloads) (signOnTree sign payload) := by
  intro k h
  have hacc := h.accounted
  have hbatch := hsign.batchSeed payload.bytes k.authTree
  have hmoved := hacc.setTree hbatch (hsign.keyIndex_le _ _ hacc.keyIndex_le)
    (hsign.taken payload.bytes k.authTree)
  rcases signOnTree_cases sign payload k with hk | hk | ⟨s, hs, hk⟩
  · rwa [hk]
  · rw [hk]
    exact ⟨hmoved, h.registrations⟩
  · obtain ⟨hfresh, htaken⟩ := hsign.fresh _ _ _ hacc.keyIndex_le hs
    have hseed := hbatch.trans (hacc.batched.tree.trans hacc.batched.current)
    have hspent : Spent seed { k with authTree := (sign payload.bytes k.authTree).2 }
        (.key (sign payload.bytes k.authTree).2.batchSeed s.keyIndex) := Or.inr ⟨hseed, htaken⟩
    rw [hk]
    refine ⟨hmoved.record hspent ?_ ?_ payload, ?_⟩
    · intro e he hsame
      have hother : e ∈ k.otherSigned seed :=
        List.mem_filter.mpr ⟨he, by simp [hsame, registrationSeed]⟩
      have hspent := hacc.spent e hother
      rw [hsame, hseed] at hspent
      rcases hspent with ⟨n, hn, hold⟩ | ⟨-, hnow⟩
      · have hindex := batchSeed_injective seed hold
        omega
      · exact hfresh hnow
    · intro ref pair hget _ hsame
      obtain ⟨b, e, i, hpair, -⟩ := hacc.pair ref pair hget
      cases hpair.symm.trans hsame
    · rw [← h.registrations]
      exact registrationSigned_record (by simp [registrationSeed, SeedSpace.key]) payload rfl

theorem preserves_tracks_prepareRotation :
    Preserves (Tracks seed payloads) prepareRotation := by
  intro k h
  have hacc := h.accounted
  have hbatched := preserves_batched_prepareRotation k hacc.batched
  rw [prepareRotation_eq] at hbatched ⊢
  exact ⟨⟨hbatched, hacc.keyIndex_le, hacc.spent, hacc.once, hacc.pair, hacc.pair_unique,
    hacc.pair_unused⟩, h.registrations⟩

theorem preserves_tracks_executeRotation :
    Preserves (Tracks seed payloads) executeRotation := by
  intro k h
  have hacc := h.accounted
  have hbatched := preserves_batched_executeRotation k hacc.batched
  rcases executeRotation_cases k with ⟨-, hk⟩ | ⟨p, hp, hk⟩
  · rwa [hk]
  · obtain ⟨-, htree⟩ := hacc.batched.next p hp
    rw [hk] at hbatched ⊢
    refine ⟨⟨hbatched, ?_, ?_, hacc.once, hacc.pair, hacc.pair_unique, hacc.pair_unused⟩,
      h.registrations⟩
    · simp [htree, TemporalAuthTree.init]
    · intro s hs
      have hspent := hacc.spent s hs
      generalize s.seed = u at hspent
      cases u with
      | key b i =>
        rcases hspent with ⟨n, hn, rfl⟩ | ⟨rfl, -⟩
        · exact Or.inl ⟨n, Nat.lt_succ_of_lt hn, rfl⟩
        · exact Or.inl ⟨k.batchNumber, Nat.lt_succ_self _, rfl⟩
      | legacy b e i => exact hspent
      | master _ => exact hspent
      | wiped => exact hspent
      | initialBatch _ => exact hspent
      | nextBatch _ => exact hspent
      | registration _ => exact hspent

theorem Accounted.generated (h : Accounted seed k) (epoch : ℤ) :
    Accounted seed (k.generated epoch) := by
  have hnew : (k.newKeyPair epoch).keySeed = .legacy k.currentBatchSeed epoch k.keyIndex := rfl
  have hold : ∀ ref pair, k.pairAt ref = some pair → pair.keySeed ≠ (k.newKeyPair epoch).keySeed := by
    intro ref pair hget hsame
    obtain ⟨b, e, i, hpair, hi⟩ := h.pair ref pair hget
    rw [hpair, hnew] at hsame
    obtain ⟨-, -, rfl⟩ := SeedTerm.legacy.inj hsame
    exact lt_irrefl _ hi
  refine ⟨h.batched.generated epoch, h.keyIndex_le, ?_, h.once, ?_, ?_, ?_⟩
  · intro s hs
    exact (h.spent s hs).mono rfl (fun _ hi => hi) (Nat.le_succ _)
  · intro ref pair hget
    rw [pairAt_generated] at hget
    split_ifs at hget
    · obtain rfl := Option.some.inj hget
      exact ⟨_, _, _, hnew, Nat.lt_succ_self _⟩
    · obtain ⟨b, e, i, hpair, hi⟩ := h.pair ref pair hget
      exact ⟨b, e, i, hpair, Nat.lt_succ_of_lt hi⟩
  · intro ref ref' pair pair' hget hget' hsame
    rw [pairAt_generated] at hget hget'
    split_ifs at hget hget' with href href' href'
    · rw [href, href']
    · obtain rfl := Option.some.inj hget
      exact absurd hsame.symm (hold ref' pair' hget')
    · obtain rfl := Option.some.inj hget'
      exact absurd hsame (hold ref pair hget)
    · exact h.pair_unique ref ref' pair pair' hget hget' hsame
  · intro ref pair hget hused s hs
    rw [pairAt_generated] at hget
    split_ifs at hget
    · obtain rfl := Option.some.inj hget
      intro hsame
      have hother : s ∈ k.otherSigned seed :=
        List.mem_filter.mpr ⟨hs, by simp [hsame, hnew, registrationSeed]⟩
      have hspent := h.spent s hother
      rw [hsame, hnew] at hspent
      exact lt_irrefl _ hspent
    · exact h.pair_unused ref pair hget hused s hs

theorem preserves_tracks_generateKeypair (epoch : ℤ) :
    Preserves (Tracks seed payloads) (generateKeypair epoch) :=
  preserves_generateKeypair fun _ h => ⟨h.accounted.generated epoch, h.registrations⟩

theorem preserves_tracks_getUnusedKeypair (epoch : ℤ) :
    Preserves (Tracks seed payloads) (getUnusedKeypair epoch) :=
  preserves_getUnusedKeypair fun _ h => ⟨h.accounted.generated epoch, h.registrations⟩

theorem pairAt_of_markUsed {ref ref' : KeyRef} {pair : KeyPair SeedTerm}
    (h : (k.markUsed ref).pairAt ref' = some pair) :
    ∃ pair', k.pairAt ref' = some pair' ∧ pair'.keySeed = pair.keySeed ∧
      (pair.used = false → ref' ≠ ref ∧ pair'.used = false) := by
  rw [pairAt_markUsed] at h
  split_ifs at h with href
  · obtain ⟨pair', hget, rfl⟩ := Option.map_eq_some_iff.mp h
    rw [href]
    exact ⟨pair', hget, rfl, by simp⟩
  · exact ⟨pair, h, rfl, fun hused => ⟨href, hused⟩⟩

theorem Accounted.markUsed (h : Accounted seed k) (ref : KeyRef) :
    Accounted seed (k.markUsed ref) := by
  refine ⟨⟨h.batched.master, h.batched.current, h.batched.tree, h.batched.next⟩, h.keyIndex_le,
    h.spent, h.once, ?_, ?_, ?_⟩
  · intro ref' pair hget
    obtain ⟨pair', hget', hseed, -⟩ := pairAt_of_markUsed hget
    rw [← hseed]
    exact h.pair ref' pair' hget'
  · intro r r' pair pair' hget hget' hsame
    obtain ⟨old, hold, hseed, -⟩ := pairAt_of_markUsed hget
    obtain ⟨old', hold', hseed', -⟩ := pairAt_of_markUsed hget'
    exact h.pair_unique r r' old old' hold hold' (by rw [hseed, hseed', hsame])
  · intro ref' pair hget hused s hs
    obtain ⟨pair', hget', hseed, hunused⟩ := pairAt_of_markUsed hget
    rw [← hseed]
    exact h.pair_unused ref' pair' hget' (hunused hused).2 s hs

theorem preserves_tracks_sign (payload : Payload) (ref : KeyRef) :
    Preserves (Tracks seed payloads) (sign payload ref) := by
  intro k h
  have hacc := h.accounted
  rcases sign_cases payload ref k with hk | ⟨pair, hget, hused, hk⟩
  · rwa [hk]
  · obtain ⟨b, e, i, hpair, hi⟩ := hacc.pair ref pair hget
    rw [hk]
    refine ⟨(hacc.markUsed ref).record ?_ (hacc.pair_unused ref pair hget hused) ?_ payload, ?_⟩
    · rw [hpair]
      exact hi
    · intro ref' pair' hget' hused' hsame
      obtain ⟨old, hold, hseed, hunused⟩ := pairAt_of_markUsed hget'
      exact (hunused hused').1 (hacc.pair_unique ref' ref old pair hold hget (hseed.trans hsame))
    · rw [← h.registrations]
      exact registrationSigned_record (by simp [hpair, registrationSeed]) payload rfl

theorem Tracks.setFlags (h : Tracks seed payloads k) (registered : Bool) (epoch : ℤ) :
    Tracks seed payloads { k with isRegistered := registered, currentEpoch := epoch } := by
  have hacc := h.accounted
  have hbatched := hacc.batched
  exact ⟨⟨⟨hbatched.master, hbatched.current, hbatched.tree, hbatched.next⟩, hacc.keyIndex_le,
    hacc.spent, hacc.once, hacc.pair, hacc.pair_unique, hacc.pair_unused⟩, h.registrations⟩

/-- A signature with the registration key leaves the account of the others as it is. -/
theorem Tracks.recordRegistration (h : Tracks seed payloads k) (payload : Payload) :
    Tracks seed (payloads ++ [payload])
      { k with signed := k.signed ++ [⟨.registration k.masterSeed, payload⟩] } := by
  have hacc := h.accounted
  have hbatched := hacc.batched
  have hseed : SeedTerm.registration k.masterSeed = registrationSeed seed := by
    rw [hbatched.master, registrationSeed]
  have hother : otherSigned seed
      { k with signed := k.signed ++ [⟨.registration k.masterSeed, payload⟩] } =
      k.otherSigned seed := by
    simp [otherSigned, List.filter_append, hseed]
  refine ⟨⟨⟨hbatched.master, hbatched.current, hbatched.tree, hbatched.next⟩, hacc.keyIndex_le,
    ?_, ?_, hacc.pair, hacc.pair_unique, ?_⟩, ?_⟩
  · rw [hother]
    exact hacc.spent
  · rw [hother]
    exact hacc.once
  · intro ref pair hget hused s hs
    rcases List.mem_append.mp hs with hs | hs
    · exact hacc.pair_unused ref pair hget hused s hs
    · obtain rfl := List.mem_singleton.mp hs
      obtain ⟨b, e, i, hpair, -⟩ := hacc.pair ref pair hget
      simp [hpair]
  · simp [registrationSigned, List.filter_append, hseed, ← h.registrations]

end KeyManager

end Qrtb
