import Qrtb.Crypto.TemporalAuth

/-!
# Seeds as derivation paths

A seed term records how a seed was derived from the master seed; its bytes are
what the derivation functions of the code give along that path. Two terms are
equal only if their paths are, so a term names one key whatever the hash function
does. Read symbolically, the derivations are free one-way constructors, and what
can be derived from a set of terms is its closure under them.
-/

namespace Qrtb

inductive SeedTerm where
  | master (seed : Bytes)
  | wiped
  | initialBatch (s : SeedTerm)
  | nextBatch (s : SeedTerm)
  | key (s : SeedTerm) (index : ℕ)
  | registration (s : SeedTerm)
  | legacy (s : SeedTerm) (epoch : ℤ) (keyIndex : ℕ)
  deriving DecidableEq

namespace SeedTerm

def value : SeedTerm → Bytes
  | .master seed => seed
  | .wiped => List.replicate 64 0
  | .initialBatch s => deriveInitialBatchSeed s.value
  | .nextBatch s => deriveNextBatchSeed s.value
  | .key s index => deriveKeySeed s.value index
  | .registration s => deriveRegistrationSeed s.value
  | .legacy s epoch keyIndex => (deriveLegacySeed s.value epoch keyIndex).toOption.getD []

instance : SeedSpace SeedTerm where
  value := value
  wiped := .wiped
  initialBatch := .initialBatch
  nextBatch := .nextBatch
  key := .key
  registration := .registration
  legacy := .legacy
  value_wiped := rfl
  value_initialBatch _ := rfl
  value_nextBatch _ := rfl
  value_key _ _ := rfl
  value_registration _ := rfl
  value_legacy s epoch i seed h := by simp [value, h, Except.toOption]

end SeedTerm

/-- The seed of batch number `n`. -/
def batchSeed {S : Type} [SeedSpace S] (masterSeed : S) : ℕ → S
  | 0 => SeedSpace.initialBatch masterSeed
  | n + 1 => SeedSpace.nextBatch (batchSeed masterSeed n)

/-- The bytes of a batch seed are the batch seed of the bytes. -/
theorem value_batchSeed {S : Type} [SeedSpace S] (masterSeed : S) (n : ℕ) :
    SeedSpace.value (batchSeed masterSeed n) = batchSeed (SeedSpace.value masterSeed) n := by
  induction n with
  | zero => exact SeedSpace.value_initialBatch masterSeed
  | succ n ih =>
    rw [batchSeed, SeedSpace.value_nextBatch, ih]
    rfl

theorem batchSeed_injective (seed : Bytes) :
    Function.Injective (batchSeed (SeedTerm.master seed)) := by
  intro m
  induction m with
  | zero =>
    intro n h
    cases n with
    | zero => rfl
    | succ n => cases h
  | succ m ih =>
    intro n h
    cases n with
    | zero => cases h
    | succ n => rw [ih (SeedTerm.nextBatch.inj h)]

end Qrtb
