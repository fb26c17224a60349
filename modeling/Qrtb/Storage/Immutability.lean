import Qrtb.Storage.BlockStore

/-!
# Stored blocks that change

The header of a stored block is never touched again, but the rows of its
transaction hashes are. A second block of the same epoch writes its hashes over
the first ones of the stored block. Blocks stay what they were as long as no call
does that with other hashes than those that stand there.
-/

namespace Qrtb

open Transition

namespace BlockStore

/-- A call of `store_block`; `fault` tells whether a statement fails by itself. -/
structure StoreCall where
  fault : Bool := false
  block : StoredBlock

def apply (call : StoreCall) (s : BlockStore) : BlockStore :=
  (s.storeBlock call.fault call.block).2

/-- `get_block` returns this block for this epoch. -/
def Shows (p : ℤ × StoredBlock) (s : BlockStore) : Prop := s.getBlock p.1 = .ok (some p.2)

instance (p : ℤ × StoredBlock) (s : BlockStore) : Decidable (Shows p s) :=
  inferInstanceAs (Decidable (_ = _))

/-- Whatever `get_block` returns at some point, it returns at every later point. -/
def Immutable (calls : List StoreCall) (s : BlockStore) : Prop := Permanent apply Shows calls s

/-- A call that goes through at an epoch that is taken has no other hashes than the stored block
starts with. -/
def Repeats (s : BlockStore) (call : StoreCall) : Prop :=
  s.Lands call.fault call.block → ∀ old, s.blockAt call.block.epoch = some old →
    call.block.transactions <+: old.transactions

theorem apply_shows_iff (s : BlockStore) (call : StoreCall) :
    (∀ p, Shows p s → Shows p (apply call s)) ↔ s.Repeats call := by
  simp only [Shows, getBlock_eq_ok, apply]
  constructor
  · intro h hl old hold
    have hkeep := (h (call.block.epoch, old) ⟨hl.epoch, hold⟩).2
    rw [(s.storeBlock_of_lands hl).2, if_pos rfl, hold] at hkeep
    exact (merge_eq_iff call.block old).mp (Option.some.inj hkeep)
  · intro h p hp
    refine ⟨hp.1, ?_⟩
    by_cases hl : s.Lands call.fault call.block
    · rw [(s.storeBlock_of_lands hl).2]
      split_ifs with he
      · have hpre := h hl p.2 (he ▸ hp.2)
        rw [hp.2, (merge_eq_iff call.block p.2).mpr hpre]
      · exact hp.2
    · rw [s.storeBlock_of_not_lands hl]
      exact hp.2

/-- Blocks are immutable along a sequence of calls exactly when every call finds its epoch free
or repeats the first hashes of the block that is there. -/
theorem immutable_iff (calls : List StoreCall) (s : BlockStore) :
    Immutable calls s ↔
      ∀ pre call post, calls = pre ++ call :: post → (runs apply pre s).Repeats call := by
  rw [Immutable, permanent_iff]
  simp only [apply_shows_iff]

/-- Two blocks of one epoch with one transaction each. -/
def rivalCalls : List StoreCall :=
  [{ block :=
      { epoch := 2, blockHash := [1], prevHash := [], merkleRoot := [], timestamp := 0,
        proposerId := [], transactions := [[10]], rawData := [] } },
   { block :=
      { epoch := 2, blockHash := [2], prevHash := [], merkleRoot := [], timestamp := 0,
        proposerId := [], transactions := [[20]], rawData := [] } }]

/-- The second block leaves the header of the first and puts its own transaction below it. -/
theorem rivalCalls_not_immutable : ¬ Immutable rivalCalls ∅ := by
  intro h
  have hbefore : Shows (2, rivalCalls[0].block) (runs apply [rivalCalls[0]] ∅) := by decide
  have hafter := h [rivalCalls[0]] [rivalCalls[1]] [] rfl _ hbefore
  have hmixed : Shows (2, { rivalCalls[0].block with transactions := [[20]] })
      (runs apply ([rivalCalls[0]] ++ [rivalCalls[1]]) ∅) := by decide
  have hsame := Option.some.inj (Except.ok.inj (hafter.symm.trans hmixed))
  exact absurd (congrArg StoredBlock.transactions hsame) (by decide)

end BlockStore

end Qrtb
