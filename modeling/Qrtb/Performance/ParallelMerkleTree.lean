import Qrtb.Crypto.Merkle

/-!
# Parallel Merkle roots (`ParallelMerkleTree` in `src/performance.py`)

The leaves are used as they are, and a row of odd length is completed by its last
node before its pairs are hashed. Long lists are hashed by a thread pool: every
row is cut into chunks of an even number of nodes, and the results of the chunks
are joined in the order in which the chunks were submitted. No pair straddles two
chunks, so both ways compute the same rows.
-/

namespace Qrtb

open Keccak

namespace ParallelMerkleTree

def MERKLE_BATCH_SIZE : ℕ := 10000

/-- `if len(current) % 2 == 1: current.append(current[-1])`. -/
def complete (current : List Bytes) : List Bytes :=
  if current.length % 2 = 1 then current ++ current.getLast?.toList else current

theorem length_complete (current : List Bytes) :
    (complete current).length = 2 * ((current.length + 1) / 2) := by
  unfold complete
  split_ifs with hodd
  · have hne : current ≠ [] := by
      rintro rfl
      simp at hodd
    rw [List.length_append, List.getLast?_eq_some_getLast hne, Option.toList_some,
      List.length_singleton]
    omega
  · omega

/-- One round of the loop; the inner loop is that of `MerkleTree._build_tree`. -/
def sequentialPass (current : List Bytes) : List Bytes := MerkleTree.nextLevel (complete current)

theorem length_sequentialPass (current : List Bytes) :
    (sequentialPass current).length = (current.length + 1) / 2 := by
  rw [sequentialPass, MerkleTree.length_nextLevel, length_complete]
  omega

def sequentialLoop (current : List Bytes) : List Bytes :=
  if current.length > 1 then sequentialLoop (sequentialPass current) else current
termination_by current.length
decreasing_by
  rw [length_sequentialPass]
  omega

/-- `_compute_root_sequential`. -/
def computeRootSequential (leaves : List Bytes) : Except PyError Bytes :=
  match sequentialLoop leaves with
  | [] => .error .indexError
  | root :: _ => .ok root

/-- `_hash_chunk`. -/
def hashChunk : List Bytes → List Bytes
  | a :: b :: rest => sha3_256 (a ++ b) :: hashChunk rest
  | [a] => [sha3_256 (a ++ a)]
  | [] => []

/-- `current[i:i + step]` for `i in range(0, len(current), step)`. -/
def slices (step : ℕ) (current : List Bytes) : List (List Bytes) :=
  (List.range ((current.length + step - 1) / step)).map fun k => (current.drop (k * step)).take step

theorem slices_nil {step : ℕ} (hstep : 0 < step) : slices step [] = [] := by
  rw [slices, List.length_nil, Nat.zero_add, Nat.div_eq_of_lt (by omega)]
  rfl

theorem slices_of_ne_nil {step : ℕ} (hstep : 0 < step) {current : List Bytes} (h : current ≠ []) :
    slices step current = current.take step :: slices step (current.drop step) := by
  have hpos : 0 < current.length := List.length_pos_iff.mpr h
  have hcount : (current.length + step - 1) / step =
      ((current.drop step).length + step - 1) / step + 1 := by
    have hnone : (step - 1) / step = 0 := Nat.div_eq_of_lt (by omega)
    rw [List.length_drop]
    rcases le_total current.length step with hle | hle
    · have hone : (current.length - 1) / step = 0 := Nat.div_eq_of_lt (by omega)
      rw [Nat.sub_eq_zero_of_le hle, Nat.zero_add, hnone,
        show current.length + step - 1 = current.length - 1 + step by omega,
        Nat.add_div_right _ hstep, hone]
    · rw [← Nat.add_div_right _ hstep]
      congr 1
      omega
  rw [slices, hcount, List.range_succ_eq_map, List.map_cons, List.map_map, Nat.zero_mul,
    List.drop_zero, slices]
  congr 1
  apply List.map_congr_left
  intro k _
  simp only [Function.comp_apply, List.drop_drop, Nat.succ_mul, Nat.add_comm]

/-- What is read off pair by pair is read off slice by slice, when the slices hold whole pairs. -/
theorem flatMap_slices {β : Type*} {f : List Bytes → List β} (hnil : f [] = [])
    (happend : ∀ front rest : List Bytes, front.length % 2 = 0 → f (front ++ rest) = f front ++ f rest)
    {step : ℕ} (hstep : 0 < step) (heven : step % 2 = 0) (current : List Bytes) :
    (slices step current).flatMap f = f current := by
  induction hn : current.length using Nat.strongRecOn generalizing current with
  | ind len ih =>
    by_cases hne : current = []
    · rw [hne, slices_nil hstep, hnil]
      rfl
    · have hpos : 0 < current.length := List.length_pos_iff.mpr hne
      have hrest := ih (current.drop step).length (by rw [List.length_drop]; omega) _ rfl
      rw [slices_of_ne_nil hstep hne, List.flatMap_cons, hrest]
      rcases le_total current.length step with hle | hle
      · rw [List.drop_of_length_le hle, hnil, List.append_nil, List.take_of_length_le hle]
      · rw [← happend _ _ (by rwa [List.length_take_of_le hle]), List.take_append_drop]

theorem hashChunk_append {front : List Bytes} (h : front.length % 2 = 0) (rest : List Bytes) :
    hashChunk (front ++ rest) = hashChunk front ++ hashChunk rest := by
  induction front using hashChunk.induct with
  | case1 a b front ih =>
    rw [List.length_cons, List.length_cons] at h
    simp only [List.cons_append, hashChunk]
    rw [ih (by omega)]
  | case2 a => simp at h
  | case3 => rfl

theorem hashChunk_of_even {pairs : List Bytes} (h : pairs.length % 2 = 0) :
    hashChunk pairs = MerkleTree.nextLevel pairs := by
  induction pairs using hashChunk.induct with
  | case1 a b pairs ih =>
    rw [List.length_cons, List.length_cons] at h
    rw [hashChunk, MerkleTree.nextLevel, ih (by omega)]
  | case2 a => simp at h
  | case3 => rfl

/-- `max(1000, len(current) // (self.num_workers * 2))`. -/
def chunkSize (numWorkers len : ℕ) : Except PyError ℕ :=
  if numWorkers * 2 = 0 then .error .zeroDivisionError
  else .ok (max 1000 (len / (numWorkers * 2)))

def chunks (numWorkers : ℕ) (current : List Bytes) : Except PyError (List (List Bytes)) := do
  let size ← chunkSize numWorkers current.length
  return slices (size * 2) current

/-- One round of the loop: every chunk is a future, and the results are joined in order. -/
def parallelPass (numWorkers : ℕ) (current : List Bytes) : Except PyError (List Bytes) := do
  let chunks ← chunks numWorkers (complete current)
  return chunks.flatMap hashChunk

theorem chunks_cases (numWorkers : ℕ) (current : List Bytes) :
    (numWorkers = 0 ∧ chunks numWorkers current = .error .zeroDivisionError) ∨
      (1 ≤ numWorkers ∧ ∃ step, 0 < step ∧ step % 2 = 0 ∧
        chunks numWorkers current = .ok (slices step current)) := by
  by_cases hw : numWorkers * 2 = 0
  · left
    refine ⟨by omega, ?_⟩
    rw [chunks, chunkSize, if_pos hw]
    rfl
  · right
    refine ⟨by omega, max 1000 (current.length / (numWorkers * 2)) * 2, by omega, by omega, ?_⟩
    rw [chunks, chunkSize, if_neg hw]
    rfl

theorem parallelPass_cases (numWorkers : ℕ) (current : List Bytes) :
    (numWorkers = 0 ∧ parallelPass numWorkers current = .error .zeroDivisionError) ∨
      (1 ≤ numWorkers ∧ parallelPass numWorkers current = .ok (sequentialPass current)) := by
  rcases chunks_cases numWorkers (complete current) with ⟨hw, herror⟩ | ⟨hw, step, hstep, heven, hok⟩
  · left
    refine ⟨hw, ?_⟩
    rw [parallelPass, herror]
    rfl
  · right
    refine ⟨hw, ?_⟩
    have hall := flatMap_slices (f := hashChunk) rfl (fun _ rest h => hashChunk_append h rest)
      hstep heven (complete current)
    rw [hashChunk_of_even (by rw [length_complete]; omega)] at hall
    rw [parallelPass, hok, sequentialPass, ← hall]
    rfl

theorem length_of_parallelPass {numWorkers : ℕ} {current next : List Bytes}
    (h : parallelPass numWorkers current = .ok next) : next.length = (current.length + 1) / 2 := by
  rcases parallelPass_cases numWorkers current with ⟨-, herror⟩ | ⟨-, hok⟩
  · rw [herror] at h
    cases h
  · rw [hok] at h
    obtain rfl := Except.ok.inj h
    exact length_sequentialPass current

def parallelLoop (numWorkers : ℕ) (current : List Bytes) : Except PyError (List Bytes) :=
  if current.length > 1 then
    match _hnext : parallelPass numWorkers current with
    | .ok next => parallelLoop numWorkers next
    | .error e => .error e
  else .ok current
termination_by current.length
decreasing_by
  rw [length_of_parallelPass _hnext]
  omega

/-- `_compute_root_parallel`. -/
def computeRootParallel (numWorkers : ℕ) (leaves : List Bytes) : Except PyError Bytes := do
  match ← parallelLoop numWorkers leaves with
  | [] => return List.replicate 32 0
  | root :: _ => return root

/-- `compute_root` with the cut-over as a parameter. -/
def computeRoot (batchSize numWorkers : ℕ) (leaves : List Bytes) : Except PyError Bytes :=
  match leaves with
  | [] => .ok (List.replicate 32 0)
  | [leaf] => .ok leaf
  | leaves =>
    if leaves.length ≤ batchSize then computeRootSequential leaves
    else computeRootParallel numWorkers leaves

theorem parallelLoop_eq {numWorkers : ℕ} (hw : 1 ≤ numWorkers) (current : List Bytes) :
    parallelLoop numWorkers current = .ok (sequentialLoop current) := by
  induction current using sequentialLoop.induct with
  | case1 current h ih =>
    rcases parallelPass_cases numWorkers current with ⟨hzero, -⟩ | ⟨-, hok⟩
    · omega
    · rw [parallelLoop, sequentialLoop, if_pos h, if_pos h, ← ih]
      split
      · rename_i next hnext
        rw [hok] at hnext
        rw [Except.ok.inj hnext]
      · rename_i e herror
        rw [hok] at herror
        cases herror
  | case2 current h => rw [parallelLoop, sequentialLoop, if_neg h, if_neg h]

theorem sequentialPass_ne_nil {current : List Bytes} (h : 1 < current.length) :
    sequentialPass current ≠ [] := by
  apply List.ne_nil_of_length_pos
  rw [length_sequentialPass]
  omega

theorem length_sequentialLoop {current : List Bytes} (h : current ≠ []) :
    (sequentialLoop current).length = 1 := by
  induction current using sequentialLoop.induct with
  | case1 current hlong ih =>
    rw [sequentialLoop, if_pos hlong]
    exact ih (sequentialPass_ne_nil hlong)
  | case2 current hshort =>
    have hpos : 0 < current.length := List.length_pos_iff.mpr h
    rw [sequentialLoop, if_neg hshort]
    omega

theorem computeRoot_eq_ok {leaves : List Bytes} {root : Bytes} (h : sequentialLoop leaves = [root])
    {numWorkers : ℕ} (hw : 1 ≤ numWorkers) :
    computeRootSequential leaves = .ok root ∧ computeRootParallel numWorkers leaves = .ok root ∧
      ∀ batchSize, computeRoot batchSize numWorkers leaves = .ok root := by
  have hsequential : computeRootSequential leaves = .ok root := by rw [computeRootSequential, h]
  have hparallel : computeRootParallel numWorkers leaves = .ok root := by
    rw [computeRootParallel, parallelLoop_eq hw, h]
    rfl
  refine ⟨hsequential, hparallel, fun batchSize => ?_⟩
  rcases leaves with - | ⟨leaf, - | ⟨leaf', leaves⟩⟩
  · rw [sequentialLoop, if_neg (by simp)] at h
    cases h
  · rw [sequentialLoop, if_neg (by simp)] at h
    obtain rfl := (List.cons.inj h).1
    rfl
  · simp only [computeRoot]
    split_ifs
    · exact hsequential
    · exact hparallel

/-- The parallel root is the sequential one, for every number of workers and every cut-over. -/
theorem computeRootParallel_eq (leaves : List Bytes) (hne : leaves ≠ []) (numWorkers : ℕ)
    (hw : 1 ≤ numWorkers) :
    ∃ root, computeRootSequential leaves = .ok root ∧
      computeRootParallel numWorkers leaves = .ok root ∧
      ∀ batchSize, computeRoot batchSize numWorkers leaves = .ok root := by
  obtain ⟨root, hroot⟩ := List.length_eq_one_iff.mp (length_sequentialLoop hne)
  exact ⟨root, computeRoot_eq_ok hroot hw⟩

theorem computeRootParallel_eq_three :
    ∃ root, computeRootSequential [[1], [2], [3]] = .ok root ∧
      computeRootParallel 2 [[1], [2], [3]] = .ok root ∧
      ∀ batchSize, computeRoot batchSize 2 [[1], [2], [3]] = .ok root :=
  computeRootParallel_eq [[1], [2], [3]] (by decide) 2 (by decide)

end ParallelMerkleTree

end Qrtb
