import Qrtb.Performance.ParallelMerkleTree
import Mathlib.Data.List.Nodup

/-!
# What a parallel Merkle root says about its leaves

A row of odd length is completed by its last node, so a list and the list with
that repetition have one root, and so have a list and any row computed from it.
Nothing else is lost: with each list completed by repetition to a perfect row,
and the larger tree taken at the level at which it is as wide as the smaller
one, equal roots mean equal rows, or two hashed strings collide.
-/

namespace Qrtb

open Keccak MerkleTree

namespace ParallelMerkleTree

/-- The row that the completions of all levels amount to, place by place. -/
def completed (current : List Bytes) (i : ℕ) : Bytes :=
  current.getD (HashTree.source current.length i) []

/-- A list with the repetitions that make its tree a perfect one. -/
def completion (current : List Bytes) : List Bytes :=
  (List.range (2 ^ depth current)).map (completed current)

theorem getElem?_complete (current : List Bytes) {i : ℕ} (hi : i < 2 * ((current.length + 1) / 2)) :
    (complete current)[i]? = some (current.getD (min (current.length - 1) i) []) := by
  unfold complete
  split_ifs with hodd
  · have hne : current ≠ [] := by
      rintro rfl
      simp at hodd
    rcases lt_or_ge i current.length with hlt | hge
    · rw [List.getElem?_append_left hlt, min_eq_right (by omega), List.getElem?_eq_getElem hlt,
        List.getD_eq_getElem _ _ hlt]
    · obtain rfl : i = current.length := by omega
      have hlast : current.length - 1 < current.length := by omega
      rw [List.getElem?_append_right le_rfl, Nat.sub_self, min_eq_left (by omega),
        List.getD_eq_getElem _ _ hlast, List.getLast?_eq_some_getLast hne, Option.toList_some,
        List.getElem?_cons_zero, List.getLast_eq_getElem]
  · have hlt : i < current.length := by omega
    rw [min_eq_right (by omega), List.getElem?_eq_getElem hlt, List.getD_eq_getElem _ _ hlt]

section

variable {current : List Bytes}

theorem exists_pair (hlong : 1 < current.length) {i : ℕ} (hi : i < (current.length + 1) / 2) :
    (complete current)[2 * i]? = some (current.getD (2 * i) []) ∧
      (complete current)[2 * i + 1]? =
        some (current.getD (min (current.length - 1) (2 * i + 1)) []) := by
  have hleft := getElem?_complete current (i := 2 * i) (by omega)
  rw [min_eq_right (by omega)] at hleft
  exact ⟨hleft, getElem?_complete current (by omega)⟩

/-- Completing the next row repeats the parents of what completing this one repeats. -/
theorem completed_sequentialPass (hlong : 1 < current.length) :
    completed (sequentialPass current) = fun i =>
      HashTree.parent joinHash current.length (fun j => current.getD j [])
        (HashTree.source ((current.length + 1) / 2) i) := by
  funext i
  have hi := HashTree.source_lt (n := (current.length + 1) / 2) (by omega) i
  obtain ⟨hleft, hright⟩ := exists_pair hlong hi
  rw [completed, length_sequentialPass, List.getD_eq_getElem?_getD, sequentialPass,
    getElem?_nextLevel hleft hright]
  rfl

theorem nodeAt_completed_succ (hlong : 1 < current.length) (k i : ℕ) :
    HashTree.nodeAt joinHash (completed current) (k + 1) i =
      HashTree.nodeAt joinHash (completed (sequentialPass current)) k i := by
  rw [completed_sequentialPass hlong]
  exact HashTree.nodeAt_source joinHash hlong (fun j => current.getD j []) k i

theorem size_eq_succ {m : ℕ} (hm : 0 < m) : Nat.size m = Nat.size (m / 2) + 1 := by
  apply eq_of_forall_ge_iff
  intro k
  cases k with
  | zero =>
    rw [Nat.size_le]
    omega
  | succ k =>
    rw [Nat.size_le, Nat.add_le_add_iff_right, Nat.size_le, pow_succ']
    omega

theorem depth_sequentialPass (hlong : 1 < current.length) :
    depth current = depth (sequentialPass current) + 1 := by
  have hhalf : (current.length + 1) / 2 - 1 = (current.length - 1) / 2 := by omega
  rw [depth, depth, length_sequentialPass, hhalf]
  exact size_eq_succ (by omega)

end

/-- What the loop ends with is the top of the perfect tree over the completed row. -/
theorem sequentialLoop_eq {current : List Bytes} (h : current ≠ []) :
    sequentialLoop current =
      [HashTree.nodeAt joinHash (completed current) (depth current) 0] := by
  induction current using sequentialLoop.induct with
  | case1 current hlong ih =>
    rw [sequentialLoop, if_pos hlong, ih (sequentialPass_ne_nil hlong), depth_sequentialPass hlong,
      nodeAt_completed_succ hlong]
  | case2 current hshort =>
    obtain ⟨leaf, rfl⟩ : ∃ leaf, current = [leaf] := by
      apply List.length_eq_one_iff.mp
      have hpos : 0 < current.length := List.length_pos_iff.mpr h
      omega
    rw [sequentialLoop, if_neg hshort]
    simp [depth, HashTree.nodeAt, completed, HashTree.source]

theorem one_lt_length_of_depth {current : List Bytes} (h : 0 < depth current) :
    1 < current.length := by
  by_contra hshort
  rw [depth, show current.length - 1 = 0 by omega, Nat.size_zero] at h
  omega

theorem nodeAt_completed {current : List Bytes} {k : ℕ} (hk : k ≤ depth current) (i : ℕ) :
    HashTree.nodeAt joinHash (completed current) k i = completed (sequentialPass^[k] current) i := by
  induction k generalizing current with
  | zero => rfl
  | succ k ih =>
    have hlong := one_lt_length_of_depth (by omega : 0 < depth current)
    rw [depth_sequentialPass hlong] at hk
    rw [nodeAt_completed_succ hlong, ih (by omega), Function.iterate_succ_apply]

theorem depth_iterate {current : List Bytes} {k : ℕ} (hk : k ≤ depth current) :
    depth (sequentialPass^[k] current) = depth current - k := by
  induction k generalizing current with
  | zero => rfl
  | succ k ih =>
    have hlong := one_lt_length_of_depth (by omega : 0 < depth current)
    have hdepth := depth_sequentialPass hlong
    rw [Function.iterate_succ_apply, ih (by omega), hdepth]
    omega

/-- By one round of the sequential loop. -/
def passInputs (current : List Bytes) : List Bytes := pairInputs (complete current)

def sequentialInputs (current : List Bytes) : List Bytes :=
  if current.length > 1 then passInputs current ++ sequentialInputs (sequentialPass current) else []
termination_by current.length
decreasing_by
  rw [length_sequentialPass]
  omega

/-- By `_hash_chunk`. -/
def chunkInputs : List Bytes → List Bytes
  | a :: b :: rest => (a ++ b) :: chunkInputs rest
  | [a] => [a ++ a]
  | [] => []

def parallelPassInputs (numWorkers : ℕ) (current : List Bytes) : List Bytes :=
  match chunks numWorkers (complete current) with
  | .ok chunks => chunks.flatMap chunkInputs
  | .error _ => []

def parallelInputs (numWorkers : ℕ) (current : List Bytes) : List Bytes :=
  if current.length > 1 then
    parallelPassInputs numWorkers current ++
      match _hnext : parallelPass numWorkers current with
      | .ok next => parallelInputs numWorkers next
      | .error _ => []
  else []
termination_by current.length
decreasing_by
  rw [length_of_parallelPass _hnext]
  omega

/-- By `compute_root`. -/
def rootInputs (batchSize numWorkers : ℕ) (leaves : List Bytes) : List Bytes :=
  if leaves.length ≤ 1 then []
  else if leaves.length ≤ batchSize then sequentialInputs leaves
  else parallelInputs numWorkers leaves

theorem chunkInputs_append {front : List Bytes} (h : front.length % 2 = 0) (rest : List Bytes) :
    chunkInputs (front ++ rest) = chunkInputs front ++ chunkInputs rest := by
  induction front using chunkInputs.induct with
  | case1 a b front ih =>
    rw [List.length_cons, List.length_cons] at h
    simp only [List.cons_append, chunkInputs]
    rw [ih (by omega)]
  | case2 a => simp at h
  | case3 => rfl

theorem chunkInputs_of_even {pairs : List Bytes} (h : pairs.length % 2 = 0) :
    chunkInputs pairs = pairInputs pairs := by
  induction pairs using chunkInputs.induct with
  | case1 a b pairs ih =>
    rw [List.length_cons, List.length_cons] at h
    rw [chunkInputs, pairInputs, ih (by omega)]
  | case2 a => simp at h
  | case3 => rfl

theorem parallelPassInputs_eq {numWorkers : ℕ} (hw : 1 ≤ numWorkers) (current : List Bytes) :
    parallelPassInputs numWorkers current = passInputs current := by
  rcases chunks_cases numWorkers (complete current) with ⟨hzero, -⟩ | ⟨-, step, hstep, heven, hok⟩
  · omega
  · have hall := flatMap_slices (f := chunkInputs) rfl (fun _ rest h => chunkInputs_append h rest)
      hstep heven (complete current)
    rw [chunkInputs_of_even (by rw [length_complete]; omega)] at hall
    rw [parallelPassInputs, hok]
    exact hall

theorem parallelInputs_eq {numWorkers : ℕ} (hw : 1 ≤ numWorkers) (current : List Bytes) :
    parallelInputs numWorkers current = sequentialInputs current := by
  induction current using sequentialLoop.induct with
  | case1 current h ih =>
    rcases parallelPass_cases numWorkers current with ⟨hzero, -⟩ | ⟨-, hok⟩
    · omega
    · rw [parallelInputs, sequentialInputs, if_pos h, if_pos h, parallelPassInputs_eq hw, ← ih]
      congr 1
      split
      · rename_i next hnext
        rw [hok] at hnext
        rw [Except.ok.inj hnext]
      · rename_i e herror
        rw [hok] at herror
        cases herror
  | case2 current h => rw [parallelInputs, sequentialInputs, if_neg h, if_neg h]

theorem rootInputs_eq {numWorkers : ℕ} (hw : 1 ≤ numWorkers) (batchSize : ℕ)
    (leaves : List Bytes) : rootInputs batchSize numWorkers leaves = sequentialInputs leaves := by
  rw [rootInputs, parallelInputs_eq hw, ite_self]
  split_ifs with hshort
  · rw [sequentialInputs, if_neg (by omega)]
  · rfl

theorem mem_sequentialInputs {current : List Bytes} {p : Bytes × Bytes}
    (hp : HashTree.IsTreePair joinHash (completed current) (depth current) p) :
    p.1 ++ p.2 ∈ sequentialInputs current := by
  induction current using sequentialLoop.induct with
  | case1 current hlong ih =>
    obtain ⟨k, i, hk, hi, rfl⟩ := hp
    have hdepth := depth_sequentialPass hlong
    rw [sequentialInputs, if_pos hlong, List.mem_append]
    cases k with
    | zero =>
      left
      have hsource := HashTree.source_lt (n := (current.length + 1) / 2) (by omega) i
      obtain ⟨hleft, hright⟩ := exists_pair hlong hsource
      have hpair := List.mem_of_getElem? (getElem?_pairInputs hleft hright)
      simp only [HashTree.nodeAt, completed, HashTree.source_two_mul hlong,
        HashTree.source_two_mul_add_one hlong]
      exact hpair
    | succ k =>
      right
      apply ih
      refine ⟨k, i, by omega, ?_, ?_⟩
      · rwa [show depth (sequentialPass current) - (k + 1) = depth current - (k + 1 + 1) by omega]
      · rw [nodeAt_completed_succ hlong, nodeAt_completed_succ hlong]
  | case2 current hshort =>
    obtain ⟨k, i, hk, -⟩ := hp
    rw [depth, show current.length - 1 = 0 by omega, Nat.size_zero] at hk
    omega

section Binding

variable {leaves leaves' : List Bytes}

theorem length_nodeAt_completed (hne : leaves ≠ []) (hsize : ∀ leaf ∈ leaves, leaf.length = 32)
    (k i : ℕ) : (HashTree.nodeAt joinHash (completed leaves) k i).length = 32 := by
  cases k with
  | zero =>
    have hlt := HashTree.source_lt (List.length_pos_iff.mpr hne) i
    rw [HashTree.nodeAt, completed, List.getD_eq_getElem _ _ hlt]
    exact hsize _ (List.getElem_mem hlt)
  | succ k => exact length_sha3_256 _

theorem collisionIn_of_treeCollision (hne : leaves ≠ []) (hne' : leaves' ≠ [])
    (hsize : ∀ leaf ∈ leaves, leaf.length = 32) (hsize' : ∀ leaf ∈ leaves', leaf.length = 32)
    (h : HashTree.TreeCollision joinHash (completed leaves) (completed leaves') (depth leaves)
      (depth leaves')) :
    CollisionIn (sequentialInputs leaves ++ sequentialInputs leaves') := by
  obtain ⟨p, hp, q, hq, hpq, hjoin⟩ := h
  refine ⟨_, List.mem_append_left _ (mem_sequentialInputs hp), _,
    List.mem_append_right _ (mem_sequentialInputs hq), ?_, hjoin⟩
  intro heq
  have hlength : p.1.length = q.1.length := by
    obtain ⟨k, i, -, -, rfl⟩ := hp
    obtain ⟨k', i', -, -, rfl⟩ := hq
    rw [length_nodeAt_completed hne hsize, length_nodeAt_completed hne' hsize']
  obtain ⟨hfirst, hsecond⟩ := List.append_inj heq hlength
  exact hpq (Prod.ext hfirst hsecond)

/-- The completed row of the shallower tree is a completed row of the deeper one. -/
theorem completion_agrees (hne : leaves ≠ []) (hne' : leaves' ≠ [])
    (hsize : ∀ leaf ∈ leaves, leaf.length = 32) (hsize' : ∀ leaf ∈ leaves', leaf.length = 32)
    {e : ℕ} (he : depth leaves' = e + depth leaves)
    (hroot : HashTree.nodeAt joinHash (completed leaves) (depth leaves) 0 =
      HashTree.nodeAt joinHash (completed leaves') (depth leaves') 0) :
    completion leaves = completion (sequentialPass^[e] leaves') ∨
      CollisionIn (sequentialInputs leaves ++ sequentialInputs leaves') := by
  rw [he] at hroot
  rcases HashTree.leaves_agree joinHash hroot with hagree | hcollision
  · left
    have hdepth : depth (sequentialPass^[e] leaves') = depth leaves := by
      rw [depth_iterate (by omega), he]
      omega
    rw [completion, completion, hdepth]
    apply List.map_congr_left
    intro i hi
    rw [hagree i (List.mem_range.mp hi), nodeAt_completed (by omega)]
  · right
    apply collisionIn_of_treeCollision hne hne' hsize hsize'
    rwa [he]

theorem nodeAt_eq_of_completion {e : ℕ} (he : depth leaves' = e + depth leaves)
    (h : completion leaves = completion (sequentialPass^[e] leaves')) :
    HashTree.nodeAt joinHash (completed leaves) (depth leaves) 0 =
      HashTree.nodeAt joinHash (completed leaves') (depth leaves') 0 := by
  have hdepth : depth (sequentialPass^[e] leaves') = depth leaves := by
    rw [depth_iterate (by omega), he]
    omega
  rw [completion, completion, hdepth, List.map_inj_left] at h
  rw [he, HashTree.nodeAt_add]
  apply HashTree.nodeAt_congr
  intro i hi
  have hlt : i < 2 ^ depth leaves := by
    rwa [Nat.div_eq_zero_iff_lt (Nat.two_pow_pos _)] at hi
  rw [h i (List.mem_range.mpr hlt), nodeAt_completed (by omega)]

theorem eq_of_completion_eq (hlength : leaves.length = leaves'.length)
    (h : completion leaves = completion leaves') : leaves = leaves' := by
  apply List.ext_getElem hlength
  intro i hi hi'
  have hplace := (lt_two_pow_depth hi).2
  have hdepth : depth leaves = depth leaves' := by rw [depth, depth, hlength]
  rw [completion, completion, hdepth, List.map_inj_left] at h
  rw [hdepth] at hplace
  have hnode := h i (List.mem_range.mpr hplace)
  rwa [completed, completed, HashTree.source_of_lt hi, HashTree.source_of_lt hi',
    List.getD_eq_getElem _ _ hi, List.getD_eq_getElem _ _ hi'] at hnode

end Binding

/-- The row of the first list at the level where its tree is at most as wide as the other's. -/
def narrowed (leaves leaves' : List Bytes) : List Bytes :=
  sequentialPass^[depth leaves - depth leaves'] leaves

theorem computeRoot_eq (batchSize : ℕ) {numWorkers : ℕ} (hw : 1 ≤ numWorkers)
    {leaves : List Bytes} (hne : leaves ≠ []) :
    computeRoot batchSize numWorkers leaves =
      .ok (HashTree.nodeAt joinHash (completed leaves) (depth leaves) 0) :=
  (computeRoot_eq_ok (sequentialLoop_eq hne) hw).2.2 batchSize

section Root

variable {leaves leaves' : List Bytes}

theorem completion_narrowed (hne : leaves ≠ []) (hne' : leaves' ≠ [])
    (hsize : ∀ leaf ∈ leaves, leaf.length = 32) (hsize' : ∀ leaf ∈ leaves', leaf.length = 32)
    (hroot : HashTree.nodeAt joinHash (completed leaves) (depth leaves) 0 =
      HashTree.nodeAt joinHash (completed leaves') (depth leaves') 0) :
    completion (narrowed leaves leaves') = completion (narrowed leaves' leaves) ∨
      CollisionIn (sequentialInputs leaves ++ sequentialInputs leaves') := by
  rcases le_total (depth leaves) (depth leaves') with hdepth | hdepth
  · rw [narrowed, narrowed, Nat.sub_eq_zero_of_le hdepth]
    exact completion_agrees hne hne' hsize hsize' (Nat.sub_add_cancel hdepth).symm hroot
  · rw [narrowed, narrowed, Nat.sub_eq_zero_of_le hdepth]
    rcases completion_agrees hne' hne hsize' hsize (Nat.sub_add_cancel hdepth).symm hroot.symm
      with hagree | hcollision
    · exact Or.inl hagree.symm
    · right
      apply hcollision.mono
      intro m hm
      exact List.mem_append.mpr (List.mem_append.mp hm).symm

theorem nodeAt_eq_of_narrowed
    (h : completion (narrowed leaves leaves') = completion (narrowed leaves' leaves)) :
    HashTree.nodeAt joinHash (completed leaves) (depth leaves) 0 =
      HashTree.nodeAt joinHash (completed leaves') (depth leaves') 0 := by
  rcases le_total (depth leaves) (depth leaves') with hdepth | hdepth
  · rw [narrowed, narrowed, Nat.sub_eq_zero_of_le hdepth] at h
    exact nodeAt_eq_of_completion (Nat.sub_add_cancel hdepth).symm h
  · rw [narrowed, narrowed, Nat.sub_eq_zero_of_le hdepth] at h
    exact (nodeAt_eq_of_completion (Nat.sub_add_cancel hdepth).symm h.symm).symm

end Root

/-- Equal roots are equal completed rows at the width of the smaller tree, or two hashed strings
collide; such rows give equal roots; and lists of one length are then equal. -/
theorem computeRoot_binding (batchSize batchSize' numWorkers numWorkers' : ℕ)
    (hw : 1 ≤ numWorkers) (hw' : 1 ≤ numWorkers') (leaves leaves' : List Bytes)
    (hne : leaves ≠ []) (hne' : leaves' ≠ []) (hsize : ∀ leaf ∈ leaves, leaf.length = 32)
    (hsize' : ∀ leaf ∈ leaves', leaf.length = 32) :
    (computeRoot batchSize numWorkers leaves = computeRoot batchSize' numWorkers' leaves' →
      completion (narrowed leaves leaves') = completion (narrowed leaves' leaves) ∨
        CollisionIn (rootInputs batchSize numWorkers leaves ++
          rootInputs batchSize' numWorkers' leaves')) ∧
    (completion (narrowed leaves leaves') = completion (narrowed leaves' leaves) →
      computeRoot batchSize numWorkers leaves = computeRoot batchSize' numWorkers' leaves') ∧
    (leaves.length = leaves'.length →
      computeRoot batchSize numWorkers leaves = computeRoot batchSize' numWorkers' leaves' →
      leaves = leaves' ∨ CollisionIn (rootInputs batchSize numWorkers leaves ++
        rootInputs batchSize' numWorkers' leaves')) := by
  rw [computeRoot_eq batchSize hw hne, computeRoot_eq batchSize' hw' hne', rootInputs_eq hw,
    rootInputs_eq hw', Except.ok.injEq]
  have hagree := completion_narrowed hne hne' hsize hsize'
  refine ⟨hagree, nodeAt_eq_of_narrowed, fun hlength hroot => ?_⟩
  have hdepth : depth leaves = depth leaves' := by rw [depth, depth, hlength]
  rcases hagree hroot with hrows | hcollision
  · rw [narrowed, narrowed, hdepth, Nat.sub_self] at hrows
    exact Or.inl (eq_of_completion_eq hlength hrows)
  · exact Or.inr hcollision

theorem complete_complete (current : List Bytes) : complete (complete current) = complete current := by
  rw [complete, if_neg (by rw [length_complete]; omega)]

theorem sequentialLoop_of_long {current : List Bytes} (h : 1 < current.length) :
    sequentialLoop current = sequentialLoop (sequentialPass current) := by
  rw [sequentialLoop, if_pos h]

theorem sequentialInputs_of_long {current : List Bytes} (h : 1 < current.length) :
    sequentialInputs current = passInputs current ++ sequentialInputs (sequentialPass current) := by
  rw [sequentialInputs, if_pos h]

/-- Repeating the last of an odd number of leaves changes no hash after that. -/
theorem computeRoot_complete {leaves : List Bytes} (hlong : 1 < leaves.length)
    (batchSize batchSize' : ℕ) {numWorkers numWorkers' : ℕ} (hw : 1 ≤ numWorkers)
    (hw' : 1 ≤ numWorkers') :
    computeRoot batchSize numWorkers leaves =
        computeRoot batchSize' numWorkers' (complete leaves) ∧
      rootInputs batchSize numWorkers leaves =
        rootInputs batchSize' numWorkers' (complete leaves) := by
  have hlong' : 1 < (complete leaves).length := by
    rw [length_complete]
    omega
  have hpass : sequentialPass (complete leaves) = sequentialPass leaves := by
    rw [sequentialPass, complete_complete, sequentialPass]
  have hne : leaves ≠ [] := List.ne_nil_of_length_pos (by omega)
  obtain ⟨root, hroot⟩ := List.length_eq_one_iff.mp (length_sequentialLoop hne)
  have hroot' : sequentialLoop (complete leaves) = [root] := by
    rw [← hroot, sequentialLoop_of_long hlong', sequentialLoop_of_long hlong, hpass]
  constructor
  · rw [(computeRoot_eq_ok hroot hw).2.2, (computeRoot_eq_ok hroot' hw').2.2]
  · rw [rootInputs_eq hw, rootInputs_eq hw', sequentialInputs_of_long hlong,
      sequentialInputs_of_long hlong', hpass, passInputs, passInputs, complete_complete]

def threeLeaves : List Bytes := [List.replicate 32 0, List.replicate 32 1, List.replicate 32 2]

theorem computeRoot_binding_repeated :
    completion (narrowed threeLeaves (complete threeLeaves)) =
        completion (narrowed (complete threeLeaves) threeLeaves) ∨
      CollisionIn (rootInputs MERKLE_BATCH_SIZE 2 threeLeaves ++
        rootInputs MERKLE_BATCH_SIZE 2 (complete threeLeaves)) :=
  (computeRoot_binding MERKLE_BATCH_SIZE MERKLE_BATCH_SIZE 2 2 (by decide) (by decide) threeLeaves
    (complete threeLeaves) (by decide) (by decide) (by decide) (by decide)).1
    (computeRoot_complete (by decide) _ _ (by decide) (by decide)).1

theorem not_computeRoot_binding :
    ¬ ∀ leaves leaves' : List Bytes, leaves ≠ [] → leaves' ≠ [] →
      (∀ leaf ∈ leaves, leaf.length = 32) → (∀ leaf ∈ leaves', leaf.length = 32) →
      computeRoot MERKLE_BATCH_SIZE 2 leaves = computeRoot MERKLE_BATCH_SIZE 2 leaves' →
      leaves = leaves' ∨ CollisionIn (rootInputs MERKLE_BATCH_SIZE 2 leaves ++
        rootInputs MERKLE_BATCH_SIZE 2 leaves') := by
  intro h
  have hlong : 1 < threeLeaves.length := by decide
  have hworkers : 1 ≤ 2 := by decide
  obtain ⟨hroot, hinputs⟩ := computeRoot_complete hlong MERKLE_BATCH_SIZE MERKLE_BATCH_SIZE
    hworkers hworkers
  have hlist : rootInputs MERKLE_BATCH_SIZE 2 threeLeaves =
      [List.replicate 32 0 ++ List.replicate 32 1, List.replicate 32 2 ++ List.replicate 32 2,
        sha3_256 (List.replicate 32 0 ++ List.replicate 32 1) ++
          sha3_256 (List.replicate 32 2 ++ List.replicate 32 2)] := by
    have hpass : sequentialPass threeLeaves =
        [sha3_256 (List.replicate 32 0 ++ List.replicate 32 1),
          sha3_256 (List.replicate 32 2 ++ List.replicate 32 2)] := rfl
    rw [rootInputs_eq hworkers, sequentialInputs_of_long hlong, hpass,
      sequentialInputs_of_long (by simp), sequentialInputs,
      if_neg (by rw [length_sequentialPass]; simp)]
    rfl
  rcases h threeLeaves (complete threeLeaves) (by decide) (by decide) (by decide) (by decide) hroot
    with heq | hcollision
  · exact absurd heq (by decide)
  · rw [← hinputs, hlist] at hcollision
    obtain ⟨m, hm, m', hm', hne, hdigest⟩ := hcollision
    have hnodup : ([List.replicate 32 0 ++ List.replicate 32 1,
        List.replicate 32 2 ++ List.replicate 32 2,
        sha3_256 (List.replicate 32 0 ++ List.replicate 32 1) ++
          sha3_256 (List.replicate 32 2 ++ List.replicate 32 2)].map sha3_256).Nodup := by
      decide +kernel
    rw [List.mem_append, or_self] at hm hm'
    exact hne (List.inj_on_of_nodup_map hnodup hm hm' hdigest)

end ParallelMerkleTree

end Qrtb
