import Qrtb.Consensus.Detection
import Qrtb.Lib.OrderedPairs

/-!
# Triangles and the order of a validator's measurements (`src/detection.py`)

Each two targets of a validator are looked at once, the earlier one first, and the third
side of their triangle is looked up in the measurements of the earlier one only. So the
order of the list decides which of the two directions is checked, and whether any is. The
counts do not depend on it exactly when the directions agree for every two targets.
-/

namespace Qrtb

open PyFloat OrderedPairs

variable {F : Type}

namespace RTTMeasurement

def side (m : RTTMeasurement F) : Bytes × F := (m.targetId, m.rttMs)

/-- With distinct targets, the measurement that is found for one does not depend on the order. -/
theorem find?_eq_some_iff {l : List (RTTMeasurement F)} (h : (l.map targetId).Nodup) (c : Bytes)
    (m : RTTMeasurement F) :
    l.find? (fun m => decide (m.targetId = c)) = some m ↔ m ∈ l ∧ m.targetId = c := by
  constructor
  · intro hfind
    exact ⟨List.mem_of_find?_eq_some hfind, by simpa using List.find?_some hfind⟩
  · rintro ⟨hm, htarget⟩
    have hsome : (l.find? fun m => decide (m.targetId = c)).isSome :=
      List.find?_isSome.mpr ⟨m, hm, decide_eq_true htarget⟩
    obtain ⟨m', hfind⟩ := Option.isSome_iff_exists.mp hsome
    have hm' := List.mem_of_find?_eq_some hfind
    have htarget' : m'.targetId = c := by simpa using List.find?_some hfind
    rw [hfind, List.inj_on_of_nodup_map h hm' hm (htarget'.trans htarget.symm)]

theorem find?_perm {l l' : List (RTTMeasurement F)} (hperm : l.Perm l')
    (h : (l.map targetId).Nodup) (c : Bytes) :
    l.find? (fun m => decide (m.targetId = c)) = l'.find? fun m => decide (m.targetId = c) := by
  have h' : (l'.map targetId).Nodup := (hperm.map targetId).nodup_iff.mp h
  apply Option.ext
  intro m
  exact (find?_eq_some_iff h c m).trans
    ((and_congr_left fun _ => hperm.mem_iff).trans (find?_eq_some_iff h' c m).symm)

end RTTMeasurement

namespace DetectionEngine

open RTTMeasurement

theorem items_byTarget (f : RTTMeasurement F → F) {ms : List (RTTMeasurement F)}
    (h : (ms.map targetId).Nodup) :
    (byTarget f ms).items = ms.map fun m => (m.targetId, f m) := by
  induction ms using List.reverseRecOn with
  | nil => rfl
  | append_singleton ms m ih =>
    rw [List.map_append, List.nodup_append] at h
    have hfresh : m.targetId ∉ (byTarget f ms).items.map Prod.fst := by
      rw [ih h.1, List.map_map]
      intro hmem
      exact h.2.2 _ hmem _ (List.mem_singleton_self _) rfl
    have hset : byTarget f (ms ++ [m]) = (byTarget f ms).set m.targetId (f m) := by
      rw [byTarget, List.foldl_append]
      rfl
    rw [hset, OrderedDict.set, List.map_append, ← ih h.1]
    exact OrderedDict.setItems_of_not_mem (f m) hfresh

theorem findRtt_set {graph : MeasurementGraph F} {v : Bytes} {own : List (RTTMeasurement F)}
    (hperm : own.Perm (graph.getD v [])) (h : ((graph.getD v []).map targetId).Nodup)
    (b c : Bytes) : findRtt (graph.set v own) b c = findRtt graph b c := by
  rw [findRtt, findRtt, OrderedDict.getD, OrderedDict.get?_set]
  split_ifs with hb
  · rw [hb, Option.getD_some, find?_perm hperm.symm h]
  · rfl

variable [PyFloat F]

def violations (triangles : List (TriangleCheck F)) : ℕ :=
  (triangles.filter fun t => !t.isValid).length

/-- The checks of a kind are counted over the pairs of targets, the earlier target first. -/
theorem countP_trianglesOf (q : TriangleCheck F → Bool) (graph : MeasurementGraph F) (a : Bytes)
    (targets : List (Bytes × F)) :
    (trianglesOf graph a targets).countP q =
      count (fun b c => (triangle graph a b c).any q) targets := by
  induction targets with
  | nil => rfl
  | cons b rest ih =>
    rw [trianglesOf, List.countP_append, List.countP_filterMap, ih, count]
    congr 2
    funext c
    cases triangle graph a b c <;> rfl

theorem countP_checkTriangles (q : TriangleCheck F → Bool) {graph : MeasurementGraph F} {v : Bytes}
    {own : List (RTTMeasurement F)} (hperm : own.Perm (graph.getD v []))
    (h : ((graph.getD v []).map targetId).Nodup) :
    (checkTriangles (graph.set v own) v).countP q =
      count (fun b c => (triangle graph v b.side c.side).any q) own := by
  have hown : ((graph.set v own).getD v []) = own := by
    rw [OrderedDict.getD, OrderedDict.get?_set_self, Option.getD_some]
  have hnodup : (own.map targetId).Nodup := (hperm.map targetId).nodup_iff.mpr h
  have htriangle : ∀ b c, triangle (graph.set v own) v b c = triangle graph v b c := by
    intro b c
    rw [triangle, triangle, findRtt_set hperm h]
  rw [checkTriangles, countP_trianglesOf, hown, items_byTarget rttMs hnodup]
  simp only [htriangle]
  exact count_map _ side own

theorem countP_order_free_iff (q : TriangleCheck F → Bool) {graph : MeasurementGraph F} {v : Bytes}
    (h : ((graph.getD v []).map targetId).Nodup) :
    (∀ own, own.Perm (graph.getD v []) → (checkTriangles (graph.set v own) v).countP q =
        (checkTriangles graph v).countP q) ↔
      ∀ b ∈ graph.getD v [], ∀ c ∈ graph.getD v [], b.targetId ≠ c.targetId →
        ((triangle graph v b.side c.side).any q = true ↔
          (triangle graph v c.side b.side).any q = true) := by
  have hpairs := @count_perm_iff _ (fun b c => (triangle graph v b.side c.side).any q)
    (graph.getD v [])
  have hsame : (checkTriangles graph v).countP q =
      count (fun b c => (triangle graph v b.side c.side).any q) (graph.getD v []) := by
    rw [checkTriangles, countP_trianglesOf, items_byTarget rttMs h]
    exact count_map _ side _
  rw [hsame]
  constructor
  · intro hall b hb c hc hne
    refine Bool.eq_iff_iff.mp (hpairs.mp (fun own hperm => ?_) b hb c hc fun hbc =>
      hne (by rw [hbc]))
    rw [← countP_checkTriangles q hperm h, hall own hperm]
  · intro hsymm own hperm
    rw [countP_checkTriangles q hperm h]
    exact hpairs.mpr (fun b hb c hc hne => Bool.eq_iff_iff.mpr (hsymm b hb c hc fun htarget =>
      hne (List.inj_on_of_nodup_map h hb hc htarget))) own hperm

/-- The side from `b` to `c`, where `b` has measured it, breaks the inequality for `c`. -/
def Violates (graph : MeasurementGraph ℚ) (b c : RTTMeasurement ℚ) : Prop :=
  ∃ rtt, findRtt graph b.targetId c.targetId = some rtt ∧ b.rttMs + rtt < c.rttMs

theorem any_invalid_iff (graph : MeasurementGraph ℚ) (v : Bytes) (b c : RTTMeasurement ℚ) :
    (triangle graph v b.side c.side).any (fun t => !t.isValid) = true ↔ Violates graph b c := by
  rw [triangle, Violates, side, side]
  cases findRtt graph b.targetId c.targetId with
  | none => simp
  | some rtt =>
    simp [PyFloat.le, PyFloat.sub, PyFloat.add, PyFloat.literal]

theorem any_true_iff (graph : MeasurementGraph ℚ) (v : Bytes) (b c : RTTMeasurement ℚ) :
    (triangle graph v b.side c.side).any (fun _ => true) = true ↔
      (findRtt graph b.targetId c.targetId).isSome := by
  rw [triangle, side, side]
  cases findRtt graph b.targetId c.targetId <;> simp

/-- The numbers of checks and of violations are the same for every order of a validator's own list
exactly when, for every two of its targets, each has measured the other or neither has, and the
inequality is broken in both directions or in none. -/
theorem checkTriangles_order_free_iff (graph : MeasurementGraph ℚ) (v : Bytes)
    (h : ((graph.getD v []).map targetId).Nodup) :
    (∀ own, own.Perm (graph.getD v []) →
      (checkTriangles (graph.set v own) v).length = (checkTriangles graph v).length ∧
      violations (checkTriangles (graph.set v own) v) = violations (checkTriangles graph v)) ↔
    ∀ b ∈ graph.getD v [], ∀ c ∈ graph.getD v [], b.targetId ≠ c.targetId →
      ((findRtt graph b.targetId c.targetId).isSome ↔
        (findRtt graph c.targetId b.targetId).isSome) ∧
      (Violates graph b c ↔ Violates graph c b) := by
  have hchecks := countP_order_free_iff (fun _ => true) h
  have hviolations := countP_order_free_iff (fun t : TriangleCheck ℚ => !t.isValid) h
  simp only [List.countP_true, any_true_iff] at hchecks
  simp only [List.countP_eq_length_filter, any_invalid_iff] at hviolations
  constructor
  · intro hall b hb c hc hne
    exact ⟨hchecks.mp (fun own hperm => (hall own hperm).1) b hb c hc hne,
      hviolations.mp (fun own hperm => (hall own hperm).2) b hb c hc hne⟩
  · intro hsymm own hperm
    exact ⟨hchecks.mpr (fun b hb c hc hne => (hsymm b hb c hc hne).1) own hperm,
      hviolations.mpr (fun b hb c hc hne => (hsymm b hb c hc hne).2) own hperm⟩

/-- A measurement with nothing but its two ends and its time. -/
def measured (source target : Bytes) (rtt : ℚ) : RTTMeasurement ℚ :=
  { sourceId := source, targetId := target, rttMs := rtt, timestamp := 0, theoreticalRttMs := 1,
    nonce := [] }

theorem checkTriangles_order_free_of_mutual :
    ∃ graph : MeasurementGraph ℚ, (checkTriangles graph [1]).length = 1 ∧
      ∀ own, own.Perm (graph.getD [1] []) →
        (checkTriangles (graph.set [1] own) [1]).length = (checkTriangles graph [1]).length ∧
        violations (checkTriangles (graph.set [1] own) [1]) =
          violations (checkTriangles graph [1]) := by
  obtain ⟨graph, hgraph⟩ : ∃ graph : MeasurementGraph ℚ, graph =
      ((OrderedDict.set ∅ [1] [measured [1] [2] 10, measured [1] [3] 10]).set [2]
        [measured [2] [3] 5]).set [3] [measured [3] [2] 5] := ⟨_, rfl⟩
  have hown : graph.getD [1] [] = [measured [1] [2] 10, measured [1] [3] 10] := by
    rw [hgraph]
    rfl
  have hbc : findRtt graph [2] [3] = some 5 := by
    rw [hgraph]
    rfl
  have hcb : findRtt graph [3] [2] = some 5 := by
    rw [hgraph]
    rfl
  refine ⟨graph, by rw [hgraph]; rfl, (checkTriangles_order_free_iff graph [1] ?_).mpr ?_⟩
  · rw [hown]
    decide
  · rw [hown]
    simp [measured, Violates, hbc, hcb]

/-- The later target has not measured the earlier one: there is a violation in one order, and in
the other there is no check. -/
theorem checkTriangles_depends_on_order :
    ∃ (graph : MeasurementGraph ℚ) (own : List (RTTMeasurement ℚ)),
      ((graph.getD [1] []).map targetId).Nodup ∧ own.Perm (graph.getD [1] []) ∧
      (checkTriangles graph [1]).length = 1 ∧ violations (checkTriangles graph [1]) = 1 ∧
      (checkTriangles (graph.set [1] own) [1]).length = 0 := by
  refine ⟨(OrderedDict.set ∅ [1] [measured [1] [2] 10, measured [1] [3] 30]).set [2]
    [measured [2] [3] 10], [measured [1] [3] 30, measured [1] [2] 10], ?_, List.Perm.swap _ _ _,
    rfl, ?_, rfl⟩
  · decide
  · decide +kernel

end DetectionEngine

end Qrtb
