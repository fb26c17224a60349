import Qrtb.Consensus.TriangleOrder
import Mathlib.Tactic.Linarith
import Mathlib.Tactic.NormNum

/-!
# Who is found suspicious (`src/detection.py`)

Two of four signals make a validator suspicious, or a mean ratio below nine tenths. The
signal of the ratios implies such a mean, and with distinct targets so do the two
signals about the spread together. What is left beside the mean is a high rate of
violated triangles together with one of the two. The rate is made of what the targets
of the validator have measured, so targets may try to frame it.
-/

namespace ExactFloat

theorem lt_iff (a b : ℚ) : PyFloat.lt a b = true ↔ a < b := decide_eq_true_iff

theorem sqrt_nonneg (q : ℚ) : 0 ≤ sqrt q := by
  rw [sqrt]
  positivity

theorem sqrt_sq_le {q : ℚ} (h : 0 ≤ q) : sqrt q ^ 2 ≤ q := by
  have hfloor : ((⌊q * 2 ^ 106⌋.toNat : ℕ) : ℚ) ≤ q * 2 ^ 106 := by
    have hnonneg : 0 ≤ ⌊q * 2 ^ 106⌋ := Int.floor_nonneg.mpr (by positivity)
    calc ((⌊q * 2 ^ 106⌋.toNat : ℕ) : ℚ) = (⌊q * 2 ^ 106⌋ : ℚ) := by
          exact_mod_cast congrArg (Int.cast : ℤ → ℚ) (Int.toNat_of_nonneg hnonneg)
      _ ≤ q * 2 ^ 106 := Int.floor_le _
  have hsqrt : ((Nat.sqrt ⌊q * 2 ^ 106⌋.toNat : ℕ) : ℚ) ^ 2 ≤ ((⌊q * 2 ^ 106⌋.toNat : ℕ) : ℚ) := by
    exact_mod_cast Nat.sqrt_le' _
  rw [sqrt, div_pow, div_le_iff₀ (by positivity)]
  calc ((Nat.sqrt ⌊q * 2 ^ 106⌋.toNat : ℕ) : ℚ) ^ 2 ≤ q * 2 ^ 106 := hsqrt.trans hfloor
    _ = q * (2 ^ 53) ^ 2 := by ring

theorem variance_nonneg {xs : List ℚ} (h : 2 ≤ xs.length) : 0 ≤ variance xs := by
  have hlength : (2 : ℚ) ≤ xs.length := by exact_mod_cast h
  refine div_nonneg (List.sum_nonneg ?_) (by linarith)
  intro y hy
  obtain ⟨x, -, rfl⟩ := List.mem_map.mp hy
  exact sq_nonneg _

end ExactFloat

namespace Qrtb

open PyFloat OrderedPairs

namespace DetectionEngine

open RTTMeasurement

def meanRatio (measurements : List (RTTMeasurement ℚ)) : ℚ :=
  ExactFloat.mean (measurements.map ratio)

theorem checkRatios_iff {measurements : List (RTTMeasurement ℚ)} (h : measurements ≠ []) :
    (checkRatios measurements).1 = true ↔ meanRatio measurements < 0.838 := by
  have hnonempty : measurements.isEmpty = false := List.isEmpty_eq_false_iff.mpr h
  rw [checkRatios, if_neg (by simp [hnonempty])]
  dsimp only
  rw [Bool.and_eq_true, ExactFloat.lt_iff, ExactFloat.lt_iff]
  change (3.9 : ℚ) < (1.15 - meanRatio measurements) / 0.08 ∧ meanRatio measurements < 1 ↔ _
  rw [lt_div_iff₀ (by norm_num)]
  constructor
  · rintro ⟨hsigma, -⟩
    linarith
  · intro hmean
    constructor <;> linarith

theorem checkVariance_iff (measurements : List (RTTMeasurement ℚ)) :
    (checkVariance measurements).1 = true ↔
      2 ≤ measurements.length ∧ ExactFloat.variance (measurements.map ratio) < 0.0016 := by
  rw [checkVariance]
  split_ifs with hfew
  · simp only [false_iff]
    omega
  · dsimp only
    rw [ExactFloat.lt_iff]
    change ExactFloat.variance (measurements.map ratio) < 0.08 * 0.08 * 0.25 ↔ _
    constructor
    · intro hlow
      exact ⟨by omega, by linarith⟩
    · rintro ⟨-, hlow⟩
      linarith

/-- With distinct targets the paths are consistent or not as the measurements themselves are. -/
theorem checkPathConsistency_iff {graph : MeasurementGraph ℚ} {v : Bytes}
    (h : ((graph.getD v []).map targetId).Nodup) :
    (checkPathConsistency graph v).1 = true ↔
      2 ≤ (graph.getD v []).length ∧ 0 < meanRatio (graph.getD v []) ∧
        0.15 * meanRatio (graph.getD v []) <
          ExactFloat.sqrt (ExactFloat.variance ((graph.getD v []).map ratio)) := by
  have hvalues : (byTarget ratio (graph.getD v [])).values = (graph.getD v []).map ratio := by
    rw [OrderedDict.values, items_byTarget ratio h, List.map_map]
    rfl
  rw [checkPathConsistency]
  dsimp only
  rw [hvalues, List.length_map]
  split_ifs with hfew hpos
  · simp only [false_iff]
    omega
  · have hpos' : 0 < meanRatio (graph.getD v []) := (ExactFloat.lt_iff _ _).mp hpos
    dsimp only
    rw [ExactFloat.lt_iff]
    change (0.15 : ℚ) < ExactFloat.sqrt (ExactFloat.variance ((graph.getD v []).map ratio)) /
      meanRatio (graph.getD v []) ↔ _
    rw [lt_div_iff₀ hpos']
    exact ⟨fun hspread => ⟨by omega, hpos', hspread⟩, fun hspread => hspread.2.2⟩
  · have hneg : ¬ 0 < meanRatio (graph.getD v []) := fun hlt =>
      hpos ((ExactFloat.lt_iff _ _).mpr hlt)
    dsimp only
    rw [ExactFloat.lt_iff]
    change (0.15 : ℚ) < 0 ↔ _
    exact ⟨fun hzero => by norm_num at hzero, fun hspread => absurd hspread.2.1 hneg⟩

/-- Ratios that are too close to each other and too far from each other at once are low. -/
theorem meanRatio_lt_of_spread {graph : MeasurementGraph ℚ} {v : Bytes}
    (h : ((graph.getD v []).map targetId).Nodup)
    (hvariance : (checkVariance (graph.getD v [])).1 = true)
    (hpath : (checkPathConsistency graph v).1 = true) : meanRatio (graph.getD v []) < 0.9 := by
  obtain ⟨hlength, hlow⟩ := (checkVariance_iff _).mp hvariance
  obtain ⟨-, hpos, hspread⟩ := (checkPathConsistency_iff h).mp hpath
  have hnonneg : 0 ≤ ExactFloat.variance ((graph.getD v []).map ratio) :=
    ExactFloat.variance_nonneg (by rwa [List.length_map])
  have hsq := ExactFloat.sqrt_sq_le hnonneg
  by_contra hmean
  have hmean' : 0.9 ≤ meanRatio (graph.getD v []) := not_lt.mp hmean
  nlinarith [ExactFloat.sqrt_nonneg (ExactFloat.variance ((graph.getD v []).map ratio))]

/-- The share of violated triangles is above three tenths. -/
def HighRate (triangles : List (TriangleCheck ℚ)) : Prop :=
  3 * triangles.length < 10 * violations triangles

instance (triangles : List (TriangleCheck ℚ)) : Decidable (HighRate triangles) :=
  inferInstanceAs (Decidable (_ < _))

theorem rateHigh_iff (triangles : List (TriangleCheck ℚ)) :
    PyFloat.lt (0.3 : ℚ) (PyFloat.div (PyFloat.literal (violations triangles : ℚ))
      (PyFloat.literal (max (triangles.length : ℚ) 1))) = true ↔ HighRate triangles := by
  have hle : violations triangles ≤ triangles.length := List.length_filter_le ..
  have hpos : (0 : ℚ) < ((max triangles.length 1 : ℕ) : ℚ) := by positivity
  rw [ExactFloat.lt_iff, ← Nat.cast_one, ← Nat.cast_max]
  change (0.3 : ℚ) < violations triangles / ((max triangles.length 1 : ℕ) : ℚ) ↔ _
  rw [lt_div_iff₀ hpos, HighRate]
  constructor
  · intro hrate
    have : (3 : ℚ) * (max triangles.length 1 : ℕ) < 10 * violations triangles := by linarith
    have : 3 * max triangles.length 1 < 10 * violations triangles := by exact_mod_cast this
    omega
  · intro hrate
    have : 3 * max triangles.length 1 < 10 * violations triangles := by omega
    have : (3 : ℚ) * (max triangles.length 1 : ℕ) < 10 * violations triangles := by
      exact_mod_cast this
    linarith

theorem isSuspicious_iff {graph : MeasurementGraph ℚ} {v : Bytes} (h : graph.getD v [] ≠ []) :
    (analyzeValidator graph v).isSuspicious = true ↔
      meanRatio (graph.getD v []) < 0.9 ∨
        2 ≤ [(checkVariance (graph.getD v [])).1, decide (HighRate (checkTriangles graph v)),
          (checkPathConsistency graph v).1].count true := by
  have hnonempty : (graph.getD v []).isEmpty = false := List.isEmpty_eq_false_iff.mpr h
  have hverdict : (analyzeValidator graph v).isSuspicious =
      (decide (2 ≤ [(checkRatios (graph.getD v [])).1, (checkVariance (graph.getD v [])).1,
        decide (HighRate (checkTriangles graph v)), (checkPathConsistency graph v).1].count true) ||
        PyFloat.lt (meanRatio (graph.getD v [])) (0.9 : ℚ)) := by
    have hrate := Bool.eq_iff_iff.mpr
      ((rateHigh_iff (checkTriangles graph v)).trans decide_eq_true_iff.symm)
    rw [← hrate, analyzeValidator, if_neg (by simp [hnonempty])]
    rfl
  rw [hverdict, Bool.or_eq_true, ExactFloat.lt_iff, decide_eq_true_iff, or_comm]
  refine or_congr_right' fun hmean => ?_
  have hratio : (checkRatios (graph.getD v [])).1 = false := by
    rw [← Bool.not_eq_true, checkRatios_iff h]
    intro hlow
    exact hmean (hlow.trans (by norm_num))
  rw [hratio, List.count_cons_of_ne (by decide)]

/-- With distinct targets a validator with measurements is suspicious exactly when its mean ratio
is below nine tenths, or its triangles are violated at a high rate and its ratios are too close to
each other or too far from each other. -/
theorem suspicious_iff {graph : MeasurementGraph ℚ} {v : Bytes} (h : graph.getD v [] ≠ [])
    (hdistinct : ((graph.getD v []).map targetId).Nodup) :
    (analyzeValidator graph v).isSuspicious = true ↔
      meanRatio (graph.getD v []) < 0.9 ∨
        HighRate (checkTriangles graph v) ∧ ((checkVariance (graph.getD v [])).1 = true ∨
          (checkPathConsistency graph v).1 = true) := by
  rw [isSuspicious_iff h]
  have hspread := meanRatio_lt_of_spread hdistinct
  cases hvariance : (checkVariance (graph.getD v [])).1 <;>
    cases hpath : (checkPathConsistency graph v).1 <;>
    by_cases hrate : HighRate (checkTriangles graph v) <;> simp_all

/-- The two targets, in this order or the other, have been measured as they are. -/
def Truthful (graph : MeasurementGraph ℚ) (b c : RTTMeasurement ℚ) : Prop :=
  ∃ rtt, findRtt graph b.targetId c.targetId = some rtt ∧ c.rttMs ≤ b.rttMs + rtt

theorem violations_eq (graph : MeasurementGraph ℚ) (v : Bytes)
    (h : ((graph.getD v []).map targetId).Nodup) :
    violations (checkTriangles graph v) = count (fun b c =>
      (triangle graph v b.side c.side).any fun t => !t.isValid) (graph.getD v []) := by
  rw [violations, ← List.countP_eq_length_filter, checkTriangles, countP_trianglesOf,
    items_byTarget rttMs h]
  exact count_map _ side _

theorem length_checkTriangles (graph : MeasurementGraph ℚ) (v : Bytes)
    (h : ((graph.getD v []).map targetId).Nodup) :
    (checkTriangles graph v).length = count (fun b c =>
      (triangle graph v b.side c.side).any fun _ => true) (graph.getD v []) := by
  rw [← List.countP_true, checkTriangles, countP_trianglesOf, items_byTarget rttMs h]
  exact count_map _ side _

/-- A rate is not high when at least seven tenths of the pairs of targets are truthful. -/
theorem not_highRate {graph : MeasurementGraph ℚ} {v : Bytes}
    (h : ((graph.getD v []).map targetId).Nodup) (liars : Finset Bytes)
    (htruth : ∀ b ∈ graph.getD v [], ∀ c ∈ graph.getD v [], b.targetId ≠ c.targetId →
      b.targetId ∉ liars → c.targetId ∉ liars → Truthful graph b c)
    (hfew : 7 * ((graph.getD v []).length * ((graph.getD v []).length - 1)) ≤
      10 * (((graph.getD v []).filter fun m => m.targetId ∉ liars).length *
        (((graph.getD v []).filter fun m => m.targetId ∉ liars).length - 1))) :
    ¬ HighRate (checkTriangles graph v) := by
  have hnodup := h.of_map
  have hapart : ∀ b ∈ graph.getD v [], ∀ c ∈ graph.getD v [], b ≠ c → b.targetId ≠ c.targetId :=
    fun b hb c hc hne heq => hne (List.inj_on_of_nodup_map h hb hc heq)
  -- violated pairs and truthful ones exclude each other, and both are checked
  have hviolated : ∀ b ∈ graph.getD v [], ∀ c ∈ graph.getD v [], b ≠ c →
      (triangle graph v b.side c.side).any (fun t => !t.isValid) = true →
        (triangle graph v b.side c.side).any (fun _ => true) = true ∧
          (decide (b.targetId ∉ liars) && decide (c.targetId ∉ liars)) = false := by
    intro b hb c hc hne hany
    obtain ⟨rtt, hfind, hlt⟩ := (any_invalid_iff graph v b c).mp hany
    refine ⟨(any_true_iff graph v b c).mpr (hfind ▸ rfl), ?_⟩
    rw [Bool.eq_false_iff, ne_eq, Bool.and_eq_true, decide_eq_true_iff, decide_eq_true_iff]
    rintro ⟨hbtrue, hctrue⟩
    obtain ⟨rtt', hfind', hle⟩ := htruth b hb c hc (hapart b hb c hc hne) hbtrue hctrue
    obtain rfl := Option.some.inj (hfind.symm.trans hfind')
    exact absurd hlt (not_lt.mpr hle)
  have htruthful : ∀ b ∈ graph.getD v [], ∀ c ∈ graph.getD v [], b ≠ c →
      (decide (b.targetId ∉ liars) && decide (c.targetId ∉ liars)) = true →
        (triangle graph v b.side c.side).any (fun _ => true) = true := by
    intro b hb c hc hne hboth
    rw [Bool.and_eq_true, decide_eq_true_iff, decide_eq_true_iff] at hboth
    obtain ⟨rtt, hfind, -⟩ := htruth b hb c hc (hapart b hb c hc hne) hboth.1 hboth.2
    exact (any_true_iff graph v b c).mpr (hfind ▸ rfl)
  have hchecks := count_add_count_le hnodup hviolated htruthful
  have hpairs := count_add_count_le (r := fun _ _ => true) hnodup
    (fun b hb c hc hne hany => ⟨rfl, (hviolated b hb c hc hne hany).2⟩)
    fun b hb c hc hne hboth => rfl
  have hall := two_mul_count_true (graph.getD v [])
  have hhonest := two_mul_count_true ((graph.getD v []).filter fun m => m.targetId ∉ liars)
  rw [← count_both] at hhonest
  rw [HighRate, violations_eq graph v h, length_checkTriangles graph v h]
  omega

/-- The result of the analysis for a validator with measurements of distinct targets. It is
suspicious exactly when its mean ratio is below nine tenths, or its triangles are violated at a high
rate and its ratios are too close to each other or too far from each other; and liars among its
targets cannot frame it as long as at least seven tenths of the pairs of its targets are of truthful
ones. -/
theorem analyzeAll_verdict (graph : MeasurementGraph ℚ) (v : Bytes) (hne : graph.getD v [] ≠ [])
    (h : ((graph.getD v []).map targetId).Nodup) :
    let own := graph.getD v []
    ∃ result, (analyzeAll graph).get? v = some result ∧
      (result.isSuspicious = true ↔ meanRatio own < 0.9 ∨
        HighRate (checkTriangles graph v) ∧
          ((checkVariance own).1 = true ∨ (checkPathConsistency graph v).1 = true)) ∧
      ∀ liars : Finset Bytes,
        (∀ b ∈ own, ∀ c ∈ own, b.targetId ≠ c.targetId →
          b.targetId ∉ liars → c.targetId ∉ liars → Truthful graph b c) →
        7 * (own.length * (own.length - 1)) ≤
          10 * ((own.filter fun m => m.targetId ∉ liars).length *
            ((own.filter fun m => m.targetId ∉ liars).length - 1)) →
        (result.isSuspicious = true ↔ meanRatio own < 0.9) := by
  intro own
  have hmem : v ∈ graph.keys := by
    rw [OrderedDict.mem_keys_iff]
    cases hget : graph.get? v with
    | none => exact absurd (by rw [OrderedDict.getD, hget]; rfl) hne
    | some own => exact ⟨own, rfl⟩
  refine ⟨analyzeValidator graph v, ?_, suspicious_iff hne h, ?_⟩
  · rw [get?_analyzeAll, if_pos hmem]
  · intro liars htruth hfew
    have hrate := not_highRate h liars htruth hfew
    rw [suspicious_iff hne h]
    tauto

section Example

/-- Seven peers at the same distance from each other, of which the last one says to be next to
everyone else. -/
def examplePeers : List Bytes := [[1], [2], [3], [4], [5], [6], [7]]

def exampleGraph : MeasurementGraph ℚ :=
  .ofKeys (fun v => examplePeers.map fun peer => measured v peer (if v = [7] then 0 else 10))
    ([0] :: examplePeers)

theorem analyzeAll_verdict_liar : ∃ result, (analyzeAll exampleGraph).get? [0] = some result ∧
    (result.isSuspicious = true ↔ meanRatio (exampleGraph.getD [0] []) < 0.9) := by
  obtain ⟨result, hresult, -, hframed⟩ :=
    analyzeAll_verdict exampleGraph [0] (by decide) (by decide)
  refine ⟨result, hresult, hframed {[7]} ?_ (by decide)⟩
  have hall : ∀ b ∈ exampleGraph.getD [0] [], ∀ c ∈ exampleGraph.getD [0] [],
      b.targetId ∉ ({[7]} : Finset Bytes) →
        findRtt exampleGraph b.targetId c.targetId = some 10 ∧ c.rttMs ≤ b.rttMs + 10 := by
    decide +kernel
  intro b hb c hc _ hbtrue _
  exact ⟨10, hall b hb c hc hbtrue⟩

end Example

end DetectionEngine

end Qrtb
