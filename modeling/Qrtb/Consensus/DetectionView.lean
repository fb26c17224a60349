import Qrtb.Consensus.Detection
import Qrtb.Lib.Binary64

/-!
# What a commitment fixes of the analysis

The engine sees a measurement as its target, its measured time and its ratio.
The bytes under the commitment hash spell the measured time, but neither the
theoretical time nor where one identifier ends and the next begins. Lists with
equal bytes are analysed alike when they agree on those two; a list is fixed by
its bytes alone only if it is empty.
-/

namespace Qrtb

open Keccak PyFloat

variable {F : Type} [PyFloat F]

namespace RTTMeasurement

/-- The byte string under the commitment hash. -/
def commitmentBytes (m : RTTMeasurement F) : Except PyError Bytes :=
  concat [.bytes m.sourceId, .bytes m.targetId, .float (ieee m.rttMs), .int m.timestamp,
    .bytes m.nonce]

theorem commitmentBytes_eq_ok {m : RTTMeasurement F} {data : Bytes} :
    m.commitmentBytes = .ok data ↔ (0 ≤ m.timestamp ∧ m.timestamp < 256 ^ 8) ∧
      data = m.sourceId ++ (m.targetId ++ (Bytes.bigEndian 8 (ieee m.rttMs).toNat ++
        (Bytes.bigEndian 8 m.timestamp.toNat ++ m.nonce))) := by
  simp [commitmentBytes, concat_bytes_cons_eq_ok, concat_float_cons_eq_ok, concat_int_cons_eq_ok,
    and_assoc]

/-- The two measurements have the same byte string under their commitments. -/
def SamePreimage (m m' : RTTMeasurement F) : Prop :=
  ∃ data, m.commitmentBytes = .ok data ∧ m'.commitmentBytes = .ok data

/-- What the bytes leave open and the engine reads is the same: the lengths of the identifiers,
and the theoretical time where it is positive. -/
structure Aligned (m m' : RTTMeasurement F) : Prop where
  source : m.sourceId.length = m'.sourceId.length
  target : m.targetId.length = m'.targetId.length
  theoretical : m.theoreticalRttMs = m'.theoreticalRttMs ∨
    le m.theoreticalRttMs (literal 0) = true ∧ le m'.theoreticalRttMs (literal 0) = true

/-- The part of a measurement the engine reads. -/
def seen (m : RTTMeasurement F) : Bytes × F × F := (m.targetId, m.rttMs, m.ratio)

theorem target_rtt_of_samePreimage [LawfulPyFloat F] {m m' : RTTMeasurement F}
    (h : m.SamePreimage m') (hsource : m.sourceId.length = m'.sourceId.length)
    (htarget : m.targetId.length = m'.targetId.length) :
    m.targetId = m'.targetId ∧ m.rttMs = m'.rttMs := by
  obtain ⟨data, hm, hm'⟩ := h
  have hbytes := (commitmentBytes_eq_ok.mp hm).2.symm.trans (commitmentBytes_eq_ok.mp hm').2
  have hrest := (List.append_inj hbytes hsource).2
  obtain ⟨htargets, hrest⟩ := List.append_inj hrest htarget
  have hrtt := (List.append_inj hrest (by simp)).1
  refine ⟨htargets, LawfulPyFloat.ieee_injective (BitVec.eq_of_toNat_eq ?_)⟩
  exact Bytes.bigEndian_inj (ieee m.rttMs).isLt (ieee m'.rttMs).isLt hrtt

theorem ratio_eq_of_theoretical {m m' : RTTMeasurement F} (hrtt : m.rttMs = m'.rttMs)
    (h : m.theoreticalRttMs = m'.theoreticalRttMs ∨
      le m.theoreticalRttMs (literal 0) = true ∧ le m'.theoreticalRttMs (literal 0) = true) :
    m.ratio = m'.ratio := by
  rcases h with h | ⟨h, h'⟩
  · rw [ratio, ratio, hrtt, h]
  · rw [ratio, ratio, if_pos h, if_pos h']

theorem seen_eq_of_aligned [LawfulPyFloat F] {m m' : RTTMeasurement F} (h : m.SamePreimage m')
    (haligned : m.Aligned m') : m.seen = m'.seen := by
  obtain ⟨htarget, hrtt⟩ := target_rtt_of_samePreimage h haligned.source haligned.target
  have hratio := ratio_eq_of_theoretical hrtt haligned.theoretical
  rw [seen, seen, htarget, hrtt, hratio]

theorem exists_samePreimage_ratio_ne [LawfulPyFloat F] {m : RTTMeasurement F}
    (h : m.commitmentBytes.Returns) : ∃ m' : RTTMeasurement F, m.SamePreimage m' ∧
      m.ratio ≠ m'.ratio := by
  obtain ⟨data, hdata⟩ := h
  by_cases hone : m.ratio = literal 1
  · obtain ⟨t, ht, hdiv⟩ := LawfulPyFloat.exists_div_ne_one m.rttMs
    refine ⟨{ m with theoreticalRttMs := t }, ⟨data, hdata, hdata⟩, ?_⟩
    rw [hone, ratio, if_neg (by simp [ht])]
    exact hdiv.symm
  · refine ⟨{ m with theoreticalRttMs := literal 0 }, ⟨data, hdata, hdata⟩, ?_⟩
    rw [ratio.eq_def { m with theoreticalRttMs := literal 0 }, if_pos LawfulPyFloat.zero_le_zero]
    exact hone

end RTTMeasurement

namespace DetectionEngine

open RTTMeasurement

/-- The engine sees the same in both graphs at every validator. -/
def SameSeen (g g' : MeasurementGraph F) : Prop :=
  ∀ v, (g.getD v []).map seen = (g'.getD v []).map seen

theorem map_of_seen {β : Type} {l l' : List (RTTMeasurement F)} (h : l.map seen = l'.map seen)
    (f : Bytes × F × F → β) : (l.map fun m => f m.seen) = l'.map fun m => f m.seen := by
  have hmap := congrArg (List.map f) h
  rwa [List.map_map, List.map_map] at hmap

theorem byTarget_of_seen {l l' : List (RTTMeasurement F)} (h : l.map seen = l'.map seen)
    (f : Bytes × F × F → F) :
    byTarget (fun m => f m.seen) l = byTarget (fun m => f m.seen) l' := by
  have hfold : ∀ ms : List (RTTMeasurement F), byTarget (fun m => f m.seen) ms =
      (ms.map seen).foldl (fun d s => d.set s.1 (f s)) ∅ := by
    intro ms
    rw [byTarget, List.foldl_map]
    rfl
  rw [hfold, hfold, h]

theorem findRtt_of_seen {g g' : MeasurementGraph F} (h : SameSeen g g') (b c : Bytes) :
    findRtt g b c = findRtt g' b c := by
  have hfind : ∀ ms : List (RTTMeasurement F), (ms.find? fun m => m.targetId = c).map rttMs =
      ((ms.map seen).find? fun s => s.1 = c).map fun s => s.2.1 := by
    intro ms
    rw [List.find?_map, Option.map_map]
    rfl
  rw [findRtt, findRtt, hfind, hfind, h b]

theorem trianglesOf_of_seen {g g' : MeasurementGraph F} (h : SameSeen g g') (a : Bytes)
    (targets : List (Bytes × F)) : trianglesOf g a targets = trianglesOf g' a targets := by
  induction targets with
  | nil => rfl
  | cons b rest ih =>
    have htriangle : triangle g a b = triangle g' a b := by
      funext c
      rw [triangle, triangle, findRtt_of_seen h]
    rw [trianglesOf, trianglesOf, htriangle, ih]

theorem checkTriangles_of_seen {g g' : MeasurementGraph F} (h : SameSeen g g') (v : Bytes) :
    checkTriangles g v = checkTriangles g' v := by
  have hrtts := byTarget_of_seen (h v) fun s => s.2.1
  change byTarget rttMs (g.getD v []) = byTarget rttMs (g'.getD v []) at hrtts
  rw [checkTriangles, checkTriangles, hrtts, trianglesOf_of_seen h]

theorem checkPathConsistency_of_seen {g g' : MeasurementGraph F} (h : SameSeen g g') (v : Bytes) :
    checkPathConsistency g v = checkPathConsistency g' v := by
  have hratios := byTarget_of_seen (h v) fun s => s.2.2
  change byTarget ratio (g.getD v []) = byTarget ratio (g'.getD v []) at hratios
  have hlength : (g.getD v []).length = (g'.getD v []).length := by
    simpa using congrArg List.length (h v)
  simp only [checkPathConsistency, hratios, hlength]

theorem analyzeValidator_of_seen {g g' : MeasurementGraph F} (h : SameSeen g g') (v : Bytes) :
    analyzeValidator g v = analyzeValidator g' v := by
  have hratios : (g.getD v []).map ratio = (g'.getD v []).map ratio := map_of_seen (h v) fun s => s.2.2
  have hlength : (g.getD v []).length = (g'.getD v []).length := by
    simpa using congrArg List.length (h v)
  have hempty : (g.getD v []).isEmpty = (g'.getD v []).isEmpty := by
    rw [Bool.eq_iff_iff, List.isEmpty_iff_length_eq_zero, List.isEmpty_iff_length_eq_zero, hlength]
  simp only [analyzeValidator, checkRatios, checkVariance, hratios, hlength, hempty,
    checkTriangles_of_seen h, checkPathConsistency_of_seen h]

theorem analyzeAll_of_seen {g g' : MeasurementGraph F} (hkeys : g.keys = g'.keys)
    (h : SameSeen g g') : analyzeAll g = analyzeAll g' := by
  rw [analyzeAll, analyzeAll, hkeys, funext (analyzeValidator_of_seen h)]

theorem sameSeen_set {l l' : List (RTTMeasurement F)} (h : l.map seen = l'.map seen)
    (graph : MeasurementGraph F) (v : Bytes) : SameSeen (graph.set v l) (graph.set v l') := by
  intro w
  rw [OrderedDict.getD, OrderedDict.getD, OrderedDict.get?_set, OrderedDict.get?_set]
  split_ifs
  · exact h
  · rfl

/-- Whichever of the two lists a validator reveals, the ratios and all verdicts are the same. -/
def SameVerdicts (l l' : List (RTTMeasurement F)) : Prop :=
  l.map ratio = l'.map ratio ∧
    ∀ (graph : MeasurementGraph F) v, analyzeAll (graph.set v l) = analyzeAll (graph.set v l')

theorem sameVerdicts_of_seen {l l' : List (RTTMeasurement F)} (h : l.map seen = l'.map seen) :
    SameVerdicts l l' := by
  refine ⟨map_of_seen h fun s => s.2.2, ?_⟩
  intro graph v
  exact analyzeAll_of_seen (by rw [OrderedDict.keys_set, OrderedDict.keys_set]) (sameSeen_set h graph v)

theorem seen_of_aligned [LawfulPyFloat F] {l l' : List (RTTMeasurement F)}
    (h : l.Forall₂ SamePreimage l') (haligned : l.Forall₂ Aligned l') :
    l.map seen = l'.map seen := by
  induction h with
  | nil => rfl
  | cons hm _ ih =>
    obtain ⟨ha, has⟩ := List.forall₂_cons.mp haligned
    rw [List.map_cons, List.map_cons, seen_eq_of_aligned hm ha, ih has]

/-- Lists with equal bytes under their commitments are analysed alike where they agree on the
lengths of the identifiers and on the positive theoretical times. The bytes alone fix the analysis
of no list but the empty one. -/
theorem commitment_fixes_verdicts_iff [LawfulPyFloat F] :
    (∀ l l' : List (RTTMeasurement F), l.Forall₂ SamePreimage l' → l.Forall₂ Aligned l' →
      SameVerdicts l l') ∧
    ∀ l : List (RTTMeasurement F), (∀ m ∈ l, m.commitmentBytes.Returns) →
      ((∀ l', l.Forall₂ SamePreimage l' → SameVerdicts l l') ↔ l = []) := by
  refine ⟨fun l l' h haligned => sameVerdicts_of_seen (seen_of_aligned h haligned), ?_⟩
  intro l hreturns
  constructor
  · intro h
    cases l with
    | nil => rfl
    | cons m rest =>
      obtain ⟨m', hsame, hratio⟩ := exists_samePreimage_ratio_ne (hreturns m (by simp))
      have hrest : rest.Forall₂ SamePreimage rest := by
        rw [List.forall₂_same]
        intro x hx
        obtain ⟨data, hdata⟩ := hreturns x (by simp [hx])
        exact ⟨data, hdata, hdata⟩
      have hverdicts := (h (m' :: rest) (.cons hsame hrest)).1
      rw [List.map_cons, List.map_cons, List.cons.injEq] at hverdicts
      exact absurd hverdicts.1 hratio
  · rintro rfl l' h
    cases h
    exact ⟨rfl, fun _ _ => rfl⟩

/-- A measured time of `rtt` milliseconds to `target` where the distance takes `theoretical`. -/
def linkTo (target : UInt8) (rtt theoretical : ℚ) : RTTMeasurement Float.Model where
  sourceId := List.replicate 32 1
  targetId := List.replicate 32 target
  rttMs := literal rtt
  timestamp := 0
  theoreticalRttMs := literal theoretical
  nonce := List.replicate 32 0

/-- Measurements of three targets, of the last of which no distance is known. -/
def threeLinks (unknown : ℚ) : List (RTTMeasurement Float.Model) :=
  [linkTo 2 40 50, linkTo 3 60 50, linkTo 4 45 unknown]

theorem samePreimage_linkTo (target : UInt8) (rtt t t' : ℚ) :
    (linkTo target rtt t).SamePreimage (linkTo target rtt t') := by
  refine ⟨_, commitmentBytes_eq_ok.mpr ⟨?_, rfl⟩, commitmentBytes_eq_ok.mpr ⟨?_, rfl⟩⟩
  · simp [linkTo]
  · simp [linkTo]

theorem samePreimage_threeLinks (t t' : ℚ) :
    (threeLinks t).Forall₂ SamePreimage (threeLinks t') :=
  .cons (samePreimage_linkTo 2 40 50 50) (.cons (samePreimage_linkTo 3 60 50 50)
    (.cons (samePreimage_linkTo 4 45 t t') .nil))

theorem aligned_threeLinks : (threeLinks 0).Forall₂ Aligned (threeLinks (-1)) := by
  have hunknown : (linkTo 4 45 0).Aligned (linkTo 4 45 (-1)) :=
    ⟨rfl, rfl, Or.inr ⟨by decide +kernel, by decide +kernel⟩⟩
  exact .cons ⟨rfl, rfl, Or.inl rfl⟩ (.cons ⟨rfl, rfl, Or.inl rfl⟩ (.cons hunknown .nil))

theorem commitment_fixes_verdicts_threeLinks :
    SameVerdicts (threeLinks 0) (threeLinks (-1)) ∧
      ¬ ∀ l', (threeLinks 50).Forall₂ SamePreimage l' → SameVerdicts (threeLinks 50) l' := by
  refine ⟨commitment_fixes_verdicts_iff.1 _ _ (samePreimage_threeLinks 0 (-1))
    aligned_threeLinks, ?_⟩
  intro h
  have hreturns : ∀ m ∈ threeLinks 50, m.commitmentBytes.Returns := by
    intro m hm
    obtain ⟨data, hdata, -⟩ := List.forall₂_same.mp (samePreimage_threeLinks 50 50) m hm
    exact ⟨data, hdata⟩
  have hnil := (commitment_fixes_verdicts_iff.2 (threeLinks 50) hreturns).mp h
  cases hnil

/-- A validator that is faster than its distance allows is cleared by a reveal of a shorter
distance under the same commitment. -/
theorem shorter_link_cleared :
    [linkTo 2 40 50].Forall₂ SamePreimage [linkTo 2 40 36] ∧
      (linkTo 2 40 50).ratio ≠ (linkTo 2 40 36).ratio ∧
      (analyzeValidator (OrderedDict.set ∅ (linkTo 2 40 50).sourceId [linkTo 2 40 50])
        (linkTo 2 40 50).sourceId).isSuspicious = true ∧
      (analyzeValidator (OrderedDict.set ∅ (linkTo 2 40 50).sourceId [linkTo 2 40 36])
        (linkTo 2 40 50).sourceId).isSuspicious = false := by
  refine ⟨.cons (samePreimage_linkTo 2 40 50 36) .nil, ?_, ?_, ?_⟩
  · decide +kernel
  · decide +kernel
  · decide +kernel

end DetectionEngine

end Qrtb
