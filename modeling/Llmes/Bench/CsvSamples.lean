import Llmes.Bench.MacroScenarios
import Llmes.Lib.Buckets

namespace Llmes.Bench

open Outcome
open Llmes.Hft

structure CsvSampleRef where
  scenario : MacroScenario
  sample : ScenarioSample

def scenarioIndex : MacroScenario → ℕ
  | .addRestExistingLevel => 0
  | .addRestNewLevel => 1
  | .cancelOrder => 2
  | .unmeasured => 3

def measuredRows : List MacroScenario := [.addRestExistingLevel, .addRestNewLevel, .cancelOrder]

def csvRows (stats : CampaignStats) : List CsvSampleRef :=
  measuredRows.flatMap (fun s => (stats.samples s).map (CsvSampleRef.mk s))

/-- The comparison given to `std::sort`. -/
def csvLess (lhs rhs : CsvSampleRef) : Bool :=
  if lhs.sample.measurementIter ≠ rhs.sample.measurementIter then
    lhs.sample.measurementIter < rhs.sample.measurementIter
  else if lhs.sample.opIndex ≠ rhs.sample.opIndex then lhs.sample.opIndex < rhs.sample.opIndex
  else scenarioIndex lhs.scenario < scenarioIndex rhs.scenario

/-- The rows as `std::sort` may leave them: nothing is said of rows that compare equal. -/
structure IsCsvOrder (stats : CampaignStats) (rows : List CsvSampleRef) : Prop where
  perm : rows.Perm (csvRows stats)
  sorted : rows.Pairwise (fun a b => csvLess b a = false)

def CsvSampleRef.uncounted (r : CsvSampleRef) : CsvSampleRef :=
  { r with sample := { r.sample with scenarioCallIndex := 0 } }

section Rows

variable {env : Env} {args : Args} {overhead : MeasurementOverhead} {readings : Readings} {foci : List MacroScenario}
  {ws : List (MacroWorkload true)} {stats : CampaignStats}

def rowOf (overhead : MeasurementOverhead) (readings : Readings) (args : Args) (i : ℕ) (y : Timed) : CsvSampleRef :=
  ⟨y.1.1.scenario, (passOf overhead readings (UInt64.ofNat i) (args.warmupIters + UInt64.ofNat i) y.1.1.scenario).row y⟩

def inFocus (foci : List MacroScenario) (w : MacroWorkload true) : List Timed :=
  (timed w).filter (fun y => y.1.1.scenario ∈ foci)

def focusedRows (overhead : MeasurementOverhead) (readings : Readings) (args : Args) (foci : List MacroScenario)
    (ws : List (MacroWorkload true)) : List CsvSampleRef :=
  ws.zipIdx.flatMap (fun x => (inFocus foci x.1).map (rowOf overhead readings args x.2))

instance : Std.Asymm (fun a b => csvLess a b = true) where
  asymm a b := by
    simp only [csvLess, UInt64.lt_iff_toNat_lt, ← UInt64.toNat_inj, ne_eq]
    split_ifs <;> simp <;> omega

theorem uncounted_numberedFrom (s : MacroScenario) (xs : List ScenarioSample) :
    ((numberedFrom 0 xs).map (CsvSampleRef.mk s)).map CsvSampleRef.uncounted =
      (xs.map (CsvSampleRef.mk s)).map CsvSampleRef.uncounted := by
  have hxs := congrArg (List.map (CsvSampleRef.uncounted ∘ CsvSampleRef.mk s)) (List.zipIdx_map_fst 0 xs)
  rw [List.map_map] at hxs
  rw [numberedFrom, List.map_map, List.map_map, List.map_map, ← hxs]
  rfl

theorem rows_uncounted (s : MacroScenario) (w : MacroWorkload true) (i : ℕ) :
    (((passOf overhead readings (UInt64.ofNat i) (args.warmupIters + UInt64.ofNat i) s).rows w).map
      (CsvSampleRef.mk s)).map CsvSampleRef.uncounted =
      ((timed w).filter (fun y => y.1.1.scenario = s)).map (rowOf overhead readings args i) := by
  rw [Pass.rows, List.map_map, List.map_map]
  apply List.map_congr_left
  intro y hy
  have hs : y.1.1.scenario = s := of_decide_eq_true (List.mem_filter.mp hy).2
  subst hs
  rfl

theorem samplesOf_uncounted (s : MacroScenario) :
    ((samplesOf overhead readings args s ws).map (CsvSampleRef.mk s)).map CsvSampleRef.uncounted =
      ws.zipIdx.flatMap (fun x => ((timed x.1).filter (fun y => y.1.1.scenario = s)).map
        (rowOf overhead readings args x.2)) := by
  rw [samplesOf, List.map_flatMap, List.map_flatMap]
  apply List.flatMap_congr
  exact fun x _ => rows_uncounted s x.1 x.2

theorem inFocus_filter (s : MacroScenario) (w : MacroWorkload true) :
    (inFocus foci w).filter (fun y => y.1.1.scenario = s) =
      if s ∈ foci then (timed w).filter (fun y => y.1.1.scenario = s) else [] := by
  rw [inFocus, List.filter_filter]
  split_ifs with hs
  · apply List.filter_congr
    intro y _
    by_cases hy : y.1.1.scenario = s
    · simp [hy, hs]
    · simp [hy]
  · rw [List.filter_eq_nil_iff]
    intro y _
    by_cases hy : y.1.1.scenario = s
    · simp [hy, hs]
    · simp [hy]

theorem Collected.scenario_rows (h : Collected env args overhead readings foci ws stats) (s : MacroScenario) :
    ((stats.samples s).map (CsvSampleRef.mk s)).map CsvSampleRef.uncounted =
      ws.zipIdx.flatMap (fun x => ((inFocus foci x.1).filter (fun y => y.1.1.scenario = s)).map
        (rowOf overhead readings args x.2)) := by
  rw [h.samples]
  simp only [inFocus_filter]
  split_ifs with hs
  · rw [uncounted_numberedFrom, samplesOf_uncounted]
  · exact (List.flatMap_eq_nil_iff.mpr (fun _ _ => rfl)).symm

theorem Collected.csvRows_perm (h : Collected env args overhead readings foci ws stats)
    (hfoci : .unmeasured ∉ foci) :
    ((csvRows stats).map CsvSampleRef.uncounted).Perm (focusedRows overhead readings args foci ws) := by
  have hdealt : (csvRows stats).map CsvSampleRef.uncounted = measuredRows.flatMap (fun s => ws.zipIdx.flatMap
      (fun x => ((inFocus foci x.1).filter (fun y => y.1.1.scenario = s)).map (rowOf overhead readings args x.2))) := by
    rw [csvRows, List.map_flatMap]
    exact List.flatMap_congr (fun s _ => h.scenario_rows s)
  rw [hdealt]
  apply (Buckets.flatMap_comm_perm measuredRows ws.zipIdx _).trans
  apply List.Perm.flatMap_left
  intro x _
  have hall : (inFocus foci x.1).filter (fun y => y.1.1.scenario ∈ measuredRows) = inFocus foci x.1 := by
    rw [List.filter_eq_self]
    intro y hy
    have hmem : y.1.1.scenario ∈ foci := of_decide_eq_true (List.mem_filter.mp hy).2
    cases hs : y.1.1.scenario with
    | unmeasured => exact absurd (hs ▸ hmem) hfoci
    | _ => decide
  have hperm := (Buckets.flatMap_filter_perm (fun y : Timed => y.1.1.scenario) (inFocus foci x.1)
    (show measuredRows.Nodup by decide)).map (rowOf overhead readings args x.2)
  rw [hall, List.map_flatMap] at hperm
  exact hperm

theorem zipIdx_sorted {α : Type} (l : List α) : l.zipIdx.Pairwise (fun a b => a.2 < b.2) := by
  rw [← List.pairwise_map (f := Prod.snd), List.zipIdx_map_snd]
  exact List.pairwise_lt_range' 1

theorem rowOf_less {i j : ℕ} {y z : Timed} (hi : i < 2 ^ 64) (hj : j < 2 ^ 64) (hy : y.2 < 2 ^ 64) (hz : z.2 < 2 ^ 64)
    (h : i < j ∨ i = j ∧ y.2 < z.2) :
    csvLess (rowOf overhead readings args i y) (rowOf overhead readings args j z) = true := by
  change (if UInt64.ofNat i ≠ UInt64.ofNat j then decide (UInt64.ofNat i < UInt64.ofNat j)
    else if UInt64.ofNat y.2 ≠ UInt64.ofNat z.2 then decide (UInt64.ofNat y.2 < UInt64.ofNat z.2) else _) = true
  simp only [UInt64.lt_iff_toNat_lt, ← UInt64.toNat_inj, ne_eq, UInt64.toNat_ofNat_of_lt' hi,
    UInt64.toNat_ofNat_of_lt' hj, UInt64.toNat_ofNat_of_lt' hy, UInt64.toNat_ofNat_of_lt' hz]
  rcases h with h | ⟨rfl, h⟩
  · rw [if_pos h.ne]
    exact decide_eq_true h
  · rw [if_neg (fun h => h rfl), if_pos h.ne]
    exact decide_eq_true h

theorem mem_inFocus {w : MacroWorkload true} {y : Timed} (h : y ∈ inFocus foci w) : y.2 < w.pending.length :=
  (mem_timed (List.mem_filter.mp h).1).2

theorem focusedRows_sorted (hws : ws.length < 2 ^ 64) (hlen : ∀ w ∈ ws, w.pending.length < 2 ^ 64) :
    (focusedRows overhead readings args foci ws).Pairwise (fun a b => csvLess a b = true) := by
  have hplace {x : MacroWorkload true × ℕ} (hx : x ∈ ws.zipIdx) : x.2 < 2 ^ 64 := by
    have hx' := (List.getElem?_eq_some_iff.mp (List.mk_mem_zipIdx_iff_getElem?.mp hx)).1
    omega
  have hroom {x : MacroWorkload true × ℕ} (hx : x ∈ ws.zipIdx) {y : Timed} (hy : y ∈ inFocus foci x.1) :
      y.2 < 2 ^ 64 := (mem_inFocus hy).trans (hlen x.1 (List.fst_mem_of_mem_zipIdx hx))
  rw [focusedRows, List.pairwise_flatMap]
  constructor
  · intro x hx
    rw [List.pairwise_map]
    apply ((zipIdx_sorted _).filter _).imp_of_mem
    intro y z hy hz hlt
    exact rowOf_less (hplace hx) (hplace hx) (hroom hx hy) (hroom hx hz) (Or.inr ⟨rfl, hlt⟩)
  · apply (zipIdx_sorted ws).imp_of_mem
    intro x x' hx hx' hlt r hr r' hr'
    obtain ⟨y, hy, rfl⟩ := List.mem_map.mp hr
    obtain ⟨z, hz, rfl⟩ := List.mem_map.mp hr'
    exact rowOf_less (hplace hx) (hplace hx') (hroom hx hy) (hroom hx' hz) (Or.inl hlt)

end Rows

end Llmes.Bench
