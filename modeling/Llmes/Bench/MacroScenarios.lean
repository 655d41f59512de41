import Llmes.Bench.HftMacro

/-!
The collector of latencies by scenario: an iteration is replayed once for every scenario in focus, and only the
operations of that scenario are timed.
-/

namespace Llmes.Bench

open Outcome
open Llmes.Hft

structure MeasurementOverhead where
  cycles : UInt64
  elapsedNs : UInt64

structure ScenarioSample where
  measurementIter : UInt64
  replayIterIdx : UInt64
  opIndex : UInt64
  scenarioCallIndex : UInt64
  side : Side
  price : Int
  qty : UInt64
  occupancySetPath : OccupancySetPath
  occupancyL1PopcountBefore : ℕ
  priceMod8 : ℕ
  levelReuseDistanceOps : UInt64
  orderSlotReuseDistanceOps : UInt64
  rawCycles : UInt64
  cycles : UInt64
  rawElapsedNs : UInt64
  elapsedNs : UInt64

structure CampaignStats where
  counts : MacroScenario → UInt64
  samples : MacroScenario → List ScenarioSample
  ok : UInt64

def parseFocusOne (focus : String) : Except ParseStop MacroScenario :=
  if focus = "add_rest_existing_level" ∨ focus = "add_existing" then .ok .addRestExistingLevel
  else if focus = "add_rest_new_level" ∨ focus = "add_new" then .ok .addRestNewLevel
  else if focus = "cancel_order" ∨ focus = "cancel" then .ok .cancelOrder
  else .error (.exit 2)

def focusList (focus : String) : Except ParseStop (List MacroScenario) :=
  if focus = "all" then .ok [.addRestExistingLevel, .addRestNewLevel, .cancelOrder]
  else do
    let s ← parseFocusOne focus
    pure [s]

def runUntimedWarmup (env : Env) (args : Args) (iter : UInt64) : Plan Unit := do
  let w ← setupWorkload env false args iter
  let _ ← w.executeFrom 0 w.pending.length 0
  pure ()

/-- The arguments of `RunMeasuredPass`, and what the clocks read around each operation that is timed. -/
structure Pass where
  measurementIter : UInt64
  replayIterIdx : UInt64
  focus : MacroScenario
  recordComposition : Bool
  timingOverhead : MeasurementOverhead
  raw : ℕ → MeasurementOverhead

namespace Pass

variable (p : Pass)

def sample (op : PendingOp) (i call : ℕ) : ScenarioSample :=
  let raw := p.raw i
  { measurementIter := p.measurementIter
    replayIterIdx := p.replayIterIdx
    opIndex := UInt64.ofNat i
    scenarioCallIndex := UInt64.ofNat call
    side := op.side
    price := op.price
    qty := op.qty
    occupancySetPath := .notApplicable
    occupancyL1PopcountBefore := 0
    priceMod8 := 0
    levelReuseDistanceOps := kNoPreviousLevelTouch
    orderSlotReuseDistanceOps := kNoPreviousSlotTouch
    rawCycles := raw.cycles
    cycles := if raw.cycles > p.timingOverhead.cycles then raw.cycles - p.timingOverhead.cycles else 0
    rawElapsedNs := raw.elapsedNs
    elapsedNs := if raw.elapsedNs > p.timingOverhead.elapsedNs then raw.elapsedNs - p.timingOverhead.elapsedNs else 0 }

def count (op : PendingOp) (stats : CampaignStats) : CampaignStats :=
  if p.recordComposition then
    { stats with counts := Function.update stats.counts op.scenario (stats.counts op.scenario + 1) }
  else stats

def record (op : PendingOp) (i : ℕ) (stats : CampaignStats) : CampaignStats :=
  if op.scenario = p.focus then
    let samples := stats.samples p.focus
    { stats with samples := Function.update stats.samples p.focus (samples ++ [p.sample op i samples.length]) }
  else stats

def measureFrom : ℕ → ℕ → CampaignStats → ℕ → MacroWorkload true → Plan (CampaignStats × ℕ × MacroWorkload true)
  | 0, _, stats, ok, w => .ok (stats, ok, w)
  | left + 1, i, stats, ok, w =>
    match w.pending[i]? with
    | none => .error (.book .nullPointer)
    | some op => do
      let (ok, w) ← w.executePending i ok
      measureFrom left (i + 1) (p.record op i (p.count op stats)) ok w

end Pass

def ScenarioSample.attributed (sample : ScenarioSample) (attribution : PendingAttribution) : ScenarioSample :=
  { sample with
    occupancySetPath := attribution.occupancySetPath
    occupancyL1PopcountBefore := attribution.occupancyL1PopcountBefore
    priceMod8 := attribution.priceMod8
    levelReuseDistanceOps := attribution.levelReuseDistanceOps
    orderSlotReuseDistanceOps := attribution.orderSlotReuseDistanceOps }

def attach (w : MacroWorkload true) (sample : ScenarioSample) : Plan ScenarioSample :=
  match w.pendingAttribution[sample.opIndex.toNat]? with
  | none => .error (.book .nullPointer)
  | some attribution => .ok (sample.attributed attribution)

def runMeasuredPass (env : Env) (args : Args) (p : Pass) (stats : CampaignStats) : Plan CampaignStats := do
  let w ← setupWorkload env true args p.replayIterIdx
  let attributionBegin := (stats.samples p.focus).length
  let (stats, ok, w) ← p.measureFrom w.pending.length 0 stats 0 w
  let late ← ((stats.samples p.focus).drop attributionBegin).mapM (attach w)
  let stats := { stats with
    samples := Function.update stats.samples p.focus ((stats.samples p.focus).take attributionBegin ++ late) }
  pure (if p.recordComposition then { stats with ok := stats.ok + UInt64.ofNat ok } else stats)

/-- What the clocks read, by measured iteration, scenario in focus and operation. -/
abbrev Readings := UInt64 → MacroScenario → ℕ → MeasurementOverhead

section Campaign

variable (env : Env) (args : Args) (overhead : MeasurementOverhead) (readings : Readings)

def warmups : ℕ → UInt64 → Plan Unit
  | 0, _ => .ok ()
  | left + 1, iter => do
    runUntimedWarmup env args iter
    warmups left (iter + 1)

def passes (i iter : UInt64) : Bool → List MacroScenario → CampaignStats → Plan CampaignStats
  | _, [], stats => .ok stats
  | first, focus :: foci, stats => do
    let stats ← runMeasuredPass env args ⟨i, iter, focus, first, overhead, readings i focus⟩ stats
    passes i iter false foci stats

def campaignFrom (foci : List MacroScenario) : ℕ → UInt64 → UInt64 → CampaignStats → Plan CampaignStats
  | 0, _, _, stats => .ok stats
  | left + 1, i, iter, stats => do
    let stats ← passes env args overhead readings i iter true foci stats
    campaignFrom foci left (i + 1) (iter + 1) stats

end Campaign

inductive MainStop
  | parse (e : ParseStop)
  | halt (e : Halt)

/-- `main`, from the arguments on and as far as the statistics. -/
def scenarioCampaign (env : Env) (args : ScenarioArgs) (overhead : MeasurementOverhead) (readings : Readings) :
    Except MainStop CampaignStats := do
  let foci ← (focusList args.focus).mapError MainStop.parse
  (warmups env args.base args.base.warmupIters.toNat 0).mapError MainStop.halt
  (campaignFrom env args.base overhead readings foci args.base.iters.toNat 0 args.base.warmupIters
    ⟨fun _ => 0, fun _ => [], 0⟩).mapError MainStop.halt


abbrev Timed := (PendingOp × PendingAttribution) × ℕ

def timed (w : MacroWorkload true) : List Timed := (w.pending.zip w.pendingAttribution).zipIdx

def numberedFrom (n : ℕ) (rows : List ScenarioSample) : List ScenarioSample :=
  (rows.zipIdx n).map (fun y => { y.1 with scenarioCallIndex := UInt64.ofNat y.2 })

theorem numberedFrom_append (n : ℕ) (xs ys : List ScenarioSample) :
    numberedFrom n (xs ++ ys) = numberedFrom n xs ++ numberedFrom (n + xs.length) ys := by
  rw [numberedFrom, List.zipIdx_append, List.map_append]
  rfl

theorem length_numberedFrom (n : ℕ) (xs : List ScenarioSample) : (numberedFrom n xs).length = xs.length := by
  rw [numberedFrom, List.length_map, List.length_zipIdx]

theorem mem_timed {w : MacroWorkload true} {x : Timed} (hx : x ∈ timed w) :
    w.pendingAttribution[x.2]? = some x.1.2 ∧ x.2 < w.pending.length := by
  have hget := List.mk_mem_zipIdx_iff_getElem?.mp hx
  obtain ⟨hop, hattr⟩ := List.getElem?_zip_eq_some.mp hget
  exact ⟨hattr, (List.getElem?_eq_some_iff.mp hop).1⟩

theorem map_timed {w : MacroWorkload true} (h : w.pendingAttribution.length = w.pending.length) :
    (timed w).map (fun x => (x.1.1, x.2)) = w.pending.zipIdx := by
  have hmap : ((w.pending.zip w.pendingAttribution).map Prod.fst).zipIdx = _ := List.zipIdx_map
  rw [List.map_fst_zip h.ge] at hmap
  exact hmap.symm

namespace Pass

variable (p : Pass)

def row (x : Timed) : ScenarioSample := (p.sample x.1.1 x.2 0).attributed x.1.2

def rows (w : MacroWorkload true) : List ScenarioSample :=
  ((timed w).filter (fun x => x.1.1.scenario = p.focus)).map p.row

def note (stats : CampaignStats) (x : PendingOp × ℕ) : CampaignStats := p.record x.1 x.2 (p.count x.1 stats)

def after (w : MacroWorkload true) (stats : CampaignStats) : CampaignStats where
  counts s := stats.counts s +
    if p.recordComposition then UInt64.ofNat (w.pending.countP (fun op => op.scenario = s)) else 0
  samples := Function.update stats.samples p.focus
    (stats.samples p.focus ++ numberedFrom (stats.samples p.focus).length (p.rows w))
  ok := stats.ok + if p.recordComposition then UInt64.ofNat w.pending.length else 0

theorem note_ok (l : List (PendingOp × ℕ)) (stats : CampaignStats) : (l.foldl p.note stats).ok = stats.ok := by
  induction l generalizing stats with
  | nil => rfl
  | cons x l ih =>
    rw [List.foldl_cons, ih, note, record, count]
    split_ifs <;> rfl

theorem note_counts (l : List (PendingOp × ℕ)) (stats : CampaignStats) (s : MacroScenario) :
    (l.foldl p.note stats).counts s = stats.counts s +
      if p.recordComposition then UInt64.ofNat (l.countP (fun x => x.1.scenario = s)) else 0 := by
  have hstep (x : PendingOp × ℕ) (stats : CampaignStats) :
      (p.note stats x).counts s = stats.counts s + if p.recordComposition ∧ x.1.scenario = s then 1 else 0 := by
    have hrecord : (p.note stats x).counts = (p.count x.1 stats).counts := by
      rw [note, record]
      split_ifs <;> rfl
    rw [hrecord, count]
    by_cases hp : p.recordComposition = true
    · by_cases hs : x.1.scenario = s
      · subst hs
        simp [hp]
      · simp [hp, hs, Function.update_of_ne (Ne.symm hs)]
    · simp [hp]
  induction l generalizing stats with
  | nil =>
    rw [List.foldl_nil, List.countP_nil]
    simp
  | cons x l ih =>
    rw [List.foldl_cons, ih, hstep, List.countP_cons]
    by_cases hp : p.recordComposition = true
    · by_cases hs : x.1.scenario = s
      · simp only [hp, hs, and_self, if_true, decide_true, UInt64.ofNat_add]
        rw [UInt64.add_assoc, UInt64.add_comm 1]
        rfl
      · simp [hp, hs]
    · simp [hp]

theorem note_samples (l : List Timed) (stats : CampaignStats) :
    ((l.map (fun x => (x.1.1, x.2))).foldl p.note stats).samples = Function.update stats.samples p.focus
      (stats.samples p.focus ++ ((l.filter (fun x => x.1.1.scenario = p.focus)).zipIdx
        (stats.samples p.focus).length).map (fun y => p.sample y.1.1.1 y.1.2 y.2)) := by
  have hstep (x : PendingOp × ℕ) (stats : CampaignStats) : (p.note stats x).samples =
      if x.1.scenario = p.focus then Function.update stats.samples p.focus
        (stats.samples p.focus ++ [p.sample x.1 x.2 (stats.samples p.focus).length]) else stats.samples := by
    rw [note, record, count]
    split_ifs <;> rfl
  induction l generalizing stats with
  | nil =>
    rw [List.filter_nil, List.zipIdx_nil]
    change stats.samples = Function.update stats.samples p.focus (stats.samples p.focus ++ [])
    rw [List.append_nil, Function.update_eq_self]
  | cons x l ih =>
    rw [List.map_cons, List.foldl_cons, ih, hstep, List.filter_cons]
    by_cases hx : x.1.1.scenario = p.focus
    · rw [if_pos hx, if_pos (decide_eq_true hx), Function.update_self, Function.update_idem, List.zipIdx_cons,
        List.map_cons, List.append_assoc, List.length_append]
      rfl
    · rw [if_neg hx, if_neg (by simp [hx])]

theorem measureFrom_eq {cs : List Call} {w : MacroWorkload true} {i : ℕ} (h : ReadyFrom i cs w) (stats : CampaignStats)
    (ok : ℕ) :
    ∃ w', p.measureFrom cs.length i stats ok w =
        .ok (((w.pending.drop i).zipIdx i).foldl p.note stats, ok + cs.length, w') ∧
      w'.pendingAttribution = w.pendingAttribution := by
  induction cs generalizing i w stats ok with
  | nil =>
    have hnil : w.pending.drop i = [] := List.forall₂_nil_left_iff.mp h.2
    refine ⟨w, ?_, rfl⟩
    rw [hnil]
    rfl
  | cons c cs ih =>
    obtain ⟨w₁, heq, hready, hpending, hattr, -⟩ := h.executePending ok
    have hi : i < w.pending.length := by
      have hlen := h.2.length_eq
      rw [List.length_cons, List.length_drop] at hlen
      omega
    obtain ⟨w', heq', hattr'⟩ := ih hready (p.note stats (w.pending[i], i)) (ok + 1)
    refine ⟨w', ?_, hattr'.trans hattr⟩
    rw [List.length_cons, measureFrom, List.getElem?_eq_getElem hi]
    dsimp only
    rw [heq]
    change p.measureFrom cs.length (i + 1) (p.note stats (w.pending[i], i)) (ok + 1) w₁ = _
    rw [heq', hpending, List.drop_eq_getElem_cons hi, List.zipIdx_cons, List.foldl_cons, Nat.add_assoc,
      Nat.add_comm 1]

end Pass

theorem attach_eq {p : Pass} {w v : MacroWorkload true} (hv : v.pendingAttribution = w.pendingAttribution)
    (hlen : w.pending.length ≤ 2 ^ 64) {x : Timed} (hx : x ∈ timed w) (call : ℕ) :
    attach v (p.sample x.1.1 x.2 call) = .ok ((p.sample x.1.1 x.2 call).attributed x.1.2) := by
  obtain ⟨hattr, hi⟩ := mem_timed hx
  have hidx : (UInt64.ofNat x.2).toNat = x.2 := by
    rw [UInt64.toNat_ofNat', Nat.mod_eq_of_lt (by omega)]
  rw [attach]
  change (match v.pendingAttribution[(UInt64.ofNat x.2).toNat]? with
    | none => _
    | some attribution => _) = _
  rw [hidx, hv, hattr]

theorem runMeasuredPass_eq {env : Env} {args : Args} {p : Pass} {w : MacroWorkload true} {cs : List Call}
    (hw : setupWorkload env true args p.replayIterIdx = .ok w) (hlen : w.pending.length ≤ 2 ^ 64)
    (h : Prepared w cs) (stats : CampaignStats) : runMeasuredPass env args p stats = .ok (p.after w stats) := by
  obtain ⟨w', heq, hattr⟩ := p.measureFrom_eq h.ready stats 0
  rw [h.tagged.length_eq, List.drop_zero, Nat.zero_add, ← map_timed h.attributions_length] at heq
  have hlate : ((((timed w).filter (fun x => x.1.1.scenario = p.focus)).zipIdx (stats.samples p.focus).length).map
      (fun y => p.sample y.1.1.1 y.1.2 y.2)).mapM (attach w') =
        .ok (numberedFrom (stats.samples p.focus).length (p.rows w)) := by
    rw [List.mapM_map, mapM_eq_ok (g := fun y => (p.sample y.1.1.1 y.1.2 y.2).attributed y.1.1.2), numberedFrom, Pass.rows,
      List.zipIdx_map, List.map_map]
    · rfl
    · intro y hy
      have hmem := (List.mem_filter.mp (List.fst_mem_of_mem_zipIdx hy)).1
      exact attach_eq hattr hlen hmem y.2
  have hcounts : (((timed w).map (fun x => (x.1.1, x.2))).foldl p.note stats).counts = (p.after w stats).counts := by
    funext s
    have hplaces : w.pending.zipIdx.countP (fun x => x.1.scenario = s) =
        w.pending.countP (fun op => op.scenario = s) := by
      have hmap := List.countP_map (l := w.pending.zipIdx) (f := Prod.fst) (p := fun op => decide (op.scenario = s))
      rw [List.zipIdx_map_fst] at hmap
      exact hmap.symm
    rw [p.note_counts, map_timed h.attributions_length, hplaces]
    rfl
  have hok : (((timed w).map (fun x => (x.1.1, x.2))).foldl p.note stats).ok = stats.ok := p.note_ok _ stats
  rw [runMeasuredPass, hw]
  change (p.measureFrom w.pending.length 0 stats 0 w >>= _) = _
  rw [heq]
  dsimp only [bind, Except.bind]
  rw [p.note_samples, Function.update_self, List.drop_left, List.take_left, hlate]
  dsimp only
  rw [Function.update_idem, hcounts, hok]
  by_cases hp : p.recordComposition = true
  · have hafter : (p.after w stats).ok = stats.ok + UInt64.ofNat w.pending.length :=
      congrArg (stats.ok + ·) (if_pos hp)
    rw [if_pos hp, ← hafter]
    rfl
  · have hafter : (p.after w stats).ok = stats.ok := (congrArg (stats.ok + ·) (if_neg hp)).trans (UInt64.add_zero _)
    rw [if_neg hp, ← hafter]
    rfl

section Campaign

variable {env : Env} {args : Args} {overhead : MeasurementOverhead} {readings : Readings} {w : MacroWorkload true}
  {stats : CampaignStats} {ws : List (MacroWorkload true)} {foci : List MacroScenario}

def passOf (overhead : MeasurementOverhead) (readings : Readings) (i iter : UInt64) (s : MacroScenario) : Pass :=
  ⟨i, iter, s, false, overhead, readings i s⟩

theorem passes_ends {cs : List Call} {i iter : UInt64} (hw : setupWorkload env true args iter = .ok w)
    (hlen : w.pending.length ≤ 2 ^ 64) (h : Prepared w cs) (first : Bool) (hfoci : foci.Nodup) :
    Ends (fun _ => False)
      (fun stats' =>
        (∀ s, stats'.counts s = stats.counts s +
          if first = true ∧ foci ≠ [] then UInt64.ofNat (w.pending.countP (fun op => op.scenario = s)) else 0) ∧
        (∀ s, stats'.samples s = if s ∈ foci then stats.samples s ++
          numberedFrom (stats.samples s).length ((passOf overhead readings i iter s).rows w) else stats.samples s) ∧
        stats'.ok = stats.ok + if first = true ∧ foci ≠ [] then UInt64.ofNat w.pending.length else 0)
      (passes env args overhead readings i iter first foci stats) := by
  induction foci generalizing first stats with
  | nil =>
    refine ⟨fun s => ?_, fun s => ?_, ?_⟩
    · rw [if_neg (fun h => h.2 rfl), UInt64.add_zero]
    · rw [if_neg List.not_mem_nil]
    · rw [if_neg (fun h => h.2 rfl), UInt64.add_zero]
  | cons focus foci ih =>
    obtain ⟨hfocus, hfoci⟩ := List.nodup_cons.mp hfoci
    rw [passes, runMeasuredPass_eq (p := ⟨i, iter, focus, first, overhead, readings i focus⟩) hw hlen h]
    apply (ih false hfoci).imp
    rintro stats' ⟨hcounts, hsamples, hok⟩
    refine ⟨fun s => ?_, fun s => ?_, ?_⟩
    · rw [hcounts, if_neg (fun h => Bool.false_ne_true h.1), UInt64.add_zero]
      simp [Pass.after]
    · rw [hsamples]
      by_cases hs : s = focus
      · subst hs
        rw [if_neg hfocus, if_pos List.mem_cons_self]
        exact Function.update_self ..
      · have hsame : ((Pass.mk i iter focus first overhead (readings i focus)).after w stats).samples s =
            stats.samples s := Function.update_of_ne hs ..
        rw [hsame]
        exact if_congr (by simp [hs]) rfl rfl
    · rw [hok, if_neg (fun h => Bool.false_ne_true h.1), UInt64.add_zero]
      simp [Pass.after]

def samplesOf (overhead : MeasurementOverhead) (readings : Readings) (args : Args) (s : MacroScenario)
    (ws : List (MacroWorkload true)) : List ScenarioSample :=
  ws.zipIdx.flatMap (fun x => (passOf overhead readings (UInt64.ofNat x.2)
    (args.warmupIters + UInt64.ofNat x.2) s).rows x.1)

theorem samplesOf_append (s : MacroScenario) (w : MacroWorkload true) :
    samplesOf overhead readings args s (ws ++ [w]) = samplesOf overhead readings args s ws ++
      (passOf overhead readings (UInt64.ofNat ws.length) (args.warmupIters + UInt64.ofNat ws.length) s).rows w := by
  rw [samplesOf, List.zipIdx_append, List.flatMap_append, Nat.zero_add, List.zipIdx_singleton, List.flatMap_singleton]
  rfl

structure Collected (env : Env) (args : Args) (overhead : MeasurementOverhead) (readings : Readings)
    (foci : List MacroScenario) (ws : List (MacroWorkload true)) (stats : CampaignStats) : Prop where
  replayed : ∀ i w, ws[i]? = some w → setupWorkload env true args (args.warmupIters + UInt64.ofNat i) = .ok w
  lengths : ∀ w ∈ ws, w.pending.length = args.batchSize.toNat ∧ w.pendingAttribution.length = w.pending.length
  counts : ∀ s, stats.counts s = UInt64.ofNat ((ws.flatMap (·.pending)).countP (fun op => op.scenario = s))
  samples : ∀ s, stats.samples s = if s ∈ foci then numberedFrom 0 (samplesOf overhead readings args s ws) else []
  ok : stats.ok = UInt64.ofNat (ws.flatMap (·.pending)).length

theorem Collected.iteration {n : ℕ} (hn : ws.length = n) (h : Collected env args overhead readings foci ws stats)
    (hfoci : foci.Nodup) (hne : foci ≠ []) :
    Ends (SetupFails env true args (args.warmupIters + UInt64.ofNat n))
      (fun stats' => ∃ w, Collected env args overhead readings foci (ws ++ [w]) stats')
      (passes env args overhead readings (UInt64.ofNat n) (args.warmupIters + UInt64.ofNat n) true foci stats) := by
  have hsetup := setupWorkload_ends env true args (args.warmupIters + UInt64.ofNat n)
  cases hw : setupWorkload env true args (args.warmupIters + UInt64.ofNat n) with
  | error e =>
    cases foci with
    | nil => exact absurd rfl hne
    | cons focus foci =>
      rw [passes, runMeasuredPass, hw]
      exact setupFails hw
  | ok w =>
    obtain ⟨hlen, cs, hprep⟩ := hsetup.of_ok hw
    have hroom : w.pending.length ≤ 2 ^ 64 := hlen ▸ args.batchSize.toNat_lt.le
    apply ((passes_ends hw hroom hprep true hfoci).of_never).imp
    rintro stats' ⟨hcounts, hsamples, hok⟩
    refine ⟨w, ⟨fun i v hv => ?_, fun v hv => ?_, fun s => ?_, fun s => ?_, ?_⟩⟩
    · rw [List.getElem?_append] at hv
      split_ifs at hv with hi
      · exact h.replayed i v hv
      · have hi' := (List.getElem?_eq_some_iff.mp hv).1
        rw [List.length_singleton] at hi'
        obtain rfl : i = n := by omega
        rw [hn, Nat.sub_self] at hv
        cases hv
        exact hw
    · rcases List.mem_append.mp hv with hv | hv
      · exact h.lengths v hv
      · cases List.mem_singleton.mp hv
        exact ⟨hlen, hprep.attributions_length⟩
    · rw [hcounts, if_pos ⟨rfl, hne⟩, h.counts, List.flatMap_append, List.countP_append, UInt64.ofNat_add,
        List.flatMap_singleton]
    · rw [hsamples, h.samples, samplesOf_append, numberedFrom_append, Nat.zero_add, hn]
      by_cases hs : s ∈ foci
      · rw [if_pos hs, if_pos hs, if_pos hs, length_numberedFrom]
      · rw [if_neg hs, if_neg hs, if_neg hs]
    · rw [hok, if_pos ⟨rfl, hne⟩, h.ok, List.flatMap_append, List.length_append, UInt64.ofNat_add,
        List.flatMap_singleton]

theorem Collected.campaign {n : ℕ} (hn : ws.length = n) (h : Collected env args overhead readings foci ws stats)
    (hfoci : foci.Nodup) (hne : foci ≠ []) (left : ℕ) :
    Ends (fun e => ∃ i < n + left, SetupFails env true args (args.warmupIters + UInt64.ofNat i) e)
      (fun stats' => ∃ ws', ws'.length = n + left ∧ Collected env args overhead readings foci ws' stats')
      (campaignFrom env args overhead readings foci left (UInt64.ofNat n) (args.warmupIters + UInt64.ofNat n) stats) := by
  induction left generalizing n ws stats with
  | zero => exact ⟨ws, hn, h⟩
  | succ left ih =>
    rw [campaignFrom]
    apply ((h.iteration hn hfoci hne).weaken (fun e he => ⟨n, by omega, he⟩)).bind
    rintro stats₁ ⟨w, h₁⟩
    have hnext : UInt64.ofNat n + 1 = UInt64.ofNat (n + 1) := (UInt64.ofNat_add n 1).symm
    rw [UInt64.add_assoc, hnext, show n + (left + 1) = n + 1 + left by omega]
    exact ih (by rw [List.length_append, hn, List.length_singleton]) h₁

end Campaign

theorem runUntimedWarmup_ends (env : Env) (args : Args) (iter : UInt64) :
    Ends (SetupFails env false args iter) (fun _ => True) (runUntimedWarmup env args iter) := by
  have hsetup := setupWorkload_ends env false args iter
  rw [runUntimedWarmup]
  cases hw : setupWorkload env false args iter with
  | error e => exact setupFails hw
  | ok w =>
    obtain ⟨-, cs, h⟩ := hsetup.of_ok hw
    obtain ⟨w', heq, -⟩ := h.execute le_rfl 0
    change Ends _ _ (w.executeFrom 0 w.pending.length 0 >>= _)
    rw [heq]
    exact True.intro

theorem warmups_ends (env : Env) (args : Args) (left n : ℕ) :
    Ends (fun e => ∃ i < n + left, SetupFails env false args (UInt64.ofNat i) e) (fun _ => True)
      (warmups env args left (UInt64.ofNat n)) := by
  induction left generalizing n with
  | zero => exact True.intro
  | succ left ih =>
    rw [warmups]
    apply ((runUntimedWarmup_ends env args (UInt64.ofNat n)).weaken (fun e he => ⟨n, by omega, he⟩)).bind
    intro _ _
    rw [show UInt64.ofNat n + 1 = UInt64.ofNat (n + 1) from (UInt64.ofNat_add n 1).symm,
      show n + (left + 1) = n + 1 + left by omega]
    exact ih (n + 1)

def MainStops (env : Env) (args : ScenarioArgs) : MainStop → Prop
  | .parse e => focusList args.focus = .error e
  | .halt e => (∃ i < args.base.warmupIters.toNat, SetupFails env false args.base (UInt64.ofNat i) e) ∨
    ∃ i < args.base.iters.toNat, SetupFails env true args.base (args.base.warmupIters + UInt64.ofNat i) e

theorem focusList_ends (focus : String) :
    Ends (fun e => e = .exit 2) (fun foci => foci.Nodup ∧ foci ≠ [] ∧ .unmeasured ∉ foci) (focusList focus) := by
  rw [focusList, parseFocusOne]
  split_ifs <;> first | exact ⟨by decide, by decide, by decide⟩ | rfl

theorem scenarioCampaign_ends (env : Env) (args : ScenarioArgs) (overhead : MeasurementOverhead)
    (readings : Readings) :
    Ends (MainStops env args)
      (fun stats => ∃ foci ws, focusList args.focus = .ok foci ∧ (foci.Nodup ∧ foci ≠ [] ∧ .unmeasured ∉ foci) ∧
        ws.length = args.base.iters.toNat ∧ Collected env args.base overhead readings foci ws stats)
      (scenarioCampaign env args overhead readings) := by
  rw [scenarioCampaign]
  cases heq : focusList args.focus with
  | error e => exact heq
  | ok foci => ?_
  have hfoci := (focusList_ends args.focus).of_ok heq
  have hwarm := warmups_ends env args.base args.base.warmupIters.toNat 0
  rw [Nat.zero_add] at hwarm
  apply (Ends.mapError (D := MainStops env args) hwarm (fun _ => Or.inl)).bind
  intro _ _
  have hempty : Collected env args.base overhead readings foci [] ⟨fun _ => 0, fun _ => [], 0⟩ :=
    ⟨fun _ _ => nofun, fun _ => nofun, fun _ => rfl, fun _ => (ite_self _).symm, rfl⟩
  have hrun := hempty.campaign rfl hfoci.1 hfoci.2.1 args.base.iters.toNat
  rw [List.length_nil, Nat.zero_add, show UInt64.ofNat 0 = 0 from rfl, UInt64.add_zero] at hrun
  apply (Ends.mapError (D := MainStops env args) hrun (fun _ => Or.inr)).imp
  rintro stats ⟨ws, hws, h⟩
  exact ⟨foci, ws, rfl, hfoci, hws, h⟩

def CampaignStats.totalOps (stats : CampaignStats) : UInt64 :=
  ([.addRestExistingLevel, .addRestNewLevel, .cancelOrder, .unmeasured].map stats.counts).sum

theorem totalOps_eq {stats : CampaignStats} {ops : List PendingOp}
    (h : ∀ s, stats.counts s = UInt64.ofNat (ops.countP (fun op => op.scenario = s))) :
    stats.totalOps = UInt64.ofNat ops.length := by
  have hsum : ops.countP (fun op => op.scenario = .addRestExistingLevel) +
      (ops.countP (fun op => op.scenario = .addRestNewLevel) + (ops.countP (fun op => op.scenario = .cancelOrder) +
        ops.countP (fun op => op.scenario = .unmeasured))) = ops.length := by
    clear h
    induction ops with
    | nil => rfl
    | cons op ops ih =>
      simp only [List.countP_cons, List.length_cons]
      cases op.scenario <;> simp <;> omega
  rw [CampaignStats.totalOps, ← hsum]
  simp only [List.map_cons, List.map_nil, List.sum_cons, List.sum_nil, h, UInt64.ofNat_add, UInt64.add_zero]

section Counts

variable {overhead : MeasurementOverhead} {readings : Readings} {args : Args} {ws : List (MacroWorkload true)}

theorem Pass.length_rows (p : Pass) {w : MacroWorkload true} (h : w.pendingAttribution.length = w.pending.length) :
    (p.rows w).length = w.pending.countP (fun op => op.scenario = p.focus) := by
  have hops : (timed w).map (fun x => x.1.1) = w.pending := by
    have hmap := congrArg (List.map Prod.fst) (map_timed h)
    rwa [List.map_map, List.zipIdx_map_fst] at hmap
  rw [rows, List.length_map, ← List.countP_eq_length_filter]
  conv_rhs => rw [← hops, List.countP_map]
  rfl

theorem length_samplesOf (s : MacroScenario) (h : ∀ w ∈ ws, w.pendingAttribution.length = w.pending.length) :
    (samplesOf overhead readings args s ws).length = (ws.flatMap (·.pending)).countP (fun op => op.scenario = s) := by
  induction ws using List.reverseRecOn with
  | nil => rfl
  | append_singleton ws w ih =>
    rw [samplesOf_append, List.length_append, ih (fun v hv => h v (List.mem_append_left _ hv)),
      Pass.length_rows _ (h w (List.mem_append_right _ (List.mem_singleton_self w))), List.flatMap_append,
      List.countP_append, List.flatMap_singleton]
    rfl

theorem callIndex_numberedFrom {xs : List ScenarioSample} {j : ℕ} {x : ScenarioSample}
    (h : (numberedFrom 0 xs)[j]? = some x) : x.scenarioCallIndex = UInt64.ofNat j := by
  rw [numberedFrom, List.getElem?_map, Option.map_eq_some_iff] at h
  obtain ⟨y, hy, rfl⟩ := h
  rw [List.getElem?_zipIdx, Option.map_eq_some_iff] at hy
  obtain ⟨z, -, rfl⟩ := hy
  rw [Nat.zero_add]

theorem Collected.length_ops {env : Env} {foci : List MacroScenario} {stats : CampaignStats}
    (h : Collected env args overhead readings foci ws stats) :
    (ws.flatMap (·.pending)).length = ws.length * args.batchSize.toNat := by
  rw [List.length_flatMap, List.map_congr_left (fun w hw => (h.lengths w hw).1), List.map_const', List.sum_replicate,
    smul_eq_mul]

end Counts

theorem scenario_composition (env : Env) (args : ScenarioArgs) (overhead : MeasurementOverhead) (readings : Readings) :
    Ends (MainStops env args)
      (fun stats => stats.totalOps = args.base.iters * args.base.batchSize ∧ stats.ok = stats.totalOps ∧
        ∃ foci, focusList args.focus = .ok foci ∧
          (∀ s ∈ foci, stats.counts s = UInt64.ofNat (stats.samples s).length) ∧ (∀ s ∉ foci, stats.samples s = []) ∧
            ∀ s j x, (stats.samples s)[j]? = some x → x.scenarioCallIndex = UInt64.ofNat j)
      (scenarioCampaign env args overhead readings) := by
  apply (scenarioCampaign_ends env args overhead readings).imp
  rintro stats ⟨foci, ws, hfocus, -, hws, h⟩
  have htotal := totalOps_eq h.counts
  refine ⟨?_, h.ok.trans htotal.symm, foci, hfocus, fun s hs => ?_, fun s hs => ?_, fun s j x hx => ?_⟩
  · rw [htotal, h.length_ops, hws, UInt64.ofNat_mul, UInt64.ofNat_toNat, UInt64.ofNat_toNat]
  · rw [h.counts, h.samples, if_pos hs, length_numberedFrom, length_samplesOf s (fun w hw => (h.lengths w hw).2)]
  · rw [h.samples, if_neg hs]
  · rw [h.samples] at hx
    split_ifs at hx
    · exact callIndex_numberedFrom hx
    · cases hx

end Llmes.Bench
