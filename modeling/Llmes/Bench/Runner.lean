import Llmes.Bench.Args

namespace Llmes.Bench

open Outcome

structure IBenchScenario (σ ε : Type) where
  name : String
  setup : Args → UInt64 → σ → Except ε σ
  runOp : Args → UInt64 → UInt64 → UInt64 → σ → Except ε (Bool × UInt64 × σ)
  maxBatchSize : UInt64
  teardown : σ → σ
  opNormalizer : σ → UInt64

/-- What the performance counters and the clock answer, by measured iteration. -/
structure Counters where
  opens : Bool
  resetEnable : ℕ → Bool
  disable : ℕ → Bool
  readValues : ℕ → Option (Fin 5 → UInt64)
  elapsedNs : ℕ → UInt64

inductive Event
  | setup (iter : UInt64)
  | runOp (iter batch : UInt64) (done : Bool)
  | teardown
  deriving DecidableEq

/-- `history` is history: the calls that the scenario has come back from. The runner does not read it. -/
structure Campaign (σ : Type) where
  state : σ
  ok : UInt64
  history : List Event

/-- A latency is the time of a batch and the number it is divided by besides the batch size. -/
structure Report where
  scenario : String
  args : Args
  effBatch : UInt64
  ok : UInt64
  latencies : List (UInt64 × UInt64)
  totals : Fin 5 → UInt64
  measuredOps : UInt64

inductive Stop (σ ε : Type)
  | parse (e : ParseStop)
  | fault (e : ε) (c : Campaign σ)
  | exit (code : ℕ) (c : Campaign σ)

namespace IBenchScenario

variable {σ ε : Type} (s : IBenchScenario σ ε) (args : Args)

def effBatch : UInt64 := min args.batchSize s.maxBatchSize

def callSetup (iter : UInt64) (c : Campaign σ) : Except (Stop σ ε) (Campaign σ) := do
  let state ← (s.setup args iter c.state).mapError (Stop.fault · c)
  pure { c with state, history := c.history ++ [.setup iter] }

def runBatch (iter : UInt64) : ℕ → UInt64 → Campaign σ → Except (Stop σ ε) (Campaign σ)
  | 0, _, c => .ok c
  | left + 1, batch, c => do
    let (done, ok, state) ← (s.runOp args iter batch c.ok c.state).mapError (Stop.fault · c)
    let c := { state, ok, history := c.history ++ [.runOp iter batch done] }
    if done then runBatch iter left (batch + 1) c else .error (.exit 2 c)

def callTeardown (c : Campaign σ) : Campaign σ :=
  { c with state := s.teardown c.state, history := c.history ++ [.teardown] }

def warmupOne (iter : UInt64) (c : Campaign σ) : Except (Stop σ ε) (Campaign σ) := do
  let c ← s.callSetup args iter c
  let c ← s.runBatch args iter (s.effBatch args).toNat 0 c
  pure (s.callTeardown c)

def warmup : ℕ → UInt64 → Campaign σ → Except (Stop σ ε) (Campaign σ)
  | 0, _, c => .ok c
  | left + 1, iter, c => do
    let c ← s.warmupOne args iter c
    warmup left (iter + 1) c

def measureOne (k : Counters) (i : ℕ) (iter : UInt64) (r : Report × Campaign σ) :
    Except (Stop σ ε) (Report × Campaign σ) := do
  let (report, c) := r
  let c ← s.callSetup args iter c
  if args.metric = .pmc ∧ k.resetEnable i = false then .error (.exit 3 c)
  else
    let c ← s.runBatch args iter (s.effBatch args).toNat 0 c
    if args.metric = .pmc ∧ k.disable i = false then .error (.exit 3 c)
    else
      let c := s.callTeardown c
      match args.metric with
      | .latency =>
        let norm := s.opNormalizer c.state
        pure ({ report with latencies := report.latencies ++ [(k.elapsedNs i, if norm > 0 then norm else 1)] }, c)
      | .pmc =>
        match k.readValues i with
        | none => .error (.exit 3 c)
        | some vals =>
          pure ({ report with
            totals := fun j => report.totals j + vals j
            measuredOps := report.measuredOps + s.effBatch args }, c)

def measure (k : Counters) (i : ℕ) : ℕ → UInt64 → Report × Campaign σ → Except (Stop σ ε) (Report × Campaign σ)
  | 0, _, r => .ok r
  | left + 1, iter, r => do
    let r ← s.measureOne args k i iter r
    measure k (i + 1) left (iter + 1) r

def runArgs (k : Counters) (state : σ) : Except (Stop σ ε) (Report × Campaign σ) := do
  let c ← s.warmup args args.warmupIters.toNat 0 ⟨state, 0, []⟩
  if args.metric = .pmc ∧ k.opens = false then .error (.exit 3 c)
  else
    let report : Report := ⟨s.name, args, s.effBatch args, 0, [], fun _ => 0, 0⟩
    let (report, c) ← s.measure args k 0 args.iters.toNat args.warmupIters (report, c)
    pure ({ report with ok := c.ok }, c)

/-- `RunScenario`, which returns 0 with its report, and another code without. -/
def runScenario (argv : List String) (k : Counters) (state : σ) : Except (Stop σ ε) (Report × Campaign σ) := do
  let args ← (parseArgs argv).mapError Stop.parse
  s.runArgs args k state

end IBenchScenario

def Args.iterations (args : Args) : ℕ := args.warmupIters.toNat + args.iters.toNat

def Counters.Works (k : Counters) (i : ℕ) : Prop :=
  k.resetEnable i = true ∧ k.disable i = true ∧ k.readValues i ≠ none

def ops (iter n : ℕ) : List Event := (List.range n).map (fun b => .runOp (UInt64.ofNat iter) (UInt64.ofNat b) true)

def opened (iter n : ℕ) : List Event := .setup (UInt64.ofNat iter) :: ops iter n

def iteration (eff iter : ℕ) : List Event := opened iter eff ++ [.teardown]

def protocol (eff n : ℕ) : List Event := (List.range n).flatMap (iteration eff)

theorem opened_succ (iter n : ℕ) :
    opened iter (n + 1) = opened iter n ++ [.runOp (UInt64.ofNat iter) (UInt64.ofNat n) true] := by
  rw [opened, ops, List.range_succ, List.map_append]
  rfl

theorem protocol_succ (eff n : ℕ) : protocol eff (n + 1) = protocol eff n ++ iteration eff n := by
  rw [protocol, List.range_succ, List.flatMap_append, List.flatMap_singleton]
  rfl

def Counters.FailsAt (k : Counters) (eff n i : ℕ) (history : List Event) : Prop :=
  (k.resetEnable i = false ∧ history = protocol eff n ++ opened n 0) ∨
    (k.resetEnable i = true ∧ k.disable i = false ∧ history = protocol eff n ++ opened n eff) ∨
      (k.resetEnable i = true ∧ k.disable i = true ∧ k.readValues i = none ∧ history = protocol eff (n + 1))

def CountersFail (args : Args) (k : Counters) (eff : ℕ) (history : List Event) : Prop :=
  args.metric = .pmc ∧
    ((k.opens = false ∧ history = protocol eff args.warmupIters.toNat) ∨
      k.opens = true ∧ ∃ i < args.iters.toNat, (∀ j < i, k.Works j) ∧
        k.FailsAt eff (args.warmupIters.toNat + i) i history)

namespace IBenchScenario

section Calls

variable {σ ε : Type} (s : IBenchScenario σ ε) (args : Args)

/-- What a call of the history makes of the state and the count, as long as it comes back as it did. -/
def called : σ × UInt64 → Event → Option (σ × UInt64)
  | (state, ok), .setup iter => (s.setup args iter state).toOption.map (fun state => (state, ok))
  | (state, ok), .runOp iter batch done =>
    match s.runOp args iter batch ok state with
    | .error _ => none
    | .ok (done', ok, state) => if done' = done then some (state, ok) else none
  | (state, ok), .teardown => some (s.teardown state, ok)

def Played (state₀ : σ) (c : Campaign σ) : Prop := c.history.foldlM (s.called args) (state₀, 0) = some (c.state, c.ok)

def SetupFault (state₀ : σ) : Stop σ ε → Prop
  | .fault e c => s.Played args state₀ c ∧ ∃ n < args.iterations, c.history = protocol (s.effBatch args).toNat n ∧
    s.setup args (UInt64.ofNat n) c.state = .error e
  | _ => False

def BatchStop (state₀ : σ) : Stop σ ε → Prop
  | .parse _ => False
  | .fault e c => s.Played args state₀ c ∧ ∃ n < args.iterations, ∃ b < (s.effBatch args).toNat,
    c.history = protocol (s.effBatch args).toNat n ++ opened n b ∧
      s.runOp args (UInt64.ofNat n) (UInt64.ofNat b) c.ok c.state = .error e
  | .exit code c => code = 2 ∧ s.Played args state₀ c ∧ ∃ n < args.iterations, ∃ b < (s.effBatch args).toNat,
    c.history = protocol (s.effBatch args).toNat n ++ opened n b ++ [.runOp (UInt64.ofNat n) (UInt64.ofNat b) false]

def CountersStop (k : Counters) (state₀ : σ) : Stop σ ε → Prop
  | .exit code c => code = 3 ∧ s.Played args state₀ c ∧ CountersFail args k (s.effBatch args).toNat c.history
  | _ => False

def Stops (k : Counters) (state₀ : σ) (T : Stop σ ε → Prop) (stop : Stop σ ε) : Prop :=
  T stop ∨ s.SetupFault args state₀ stop ∨ s.CountersStop args k state₀ stop

/-- What the runner has done so far is to make these calls. `I` is about the operations done. -/
structure After (state₀ : σ) (I : UInt64 → Prop) (calls : List Event) (c : Campaign σ) : Prop where
  played : s.Played args state₀ c
  history : c.history = calls
  ok : I c.ok

/-- A batch stops with `T` only, and takes `I` from one iteration to the next. -/
def Batches (state₀ : σ) (T : Stop σ ε → Prop) (I : ℕ → UInt64 → Prop) : Prop :=
  ∀ n < args.iterations, ∀ c,
    s.After args state₀ (I n) (protocol (s.effBatch args).toNat n ++ opened n 0) c →
    (∃ state, s.setup args (UInt64.ofNat n) state = .ok c.state) →
    Ends T (s.After args state₀ (I (n + 1)) (protocol (s.effBatch args).toNat n ++ opened n (s.effBatch args).toNat))
      (s.runBatch args (UInt64.ofNat n) (s.effBatch args).toNat 0 c)

end Calls

variable {σ ε : Type} {s : IBenchScenario σ ε} {args : Args} {c : Campaign σ} {k : Counters} {state₀ : σ}
  {T : Stop σ ε → Prop} {I : ℕ → UInt64 → Prop}

namespace Played

variable {iter batch ok : UInt64} {done : Bool} {state : σ}

theorem snoc {e : Event} (h : s.Played args state₀ c) (he : s.called args (c.state, c.ok) e = some (state, ok)) :
    s.Played args state₀ { state, ok, history := c.history ++ [e] } := by
  rw [Played, List.foldlM_append, h]
  change (s.called args (c.state, c.ok) e >>= pure) = _
  rw [he]
  rfl

theorem setup (h : s.Played args state₀ c) (hs : s.setup args iter c.state = .ok state) :
    s.Played args state₀ { c with state, history := c.history ++ [.setup iter] } := by
  apply h.snoc
  rw [called, hs]
  rfl

theorem runOp (h : s.Played args state₀ c) (hop : s.runOp args iter batch c.ok c.state = .ok (done, ok, state)) :
    s.Played args state₀ { state, ok, history := c.history ++ [.runOp iter batch done] } := by
  apply h.snoc
  rw [called, hop]
  exact if_pos rfl

theorem teardown (h : s.Played args state₀ c) : s.Played args state₀ (s.callTeardown c) :=
  h.snoc rfl

end Played

theorem callSetup_ends {n : ℕ} (hn : n < args.iterations)
    (h : s.After args state₀ (I n) (protocol (s.effBatch args).toNat n) c) :
    Ends (s.SetupFault args state₀)
      (fun c₁ => s.After args state₀ (I n) (protocol (s.effBatch args).toNat n ++ opened n 0) c₁ ∧
        ∃ state, s.setup args (UInt64.ofNat n) state = .ok c₁.state)
      (s.callSetup args (UInt64.ofNat n) c) := by
  rw [callSetup]
  cases hs : s.setup args (UInt64.ofNat n) c.state with
  | error e => exact ⟨h.played, n, hn, h.history, hs⟩
  | ok state => exact ⟨⟨h.played.setup hs, congrArg (· ++ [_]) h.history, h.ok⟩, c.state, hs⟩

theorem runBatch_ends {n : ℕ} (hn : n < args.iterations) {b left : ℕ} (hleft : b + left = (s.effBatch args).toNat)
    (h : s.After args state₀ (fun _ => True) (protocol (s.effBatch args).toNat n ++ opened n b) c) :
    Ends (s.BatchStop args state₀)
      (s.After args state₀ (fun _ => True) (protocol (s.effBatch args).toNat n ++ opened n (s.effBatch args).toNat))
      (s.runBatch args (UInt64.ofNat n) left (UInt64.ofNat b) c) := by
  induction left generalizing b c with
  | zero =>
    rw [Nat.add_zero] at hleft
    subst hleft
    exact h
  | succ left ih =>
    rw [runBatch]
    cases hop : s.runOp args (UInt64.ofNat n) (UInt64.ofNat b) c.ok c.state with
    | error e => exact ⟨h.played, n, hn, b, by omega, h.history, hop⟩
    | ok r =>
      obtain ⟨done, ok, state⟩ := r
      change Ends _ _ (if done = true then _ else _)
      cases done with
      | false => exact ⟨rfl, h.played.runOp hop, n, hn, b, by omega, congrArg (· ++ [_]) h.history⟩
      | true =>
        rw [if_pos rfl, show UInt64.ofNat b + 1 = UInt64.ofNat (b + 1) from (UInt64.ofNat_add b 1).symm]
        apply ih (by omega)
        refine ⟨h.played.runOp hop, ?_, True.intro⟩
        rw [opened_succ, ← List.append_assoc]
        exact congrArg (· ++ [_]) h.history

theorem batches (s : IBenchScenario σ ε) (args : Args) (state₀ : σ) :
    s.Batches args state₀ (s.BatchStop args state₀) (fun _ _ => True) :=
  fun _ hn _ h _ => runBatch_ends (b := 0) hn (Nat.zero_add _) h

theorem After.teardown {n : ℕ} (h : s.After args state₀ (I (n + 1))
    (protocol (s.effBatch args).toNat n ++ opened n (s.effBatch args).toNat) c) :
    s.After args state₀ (I (n + 1)) (protocol (s.effBatch args).toNat (n + 1)) (s.callTeardown c) where
  played := h.played.teardown
  history := by
    rw [protocol_succ, iteration, ← List.append_assoc]
    exact congrArg (· ++ [_]) h.history
  ok := h.ok

namespace Batches

theorem warmupOne (hT : s.Batches args state₀ T I) {n : ℕ} (hn : n < args.iterations)
    (h : s.After args state₀ (I n) (protocol (s.effBatch args).toNat n) c) :
    Ends (s.Stops args k state₀ T) (s.After args state₀ (I (n + 1)) (protocol (s.effBatch args).toNat (n + 1)))
      (s.warmupOne args (UInt64.ofNat n) c) := by
  rw [IBenchScenario.warmupOne]
  apply ((callSetup_ends hn h).weaken (fun _ he => Or.inr (Or.inl he))).bind
  rintro c₁ ⟨h₁, hsetup⟩
  apply ((hT n hn c₁ h₁ hsetup).weaken (fun _ => Or.inl)).bind
  intro c₂ h₂
  exact h₂.teardown

theorem warmup (hT : s.Batches args state₀ T I) {n left : ℕ} (hleft : n + left ≤ args.iterations)
    (h : s.After args state₀ (I n) (protocol (s.effBatch args).toNat n) c) :
    Ends (s.Stops args k state₀ T) (s.After args state₀ (I (n + left)) (protocol (s.effBatch args).toNat (n + left)))
      (s.warmup args left (UInt64.ofNat n) c) := by
  induction left generalizing n c with
  | zero => exact h
  | succ left ih =>
    rw [IBenchScenario.warmup]
    apply (hT.warmupOne (by omega) h).bind
    intro c₁ h₁
    rw [show UInt64.ofNat n + 1 = UInt64.ofNat (n + 1) from (UInt64.ofNat_add n 1).symm,
      show n + (left + 1) = n + 1 + left by omega]
    exact ih (by omega) h₁

end Batches

structure Measured (s : IBenchScenario σ ε) (args : Args) (k : Counters) (n : ℕ) (report : Report) : Prop where
  header : report.scenario = s.name ∧ report.args = args ∧ report.effBatch = s.effBatch args
  latency : args.metric = .latency → report.latencies.map Prod.fst = (List.range n).map k.elapsedNs
  pmc : args.metric = .pmc → k.opens = true ∧ (∀ i < n, k.Works i) ∧
    report.measuredOps = UInt64.ofNat n * s.effBatch args ∧
      ∀ j, report.totals j = ((List.range n).map (fun i => (k.readValues i).getD (fun _ => 0) j)).sum

namespace Measured

variable {i : ℕ} {report : Report}

theorem latency_succ (h : Measured s args k i report) (hmetric : args.metric = .latency) (norm : UInt64) :
    Measured s args k (i + 1) { report with latencies := report.latencies ++ [(k.elapsedNs i, norm)] } where
  header := h.header
  latency _ := by
    dsimp only
    rw [List.range_succ, List.map_append, List.map_append, h.latency hmetric]
    rfl
  pmc hpmc := absurd (hmetric.symm.trans hpmc) (by decide)

theorem pmc_succ (h : Measured s args k i report) (hmetric : args.metric = .pmc)
    {vals : Fin 5 → UInt64} (hreset : k.resetEnable i = true) (hdisable : k.disable i = true)
    (hvals : k.readValues i = some vals) :
    Measured s args k (i + 1) { report with
      totals := fun j => report.totals j + vals j
      measuredOps := report.measuredOps + s.effBatch args } where
  header := h.header
  latency hlat := absurd (hmetric.symm.trans hlat) (by decide)
  pmc _ := by
    obtain ⟨hopens, hworks, hops, hsums⟩ := h.pmc hmetric
    refine ⟨hopens, fun j hj => ?_, ?_, fun j => ?_⟩
    · rcases Nat.lt_succ_iff_lt_or_eq.mp hj with hj | rfl
      · exact hworks j hj
      · exact ⟨hreset, hdisable, by rw [hvals]; exact Option.some_ne_none vals⟩
    · dsimp only
      rw [hops, UInt64.ofNat_add]
      grind
    · dsimp only
      rw [hsums, List.range_succ, List.map_append, List.sum_append, List.map_singleton, List.sum_singleton, hvals]
      rfl

theorem stops (h : Measured s args k i report) (hi : i < args.iters.toNat) (hmetric : args.metric = .pmc)
    (hc : s.Played args state₀ c)
    (hfails : k.FailsAt (s.effBatch args).toNat (args.warmupIters.toNat + i) i c.history) :
    s.Stops args k state₀ T (.exit 3 c) := by
  obtain ⟨hopens, hworks, -⟩ := h.pmc hmetric
  exact Or.inr (Or.inr ⟨rfl, hc, hmetric, Or.inr ⟨hopens, i, hi, hworks, hfails⟩⟩)

end Measured

namespace Batches

theorem measureOne (hT : s.Batches args state₀ T I) {i : ℕ} (hi : i < args.iters.toNat) {report : Report}
    (h : s.After args state₀ (I (args.warmupIters.toNat + i))
      (protocol (s.effBatch args).toNat (args.warmupIters.toNat + i)) c) (hm : Measured s args k i report) :
    Ends (s.Stops args k state₀ T)
      (fun r => s.After args state₀ (I (args.warmupIters.toNat + i + 1))
        (protocol (s.effBatch args).toNat (args.warmupIters.toNat + i + 1)) r.2 ∧ Measured s args k (i + 1) r.1)
      (s.measureOne args k i (UInt64.ofNat (args.warmupIters.toNat + i)) (report, c)) := by
  have hn : args.warmupIters.toNat + i < args.iterations := Nat.add_lt_add_left hi _
  rw [IBenchScenario.measureOne]
  apply ((callSetup_ends hn h).weaken (fun _ he => Or.inr (Or.inl he))).bind
  rintro c₁ ⟨h₁, hsetup⟩
  by_cases hreset : args.metric = .pmc ∧ k.resetEnable i = false
  · rw [if_pos hreset]
    exact hm.stops hi hreset.1 h₁.played (Or.inl ⟨hreset.2, h₁.history⟩)
  rw [if_neg hreset]
  apply ((hT _ hn c₁ h₁ hsetup).weaken (fun _ => Or.inl)).bind
  intro c₂ h₂
  by_cases hdisable : args.metric = .pmc ∧ k.disable i = false
  · rw [if_pos hdisable]
    have henabled : k.resetEnable i = true := by simpa [hdisable.1] using hreset
    exact hm.stops hi hdisable.1 h₂.played (Or.inr (Or.inl ⟨henabled, hdisable.2, h₂.history⟩))
  rw [if_neg hdisable]
  have h₃ := h₂.teardown
  dsimp only
  split
  · next hmetric => exact ⟨h₃, hm.latency_succ hmetric _⟩
  · next hmetric =>
    have henabled : k.resetEnable i = true := by simpa [hmetric] using hreset
    have hdisabled : k.disable i = true := by simpa [hmetric] using hdisable
    split
    · next hread =>
      exact hm.stops hi hmetric h₃.played (Or.inr (Or.inr ⟨henabled, hdisabled, hread, h₃.history⟩))
    · next vals hvals => exact ⟨h₃, hm.pmc_succ hmetric henabled hdisabled hvals⟩

theorem measure (hT : s.Batches args state₀ T I) {i left : ℕ} (hleft : i + left ≤ args.iters.toNat) {report : Report}
    (h : s.After args state₀ (I (args.warmupIters.toNat + i))
      (protocol (s.effBatch args).toNat (args.warmupIters.toNat + i)) c) (hm : Measured s args k i report) :
    Ends (s.Stops args k state₀ T)
      (fun r => s.After args state₀ (I (args.warmupIters.toNat + (i + left)))
        (protocol (s.effBatch args).toNat (args.warmupIters.toNat + (i + left))) r.2 ∧
          Measured s args k (i + left) r.1)
      (s.measure args k i left (UInt64.ofNat (args.warmupIters.toNat + i)) (report, c)) := by
  induction left generalizing i report c with
  | zero => exact ⟨h, hm⟩
  | succ left ih =>
    rw [IBenchScenario.measure]
    apply (hT.measureOne (by omega) h hm).bind
    rintro ⟨report', c'⟩ ⟨h', hm'⟩
    rw [show UInt64.ofNat (args.warmupIters.toNat + i) + 1 = UInt64.ofNat (args.warmupIters.toNat + (i + 1)) from
      (UInt64.ofNat_add _ 1).symm, show i + (left + 1) = i + 1 + left by omega]
    exact ih (by omega) h' hm'

theorem runArgs (hT : s.Batches args state₀ T I) (hI : I 0 0) (k : Counters) :
    Ends (s.Stops args k state₀ T)
      (fun r => s.After args state₀ (I args.iterations) (protocol (s.effBatch args).toNat args.iterations) r.2 ∧
        r.1.ok = r.2.ok ∧ Measured s args k args.iters.toNat r.1)
      (s.runArgs args k state₀) := by
  rw [IBenchScenario.runArgs]
  have hwarm : Ends (s.Stops args k state₀ T) _
      (s.warmup args args.warmupIters.toNat (UInt64.ofNat 0) ⟨state₀, 0, []⟩) :=
    hT.warmup (by rw [Args.iterations]; omega) ⟨rfl, rfl, hI⟩
  apply hwarm.bind
  intro c hc
  rw [Nat.zero_add] at hc
  by_cases hopen : args.metric = .pmc ∧ k.opens = false
  · rw [if_pos hopen]
    exact Or.inr (Or.inr ⟨rfl, hc.played, hopen.1, Or.inl ⟨hopen.2, hc.history⟩⟩)
  rw [if_neg hopen]
  have hm : Measured s args k 0 ⟨s.name, args, s.effBatch args, 0, [], fun _ => 0, 0⟩ :=
    ⟨⟨rfl, rfl, rfl⟩, fun _ => rfl, fun hmetric => ⟨by simpa [hmetric] using hopen,
      fun i hi => absurd hi (Nat.not_lt_zero i), by grind, fun _ => rfl⟩⟩
  have hrun := hT.measure (by rw [Nat.zero_add]) hc hm
  rw [Nat.add_zero, UInt64.ofNat_toNat, Nat.zero_add] at hrun
  apply hrun.bind
  rintro ⟨report, c'⟩ ⟨h, hm'⟩
  exact ⟨h, rfl, ⟨hm'.header, hm'.latency, hm'.pmc⟩⟩

end Batches

/-- The runner reports after the whole protocol. Otherwise it was left in a call of the scenario, at an
operation that was not done, or where the counters fail, with the calls up to there behind it. -/
theorem runScenario_ends (s : IBenchScenario σ ε) (argv : List String) (k : Counters) (state₀ : σ) :
    Ends
      (fun stop => (∃ e, parseArgs argv = .error e ∧ stop = .parse e) ∨
        ∃ args, parseArgs argv = .ok args ∧ s.Stops args k state₀ (s.BatchStop args state₀) stop)
      (fun r => ∃ args, parseArgs argv = .ok args ∧ s.Played args state₀ r.2 ∧
        r.2.history = protocol (s.effBatch args).toNat args.iterations ∧ r.1.ok = r.2.ok ∧
          Measured s args k args.iters.toNat r.1)
      (s.runScenario argv k state₀) := by
  rw [runScenario]
  cases hargs : parseArgs argv with
  | error e => exact Or.inl ⟨e, rfl, rfl⟩
  | ok args =>
    apply ((batches s args state₀).runArgs True.intro k).mono
    · exact fun stop hstop => Or.inr ⟨args, rfl, hstop⟩
    · exact fun r ⟨h, hok, hm⟩ => ⟨args, rfl, h.played, h.history, hok, hm⟩

/-- A scenario that cannot fail once it is set up. `I` is what holds before each operation of a batch. -/
structure Steady (s : IBenchScenario σ ε) (args : Args) (I : ℕ → σ → Prop) : Prop where
  setup : ∀ iter state state', s.setup args iter state = .ok state' → I 0 state'
  runOp : ∀ iter b ok state, b < (s.effBatch args).toNat → I b state →
    ∃ state', s.runOp args iter (UInt64.ofNat b) ok state = .ok (true, ok + 1, state') ∧ I (b + 1) state'

namespace Steady

theorem runBatch {I : ℕ → σ → Prop} (h : Steady s args I) (iter : UInt64) {b left : ℕ}
    (hleft : b + left = (s.effBatch args).toNat) (hc : I b c.state) :
    Ends (fun _ => False) (fun c' => c'.ok = c.ok + UInt64.ofNat left)
      (s.runBatch args iter left (UInt64.ofNat b) c) := by
  induction left generalizing b c with
  | zero => exact (UInt64.add_zero c.ok).symm
  | succ left ih =>
    obtain ⟨state, hop, hstate⟩ := h.runOp iter b c.ok c.state (by omega) hc
    rw [IBenchScenario.runBatch, hop]
    change Ends _ _ (s.runBatch args iter left (UInt64.ofNat b + 1) _)
    rw [show UInt64.ofNat b + 1 = UInt64.ofNat (b + 1) from (UInt64.ofNat_add b 1).symm]
    apply (ih (by omega) hstate).imp
    intro c' hc'
    rw [hc', UInt64.ofNat_add, UInt64.add_assoc, UInt64.add_comm 1]
    rfl

theorem batches {I : ℕ → σ → Prop} (h : Steady s args I) (state₀ : σ) :
    s.Batches args state₀ (fun _ => False) (fun n ok => ok = UInt64.ofNat n * s.effBatch args) := by
  rintro n hn c hc ⟨state, hstate⟩
  have hrun := h.runBatch (UInt64.ofNat n) (Nat.zero_add _) (h.setup _ _ _ hstate)
  obtain ⟨c₂, heq, hcount⟩ := hrun.exists_ok
  -- a batch that ends has made its calls, whatever the scenario
  have hcalls := (runBatch_ends (b := 0) hn (Nat.zero_add _) ⟨hc.played, hc.history, True.intro⟩).of_ok heq
  change Ends _ _ (s.runBatch args (UInt64.ofNat n) _ (UInt64.ofNat 0) c)
  rw [heq]
  refine ⟨hcalls.played, hcalls.history, ?_⟩
  have hok : c.ok = UInt64.ofNat n * s.effBatch args := hc.ok
  change c₂.ok = UInt64.ofNat (n + 1) * s.effBatch args
  rw [hcount, hok, UInt64.ofNat_add, UInt64.ofNat_toNat]
  grind

theorem runArgs {I : ℕ → σ → Prop} (h : Steady s args I) (k : Counters) (state₀ : σ) :
    Ends (fun stop => s.SetupFault args state₀ stop ∨ s.CountersStop args k state₀ stop)
      (fun r => r.1.ok = (args.warmupIters + args.iters) * s.effBatch args) (s.runArgs args k state₀) := by
  have hzero : (0 : UInt64) = UInt64.ofNat 0 * s.effBatch args := by grind
  apply ((h.batches state₀).runArgs hzero k).mono
  · rintro stop (hstop | hstop)
    · exact hstop.elim
    · exact hstop
  · rintro r ⟨hr, hok, -⟩
    rw [hok, hr.ok, Args.iterations, UInt64.ofNat_add, UInt64.ofNat_toNat, UInt64.ofNat_toNat]

end Steady

end IBenchScenario

end Llmes.Bench
