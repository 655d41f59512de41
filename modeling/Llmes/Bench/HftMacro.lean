import Llmes.Bench.Runner
import Llmes.Bench.SplitMix64
import Llmes.Hft.Annotations

namespace Llmes.Bench

open Outcome
open Llmes.Hft

/-- What an iteration depends on besides the arguments: the orders in which the unordered map is iterated, and
the product of doubles in the market orders. -/
structure Env where
  iterations : UInt64 → Stream' HashOrder
  eightTenths : UInt64 → UInt64

def Env.draws (env : Env) (args : Args) (iter : UInt64) : Draws where
  eventRng := (SplitMix64.mk (args.seed + args.trialId * 1000003 + iter * 9973)).stream
  paramRng := (SplitMix64.mk (args.seed * 1337 + args.trialId * 500009 + iter * 331)).stream
  iterations := env.iterations iter
  eightTenths := env.eightTenths

/-- `HftMacroWorkload::Setup`. Nothing of an earlier iteration is left. -/
def setupWorkload (env : Env) (enableAttribution : Bool) (args : Args) (iter : UInt64) :
    Plan (MacroWorkload enableAttribution) := do
  let (_, w) ← MacroWorkload.setup enableAttribution args.batchSize (env.draws args iter)
  pure w

/-- `BenchHftMacro`. Without a workload there is no book to execute on. -/
def benchHftMacro (env : Env) : IBenchScenario (Option (MacroWorkload false)) Halt where
  name := "hft_macro"
  setup args iter _ := do
    let w ← setupWorkload env false args iter
    pure (some w)
  runOp _ _ batch ok
    | none => .error (.book .nullPointer)
    | some w => do
      let (ok, w) ← w.executePending batch.toNat ok.toNat
      pure (true, UInt64.ofNat ok, some w)
  maxBatchSize := 1000000
  teardown _ := none
  opNormalizer _ := 1

theorem setupWorkload_ends (env : Env) (enableAttribution : Bool) (args : Args) (iter : UInt64) :
    Ends (SetupStops enableAttribution args.batchSize (env.draws args iter))
      (fun w => w.pending.length = args.batchSize.toNat ∧ ∃ cs, Prepared w cs)
      (setupWorkload env enableAttribution args iter) := by
  rw [setupWorkload]
  exact (setup_prepared enableAttribution args.batchSize (env.draws args iter)).bind (fun _ => id)

def SetupFails (env : Env) (enableAttribution : Bool) (args : Args) (iter : UInt64) (e : Halt) : Prop :=
  setupWorkload env enableAttribution args iter = .error e ∧
    SetupStops enableAttribution args.batchSize (env.draws args iter) e

theorem setupFails {env : Env} {enableAttribution : Bool} {args : Args} {iter : UInt64} {e : Halt}
    (h : setupWorkload env enableAttribution args iter = .error e) : SetupFails env enableAttribution args iter e :=
  ⟨h, (setupWorkload_ends env enableAttribution args iter).of_error h⟩

def RestReady (batchSize : ℕ) (b : ℕ) (state : Option (MacroWorkload false)) : Prop :=
  ∃ w cs, state = some w ∧ ReadyFrom b cs w ∧ b + cs.length = batchSize

theorem benchHftMacro_steady (env : Env) (args : Args) :
    (benchHftMacro env).Steady args (RestReady args.batchSize.toNat) where
  setup iter state state' h := by
    change (setupWorkload env false args iter >>= fun w => pure (some w)) = .ok state' at h
    have hsetup := setupWorkload_ends env false args iter
    cases hw : setupWorkload env false args iter with
    | error e =>
      rw [hw] at h
      cases h
    | ok w =>
      rw [hw] at h
      obtain rfl := Except.ok.inj h
      obtain ⟨hlen, cs, hprep⟩ := hsetup.of_ok hw
      refine ⟨w, cs, rfl, hprep.ready, ?_⟩
      rw [Nat.zero_add, hprep.tagged.length_eq, hlen]
  runOp iter b ok state hb h := by
    obtain ⟨w, cs, rfl, hready, hlen⟩ := h
    have hbatch : b < args.batchSize.toNat :=
      hb.trans_le (UInt64.le_iff_toNat_le.mp (min_le_left args.batchSize _))
    have hidx : (UInt64.ofNat b).toNat = b := by
      rw [UInt64.toNat_ofNat', Nat.mod_eq_of_lt (hbatch.trans args.batchSize.toNat_lt)]
    cases cs with
    | nil =>
      rw [List.length_nil] at hlen
      omega
    | cons c cs =>
      obtain ⟨w', heq, hready', -⟩ := hready.executePending ok.toNat
      refine ⟨some w', ?_, w', cs, rfl, hready', ?_⟩
      · change w.executePending (UInt64.ofNat b).toNat ok.toNat >>= _ = _
        rw [hidx, heq]
        change Except.ok (true, UInt64.ofNat (ok.toNat + 1), some w') = _
        rw [UInt64.ofNat_add, UInt64.ofNat_toNat]
        rfl
      · rw [List.length_cons] at hlen
        omega

def MacroStops (env : Env) (args : Args) (k : Counters) : Stop (Option (MacroWorkload false)) Halt → Prop
  | .parse _ => False
  | .fault e c => ∃ n < args.iterations, c.history = protocol (min args.batchSize 1000000).toNat n ∧
    SetupFails env false args (UInt64.ofNat n) e
  | .exit code c => code = 3 ∧ CountersFail args k (min args.batchSize 1000000).toNat c.history

theorem hftMacro_counts (env : Env) (args : Args) (k : Counters) :
    Ends (MacroStops env args k)
      (fun r => r.1.ok = (args.warmupIters + args.iters) * min args.batchSize 1000000)
      ((benchHftMacro env).runArgs args k none) := by
  apply ((benchHftMacro_steady env args).runArgs k none).weaken
  rintro (e | ⟨e, c⟩ | ⟨code, c⟩) (hstop | hstop)
  · exact hstop
  · exact hstop
  · obtain ⟨-, n, hn, hhist, hsetup⟩ := hstop
    refine ⟨n, hn, hhist, setupFails ?_⟩
    change (setupWorkload env false args (UInt64.ofNat n) >>= fun w => pure (some w)) = .error e at hsetup
    cases hw : setupWorkload env false args (UInt64.ofNat n) with
    | error e' =>
      rw [hw] at hsetup
      exact congrArg _ (Except.error.inj hsetup)
    | ok w =>
      rw [hw] at hsetup
      cases hsetup
  · exact hstop.elim
  · exact hstop.elim
  · obtain ⟨hcode, -, hfail⟩ := hstop
    exact ⟨hcode, hfail⟩

end Llmes.Bench
