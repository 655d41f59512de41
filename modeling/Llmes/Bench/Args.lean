import Llmes.Lib.Outcome

namespace Llmes.Bench

inductive MetricMode
  | latency
  | pmc
  deriving DecidableEq

structure Args where
  metric : MetricMode := .latency
  orders : UInt64 := 10000
  levels : UInt64 := 100
  batchSize : UInt64 := 64
  warmupIters : UInt64 := 100
  iters : UInt64 := 1000
  trialId : UInt64 := 1
  seed : UInt64 := 42
  versionTag : String := "baseline"
  commitSha : String := "unknown"
  outCsv : String := ""
  deriving DecidableEq

structure ScenarioArgs where
  base : Args := {}
  focus : String := "all"
  deriving DecidableEq

/-- What ends a program while its command line is read: `std::exit`, an exception of `std::stoull`, or the null
pointer past the last argument. -/
inductive ParseStop
  | exit (code : ℕ)
  | invalidArgument
  | outOfRange
  | nullArgument
  deriving DecidableEq

def isSpace (c : Char) : Bool := c = ' ' || (9 ≤ c.toNat && c.toNat ≤ 13)

def signOf : List Char → Bool × List Char
  | '-' :: cs => (true, cs)
  | '+' :: cs => (false, cs)
  | cs => (false, cs)

/-- `std::stoull`, which reads as far as there are digits. -/
def stoull (s : String) : Except ParseStop UInt64 :=
  let (negative, cs) := signOf (s.toList.dropWhile isSpace)
  let digits := cs.takeWhile Char.isDigit
  let value := Nat.ofDigitChars 10 digits 0
  if digits = [] then .error .invalidArgument
  else if 2 ^ 64 ≤ value then .error .outOfRange
  else .ok (if negative then 0 - UInt64.ofNat value else UInt64.ofNat value)

def parseLoop {α : Type} (missing : ParseStop) (flag : String → Option (String → α → Except ParseStop α)) :
    List String → α → Except ParseStop α
  | [], a => .ok a
  | s :: rest, a =>
    match flag s with
    | none => parseLoop missing flag rest a
    | some set =>
      match rest with
      | [] => .error missing
      | v :: rest => do
        let a ← set v a
        parseLoop missing flag rest a

def numberFlag : String → Option (UInt64 → Args → Args)
  | "--orders" => some fun v a => { a with orders := v }
  | "--levels" => some fun v a => { a with levels := v }
  | "--batch-size" => some fun v a => { a with batchSize := v }
  | "--warmup-iters" => some fun v a => { a with warmupIters := v }
  | "--iters" => some fun v a => { a with iters := v }
  | "--trial-id" => some fun v a => { a with trialId := v }
  | "--seed" => some fun v a => { a with seed := v }
  | _ => none

def textFlag : String → Option (String → Args → Args)
  | "--version-tag" => some fun v a => { a with versionTag := v }
  | "--commit-sha" => some fun v a => { a with commitSha := v }
  | "--out" => some fun v a => { a with outCsv := v }
  | _ => none

def setNumber (set : UInt64 → Args → Args) (s : String) (a : Args) : Except ParseStop Args := do
  let v ← stoull s
  pure (set v a)

def commonFlag (s : String) : Option (String → Args → Except ParseStop Args) :=
  match numberFlag s with
  | some set => some (setNumber set)
  | none => (textFlag s).map (fun set v a => .ok (set v a))

def setMetric (mode : String) (a : Args) : Except ParseStop Args :=
  if mode = "latency" then .ok { a with metric := .latency }
  else if mode = "pmc" then .ok { a with metric := .pmc }
  else .error (.exit 2)

def argsFlag (s : String) : Option (String → Args → Except ParseStop Args) :=
  if s = "--metric" then some setMetric else commonFlag s

/-- `ParseArgs` of `benchmark_runner.cpp`, which does not look whether a flag has a value. -/
def parseArgs (argv : List String) : Except ParseStop Args := parseLoop .nullArgument argsFlag argv {}

def onBase (set : String → Args → Except ParseStop Args) (v : String) (a : ScenarioArgs) :
    Except ParseStop ScenarioArgs := do
  let base ← set v a.base
  pure { a with base }

def scenarioFlag (s : String) : Option (String → ScenarioArgs → Except ParseStop ScenarioArgs) :=
  if s = "--metric" then some fun _ a => .ok a
  else if s = "--focus" then some fun v a => .ok { a with focus := v }
  else (commonFlag s).map onBase

def scenarioDefaults : Args :=
  { orders := 100000, levels := 100, batchSize := 100000, warmupIters := 1, iters := 1 }

/-- `ParseArgs` of `bench_hft_macro_scenarios.cpp`. -/
def parseScenarioArgs (argv : List String) : Except ParseStop ScenarioArgs :=
  parseLoop (.exit 2) scenarioFlag argv { base := scenarioDefaults }

section Numbers

theorem stoull_repr (v : UInt64) : stoull (toString v.toNat) = .ok v := by
  have hdigit (c : Char) (hc : c ∈ Nat.toDigits 10 v.toNat) : c.isDigit = true :=
    Nat.isDigit_of_mem_toDigits (by decide) (by decide) hc
  have hlist : (toString v.toNat).toList = Nat.toDigits 10 v.toNat := Nat.toList_repr
  have htake : (Nat.toDigits 10 v.toNat).takeWhile Char.isDigit = Nat.toDigits 10 v.toNat :=
    List.takeWhile_eq_self_iff.mpr hdigit
  have hsign : signOf ((Nat.toDigits 10 v.toNat).dropWhile isSpace) = (false, Nat.toDigits 10 v.toNat) := by
    cases hcs : Nat.toDigits 10 v.toNat with
    | nil => exact absurd hcs Nat.toDigits_ne_nil
    | cons c cs =>
      have hc := hdigit c (hcs ▸ List.mem_cons_self)
      have hspace : isSpace c = false := by
        rw [Char.isDigit, Bool.and_eq_true, decide_eq_true_eq, decide_eq_true_eq, UInt32.le_iff_toNat_le] at hc
        have hge : 48 ≤ c.toNat := hc.1
        rw [isSpace, Bool.or_eq_false_iff, Bool.and_eq_false_iff, decide_eq_false_iff_not, decide_eq_false_iff_not,
          decide_eq_false_iff_not]
        refine ⟨?_, Or.inr (by omega)⟩
        rintro rfl
        exact absurd hge (by decide)
      rw [List.dropWhile_cons_of_neg (by rw [hspace]; exact Bool.false_ne_true)]
      unfold signOf
      split
      · next heq =>
        obtain ⟨rfl, -⟩ := List.cons.inj heq
        exact absurd hc (by decide)
      · next heq =>
        obtain ⟨rfl, -⟩ := List.cons.inj heq
        exact absurd hc (by decide)
      · rfl
  rw [stoull, hlist, hsign]
  dsimp only
  rw [htake, if_neg Nat.toDigits_ne_nil, Nat.ofDigitChars_toDigits (by decide) (by decide),
    if_neg (by have := v.toNat_lt; omega)]
  exact congrArg Except.ok (UInt64.ofNat_toNat)

end Numbers

section Loop

variable {α β : Type} {missing missing' : ParseStop} {flag : String → Option (String → α → Except ParseStop α)}

theorem parseLoop_append {xs : List String} (ys : List String) {a b : α} (h : parseLoop missing flag xs a = .ok b) :
    parseLoop missing flag (xs ++ ys) a = parseLoop missing flag ys b := by
  fun_induction parseLoop missing flag xs a with
  | case1 a =>
    cases h
    rfl
  | case2 s rest a hs ih =>
    rw [List.cons_append, parseLoop, hs]
    exact ih h
  | case3 => cases h
  | case4 s a set hs v rest ih =>
    rw [List.cons_append, List.cons_append, parseLoop, hs]
    dsimp only
    cases ha : set v a with
    | error e =>
      rw [ha] at h
      cases h
    | ok a' =>
      rw [ha] at h
      exact ih a' h

end Loop

def MetricMode.name : MetricMode → String
  | .latency => "latency"
  | .pmc => "pmc"

inductive Setting
  | metric (mode : MetricMode)
  | number (flag : String) (set : UInt64 → Args → Args) (h : numberFlag flag = some set) (v : UInt64)
  | text (flag : String) (set : String → Args → Args) (h : textFlag flag = some set) (v : String)
  | word (w : String) (h : argsFlag w = none)

namespace Setting

def words : Setting → List String
  | metric mode => ["--metric", mode.name]
  | number flag _ _ v => [flag, toString v.toNat]
  | text flag _ _ v => [flag, v]
  | word w _ => [w]

def apply (a : Args) : Setting → Args
  | metric mode => { a with metric := mode }
  | number _ set _ v => set v a
  | text _ set _ v => set v a
  | word _ _ => a

end Setting

def Args.settings (a : Args) : List Setting :=
  [.metric a.metric,
    .number "--orders" (fun v a => { a with orders := v }) rfl a.orders,
    .number "--levels" (fun v a => { a with levels := v }) rfl a.levels,
    .number "--batch-size" (fun v a => { a with batchSize := v }) rfl a.batchSize,
    .number "--warmup-iters" (fun v a => { a with warmupIters := v }) rfl a.warmupIters,
    .number "--iters" (fun v a => { a with iters := v }) rfl a.iters,
    .number "--trial-id" (fun v a => { a with trialId := v }) rfl a.trialId,
    .number "--seed" (fun v a => { a with seed := v }) rfl a.seed,
    .text "--version-tag" (fun v a => { a with versionTag := v }) rfl a.versionTag,
    .text "--commit-sha" (fun v a => { a with commitSha := v }) rfl a.commitSha,
    .text "--out" (fun v a => { a with outCsv := v }) rfl a.outCsv]

section Flags

variable {s : String} {a : Args}

theorem commonFlag_number {set : UInt64 → Args → Args} (h : numberFlag s = some set) :
    commonFlag s = some (setNumber set) := by
  rw [commonFlag, h]

theorem commonFlag_text {set : String → Args → Args} (h : textFlag s = some set) :
    commonFlag s = some (fun v a => .ok (set v a)) := by
  have hnumber : numberFlag s = none := by
    unfold textFlag at h
    split at h
    · rfl
    · rfl
    · rfl
    · cases h
  rw [commonFlag, hnumber, h]
  rfl

theorem argsFlag_of_common {set : String → Args → Except ParseStop Args} (h : commonFlag s = some set) :
    argsFlag s = some set := by
  have hne : s ≠ "--metric" := by
    rintro rfl
    cases h
  rw [argsFlag, if_neg hne, h]

theorem scenarioFlag_of_common {set : String → Args → Except ParseStop Args} (h : commonFlag s = some set) :
    scenarioFlag s = some (onBase set) := by
  have hmetric : s ≠ "--metric" := by
    rintro rfl
    cases h
  have hfocus : s ≠ "--focus" := by
    rintro rfl
    cases h
  rw [scenarioFlag, if_neg hmetric, if_neg hfocus, h]
  rfl

theorem parseLoop_setting {missing : ParseStop} (x : Setting) (a : Args) :
    parseLoop missing argsFlag x.words a = .ok (x.apply a) := by
  cases x with
  | metric mode => cases mode <;> rfl
  | number flag set h v =>
    rw [Setting.words, parseLoop, argsFlag_of_common (commonFlag_number h)]
    dsimp only [setNumber]
    rw [stoull_repr]
    rfl
  | text flag set h v =>
    rw [Setting.words, parseLoop, argsFlag_of_common (commonFlag_text h)]
    rfl
  | word w h =>
    rw [Setting.words, parseLoop, h]
    rfl

theorem parseLoop_settings {missing : ParseStop} (xs : List Setting) (a : Args) :
    parseLoop missing argsFlag (xs.flatMap Setting.words) a = .ok (xs.foldl Setting.apply a) := by
  induction xs generalizing a with
  | nil => rfl
  | cons x xs ih =>
    rw [List.flatMap_cons, parseLoop_append _ (parseLoop_setting x a)]
    exact ih _

theorem numberFlag_metric {set : UInt64 → Args → Args} (h : numberFlag s = some set) (v : UInt64) (a : Args)
    (m : MetricMode) : set v { a with metric := m } = { set v a with metric := m } := by
  unfold numberFlag at h
  split at h <;> cases h <;> rfl

theorem textFlag_metric {set : String → Args → Args} (h : textFlag s = some set) (v : String) (a : Args)
    (m : MetricMode) : set v { a with metric := m } = { set v a with metric := m } := by
  unfold textFlag at h
  split at h <;> cases h <;> rfl

theorem parseLoop_scenario {missing : ParseStop} {x : Setting} (hx : ∀ w h, x = .word w h → w ≠ "--focus") (a : Args)
    (m : MetricMode) (focus : String) :
    parseLoop missing scenarioFlag x.words ⟨{ a with metric := m }, focus⟩ =
      .ok ⟨{ x.apply a with metric := m }, focus⟩ := by
  cases x with
  | metric mode => rfl
  | number flag set h v =>
    rw [Setting.words, parseLoop, scenarioFlag_of_common (commonFlag_number h)]
    dsimp only [onBase, setNumber]
    rw [stoull_repr, Setting.apply, ← numberFlag_metric h]
    rfl
  | text flag set h v =>
    rw [Setting.words, parseLoop, scenarioFlag_of_common (commonFlag_text h), Setting.apply, ← textFlag_metric h]
    rfl
  | word w h =>
    have hmetric : w ≠ "--metric" := by
      rintro rfl
      cases h
    have hfocus : w ≠ "--focus" := hx w h rfl
    have hflag : scenarioFlag w = none := by
      rw [argsFlag, if_neg hmetric] at h
      rw [scenarioFlag, if_neg hmetric, if_neg hfocus, h]
      rfl
    rw [Setting.words, parseLoop, hflag]
    rfl

theorem parseLoop_scenarios {missing : ParseStop} {xs : List Setting} (hxs : ∀ w h, .word w h ∈ xs → w ≠ "--focus")
    (a : Args) (m : MetricMode) (focus : String) :
    parseLoop missing scenarioFlag (xs.flatMap Setting.words) ⟨{ a with metric := m }, focus⟩ =
      .ok ⟨{ xs.foldl Setting.apply a with metric := m }, focus⟩ := by
  induction xs generalizing a with
  | nil => rfl
  | cons x xs ih =>
    have hx (w : String) (h : argsFlag w = none) (hw : x = .word w h) : w ≠ "--focus" :=
      hxs w h (hw ▸ List.mem_cons_self)
    rw [List.flatMap_cons, parseLoop_append _ (parseLoop_scenario hx a m focus)]
    exact ih (fun w h hmem => hxs w h (List.mem_cons_of_mem _ hmem)) _

end Flags

theorem Args.settings_apply (a b : Args) : a.settings.foldl Setting.apply b = a := by
  simp only [settings, List.foldl_cons, List.foldl_nil, Setting.apply]

/-- Any command line made of settings sets them one after the other, whatever words stand between them, so the
last one counts, and a command line that sets every field gives them all back. The scenario tool reads the same
settings, but for the metric, and takes up the focus if there is one. -/
theorem parseArgs_settings :
    (∀ xs : List Setting, parseArgs (xs.flatMap Setting.words) = .ok (xs.foldl Setting.apply {})) ∧
      (∀ (xs : List Setting) (a : Args), parseArgs ((xs ++ a.settings).flatMap Setting.words) = .ok a) ∧
      ∀ xs : List Setting, (∀ w h, .word w h ∈ xs → w ≠ "--focus") →
        parseScenarioArgs (xs.flatMap Setting.words) =
          .ok ⟨{ xs.foldl Setting.apply scenarioDefaults with metric := .latency }, "all"⟩ ∧
        ∀ focus, parseScenarioArgs (xs.flatMap Setting.words ++ ["--focus", focus]) =
          .ok ⟨{ xs.foldl Setting.apply scenarioDefaults with metric := .latency }, focus⟩ := by
  refine ⟨fun xs => parseLoop_settings xs _, fun xs a => ?_, fun xs hxs => ?_⟩
  · rw [parseArgs, parseLoop_settings, List.foldl_append, Args.settings_apply]
  · have hbase : parseScenarioArgs (xs.flatMap Setting.words) = .ok _ :=
      parseLoop_scenarios hxs scenarioDefaults .latency "all"
    exact ⟨hbase, fun focus => parseLoop_append _ hbase⟩

theorem parseArgs_settings_sample :
    parseScenarioArgs ["--iters", "7", "--out", "--focus", "verbose", "--focus", "cancel"] =
      .ok ⟨{ scenarioDefaults with iters := 7, outCsv := "--focus" }, "cancel"⟩ := by
  have hwords (w : String) (h : argsFlag w = none) (hw : .word w h ∈ [Setting.number "--iters" _ rfl 7,
      .text "--out" _ rfl "--focus", .word "verbose" rfl]) : w ≠ "--focus" := by
    simp only [List.mem_cons, reduceCtorEq, List.not_mem_nil, or_false, false_or] at hw
    cases hw
    decide
  exact (parseArgs_settings.2.2 _ hwords).2 "cancel"

end Llmes.Bench
