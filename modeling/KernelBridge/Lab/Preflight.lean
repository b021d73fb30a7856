import KernelBridge.Lab.Effects
import KernelBridge.Lab.Runner

/-!
# What is checked before a concurrent run

The concurrent mode of `runner.main` checks its arguments and the scenario, makes the evidence
directory, saves a manifest that says `running`, and then calls `evaluate_concurrent`, whose errors
it does not catch. `Covered` is what the early checks are for: that call returns, so the manifest
does not stay as it is.

`evaluate_concurrent` also checks `jitter_us`, which nothing before it does. `covered_iff` says that
this is the only gap: what happens behind the checks, whatever the device does, is caught and
recorded, and a run whose device and clock respond comes to an end.
-/

namespace Lab

open Py Lts

/-! ## The harness as a call -/

/-- How `evaluate_concurrent` can end: with the text of the `ValueError` that it raises, or with the
result and the history in it. -/
inductive EvaluateConcurrent {δ : Type} (env : Env δ) (scenario : Json) (workers budget : ℤ) :
    Except String (Evaluation × List Recorded) → Prop
  | raised {text : String} (hprepare : prepare scenario workers budget = .error text) :
      EvaluateConcurrent env scenario workers budget (.error text)
  | returned {plan : Plan} {history : List Recorded} {exception : Option Exc}
      (hprepare : prepare scenario workers budget = .ok plan)
      (hexecution : Execution env plan history exception) :
      EvaluateConcurrent env scenario workers budget
        (.ok (evaluate plan budget history exception, history))

/-! ## The runner -/

/-- The checks of `runner.main` before it makes the evidence directory, for more than one worker. -/
def preflight (scenario : Json) (workers budget : ℤ) : Except String Plan :=
  if ¬(1 ≤ workers ∧ workers ≤ 4) ∨ ¬(1 ≤ budget ∧ budget ≤ 100000) then
    .error "workers must be 1..4 and search budget 1..100000"
  else do
    let _ ← validate scenario
    validateWorkerPlan scenario workers

/-- The manifest of a concurrent run that is under way. -/
def runningManifest (about : Surroundings) (workers budget : ℤ) : Json :=
  .dict [("schema_version", .int 1), ("started_utc", about.startedUtc),
    ("backend", about.backend), ("fixture_fault", about.fixtureFault),
    ("kernel_validated", .bool false), ("platform", about.platform), ("python", about.python),
    ("git_commit", about.gitCommit), ("git_status", about.gitStatus),
    ("source_sha256", about.sourceSha256),
    ("scope", .str "bounded concurrent nonblocking byte-stream contract"),
    ("workers", .int workers), ("search_budget", .int budget), ("clock", .str "perf_counter"),
    ("clock_resolution_seconds", about.clockResolution), ("status", .str "running"),
    ("device", about.device)]

/-- How `runner.main` can end. -/
inductive Finish
  /-- The command line reports an error, and nothing is saved. -/
  | rejected (text : String)
  /-- An error is not caught, and what has been saved stays. -/
  | interrupted (bundle : Bundle) (text : String)
  | completed (bundle : Bundle)

/-- `runner.main`, for more than one worker. -/
inductive RunnerMain {δ : Type} (env : Env δ) (scenario : Json) (workers budget : ℤ) :
    Finish → Prop
  | rejected {text : String} (hpreflight : preflight scenario workers budget = .error text) :
      RunnerMain env scenario workers budget (.rejected text)
  | interrupted {plan : Plan} {text : String} (about : Surroundings)
      (hpreflight : preflight scenario workers budget = .ok plan)
      (hraised : EvaluateConcurrent env scenario workers budget (.error text)) :
      RunnerMain env scenario workers budget (.interrupted
        { scenario, manifest := runningManifest about workers budget, result := none, history := [] }
        text)
  | completed {plan : Plan} {ev : Evaluation} {history : List Recorded} (about : Surroundings)
      (hpreflight : preflight scenario workers budget = .ok plan)
      (hreturned : EvaluateConcurrent env scenario workers budget (.ok (ev, history))) :
      RunnerMain env scenario workers budget
        (.completed (save about scenario workers budget ev history))

/-! ## Coverage -/

/-- Calls on the device and readings of the clock come back. -/
structure Env.Responds {δ : Type} (env : Env δ) : Prop where
  apply : ∀ device op, ∃ outcome device', env.apply device op outcome device'
  tick : ∀ clock, ∃ now, env.tick clock now

/-- What the checks before the evidence directory are for. -/
structure Covered (scenario : Json) (workers budget : ℤ) : Prop where
  /-- `evaluate_concurrent` returns. -/
  returns : ∀ (δ : Type) (env : Env δ) (result : Except String (Evaluation × List Recorded)),
    EvaluateConcurrent env scenario workers budget result → ∃ ev history,
      result = .ok (ev, history) ∧ ev.status ∈ ["pass", "fail", "inconclusive"]
  /-- No run of its threads goes on for ever, or is stuck before they have ended. -/
  ends : ∀ (δ : Type) (env : Env δ) (plan : Plan), env.Responds →
    prepare scenario workers budget = .ok plan → ∃ bound, ∀ device clock tr s,
      Run (Step env plan) (.start device clock) tr s →
        tr.length ≤ bound ∧ (¬s.Finished → ∃ w s', Step env plan s w s')
  /-- The manifest gets the status of the result. -/
  finishes : ∀ (δ : Type) (env : Env δ) (finish : Finish),
    RunnerMain env scenario workers budget finish → ∃ bundle status, finish = .completed bundle ∧
      bundle.manifest.get? "status" = some (.str status) ∧
      status ∈ ["pass", "fail", "inconclusive"]

/-- The pause before each call is left out, or is an integer in range. -/
def JitterInRange (scenario : Json) : Prop :=
  ∀ jitter, scenario.get? "jitter_us" = some jitter →
    ∃ n : ℤ, jitter = .int n ∧ 0 ≤ n ∧ n ≤ 10000

/-- The harness accepts a jitter that is in range. -/
theorem checkJitter_iff {scenario : Json} :
    (∃ jitter, checkJitter scenario = .ok jitter) ↔ JitterInRange scenario := by
  unfold checkJitter JitterInRange
  cases scenario.get? "jitter_us" with
  | none => simp
  | some value =>
    cases value with
    | int n =>
      simp only [Option.some.injEq, forall_eq', Json.int.injEq]
      split_ifs with hrange
      · exact iff_of_true ⟨_, rfl⟩ ⟨n, rfl, hrange⟩
      · refine iff_of_false nofun ?_
        rintro ⟨m, rfl, hm⟩
        exact hrange hm
    | _ => simp

/-- A result has one of the three statuses. -/
theorem Evaluation.status_mem (ev : Evaluation) : ev.status ∈ ["pass", "fail", "inconclusive"] := by
  cases ev with
  | checked verdict => cases verdict <;> simp [Evaluation.status, Verdict.status]
  | _ => simp [Evaluation.status]

/-- What the worker plan and the bounds of the budget let through is not rejected. -/
theorem preflight_eq_ok {scenario : Json} {workers budget : ℤ} {plan : Plan}
    (hplan : validateWorkerPlan scenario workers = .ok plan)
    (hbudget : 1 ≤ budget ∧ budget ≤ 100000) : preflight scenario workers budget = .ok plan := by
  obtain ⟨hscenario, -, hworkers, -⟩ := validateWorkerPlan_eq_ok hplan
  have htwo := plan.two_le_workers
  have hfour := plan.workers_le
  rw [preflight, if_neg (by omega), hscenario]
  exact hplan

/-- Of a scenario that `runner.main` accepts, the checks cover the run exactly when the pause is one
that `evaluate_concurrent` accepts. -/
theorem covered_iff {scenario : Json} {workers budget : ℤ} {plan : Plan}
    (hplan : validateWorkerPlan scenario workers = .ok plan) (hbudget : 1 ≤ budget ∧ budget ≤ 100000) :
    Covered scenario workers budget ↔ JitterInRange scenario := by
  rw [← checkJitter_iff]
  have hprepare : (∃ jitter, checkJitter scenario = .ok jitter) ↔
      prepare scenario workers budget = .ok plan := by
    rw [prepare_eq_ok_iff]
    exact ⟨fun hjitter => ⟨hplan, hjitter, hbudget⟩, fun h => h.2.1⟩
  constructor
  · intro h
    rw [hprepare]
    cases hresult : prepare scenario workers budget with
    | error text =>
      -- the call raises, whatever the device
      obtain ⟨ev, history, hreturned, -⟩ := h.returns Unit .any _ (.raised hresult)
      cases hreturned
    | ok plan' =>
      have hplan' := (prepare_eq_ok_iff.mp hresult).1
      exact hplan'.symm.trans hplan
  · intro hjitter
    have hok := hprepare.mp hjitter
    have hreturns (δ : Type) (env : Env δ) (result : Except String (Evaluation × List Recorded))
        (h : EvaluateConcurrent env scenario workers budget result) : ∃ ev history,
          result = .ok (ev, history) ∧ ev.status ∈ ["pass", "fail", "inconclusive"] := by
      cases h with
      | raised hraised => cases hraised.symm.trans hok
      | returned => exact ⟨_, _, rfl, Evaluation.status_mem _⟩
    refine ⟨hreturns, fun δ env plan' henv _ => ?_, fun δ env finish h => ?_⟩
    · refine ⟨∑ w : Fin plan'.workers, (4 * (plan'.tasks w).length + 2), fun device clock tr s hrun =>
        ⟨?_, fun hfinished => ?_⟩⟩
      · have hwork := hrun.length_le (State.work plan') fun _ _ _ hstep => hstep.work_lt
        exact (Nat.le_add_right _ _).trans hwork
      · simp only [State.Finished, not_forall] at hfinished
        obtain ⟨w, hw⟩ := hfinished
        obtain ⟨s', hstep⟩ := exists_step (guarded_of_run hrun) (sound_of_run hrun) henv.tick
          (fun op _ _ => henv.apply s.device op) hw
        exact ⟨w, s', hstep⟩
    · cases h with
      | rejected hrejected => cases hrejected.symm.trans (preflight_eq_ok hplan hbudget)
      | interrupted about _ hraised =>
        obtain ⟨ev, history, hreturned, -⟩ := hreturns δ env _ hraised
        cases hreturned
      | completed => exact ⟨_, _, rfl, rfl, Evaluation.status_mem _⟩

/-- `handoffScenario` with a negative pause. -/
def hastyScenario : Json := Json.set "jitter_us" (.int (-1)) handoffScenario

/-- The early checks let it through, and the run stays as it was when `evaluate_concurrent` raised. -/
theorem hasty_interrupted : preflight hastyScenario 2 10000 = .ok handoffPlan ∧
    EvaluateConcurrent .any hastyScenario 2 10000 (.error "jitter_us must be 0..10000") ∧
    ¬Covered hastyScenario 2 10000 ∧
    ∀ about, RunnerMain .any hastyScenario 2 10000 (.interrupted
      { scenario := hastyScenario
        manifest := runningManifest about 2 10000
        result := none
        history := [] } "jitter_us must be 0..10000") := by
  have hraised : EvaluateConcurrent .any hastyScenario 2 10000
      (.error "jitter_us must be 0..10000") := .raised rfl
  have hpreflight : preflight hastyScenario 2 10000 = .ok handoffPlan := rfl
  refine ⟨hpreflight, hraised, fun hcovered => ?_, fun about => .interrupted about hpreflight hraised⟩
  obtain ⟨ev, history, hreturned, -⟩ := hcovered.returns Unit .any _ hraised
  cases hreturned

/-- The equivalence on the scenario whose jitter is out of range. -/
theorem covered_iff_hasty : Covered hastyScenario 2 10000 ↔ JitterInRange hastyScenario :=
  covered_iff (show validateWorkerPlan hastyScenario 2 = .ok handoffPlan from rfl) (by decide)

end Lab
