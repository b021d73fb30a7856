import KernelBridge.Lab.Effects
import KernelBridge.Lab.Report
import KernelBridge.Lab.Runner

/-!
# Evidence directories

What `main` of `lab/runner.py` has on disk at every moment of a run, in either mode, and what the
report makes of it.

The runner writes the scenario and a manifest with status `running` before it opens the device, then
a line of the history for each call, then the result, and the manifest once more with the verdict.
Between two of these writes a directory is complete up to there (`Written`), and `load_run` accepts
it as soon as there is a manifest. A write is not atomic: a run that is interrupted in it leaves a
file, or a line of the history, that breaks off (`Interrupted`). These are objects, and no part of
the text of an object that breaks off before its end is JSON, so `load_run` raises, unless it is
the scenario: then there is no manifest yet. That goes for the last write too, which replaces a
manifest that could be read.

Main result: `loadRun_interrupted`. No write fails, what was written stays, and no file is larger
than the report reads (`WithinLimits`).
-/

namespace Lab

open Py Lts

/-! ## Sequential evaluations -/

namespace Sequential

variable {σ : Type}

/-- A step of the history as the dict it is, after a call of `elapsed` nanoseconds. -/
def Entry.toJson (elapsed : ℤ) (entry : Entry) : Json :=
  .dict [("index", .int entry.index), ("operation", entry.operation),
    ("expected", entry.expected), ("actual", entry.actual), ("elapsed_ns", .int elapsed)]

/-- The lines that are recorded. `clock` gives the readings of `perf_counter_ns`, two for each
operation. -/
def recorded (clock : ℕ → ℕ) (history : List Entry) : List Json :=
  history.map fun entry =>
    entry.toJson ((clock (2 * entry.index + 1) : ℤ) - clock (2 * entry.index))

/-- The history that `evaluate` has built up when it returns or raises. -/
def historyOf (device : Device σ) (scenario : Json) (accepted : Scenario) : List Entry :=
  match device.enter accepted.capacity with
  | .error _ => []
  | .ok s => (loop device 0 (.new accepted.capacity) s [] (operationsOf scenario)).1

/-- `result["status"]`. -/
def Evaluation.status : Evaluation → String
  | .pass _ => "pass"
  | .fail .. => "fail"
  | .inconclusive .. => "inconclusive"

/-- `result["history"]`. -/
def Evaluation.history : Evaluation → List Entry
  | .pass history | .fail history .. | .inconclusive history _ => history

/-- The steps record the first operations, in their order. -/
def InOrder (operations : List Json) (history : List Entry) : Prop :=
  history.map (fun entry => (entry.operation, entry.index)) <+: operations.zipIdx

/-- What the loop adds to the history: a step for each operation that it got to, and for all of them
if it came to its end. -/
theorem loop_history (device : Device σ) {index : ℕ} {model : ReferenceModel} {s s' : σ}
    {history history' : List Entry} {stop : Stop} {operations : List Json}
    (h : loop device index model s history operations = (history', stop, s')) :
    ∃ added, history' = history ++ added ∧
      added.map (fun entry => (entry.operation, entry.index)) <+: operations.zipIdx index ∧
      (stop = .done → added.length = operations.length) := by
  induction operations generalizing index model s history with
  | nil =>
    cases h
    exact ⟨[], by simp, by simp, fun _ => rfl⟩
  | cons op operations ih =>
    -- a call that raises ends the run before the step is recorded
    cases hexpected : model.applyJson op with
    | error exc =>
      simp only [loop, hexpected, Prod.mk.injEq] at h
      obtain ⟨rfl, rfl, -⟩ := h
      exact ⟨[], by simp, by simp, by simp⟩
    | ok reply =>
      obtain ⟨expected, model'⟩ := reply
      cases hactual : device.apply s op with
      | error exc =>
        simp only [loop, hexpected, hactual, Prod.mk.injEq] at h
        obtain ⟨rfl, rfl, -⟩ := h
        exact ⟨[], by simp, by simp, by simp⟩
      | ok reply =>
        obtain ⟨actual, s''⟩ := reply
        cases hfields : differing expected actual with
        | error exc =>
          simp only [loop, hexpected, hactual, hfields, Prod.mk.injEq] at h
          obtain ⟨rfl, rfl, -⟩ := h
          exact ⟨[], by simp, by simp, by simp⟩
        | ok fields =>
          -- the step is recorded, whether the run goes on or not
          simp only [loop, hexpected, hactual, hfields] at h
          by_cases hnone : fields = []
          · rw [if_pos hnone] at h
            obtain ⟨added, rfl, hprefix, hlength⟩ := ih h
            refine ⟨⟨index, op, expected, actual⟩ :: added, by simp, ?_, fun hdone => ?_⟩
            · simpa [List.zipIdx_cons] using hprefix
            · simp [hlength hdone]
          · rw [if_neg hnone] at h
            cases hsignature : signatureOf op expected actual fields with
            | error exc =>
              simp only [hsignature, Prod.mk.injEq] at h
              obtain ⟨rfl, rfl, -⟩ := h
              exact ⟨_, rfl, by simp [List.zipIdx_cons], by simp⟩
            | ok signature =>
              simp only [hsignature, Prod.mk.injEq] at h
              obtain ⟨rfl, rfl, -⟩ := h
              exact ⟨_, rfl, by simp [List.zipIdx_cons], by simp⟩

/-- The history has the first operations in their order. -/
theorem historyOf_inOrder (device : Device σ) (scenario : Json) (accepted : Scenario) :
    InOrder (operationsOf scenario) (historyOf device scenario accepted) := by
  unfold historyOf
  split
  · simp [InOrder]
  · obtain ⟨added, hadded, hprefix, -⟩ := loop_history device (Prod.mk.eta (p := loop ..)).symm
    rw [hadded]
    simpa [InOrder] using hprefix

/-- An exception, after `history` was built up: inconclusive, or not caught. -/
def abandon (caught : Exc → Bool) (history : List Entry) (exc : Exc) : Except Exc Evaluation :=
  if caught exc then .ok (.inconclusive history exc.describe) else .error exc

/-- How `evaluate` goes on from the end of its loop. -/
def conclude (device : Device σ) (caught : Exc → Bool) (r : List Entry × Stop × σ) :
    Except Exc Evaluation :=
  match device.exit r.2.2 with
  | .error exc => abandon caught r.1 exc
  | .ok () =>
    match r.2.1 with
    | .raised exc => abandon caught r.1 exc
    | .mismatch index signature => .ok (.fail r.1 index signature)
    | .done => .ok (.pass r.1)

/-- The cases of `evaluate` on an accepted scenario. -/
theorem evaluate_eq {device : Device σ} {caught : Exc → Bool} {scenario : Json}
    {accepted : Scenario} (hvalid : validate scenario = .ok accepted) :
    evaluate device caught scenario =
      match device.enter accepted.capacity with
      | .error exc => abandon caught [] exc
      | .ok s => conclude device caught
          (loop device 0 (.new accepted.capacity) s [] (operationsOf scenario)) := by
  rw [evaluate, hvalid]
  rfl

/-- An exception that is caught leaves the history as it is. -/
theorem abandon_eq_ok {caught : Exc → Bool} {history : List Entry} {exc : Exc} {ev : Evaluation}
    (h : abandon caught history exc = .ok ev) :
    ev.history = history ∧ ev.status = "inconclusive" := by
  unfold abandon at h
  split_ifs at h
  cases h
  exact ⟨rfl, rfl⟩

/-- What `evaluate` returns with its result is the history it has built up, and a pass has all
operations in it. -/
theorem evaluate_history {device : Device σ} {caught : Exc → Bool} {scenario : Json}
    {accepted : Scenario} {ev : Evaluation} (hvalid : validate scenario = .ok accepted)
    (h : evaluate device caught scenario = .ok ev) :
    ev.history = historyOf device scenario accepted ∧
      (ev.status = "pass" → ev.history.length = (operationsOf scenario).length) := by
  have habandoned : ∀ {history : List Entry} {exc : Exc}, abandon caught history exc = .ok ev →
      ev.history = history ∧
        (ev.status = "pass" → ev.history.length = (operationsOf scenario).length) := by
    intro history exc h
    obtain ⟨hhistory, hstatus⟩ := abandon_eq_ok h
    exact ⟨hhistory, fun hpass => absurd (hstatus ▸ hpass) (by decide)⟩
  rw [evaluate_eq hvalid] at h
  unfold historyOf
  cases henter : device.enter accepted.capacity with
  | error exc =>
    rw [henter] at h
    exact habandoned h
  | ok s =>
    simp only [henter] at h ⊢
    cases hloop : loop device 0 (.new accepted.capacity) s [] (operationsOf scenario) with
    | mk history rest =>
    obtain ⟨stop, s'⟩ := rest
    rw [hloop] at h
    unfold conclude at h
    split at h
    · exact habandoned h
    · cases stop with
      | raised exc => exact habandoned h
      | mismatch index signature =>
        cases h
        exact ⟨rfl, fun hpass => absurd hpass (by simp [Evaluation.status])⟩
      | done =>
        cases h
        obtain ⟨added, rfl, -, hdone⟩ := loop_history device hloop
        exact ⟨rfl, fun _ => by simpa [Evaluation.history] using hdone rfl⟩

end Sequential

/-! ## The history -/

/-- The lines are events of the scenario, no two of the same operation. -/
def LinesFit (scenario : Json) (lines : List Json) : Prop :=
  ∃ indexes : List ℕ,
    List.Forall₂ (Report.EventFits (operationsOf scenario)) lines indexes ∧ indexes.Nodup

/-- An operation of an accepted scenario equals itself. -/
theorem eq_self_of_validate {scenario : Json} {accepted : Scenario}
    (hvalid : validate scenario = .ok accepted) {index : ℕ} {operation : Json}
    (h : (operationsOf scenario)[index]? = some operation) :
    operation.eq ((operationsOf scenario).getD index .null) = true := by
  have hread := mapM_eq_ok_iff.mp (mapM_operationsOf hvalid)
  obtain ⟨hlt, rfl⟩ := List.getElem?_eq_some_iff.mp h
  rw [List.getD_eq_getElem _ _ hlt]
  exact eq_self_of_validateOp (hread.get hlt (hread.length_eq ▸ hlt))

/-- The record of a step is an event of the scenario. -/
theorem Sequential.Entry.fits {scenario : Json} {accepted : Scenario}
    (hvalid : validate scenario = .ok accepted) {entry : Entry}
    (h : (operationsOf scenario)[entry.index]? = some entry.operation) (elapsed : ℕ) :
    Report.EventFits (operationsOf scenario) (entry.toJson elapsed) entry.index where
  isDict := rfl
  get?_index := rfl
  index_lt := (List.getElem?_eq_some_iff.mp h).1
  operation := eq_self_of_validate hvalid h
  counts := by
    simp [Report.countFields, toJson, Json.get?, lookup]
  interval := by simp [Report.numberIn, toJson, Json.get?, lookup]

/-- The lines of a sequential run, up to any moment, if the clock never goes back. -/
theorem Sequential.recorded_fit {scenario : Json} {accepted : Scenario}
    (hvalid : validate scenario = .ok accepted) {clock : ℕ → ℕ} (hclock : Monotone clock)
    {history : List Entry} (h : InOrder (operationsOf scenario) history) :
    LinesFit scenario (recorded clock history) := by
  refine ⟨history.map Entry.index, ?_, ?_⟩
  · rw [recorded, List.forall₂_map_left_iff, List.forall₂_map_right_iff, List.forall₂_same]
    intro entry hentry
    have hmem := h.subset (List.mem_map_of_mem hentry)
    have hle : clock (2 * entry.index) ≤ clock (2 * entry.index + 1) := hclock (Nat.le_succ _)
    rw [← Nat.cast_sub hle]
    exact entry.fits hvalid (List.mk_mem_zipIdx_iff_getElem?.mp hmem) _
  · -- the indexes are the first numbers
    have hindexes := h.sublist.map Prod.snd
    rw [List.map_map, List.zipIdx_map_snd] at hindexes
    exact hindexes.nodup List.nodup_range'

section Concurrent

variable {δ : Type} {env : Env δ} {plan : Plan} {s : State plan.workers δ}

/-- The lines of a concurrent run, up to any moment, if the clock never goes back. -/
theorem State.Sound.lines_fit {scenario : Json} (hvalid : validate scenario = .ok plan.scenario)
    (hoperations : plan.operations = operationsOf scenario) (hsound : s.Sound plan)
    (htimed : s.Timed) : LinesFit scenario (s.history.map Recorded.toJson) := by
  refine ⟨s.history.map fun e => e.index, ?_, ?_⟩
  · rw [List.forall₂_map_left_iff, List.forall₂_map_right_iff, List.forall₂_same]
    intro e he
    have hlt : e.index < (operationsOf scenario).length := by
      rw [← hoperations, ← plan.assignments_length]
      exact (List.getElem?_eq_some_iff.mp (hsound.placed he).1).1
    have hoperation : (operationsOf scenario)[e.index]? = some e.operation := by
      rw [(hsound.recorded e he).2, Plan.operation, hoperations, List.getD_eq_getElem _ _ hlt]
      exact List.getElem?_eq_getElem hlt
    have htimes := (htimed.responded e (.inr he)).1
    refine ⟨rfl, rfl, hlt, eq_self_of_validate hvalid hoperation, ?_, ?_⟩
    · cases houtcome : e.outcome <;>
        simp [Report.countFields, Recorded.toJson, Json.get?, lookup, houtcome]
    · cases houtcome : e.outcome <;>
        simpa [Report.numberIn, Recorded.toJson, Json.get?, lookup, houtcome, Json.int?]
          using htimes
  · exact List.pairwise_map.mpr (htimed.separate.imp And.left)

end Concurrent

/-! ## The runner -/

/-- What `main` was called with. -/
structure Session where
  scenario : Json
  workers : ℤ
  budget : ℤ
  about : Surroundings

namespace Session

/-- The checks of `main` on the scenario, before it makes the directory. -/
def check (run : Session) : Except String Scenario := do
  let accepted ← validate run.scenario
  if 1 < run.workers then
    let _ ← validateWorkerPlan run.scenario run.workers
    return accepted
  else if (run.scenario.get? "worker_ids").isSome then
    .error "worker_ids requires concurrent mode; specify --workers 2..4"
  else return accepted

/-- `manifest["scope"]`. -/
def scope (run : Session) : String :=
  if run.workers = 1 then "sequential nonblocking byte-stream contract"
  else "bounded concurrent nonblocking byte-stream contract"

/-- The manifest before the run. -/
def manifest (run : Session) : Json :=
  .dict [("schema_version", .int 1), ("started_utc", run.about.startedUtc),
    ("backend", run.about.backend), ("fixture_fault", run.about.fixtureFault),
    ("kernel_validated", .bool false), ("platform", run.about.platform),
    ("python", run.about.python), ("git_commit", run.about.gitCommit),
    ("git_status", run.about.gitStatus), ("source_sha256", run.about.sourceSha256),
    ("scope", .str run.scope), ("workers", .int run.workers),
    ("search_budget", .int run.budget), ("clock", .str "perf_counter"),
    ("clock_resolution_seconds", run.about.clockResolution), ("status", .str "running"),
    ("device", run.about.device)]

/-- The manifest after the run. -/
def finalManifest (run : Session) (status : String) (observed : ℕ) : Json :=
  Json.set "finished_utc" run.about.finishedUtc <|
    Json.set "operations_observed" (.int observed) <| Json.set "status" (.str status) run.manifest

/-- The lines that may be in the history at some moment of the run. The clock never goes back; the
devices are arbitrary. -/
inductive Captured (run : Session) : List Json → Prop
  /-- The file was opened. -/
  | opened : Captured run []
  | sequential {σ : Type} (device : Sequential.Device σ) {accepted : Scenario} {clock : ℕ → ℕ}
      (hworkers : run.workers = 1) (hvalid : validate run.scenario = .ok accepted)
      (hclock : Monotone clock) (count : ℕ) : Captured run (Sequential.recorded clock
        ((Sequential.historyOf device run.scenario accepted).take count))
  | concurrent {δ : Type} {env : Env δ} {plan : Plan} {device : δ} {clock : ℕ}
      {tr : List (Fin plan.workers)} {s : State plan.workers δ} (hworkers : run.workers ≠ 1)
      (hplan : prepare run.scenario run.workers run.budget = .ok plan)
      (hclock : ∀ last now, env.tick last now → last ≤ now)
      (hrun : Run (Step env plan) (.start device clock) tr s) :
      Captured run (s.history.map Recorded.toJson)

/-- What the evaluation returns to `main`: the history, the status and the rest of the result. -/
inductive Returned (run : Session) : List Json → String → Json → Prop
  | sequential {σ : Type} (device : Sequential.Device σ) (caught : Exc → Bool) {clock : ℕ → ℕ}
      {ev : Sequential.Evaluation} (hworkers : run.workers = 1)
      (hevaluate : Sequential.evaluate device caught run.scenario = .ok ev)
      (hclock : Monotone clock) (rest : List (String × Json)) :
      Returned run (Sequential.recorded clock ev.history) ev.status
        (.dict (("status", .str ev.status) :: rest))
  | concurrent {δ : Type} {env : Env δ} {plan : Plan} {history : List Recorded}
      {exception : Option Exc} (hworkers : run.workers ≠ 1)
      (hplan : prepare run.scenario run.workers run.budget = .ok plan)
      (hclock : ∀ last now, env.tick last now → last ≤ now)
      (hexecution : Execution env plan history exception) :
      Returned run (history.map Recorded.toJson) (evaluate plan run.budget history exception).status
        (evaluate plan run.budget history exception).toJson

/-- What is in the directory between two writes of `main`, and the status that it shows. A
reduction is saved of sequential failures only. -/
inductive Written (run : Session) : Report.Directory → String → Prop
  | created : Written run {} "running"
  | inputs : Written run { scenario := some run.scenario } "running"
  | announced : Written run
      { scenario := some run.scenario, manifest := some run.manifest } "running"
  | recording {lines : List Json} (hlines : run.Captured lines) : Written run
      { scenario := some run.scenario, manifest := some run.manifest
        history := some (lines.map some) } "running"
  | reduced {lines : List Json} {status : String} {result reduction : Json}
      (hreturned : run.Returned lines status result)
      (hreduction : run.workers = 1 ∧ status = "fail") : Written run
      { scenario := some run.scenario, manifest := some run.manifest
        history := some (lines.map some), reduction := some (some reduction) } "running"
  | judged {lines : List Json} {status : String} {result : Json} {reduction : Option Json}
      (hreturned : run.Returned lines status result)
      (hreduction : reduction.isSome = true → run.workers = 1 ∧ status = "fail") : Written run
      { scenario := some run.scenario, manifest := some run.manifest
        history := some (lines.map some), reduction := reduction.map some
        result := some (some result) } "running"
  | finished {lines : List Json} {status : String} {result : Json} {reduction : Option Json}
      (hreturned : run.Returned lines status result)
      (hreduction : reduction.isSome = true → run.workers = 1 ∧ status = "fail") : Written run
      { scenario := some run.scenario
        manifest := some (run.finalManifest status lines.length)
        history := some (lines.map some), reduction := reduction.map some
        result := some (some result) } status

/-- What is in the directory when the run is interrupted, between two writes or in one. The file that
was being written breaks off: it is empty, or its text is a part of an object. If only the newline at
its end is missing, or nothing of a line is there yet, the directory reads as between two writes. -/
inductive Interrupted (run : Session) : Report.Directory → String → Prop
  | between {dir : Report.Directory} {status : String} (h : run.Written dir status) :
      Interrupted run dir status
  | inScenario : Interrupted run { scenario := some none } "running"
  | inManifest :
      Interrupted run { scenario := some run.scenario, manifest := some none } "running"
  | inHistory {lines : List Json} (hlines : run.Captured lines) : Interrupted run
      { scenario := some run.scenario, manifest := some run.manifest
        history := some (lines.map some ++ [none]) } "running"
  | inReduction {lines : List Json} {status : String} {result : Json}
      (hreturned : run.Returned lines status result)
      (hreduction : run.workers = 1 ∧ status = "fail") : Interrupted run
      { scenario := some run.scenario, manifest := some run.manifest
        history := some (lines.map some), reduction := some none } "running"
  | inResult {lines : List Json} {status : String} {result : Json} {reduction : Option Json}
      (hreturned : run.Returned lines status result)
      (hreduction : reduction.isSome = true → run.workers = 1 ∧ status = "fail") : Interrupted run
      { scenario := some run.scenario, manifest := some run.manifest
        history := some (lines.map some), reduction := reduction.map some
        result := some none } "running"
  /-- The manifest is replaced in its place. -/
  | inFinalManifest {lines : List Json} {status : String} {result : Json}
      {reduction : Option Json} (hreturned : run.Returned lines status result)
      (hreduction : reduction.isSome = true → run.workers = 1 ∧ status = "fail") : Interrupted run
      { scenario := some run.scenario, manifest := some none
        history := some (lines.map some), reduction := reduction.map some
        result := some (some result) } "running"

variable {run : Session} {accepted : Scenario} {lines : List Json} {status : String} {result : Json}

/-- The scenario of a run that starts is accepted. -/
theorem check_eq_ok (h : run.check = .ok accepted) : validate run.scenario = .ok accepted := by
  simp only [check, bind_eq_ok_iff] at h
  obtain ⟨accepted', hvalid, h⟩ := h
  split_ifs at h
  · obtain ⟨plan, -, h⟩ := bind_eq_ok_iff.mp h
    cases h
    exact hvalid
  · cases h
    exact hvalid

/-- What is captured are events of the scenario. -/
theorem Captured.fit (hvalid : validate run.scenario = .ok accepted) (h : run.Captured lines) :
    LinesFit run.scenario lines := by
  cases h with
  | opened => exact ⟨[], .nil, .nil⟩
  | sequential device hworkers hvalid' hclock count =>
    refine Sequential.recorded_fit hvalid hclock ?_
    have hprefix := Sequential.historyOf_inOrder device run.scenario ‹_›
    rw [Sequential.InOrder, List.map_take]
    exact (List.take_prefix _ _).trans hprefix
  | concurrent hworkers hplan hclock hrun =>
    obtain ⟨hplan, -⟩ := prepare_eq_ok_iff.mp hplan
    obtain ⟨hscenario, hoperations, -⟩ := validateWorkerPlan_eq_ok hplan
    exact (sound_of_run hrun).lines_fit hscenario hoperations (timed_of_run hclock hrun)

/-- What is returned was captured. -/
theorem Returned.captured (hvalid : validate run.scenario = .ok accepted)
    (h : run.Returned lines status result) : run.Captured lines := by
  cases h with
  | sequential device caught hworkers hevaluate hclock rest =>
    have hall := Captured.sequential device hworkers hvalid hclock
      (Sequential.historyOf device run.scenario accepted).length
    rw [List.take_length] at hall
    rw [(Sequential.evaluate_history hvalid hevaluate).1]
    exact hall
  | concurrent hworkers hplan hclock hexecution =>
    cases hexecution with
    | notOpened => exact .opened
    | ran hrun => exact .concurrent hworkers hplan hclock hrun

/-- The statuses of a result. -/
def verdicts : List String := ["pass", "fail", "inconclusive"]

/-- A verdict has one of the three statuses. -/
theorem status_mem_verdicts (ev : Evaluation) : ev.status ∈ verdicts := by
  rcases ev with _ | _ | verdict
  · simp [Evaluation.status, verdicts]
  · simp [Evaluation.status, verdicts]
  · cases verdict <;> simp [Evaluation.status, Verdict.status, verdicts]

/-- The result is a dict with its status. -/
theorem toJson_eq_dict (ev : Evaluation) :
    ∃ rest, ev.toJson = .dict (("status", .str ev.status) :: rest) := by
  rcases ev with _ | _ | verdict
  · exact ⟨_, rfl⟩
  · exact ⟨_, rfl⟩
  · cases verdict <;> exact ⟨_, rfl⟩

/-- What the report asks of the result. -/
theorem Returned.agrees (hvalid : validate run.scenario = .ok accepted)
    (h : run.Returned lines status result) :
    status ∈ verdicts ∧ (∃ rest, result = .dict (("status", .str status) :: rest)) ∧
      (status = "pass" → lines.length = (operationsOf run.scenario).length) := by
  cases h with
  | @sequential _ _ _ _ ev hworkers hevaluate hclock rest =>
    obtain ⟨-, hcomplete⟩ := Sequential.evaluate_history hvalid hevaluate
    refine ⟨?_, ⟨rest, rfl⟩, fun hpass => ?_⟩
    · cases ev <;> simp [Sequential.Evaluation.status, verdicts]
    · rw [Sequential.recorded, List.length_map, hcomplete hpass]
  | @concurrent _ _ plan history exception hworkers hplan hclock hexecution =>
    obtain ⟨hplan, -⟩ := prepare_eq_ok_iff.mp hplan
    obtain ⟨-, hoperations, -⟩ := validateWorkerPlan_eq_ok hplan
    refine ⟨status_mem_verdicts _, toJson_eq_dict _, fun hpass => ?_⟩
    have hcases := evaluate_cases (Eq.refl (evaluate plan run.budget history exception))
    rcases hcases with ⟨-, -, -, hlength, -⟩ | ⟨hstatus, -⟩
    · rw [List.length_map, hlength, hoperations]
    · exact absurd (hstatus.symm.trans hpass) (by decide)

/-- The backends that the command line offers. -/
def backends : List Json := [.str "simulated", .str "device"]

/-- The report accepts the first manifest. -/
theorem checkManifest_manifest (hbackend : run.about.backend ∈ backends) :
    Report.checkManifest run.manifest = .ok "running" := by
  rcases List.mem_pair.mp hbackend with h | h <;>
    simp [Report.checkManifest, Report.require, manifest, h, getD, Json.get?, lookup, Json.isDict,
      Report.statuses, bind, Except.bind]

/-- The report accepts the last manifest. -/
theorem checkManifest_finalManifest (hbackend : run.about.backend ∈ backends)
    (hstatus : status ∈ verdicts) (observed : ℕ) :
    Report.checkManifest (run.finalManifest status observed) = .ok status := by
  have hmem : status ∈ Report.statuses := List.mem_cons_of_mem _ hstatus
  rcases List.mem_pair.mp hbackend with h | h <;>
    simp [Report.checkManifest, Report.require, finalManifest, manifest, h, getD, Json.get?,
      Json.set, setEntry, lookup, Json.isDict, hmem, bind, Except.bind]

/-- No file is larger than the report reads. -/
structure WithinLimits (stat : String → ℕ) : Prop where
  json : ∀ name, name ≠ "history.jsonl" → stat name ≤ 90000000
  history : stat "history.jsonl" ≤ 180000000

/-- What makes the report accept a directory that the runner has written so far. -/
theorem loadRun_of_fit {stat : String → ℕ} {dir : Report.Directory} {manifest : Json}
    (lines : List Json) (reduction : Option Json) (hvalid : validate run.scenario = .ok accepted)
    (hstat : WithinLimits stat) (hscenario : dir.scenario = some (some run.scenario))
    (hmanifest : dir.manifest = some (some manifest))
    (hstatus : Report.checkManifest manifest = .ok status)
    (hlines : dir.history.getD [] = lines.map some) (hfit : LinesFit run.scenario lines)
    (hreduction : dir.reduction = reduction.map some)
    (hresult : dir.result = none ∨ ∃ entries, dir.result = some (some (.dict entries)))
    (hfinished : status ≠ "running" →
      (∃ rest, dir.result = some (some (.dict (("status", .str status) :: rest)))) ∧
      getD manifest "operations_observed" = .int lines.length ∧
      (status = "pass" → lines.length = (operationsOf run.scenario).length)) :
    ∃ loaded, Report.loadRun stat dir = .ok loaded ∧ loaded.status = status ∧
      loaded.scenario = run.scenario ∧ dir.history.getD [] = loaded.history.map some := by
  obtain ⟨hjson, hhistory⟩ := hstat
  obtain ⟨result, hread, hdict⟩ : ∃ result, (dir.result = none ∧ result = .dict [] ∨
      dir.result = some (some result) ∧ stat "result.json" ≤ 90000000) ∧ result.isDict = true := by
    rcases hresult with hnone | ⟨entries, hentries⟩
    · exact ⟨_, .inl ⟨hnone, rfl⟩, rfl⟩
    · exact ⟨_, .inr ⟨hentries, hjson "result.json" (by decide)⟩, rfl⟩
  refine ⟨⟨manifest, status, run.scenario, result, lines, reduction⟩, ?_, rfl, rfl, hlines⟩
  refine Report.loadRun_eq_ok_iff.mpr ⟨⟨hmanifest, hjson _ (by decide)⟩,
    ⟨hscenario, hjson _ (by decide)⟩, ⟨accepted, hvalid⟩, hstatus, hread, hdict, fun hdone => ?_,
    hlines, fun _ => hhistory, hfit, fun hdone => ?_, fun hpass => ?_, ?_⟩
  · obtain ⟨⟨rest, hrest⟩, -⟩ := hfinished hdone
    rcases hread with ⟨hnone, -⟩ | ⟨hread, -⟩
    · rw [hrest] at hnone
      cases hnone
    · rw [hrest] at hread
      cases hread
      simp [getD, Json.get?, lookup]
  · simp [(hfinished hdone).2.1]
  · have hpass : status = "pass" := hpass
    exact (hfinished (by rw [hpass]; decide)).2.2 hpass
  · cases reduction with
    | none => exact .inl ⟨hreduction, rfl⟩
    | some value => exact .inr ⟨value, hreduction, hjson _ (by decide), rfl⟩

/-- Between two writes of a run, in both modes and whatever the device did. -/
theorem Written.loadRun {stat : String → ℕ} {dir : Report.Directory}
    (hvalid : validate run.scenario = .ok accepted) (hbackend : run.about.backend ∈ backends)
    (hstat : WithinLimits stat) (h : run.Written dir status) (hthere : dir.manifest ≠ none) :
    ∃ loaded, Report.loadRun stat dir = .ok loaded ∧ loaded.status = status ∧
      loaded.scenario = run.scenario ∧ dir.history.getD [] = loaded.history.map some := by
  have hrunning := checkManifest_manifest hbackend
  cases h with
  | created => exact absurd rfl hthere
  | inputs => exact absurd rfl hthere
  | announced =>
    exact loadRun_of_fit [] none hvalid hstat rfl rfl hrunning rfl ⟨[], .nil, .nil⟩ rfl (.inl rfl)
      (absurd rfl)
  | recording hlines =>
    exact loadRun_of_fit _ none hvalid hstat rfl rfl hrunning rfl (hlines.fit hvalid) rfl (.inl rfl)
      (absurd rfl)
  | @reduced _ _ _ reduction hreturned =>
    exact loadRun_of_fit _ (some reduction) hvalid hstat rfl rfl hrunning rfl
      ((hreturned.captured hvalid).fit hvalid) rfl (.inl rfl) (absurd rfl)
  | judged hreturned =>
    obtain ⟨-, ⟨rest, rfl⟩, -⟩ := hreturned.agrees hvalid
    exact loadRun_of_fit _ _ hvalid hstat rfl rfl hrunning rfl
      ((hreturned.captured hvalid).fit hvalid) rfl (.inr ⟨_, rfl⟩) (absurd rfl)
  | finished hreturned =>
    obtain ⟨hmem, ⟨rest, rfl⟩, hcomplete⟩ := hreturned.agrees hvalid
    exact loadRun_of_fit _ _ hvalid hstat rfl rfl
      (checkManifest_finalManifest hbackend hmem _) rfl
      ((hreturned.captured hvalid).fit hvalid) rfl (.inr ⟨_, rfl⟩)
      fun _ => ⟨⟨rest, rfl⟩, rfl, hcomplete⟩

/-- In a write that is not the first. -/
theorem Interrupted.loadRun {stat : String → ℕ} {dir : Report.Directory}
    (hvalid : validate run.scenario = .ok accepted) (hbackend : run.about.backend ∈ backends)
    (hstat : WithinLimits stat) (h : run.Interrupted dir status) (hthere : dir.manifest ≠ none)
    (htorn : dir.Torn) : Report.loadRun stat dir = .error .decodeError := by
  have hrunning := checkManifest_manifest hbackend
  obtain ⟨hjson, hhistory⟩ := hstat
  cases h with
  | between h =>
    -- such a directory is accepted, so nothing in it breaks off
    obtain ⟨loaded, hload, -⟩ := h.loadRun hvalid hbackend ⟨hjson, hhistory⟩ hthere
    exact absurd htorn (Report.not_torn_of_loadRun hload)
  | inScenario => exact absurd rfl hthere
  | inManifest | inFinalManifest => exact Report.loadRun_torn_manifest rfl (hjson _ (by decide))
  | inHistory hlines =>
    -- the report gets through the lines before the one that breaks off
    obtain ⟨indexes, hall, hnodup⟩ := hlines.fit hvalid
    exact Report.loadRun_torn rfl rfl hjson hhistory hvalid hrunning hall hnodup
      (.inr ⟨rfl, .inl rfl⟩)
  | inReduction hreturned =>
    obtain ⟨indexes, hall, hnodup⟩ := (hreturned.captured hvalid).fit hvalid
    exact Report.loadRun_torn rfl rfl hjson hhistory hvalid hrunning hall hnodup
      (.inr ⟨rfl, .inr ⟨rfl, rfl⟩⟩)
  | inResult hreturned =>
    obtain ⟨indexes, hall, hnodup⟩ := (hreturned.captured hvalid).fit hvalid
    exact Report.loadRun_torn rfl rfl hjson hhistory hvalid hrunning hall hnodup (.inl rfl)

end Session

/-- A run can be interrupted at any moment, between two writes or in one. In both modes and whatever
the device did, if no file is larger than the report reads: while there is no manifest, the report
says so. Once there is one, it raises `JSONDecodeError` if a file or a line breaks off, and otherwise
accepts the directory that is left: it reads the scenario and the history back as they were written,
and shows `running` until the run came to its end and the verdict of the evaluation from then on. -/
theorem loadRun_interrupted {run : Session} {accepted : Scenario} {stat : String → ℕ}
    {dir : Report.Directory} {status : String} (hcheck : run.check = .ok accepted)
    (hbackend : run.about.backend ∈ Session.backends) (hstat : Session.WithinLimits stat)
    (h : run.Interrupted dir status) :
    (dir.manifest = none →
      Report.loadRun stat dir = .error (.fileNotFound "manifest.json")) ∧
    (dir.manifest ≠ none → dir.Torn → Report.loadRun stat dir = .error .decodeError) ∧
    (dir.manifest ≠ none → ¬dir.Torn →
      ∃ loaded, Report.loadRun stat dir = .ok loaded ∧ loaded.status = status ∧
        loaded.scenario = run.scenario ∧ dir.history.getD [] = loaded.history.map some) := by
  have hvalid := Session.check_eq_ok hcheck
  refine ⟨fun hnone => ?_, h.loadRun hvalid hbackend hstat, fun hthere hwhole => ?_⟩
  · rw [Report.loadRun, hnone]
    rfl
  · cases h with
    | between h => exact h.loadRun hvalid hbackend hstat hthere
    -- every other way to be interrupted leaves something that breaks off
    | _ => exact absurd (by simp [Report.Directory.Torn]) hwhole

/-- A run of `handoffScenario` on the Linux device. -/
def handoffSession : Session where
  scenario := handoffScenario
  workers := 2
  budget := 100
  about := ⟨.null, .str "device", .null, .null, .null, .null, .null, .null, .null, .null, .null⟩

/-- The directory of a finished run on a device that may answer anything, and that of a run that was
interrupted when it replaced the manifest. -/
theorem loadRun_interrupted_handoff : (∃ dir status loaded, dir.manifest ≠ none ∧
    handoffSession.Interrupted dir status ∧
    Report.loadRun (fun _ => 4096) dir = .ok loaded ∧ loaded.status = status) ∧
    ∃ dir, handoffSession.Interrupted dir "running" ∧
      Report.loadRun (fun _ => 4096) dir = .error .decodeError := by
  obtain ⟨tr, s, hrun, hfinished, -⟩ := handoff_run (δ := Unit) ⟨fun _ _ _ _ => True, (· ≤ ·)⟩
    (fun c => le_refl c) (fun _ => ⟨⟨.error ⟨"OSError", "input/output error"⟩, (), trivial⟩,
      ⟨.ok .null, (), trivial⟩⟩) () 0
  have hplan : prepare handoffSession.scenario 2 100 = .ok handoffPlan := rfl
  have hcheck : handoffSession.check = .ok handoffPlan.scenario := rfl
  have hbackend : handoffSession.about.backend ∈ Session.backends := by
    simp [handoffSession, Session.backends]
  have hlimits : Session.WithinLimits fun _ => 4096 := ⟨fun _ _ => by decide, by decide⟩
  have hreturned : handoffSession.Returned (s.history.map Recorded.toJson) _ _ :=
    .concurrent (by decide) hplan (fun _ _ h => h) (.ran hrun hfinished none)
  have hreduction : (none : Option Json).isSome = true →
      handoffSession.workers = 1 ∧ (evaluate handoffPlan 100 s.history (s.exception.or none)).status
        = "fail" := by simp
  have hfinal := Session.Interrupted.between (.finished hreturned hreduction)
  have htorn := Session.Interrupted.inFinalManifest hreturned hreduction
  have hwhole := (loadRun_interrupted hcheck hbackend hlimits hfinal).2.2 (by simp)
    (by simp [Report.Directory.Torn])
  have hbroken := (loadRun_interrupted hcheck hbackend hlimits htorn).2.1 (by simp) (.inl rfl)
  obtain ⟨loaded, hload, hstatus, -⟩ := hwhole
  exact ⟨⟨_, _, loaded, by simp, hfinal, hload, hstatus⟩, _, htorn, hbroken⟩

end Lab
