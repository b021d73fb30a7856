import KernelBridge.Lab.Concurrency
import KernelBridge.Lab.Linearizability

/-!
# Saved runs and their offline check

The concurrent mode of `lab/runner.py`, which saves a run as a bundle of files, and the command of
`lab/history.py` that checks a bundle again.

A bundle holds JSON values; that `json.dumps` writes a value so that `json.loads` reads it back is
taken from the library. The two programs derive the owner and the number of an operation in
different ways, the harness by walking through the operations of a worker and the check by
counting, and they pass the status of a run through different fields. `recheck_agrees` says that
they agree, whatever the device did.
-/

namespace Lab

open Py Lts

/-! ## Results as JSON -/

/-- The status of a verdict. -/
def Verdict.status : Verdict → String
  | .pass _ _ => "pass"
  | .fail _ => "fail"
  | .inconclusive _ _ => "inconclusive"

/-- The dict that `check_history` returns. -/
def Verdict.toJson : Verdict → Json
  | .pass order explored => .dict [("status", .str "pass"),
      ("witness_order", .list (order.map fun i : ℕ => Json.int i)), ("explored", .int explored)]
  | .fail explored => .dict [("status", .str "fail"), ("reason", .str "no legal FIFO ordering"),
      ("explored", .int explored)]
  | .inconclusive reason explored => .dict [("status", .str "inconclusive"),
      ("reason", .str reason), ("explored", .int explored)]

/-- The status of an evaluation. -/
def Evaluation.status : Evaluation → String
  | .executionError _ | .invalidCapture _ => "inconclusive"
  | .checked verdict => verdict.status

/-- The dict that `evaluate_concurrent` returns, without the history. -/
def Evaluation.toJson : Evaluation → Json
  | .executionError exc => .dict [("status", .str "inconclusive"),
      ("failure_class", .str "EXECUTION_ERROR"), ("error", .str exc.describe)]
  | .invalidCapture exc => .dict [("status", .str "inconclusive"),
      ("failure_class", .str "INVALID_CAPTURE"), ("error", .str exc.describe)]
  | .checked verdict => verdict.toJson

/-- The search of the checker ran out of its budget. -/
def Evaluation.Exhausted (ev : Evaluation) : Prop :=
  ∃ explored, ev = .checked (.inconclusive "search budget exhausted" explored)

/-! ## The runner -/

/-- The files of a run. -/
structure Bundle where
  scenario : Json
  manifest : Json
  /-- `result.json`, if it is there. -/
  result : Option Json
  /-- The lines of `history.jsonl`. -/
  history : List Json

/-- What the manifest says of the machine, the sources and the command line. -/
structure Surroundings where
  startedUtc : Json
  backend : Json
  fixtureFault : Json
  platform : Json
  python : Json
  gitCommit : Json
  gitStatus : Json
  sourceSha256 : Json
  clockResolution : Json
  device : Json
  finishedUtc : Json

/-- The manifest of a completed concurrent run. -/
def manifest (about : Surroundings) (workers budget : ℤ) (status : String) (observed : ℕ) : Json :=
  .dict [("schema_version", .int 1), ("started_utc", about.startedUtc),
    ("backend", about.backend), ("fixture_fault", about.fixtureFault),
    ("kernel_validated", .bool false), ("platform", about.platform), ("python", about.python),
    ("git_commit", about.gitCommit), ("git_status", about.gitStatus),
    ("source_sha256", about.sourceSha256),
    ("scope", .str "bounded concurrent nonblocking byte-stream contract"),
    ("workers", .int workers), ("search_budget", .int budget), ("clock", .str "perf_counter"),
    ("clock_resolution_seconds", about.clockResolution), ("status", .str status),
    ("device", about.device), ("operations_observed", .int observed),
    ("finished_utc", about.finishedUtc)]

/-- What `runner.main` saves of a concurrent run. -/
def save (about : Surroundings) (scenario : Json) (workers budget : ℤ) (ev : Evaluation)
    (history : List Recorded) : Bundle where
  scenario
  manifest := manifest about workers budget ev.status history.length
  result := some ev.toJson
  history := history.map Recorded.toJson

/-- `runner.main` completed a concurrent run: it accepted the arguments and the scenario, the
workers ran, and the bundle was saved with the evaluation `ev`. -/
def Completed {δ : Type} (env : Env δ) (scenario : Json) (workers budget : ℤ) (ev : Evaluation)
    (bundle : Bundle) : Prop :=
  ∃ plan history exception about, prepare scenario workers budget = .ok plan ∧
    Execution env plan history exception ∧ ev = evaluate plan budget history exception ∧
    bundle = save about scenario workers budget ev history

/-! ## The offline check -/

/-- `d.get(key)`. -/
def getD (j : Json) (key : String) : Json := (j.get? key).getD .null

/-- What the offline check prints for a run that did not finish conclusively. -/
def unfinishedJson : Json :=
  .dict [("status", .str "inconclusive"), ("reason", .str "run did not finish conclusively")]

/-- The saved run did not end with a verdict that a search can reproduce. -/
def unfinished (manifest execution : Json) (count : ℕ) : Bool :=
  !(["pass", "fail", "inconclusive"].any fun status => (getD manifest "status").eq (.str status)) ||
    (getD execution "error").truthy ||
    !(getD execution "status").eq (getD manifest "status") ||
    ((getD execution "status").eq (.str "inconclusive") &&
      !(getD execution "reason").eq (.str "search budget exhausted")) ||
    !(getD manifest "operations_observed").eq (.int count)

/-- One round of the loop over the saved history: the event belongs to the scenario, and to the
program of its worker. -/
def checkSavedEvent (operations : List Json) (assignments : List ℕ) (event : Json) :
    Except String Unit :=
  if event.isDict = false then .error "history events must be objects"
  else
    match event.get? "index" with
    | some (.int index) =>
      if ¬(0 ≤ index ∧ index < operations.length) ∨
          (getD event "operation").eq (operations.getD index.toNat .null) = false then
        .error "history does not match saved scenario"
      else
        -- the event is where the program of its worker has the operation
        let owner := assignments.getD index.toNat 0
        if (getD event "worker").eq (.int owner) = false ∨ (getD event "sequence").eq
            (.int ((assignments.take index.toNat).count owner)) = false then
          .error "history does not match saved worker program order"
        else .ok ()
    | _ => .error "history does not match saved scenario"

/-- `history.main`: the result printed, or the error that the command line reports. -/
def recheck (bundle : Bundle) (budget : ℤ) : Except String Json :=
  let execution := bundle.result.getD (.dict [("error", .str "missing execution result")])
  if bundle.manifest.isDict = false ∨ execution.isDict = false then
    .error "manifest and execution result must be objects"
  else if (getD bundle.manifest "scope").eq
      (.str "bounded concurrent nonblocking byte-stream contract") = false then
    .error "not a concurrent run"
  else do
    let scenario ← validate bundle.scenario
    let operations := operationsOf bundle.scenario
    if unfinished bundle.manifest execution operations.length then .ok unfinishedJson
    else
      match bundle.manifest.get? "workers" with
      | some (.int workers) =>
        if ¬(2 ≤ workers ∧ workers ≤ 4) then .error "saved worker count must be 2..4"
        else do
          let assignments ← checkAssignments "invalid saved worker assignment"
            (workerIds bundle.scenario workers operations.length) workers operations.length
          bundle.history.forM (checkSavedEvent operations assignments)
          let verdict ← checkHistory (.int scenario.capacity) bundle.history operations.length budget
          .ok verdict.toJson
      | _ => .error "saved worker count must be 2..4"

/-! ## Agreement -/

/-- An exception that is described has a text. -/
theorem Exc.describe_ne (exc : Exc) : exc.describe ≠ "" := by
  intro h
  have := congrArg String.length h
  simp [describe] at this

/-- The result of the checker has the status of its verdict. -/
theorem Verdict.get?_status (verdict : Verdict) :
    verdict.toJson.get? "status" = some (.str verdict.status) := by
  cases verdict <;> rfl

section Agreement

variable {δ : Type} {env : Env δ} {scenario : Json} {workers budget : ℤ} {plan : Plan}
  {history : List Recorded} {exception : Option Exc} {about : Surroundings} {ev : Evaluation}

/-- What the offline check makes of a saved bundle. -/
theorem recheck_save (hplan : validateWorkerPlan scenario workers = .ok plan) (budget' : ℤ) :
    recheck (save about scenario workers budget ev history) budget' =
      if unfinished (manifest about workers budget ev.status history.length) ev.toJson
          plan.operations.length then .ok unfinishedJson
      else (do
        (history.map Recorded.toJson).forM (checkSavedEvent plan.operations plan.assignments)
        let verdict ← checkHistory (.int plan.scenario.capacity) (history.map Recorded.toJson)
          plan.operations.length budget'
        .ok verdict.toJson) := by
  obtain ⟨hscenario, hoperations, hworkers, hids⟩ := validateWorkerPlan_eq_ok hplan
  have hdict : ¬((manifest about workers budget ev.status history.length).isDict = false ∨
      ev.toJson.isDict = false) := by
    have : ev.toJson.isDict = true := by
      cases ev with
      | checked verdict => cases verdict <;> rfl
      | _ => rfl
    rw [this]
    simp [manifest, Json.isDict]
  have hscope : ¬(getD (manifest about workers budget ev.status history.length) "scope").eq
      (.str "bounded concurrent nonblocking byte-stream contract") = false := by
    simp [manifest, getD, Json.get?, lookup]
  have hget : (manifest about workers budget ev.status history.length).get? "workers" =
      some (.int workers) := rfl
  have hrange : ¬¬(2 ≤ workers ∧ workers ≤ 4) := by
    have := plan.two_le_workers
    have := plan.workers_le
    omega
  -- the assignment was checked before the run, with the same bounds
  have hassignments : checkAssignments "invalid saved worker assignment"
      (workerIds scenario workers plan.operations.length) workers plan.operations.length =
        .ok plan.assignments :=
    checkAssignments_eq_ok_iff.mpr ⟨hids, plan.assignments_length, fun w hw => by
      have := plan.assignments_lt w hw
      omega⟩
  simp only [recheck, save, Option.getD_some, if_neg hdict, if_neg hscope, hscenario, bind,
    Except.bind, ← hoperations, hget, if_neg hrange, hassignments]

/-- The check passes over a bundle for an error, for a verdict that says itself that the recording
is not complete, and for a recording that is not. -/
theorem unfinished_save {observed count : ℕ} :
    unfinished (manifest about workers budget ev.status observed) ev.toJson count = true ↔
      (∀ verdict, ev ≠ .checked verdict) ∨
      (∃ reason explored, ev = .checked (.inconclusive reason explored) ∧
        reason ≠ "search budget exhausted") ∨ observed ≠ count := by
  have hobserved : getD (manifest about workers budget ev.status observed) "operations_observed" =
      .int observed := rfl
  have hstatus : getD (manifest about workers budget ev.status observed) "status" =
      .str ev.status := rfl
  simp only [unfinished, hobserved, hstatus]
  cases ev with
  | executionError exc | invalidCapture exc =>
    simp [Evaluation.toJson, Evaluation.status, getD, Json.get?, lookup, Json.truthy,
      exc.describe_ne]
  | checked verdict =>
    cases verdict <;>
      simp [Evaluation.toJson, Evaluation.status, Verdict.status, Verdict.toJson, getD, Json.get?,
        lookup, Json.truthy]

/-- What the harness records belongs to the scenario, and to the program of its worker. -/
theorem checkSavedEvent_recorded (h : Execution env plan history exception) {e : Recorded}
    (he : e ∈ history) : checkSavedEvent plan.operations plan.assignments e.toJson = .ok () := by
  cases h with
  | notOpened => cases he
  | ran hrun =>
  have hsound := sound_of_run hrun
  obtain ⟨howner, hsequence⟩ := hsound.placed he
  have hoperation := (hsound.recorded e he).2
  have hlt : e.index < plan.operations.length :=
    plan.assignments_length ▸ (List.getElem?_eq_some_iff.mp howner).1
  -- the operation is a validated one, which equals itself
  have hself : e.operation.eq (plan.operations.getD e.index .null) = true := by
    rw [hoperation]
    exact eq_self_of_validateOp (plan.validateOp_operation hlt)
  have hassigned : plan.assignments.getD e.index 0 = e.worker := by
    rw [List.getD_eq_getElem?_getD, howner, Option.getD_some]
  have hindex : e.toJson.get? "index" = some (.int e.index) := rfl
  have hworker : getD e.toJson "worker" = .int e.worker := rfl
  have hnumber : getD e.toJson "sequence" = .int e.sequence := rfl
  have hsaved : getD e.toJson "operation" = e.operation := rfl
  rw [checkSavedEvent, if_neg (by simp [Recorded.toJson, Json.isDict]), hindex]
  simp only [hsaved, hworker, hnumber, Int.toNat_natCast, hassigned, hself, Json.eq_int,
    ← hsequence]
  simp [hlt]

/-- What a search judged is judged by the same search again, under any budget. -/
theorem recheck_searched (hplan : validateWorkerPlan scenario workers = .ok plan)
    (hexecution : Execution env plan history exception) {accepted : History}
    (haccept : accept (.int plan.scenario.capacity) (history.map Recorded.toJson) =
      .ok (some accepted))
    (hcount : 1 ≤ plan.operations.length) (hlength : history.length = plan.operations.length)
    (hev : ev = .checked (accepted.check budget.toNat)) {budget' : ℤ}
    (hbudget' : 1 ≤ budget' ∧ budget' ≤ 100000) :
    recheck (save about scenario workers budget ev history) budget' =
      .ok (accepted.check budget'.toNat).toJson := by
  have hfinished : ¬unfinished (manifest about workers budget ev.status history.length) ev.toJson
      plan.operations.length = true := by
    rw [unfinished_save]
    rintro (hno | ⟨reason, explored, heq, hne⟩ | hne)
    · exact hno _ hev
    · -- a search gives no other reason than its budget
      have hspec := accepted.check_spec budget.toNat
      rw [hev, Evaluation.checked.injEq] at heq
      rw [heq] at hspec
      exact hne hspec.1
    · exact hne hlength
  have hloop : (history.map Recorded.toJson).forM
      (checkSavedEvent plan.operations plan.assignments) = .ok () := by
    refine forM_eq_ok fun j hj => ?_
    obtain ⟨e, he, rfl⟩ := List.mem_map.mp hj
    exact checkSavedEvent_recorded hexecution he
  have hcheck := checkHistory_of_accept hbudget' ⟨hcount, plan.operations_le⟩
    (by rw [List.length_map, hlength]) haccept
  rw [recheck_save hplan, if_neg hfinished, hloop]
  simp only [bind, Except.bind, hcheck]

/-- The verdict of a completed run came from a search, or the run is one that the check passes
over. -/
theorem evaluate_cases (hev : ev = evaluate plan budget history exception) :
    (∃ accepted, accept (.int plan.scenario.capacity) (history.map Recorded.toJson) =
        .ok (some accepted) ∧ 1 ≤ plan.operations.length ∧
      history.length = plan.operations.length ∧ ev = .checked (accepted.check budget.toNat)) ∨
    ev.status = "inconclusive" ∧ ¬ev.Exhausted ∧
      ((∀ verdict, ev ≠ .checked verdict) ∨
        ∃ reason explored, ev = .checked (.inconclusive reason explored) ∧
          reason ≠ "search budget exhausted") := by
  unfold evaluate at hev
  split at hev
  · subst hev
    exact .inr ⟨rfl, nofun, .inl nofun⟩
  · split at hev
    · subst hev
      exact .inr ⟨rfl, nofun, .inl nofun⟩
    next verdict hverdict =>
      subst hev
      -- two verdicts come from before the search
      rcases checkHistory_cases hverdict with (rfl | rfl) |
        ⟨hcount, hlength, accepted, haccept, rfl⟩
      · exact .inr ⟨rfl, by simp [Evaluation.Exhausted], .inr ⟨_, _, rfl, by decide⟩⟩
      · exact .inr ⟨rfl, by simp [Evaluation.Exhausted], .inr ⟨_, _, rfl, by decide⟩⟩
      · exact .inl ⟨accepted, haccept, hcount.1, by simpa using hlength, rfl⟩

end Agreement

/-- Online and offline verdicts agree, whatever the device and the clock did. The offline check
accepts the bundle of every completed run and gives the same verdict under the same budget; under a
larger one that the checker takes, the verdict can change only if the search had exhausted the
smaller; and a run that was inconclusive for another reason is so under every budget. -/
theorem recheck_agrees {δ : Type} {env : Env δ} {scenario : Json} {workers budget : ℤ}
    {ev : Evaluation} {bundle : Bundle} (h : Completed env scenario workers budget ev bundle) :
    (∃ result, recheck bundle budget = .ok result ∧
      result.get? "status" = some (.str ev.status) ∧
      (ev.status ≠ "inconclusive" ∨ ev.Exhausted → result = ev.toJson)) ∧
    (∀ budget', budget ≤ budget' → budget' ≤ 100000 → ∃ result,
      recheck bundle budget' = .ok result ∧
      (result.get? "status" = some (.str ev.status) ∨
        ev.Exhausted ∧ (result.get? "status" = some (.str "pass") ∨
          result.get? "status" = some (.str "fail")))) ∧
    (ev.status = "inconclusive" → ¬ev.Exhausted → ∀ budget', ∃ result,
      recheck bundle budget' = .ok result ∧
      result.get? "status" = some (.str "inconclusive")) := by
  obtain ⟨plan, history, exception, about, hprepare, hexecution, hev, rfl⟩ := h
  obtain ⟨hplan, -, hbudget⟩ := prepare_eq_ok_iff.mp hprepare
  rcases evaluate_cases hev with ⟨accepted, haccept, hcount, hlength, hchecked⟩ |
    ⟨hstatus, hexhausted, hunfinished⟩
  · have hrecheck : ∀ budget', 1 ≤ budget' ∧ budget' ≤ 100000 →
        recheck (save about scenario workers budget ev history) budget' =
          .ok (accepted.check budget'.toNat).toJson := fun budget' =>
      recheck_searched hplan hexecution haccept hcount hlength hchecked
    have hstatus : ev.status = (accepted.check budget.toNat).status := by rw [hchecked]; rfl
    refine ⟨⟨_, hrecheck budget hbudget, ?_, fun _ => ?_⟩, fun budget' hle hmax => ?_,
      fun hinconclusive hexhausted => ?_⟩
    · rw [hstatus, Verdict.get?_status]
    · rw [hchecked]
      rfl
    · refine ⟨_, hrecheck budget' ⟨hbudget.1.trans hle, hmax⟩, ?_⟩
      rw [Verdict.get?_status, hstatus]
      -- the verdict stays, or it was for want of budget
      rcases accepted.check_eq_of_le (Int.toNat_le_toNat hle) with hsame | ⟨explored, hspent⟩
      · exact .inl (by rw [hsame])
      · rw [hspent]
        cases hverdict : accepted.check budget'.toNat with
        | pass order explored' => exact .inr ⟨⟨explored, by rw [hchecked, hspent]⟩, .inl rfl⟩
        | fail explored' => exact .inr ⟨⟨explored, by rw [hchecked, hspent]⟩, .inr rfl⟩
        | inconclusive reason explored' => exact .inl rfl
    · -- a search is inconclusive only when it is exhausted
      refine absurd ?_ hexhausted
      have hspec := accepted.check_spec budget.toNat
      rw [hstatus] at hinconclusive
      cases hverdict : accepted.check budget.toNat with
      | inconclusive reason explored =>
        rw [hverdict] at hspec
        exact ⟨explored, by rw [hchecked, hverdict, hspec.1]⟩
      | _ =>
        rw [hverdict] at hinconclusive
        simp [Verdict.status] at hinconclusive
  · have hrecheck : ∀ budget', recheck (save about scenario workers budget ev history) budget' =
        .ok unfinishedJson := fun budget' => by
      rw [recheck_save hplan, if_pos (unfinished_save.mpr (hunfinished.imp_right .inl))]
    refine ⟨⟨_, hrecheck budget, hstatus ▸ rfl, ?_⟩, fun budget' _ _ => ?_, fun _ _ budget' => ?_⟩
    · rintro (hne | hex)
      · exact absurd hstatus hne
      · exact absurd hex hexhausted
    · exact ⟨_, hrecheck budget', .inl (hstatus ▸ rfl)⟩
    · exact ⟨_, hrecheck budget', rfl⟩

/-- A device that can return or raise anything, and a clock that can jump. -/
def Env.any : Env Unit where
  apply _ _ _ _ := True
  tick _ _ := True

/-- A run of two calls that is saved and checked again. -/
theorem recheck_agrees_handoff :
    ∃ ev bundle, Completed .any handoffScenario 2 100 ev bundle ∧
      (∃ result, recheck bundle 100 = .ok result ∧
        result.get? "status" = some (.str ev.status) ∧
        (ev.status ≠ "inconclusive" ∨ ev.Exhausted → result = ev.toJson)) := by
  obtain ⟨tr, s, hrun, hfinished, -⟩ := handoff_run .any (fun _ => trivial)
    (fun _ => ⟨⟨.error ⟨"OSError", "input/output error"⟩, (), trivial⟩,
      ⟨.ok .null, (), trivial⟩⟩) () 0
  have hplan : prepare handoffScenario 2 100 = .ok handoffPlan := rfl
  have hcompleted : Completed .any handoffScenario 2 100
      (evaluate handoffPlan 100 s.history (s.exception.or none)) _ :=
    ⟨handoffPlan, s.history, _,
      ⟨.null, .null, .null, .null, .null, .null, .null, .null, .null, .null, .null⟩, hplan,
      .ran hrun hfinished none, rfl, rfl⟩
  exact ⟨_, _, hcompleted, (recheck_agrees hcompleted).1⟩

end Lab
