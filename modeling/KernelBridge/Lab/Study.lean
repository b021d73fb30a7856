import KernelBridge.Lab.DraddSound
import KernelBridge.Lab.Evaluate

/-!
# Studies

`execute_job` and `verify` of `lab/research.py`. A job of a study reduces a workload and then runs
the reduced one some more, on seeds that no candidate was accepted by. Its result is saved as JSON
text, and `verify` checks all saved results of a study against the requests they answer.

Both run the code of `lab/dradd.py`, but `verify` recomputes from the recorded trials what `reduce`
has computed on its way through the search. `verifyJob` is what it checks of one job.

JSON text that is written is read back as the value it was written from, so the files are left out,
with the manifest; their inventory and their hashes are in `Lab.Sealing`. Adapters do not modify the
workloads they are handed.

Main result: `study_verifies`, that every result that is saved passes.
-/

namespace Lab.Dradd

open Py

/-! ## Reports as dicts -/

/-- `STRATEGIES`. -/
def Strategy.name : Strategy → String
  | .single => "single"
  | .chunk => "chunk"
  | .legacy => "legacy"
  | .dependency => "dependency"
  | .reproduction => "reproduction"
  | .dradd => "dradd"

/-- The strategy with this name. -/
def Strategy.ofName : String → Option Strategy
  | "single" => some .single
  | "chunk" => some .chunk
  | "legacy" => some .legacy
  | "dependency" => some .dependency
  | "reproduction" => some .reproduction
  | "dradd" => some .dradd
  | _ => none

/-- `STATES`. -/
def Outcome.name : Outcome → String
  | .successReproducer => "SUCCESS_REPRODUCER"
  | .historyOnlyReduction => "HISTORY_ONLY_REDUCTION"
  | .targetFailureNotReproduced => "TARGET_FAILURE_NOT_REPRODUCED"
  | .invalidCandidate => "INVALID_CANDIDATE"
  | .differentFailure => "DIFFERENT_FAILURE"
  | .incompleteExecution => "INCOMPLETE_EXECUTION"
  | .searchBudgetExhausted => "SEARCH_BUDGET_EXHAUSTED"
  | .environmentError => "ENVIRONMENT_ERROR"
  | .inconclusive => "INCONCLUSIVE"

/-- The name of a phase in the report. -/
def Phase.name : Phase → String
  | .initial => "initial"
  | .candidate => "candidate"
  | .confirmation => "confirmation"

/-- A `float` or `None`. -/
def optionalFloat : Option Py.Float → Json
  | some x => .float x
  | none => .null

/-- A list of indexes. -/
def idsJson (ids : List ℕ) : Json := .list (ids.map fun i : ℕ => Json.int i)

/-- The dict that `trial_summary` returns. -/
def Summary.toJson (stats : Summary) : Json :=
  .dict [("target", .int stats.target), ("pass", .int stats.pass),
    ("different", .int stats.different), ("timeout", .int stats.timeout),
    ("incomplete", .int stats.incomplete), ("environment", .int stats.environment),
    ("valid", .int stats.valid), ("attempted", .int stats.attempted),
    ("frequency", optionalFloat stats.frequency),
    ("wilson95", match stats.wilson95 with
      | some (low, high) => .list [.float low, .float high]
      | none => .null)]

/-- A group of trials. -/
def Group.toJson (group : Group) : Json :=
  .dict ([("phase", .str group.phase.name), ("ids", idsJson group.ids),
      ("trials", .list group.trials), ("accepted", .bool group.accepted),
      ("state", .str group.state.name)] ++
    (match group.statistics with
      | some stats => [("statistics", stats.toJson)]
      | none => []) ++
    match group.error with
    | some text => [("error", .str text)]
    | none => [])

/-- The policy in a report. -/
def Policy.toJson (policy : Policy) : Json :=
  .dict [("trials", .int policy.trials), ("candidate_trials", .int policy.candidateTrials),
    ("threshold", .float policy.decisionThreshold),
    ("confirmation_threshold", .float policy.threshold),
    ("lower_bound", optionalFloat policy.requiredBound),
    ("max_executions", .int policy.maxExecutions), ("max_candidates", .int policy.maxCandidates),
    ("algorithm_seed", .int policy.seed)]

/-- The entries of the dict that `reduce` returns. -/
def Report.entries (report : Report) : List (String × Json) :=
  [("schema_version", .int 1), ("strategy", .str report.strategy.name),
    ("outcome", .str report.outcome.name),
    ("search_state", .str (if report.exhausted then "SEARCH_BUDGET_EXHAUSTED" else "FINISHED")),
    ("signature", .str report.signature),
    ("signature_scope", .str "observable symptom, not root cause"),
    ("original_operations", .int report.originalOperations),
    ("reduced_operations", .int report.reducedOperations), ("reduced", report.reduced),
    ("confirmed", .bool report.confirmed), ("strictly_reduced", .bool report.strictlyReduced),
    ("statistics", report.statistics.toJson),
    ("candidate_evaluations", .int report.candidateEvaluations),
    ("invalid_candidates", .int report.invalidCandidates),
    ("actual_executions", .int report.actualExecutions),
    ("candidate_executions", .int report.candidateExecutions),
    ("operations_executed", .int report.operationsExecuted),
    ("search_transitions", .int report.searchTransitions), ("policy", report.policy.toJson),
    ("groups", .list (report.groups.map Group.toJson))]

/-! ## Reading -/

/-- `d[key]`. An error is the text of the exception. -/
def field (d : Json) (key : String) : Except String Json := (item d key).mapError Exc.text

/-- What a loop over the value meets. -/
def elements : Json → Except String (List Json)
  | .list elems => .ok elems
  | .dict entries => .ok (entries.map fun e => .str e.1)
  | .str s => .ok (s.toList.map fun c => .str (String.singleton c))
  | value => .error ("'" ++ value.typeName ++ "' object is not iterable")

/-- The index that a value is. In Python `1.0` is equal to an index as well; what is read here are
indexes that `execute_job` has written, which are integers, so floats are left out. -/
def index : Json → Option ℕ
  | .int n => if 0 ≤ n then some n.toNat else none
  | .bool b => some b.toNat
  | _ => none

/-- `tuple(ids)`, if these are indexes. -/
def indexes (ids : Json) : Except String (Option (List ℕ)) := do
  return (← elements ids).mapM index

/-- `trial_summary` on values that were read. Signatures are strings: what else a result may hold
in the place of one is refused. -/
def summaryOf (trials signature : Json) : Except String Summary := do
  let trials ← elements trials
  match signature with
  | .str signature =>
    match trials.find? fun trial => !trial.isDict with
    | some trial => .error (trial.noAttribute "get")
    | none => trialSummary trials signature
  | _ => .error "signature is no string"

/-! ## Jobs -/

variable {σ : Type} (adapter : Adapter σ)

/-- The threshold of a policy. The only `int` or `bool` that passes the checks of `reduce` is one,
which the report then shows as a float. -/
def readThreshold : Json → Option Py.Float
  | .float x => some x
  | .int n => some (.ofRat n)
  | .bool b => some (if b then 1 else 0)
  | _ => none

/-- The arguments of `reduce` if their types are right. -/
def readPolicy (strategy trials maxExecutions maxCandidates threshold seed : Json) :
    Option Policy := do
  let .str name := strategy | none
  return { strategy := ← Strategy.ofName name, trials := ← trials.int?
           maxExecutions := ← maxExecutions.int?, maxCandidates := ← maxCandidates.int?
           threshold := ← readThreshold threshold, lowerBound := none, seed := ← seed.int? }

/-- What a request asks for. -/
structure Job where
  config : Json
  workload : Json
  policy : Option Policy

/-- The items of the request that are read before `reduce` is called. -/
def readJob (request : Json) : Except String Job := do
  let config ← field request "config"
  let workload ← field request "workload"
  let policy := readPolicy (← field request "strategy") (← field config "trials")
    (← field config "max_executions") (← field config "max_candidates")
    (← field config "threshold") (← field config "algorithm_seed")
  return { config, workload, policy }

/-- `reduce` on arguments of a wrong type, which it refuses where it checks them. A threshold that is
no number makes `math.isfinite` raise a `TypeError`, and not this `ValueError`. The two texts are
merged: either of them ends the job before it has a result. -/
def refuse {α : Type} (workload : Json) (state : σ) : Except String α := do
  let w ← Workload.new workload
  let whole ← w.candidate w.ids
  (adapter.validate state whole).1
  throw "invalid reduction policy/budget"

/-- The length of `range(count)`. -/
def rangeLength : Json → Except String ℕ
  | .int n => .ok n.toNat
  | .bool b => .ok b.toNat
  | _ => .error "object cannot be interpreted as an integer"

/-- The seeds for the trials after the search. -/
def holdoutSeeds (config : Json) (seed : ℤ) : Except String (List ℤ) := do
  let count ← rangeLength (← field config "holdout_trials")
  return (List.range count).map fun i : ℕ => seed + 1000000 + i

/-- The trials on the reduced workload. What `execute` raises here ends the job. -/
def runHoldout (reduced : Json) : List ℤ → σ → Except String (List Json × σ)
  | [], state => .ok ([], state)
  | seed :: seeds, state => do
    let answer := adapter.execute state reduced seed
    let first ← answer.1.mapError Exc.text
    let (rest, state) ← runHoldout reduced seeds answer.2
    return (first :: rest, state)

/-- What is saved: the report, and what is added to it. -/
def Report.saved (report : Report) (holdout : List Json) (statistics : Summary)
    (case config : Json) : Json :=
  .dict (report.entries ++ [("holdout", .list holdout), ("holdout_statistics", statistics.toJson),
    ("case", case), ("config", config)])

/-- `execute_job(request, output)`: the result that is saved, with the state in which the adapter
is left. -/
def executeJob (fuel : ℕ) (request : Json) (state : σ) :
    Except String (Option (Json × σ)) := do
  let job ← readJob request
  match job.policy with
  | none => refuse adapter job.workload state
  | some policy =>
    match ← reduce adapter policy fuel job.workload state with
    | none => return none
    | some (report, state) =>
      let seeds ← holdoutSeeds job.config policy.seed
      let (holdout, state) ← runHoldout adapter report.reduced seeds state
      let statistics ← summaryOf (.list holdout) (.str adapter.signature)
      let case ← field request "case"
      return some (report.saved holdout statistics case job.config, state)

/-! ## Verification -/

/-- `source.candidate(ids)`. -/
def candidateOf (w : Workload) (ids : Json) : Except String Json := do
  match ← indexes ids with
  | some keep => w.candidate keep
  | none => throw "missing prerequisites or invalid candidate indexes"

/-- `executions > limit`. -/
def exceeds (executions : ℕ) : Json → Except String Bool
  | .float (.infinite negative) => .ok negative
  | .float .nan => .ok false
  | limit =>
    match limit.number with
    | some q => .ok (decide (q < executions))
    | none => .error "'>' not supported"

/-- The loop body over the groups, which counts the executions. -/
def verifyGroup (w : Workload) (result : Json) (executions : ℕ) (group : Json) :
    Except String ℕ := do
  if (← field group "state").eq (.str "INVALID_CANDIDATE") then
    if (← field group "trials").truthy then throw "invalid candidate executed"
    else return executions
  else if (← indexes (← field group "ids")).any w.valid = false then
    throw "executed invalid dependencies"
  else
    let trials ← field group "trials"
    let stats ← summaryOf trials (← field result "signature")
    if stats.toJson.eq (← field group "statistics") = false then
      throw "inconsistent trial statistics"
    else return executions + (← elements trials).length

/-- `executions != result["actual_executions"] or executions > result["policy"]["max_executions"]`. -/
def verifyBudget (result : Json) (executions : ℕ) : Except String Unit := do
  if (Json.int executions).eq (← field result "actual_executions") = false then
    throw "inconsistent execution budget"
  else if ← exceeds executions (← field (← field result "policy") "max_executions") then
    throw "inconsistent execution budget"

/-- What is checked of the last group. -/
def verifyLast (result : Json) (groups : List Json) : Except String Unit := do
  let .some last := groups.getLast? | throw "list index out of range"
  if (← field result "statistics").eq (← field last "statistics") = false then
    throw "final statistics mismatch"
  else if (← field result "confirmed").truthy then
    if (← field last "phase").eq (.str "confirmation") = false then throw "unconfirmed success"

/-- What `verify` checks of a job, given its request and its result. -/
def verifyJob (request result : Json) : Except String Unit := do
  let w ← Workload.new (← field request "workload")
  let reduced ← field result "reduced"
  if (← candidateOf w (← field reduced "original_ids")).eq reduced = false then
    throw "reduced workload differs from source projection"
  else
    let groups ← elements (← field result "groups")
    verifyBudget result (← groups.foldlM (verifyGroup w result) 0)
    verifyLast result groups
    let stats ← summaryOf (← field result "holdout") (← field result "signature")
    if stats.toJson.eq (← field result "holdout_statistics") = false then
      throw "holdout statistics mismatch"

/-! ## What was written is read back -/

/-- An item of a dict. -/
theorem field_eq_ok {entries : List (String × Json)} {key : String} {value : Json}
    (h : lookup key entries = some value) : field (.dict entries) key = .ok value := by
  rw [field, item, h]
  rfl

/-- The indexes that were written are read back. -/
theorem indexes_idsJson (ids : List ℕ) : indexes (idsJson ids) = .ok (some ids) := by
  have hmap : (ids.map fun i : ℕ => Json.int i).mapM index = some ids := by
    induction ids with
    | nil => rfl
    | cons i ids ih =>
      rw [List.map_cons, List.mapM_cons, ih]
      simp [index]
  rw [indexes, idsJson, elements]
  simp only [bind, Except.bind, hmap]
  rfl

/-- The projection on a candidate says which candidate it is. -/
theorem candidateOf_project {w : Workload} {keep : List ℕ} (h : w.valid keep = true) :
    ∃ ids, field (w.project keep) "original_ids" = .ok ids ∧
      candidateOf w ids = .ok (w.project keep) := by
  refine ⟨idsJson keep, field_eq_ok (by simp [idsJson]), ?_⟩
  rw [candidateOf, indexes_idsJson]
  exact w.candidate_eq_ok h

/-- The summary of trials that are dicts. -/
theorem summaryOf_list {trials : List Json} (h : ∀ trial ∈ trials, trial.isDict = true)
    (signature : String) :
    summaryOf (.list trials) (.str signature) = trialSummary trials signature := by
  have hnone : trials.find? (fun trial => !trial.isDict) = none :=
    List.find?_eq_none.mpr fun trial htrial => by simp [h trial htrial]
  rw [summaryOf, elements]
  simp only [bind, Except.bind, hnone]

/-- A recorded trial has a seed, and so is a dict. -/
theorem isDict_of_seeds {trials : List Json} {seeds : List ℤ}
    (h : trials.map seedOf = seeds.map fun seed => some (.int seed)) :
    ∀ trial ∈ trials, trial.isDict = true := by
  intro trial htrial
  -- nothing but a dict has a value for a key
  have hmem : seedOf trial ∈ seeds.map fun seed => some (Json.int seed) :=
    h ▸ List.mem_map_of_mem htrial
  obtain ⟨seed, -, hseed⟩ := List.mem_map.mp hmem
  cases trial with
  | dict entries => rfl
  | _ => cases hseed

/-- The items of a recorded group. -/
theorem Group.field_toJson (group : Group) :
    field group.toJson "phase" = .ok (.str group.phase.name) ∧
      field group.toJson "ids" = .ok (idsJson group.ids) ∧
      field group.toJson "trials" = .ok (.list group.trials) ∧
      field group.toJson "state" = .ok (.str group.state.name) := by
  refine ⟨field_eq_ok ?_, field_eq_ok ?_, field_eq_ok ?_, field_eq_ok ?_⟩ <;> simp [lookup]

/-- The statistics of a recorded group, if it has any. -/
theorem Group.field_statistics {group : Group} {stats : Summary}
    (h : group.statistics = some stats) : field group.toJson "statistics" = .ok stats.toJson :=
  field_eq_ok (by simp [lookup, h])

/-- Only an invalid candidate has that name. -/
theorem Outcome.name_eq_invalid_iff (outcome : Outcome) :
    outcome.name = "INVALID_CANDIDATE" ↔ outcome = .invalidCandidate := by
  cases outcome <;> decide

/-! ## Verification of groups -/

variable {adapter} {policy : Policy} {w : Workload}

/-- An executed group passes: what is recomputed from its trials is what was recorded. -/
theorem verifyGroup_executed {group : Group} {n : ℕ} {rate : Py.Float} {stats : Summary}
    (h : group.Executed adapter policy w n rate stats)
    (hdict : ∀ trial ∈ group.trials, trial.isDict = true) {result : Json}
    (hsignature : field result "signature" = .ok (.str adapter.signature)) (executions : ℕ) :
    verifyGroup w result executions group.toJson = .ok (executions + group.trials.length) := by
  obtain ⟨-, hids, htrials, hstate⟩ := group.field_toJson
  -- the name of its state tells it from a group that was not executed
  have hexecuted : ¬Json.eq (.str group.state.name) (.str "INVALID_CANDIDATE") = true := by
    rw [Json.eq_str, decide_eq_true_eq, Outcome.name_eq_invalid_iff]
    exact h.state_ne
  have hself : stats.toJson.eq stats.toJson = true := Json.eq_self _ rfl
  have hsummary : summaryOf (.list group.trials) (.str adapter.signature) = .ok stats :=
    (summaryOf_list hdict _).trans h.summary
  rw [verifyGroup, hstate, hids, htrials, hsignature, Group.field_statistics h.statistics]
  simp only [bind, Except.bind, if_neg hexecuted, indexes_idsJson, Option.any_some, h.valid,
    hsummary, hself, elements]
  rfl

/-- So does one that was not executed. -/
theorem verifyGroup_rejected {group : Group} (h : group.Rejected) (w : Workload) (result : Json)
    (executions : ℕ) :
    verifyGroup w result executions group.toJson = .ok (executions + group.trials.length) := by
  obtain ⟨-, -, htrials, hstate⟩ := group.field_toJson
  rw [verifyGroup, hstate, htrials, h.state, h.trials]
  rfl

/-- The executions that are counted are all trials of the groups. -/
theorem verifyGroups_spec {groups : List Group}
    (hrecorded : ∀ group ∈ groups, (∃ n rate stats,
      1 ≤ n ∧ group.Executed adapter policy w n rate stats) ∨ group.Rejected)
    (hdict : ∀ trial ∈ allTrials groups, trial.isDict = true) {result : Json}
    (hsignature : field result "signature" = .ok (.str adapter.signature)) (executions : ℕ) :
    (groups.map Group.toJson).foldlM (verifyGroup w result) executions =
      .ok (executions + (allTrials groups).length) := by
  induction groups generalizing executions with
  | nil => rfl
  | cons group groups ih =>
    simp only [allTrials, List.flatMap_cons, List.mem_append] at hdict
    have hgroup : verifyGroup w result executions group.toJson =
        .ok (executions + group.trials.length) := by
      rcases hrecorded group List.mem_cons_self with ⟨n, rate, stats, -, hexecuted⟩ | hrejected
      · exact verifyGroup_executed hexecuted (fun t ht => hdict t (.inl ht)) hsignature executions
      · exact verifyGroup_rejected hrejected w result executions
    have hrest := ih (fun g hg => hrecorded g (List.mem_cons_of_mem group hg))
      (fun t ht => hdict t (.inr ht)) (executions + group.trials.length)
    rw [List.map_cons, List.foldlM_cons, hgroup]
    refine hrest.trans ?_
    rw [allTrials, allTrials, List.flatMap_cons, List.length_append, Nat.add_assoc]

/-! ## Verification of results -/

section Saved

variable (report : Report) (holdout : List Json) (statistics : Summary) (case config : Json)

/-- The items of a saved result. -/
theorem field_saved :
    field (report.saved holdout statistics case config) "reduced" = .ok report.reduced ∧
      field (report.saved holdout statistics case config) "signature" =
        .ok (.str report.signature) ∧
      field (report.saved holdout statistics case config) "groups" =
        .ok (.list (report.groups.map Group.toJson)) ∧
      field (report.saved holdout statistics case config) "actual_executions" =
        .ok (.int report.actualExecutions) ∧
      field (report.saved holdout statistics case config) "policy" = .ok report.policy.toJson ∧
      field (report.saved holdout statistics case config) "statistics" =
        .ok report.statistics.toJson ∧
      field (report.saved holdout statistics case config) "confirmed" =
        .ok (.bool report.confirmed) ∧
      field (report.saved holdout statistics case config) "holdout" = .ok (.list holdout) ∧
      field (report.saved holdout statistics case config) "holdout_statistics" =
        .ok statistics.toJson := by
  refine ⟨?_, ?_, ?_, ?_, ?_, ?_, ?_, ?_, ?_⟩ <;> exact field_eq_ok rfl

/-- The number of recorded trials is the one that was reported, and within the policy. -/
theorem verifyBudget_saved (h : (report.actualExecutions : ℤ) ≤ report.policy.maxExecutions) :
    verifyBudget (report.saved holdout statistics case config) report.actualExecutions = .ok () := by
  obtain ⟨-, -, -, hactual, hpolicy, -⟩ := field_saved report holdout statistics case config
  have hlimit : field report.policy.toJson "max_executions" =
      .ok (.int report.policy.maxExecutions) := field_eq_ok rfl
  -- both numbers are integers, which Python compares exactly
  have hwithin : ¬(report.policy.maxExecutions : ℚ) < (report.actualExecutions : ℚ) := by
    rw [not_lt]
    exact_mod_cast h
  rw [verifyBudget, hactual, hpolicy]
  simp [bind, Except.bind, hlimit, exceeds, Json.number, hwithin, pure, Except.pure]

/-- The last group ends the search: it has the statistics that were reported, and is a confirmation
if the failure was confirmed. -/
theorem verifyLast_saved {last : Group} (hlast : report.groups.getLast? = some last)
    (hstatistics : last.statistics = some report.statistics)
    (hconfirmed : report.confirmed = true → last.phase = .confirmation) :
    verifyLast (report.saved holdout statistics case config) (report.groups.map Group.toJson) =
      .ok () := by
  obtain ⟨-, -, -, -, -, hfinal, hflag, -⟩ := field_saved report holdout statistics case config
  obtain ⟨hphase, -⟩ := last.field_toJson
  have hself : report.statistics.toJson.eq report.statistics.toJson = true := Json.eq_self _ rfl
  rw [verifyLast, List.getLast?_map, hlast, hfinal, hflag]
  simp only [Option.map_some, bind, Except.bind, Group.field_statistics hstatistics, hphase, hself]
  cases hvalue : report.confirmed with
  | false => rfl
  | true =>
    rw [hconfirmed hvalue]
    rfl

end Saved

/-- The result of a search that is concluded passes. -/
theorem verifyJob_saved {s : Search σ} {last : Group} {stats : Summary} {report : Report}
    (h : Concluded adapter policy w s last stats)
    (hreports : Reports adapter policy w (decide (last.phase = .confirmation) && last.accepted)
      stats s report)
    {request workload : Json} (hworkload : field request "workload" = .ok workload)
    (hnew : Workload.new workload = .ok w) {holdout : List Json} {statistics : Summary}
    (hholdout : summaryOf (.list holdout) (.str adapter.signature) = .ok statistics)
    (case config : Json) :
    verifyJob request (report.saved holdout statistics case config) = .ok () := by
  obtain ⟨hreduced, hsignature, hgroups, -, -, -, -, htrials, hstatistics⟩ :=
    field_saved report holdout statistics case config
  rw [hreports.signature] at hsignature
  -- the reduced workload names the indexes it is the projection on
  obtain ⟨ids, hids, hcandidate⟩ := candidateOf_project h.valid
  rw [← hreports.reduced] at hids hcandidate
  have hself : report.reduced.eq report.reduced = true := by
    rw [hreports.reduced]
    exact Json.eq_self _ rfl
  -- the groups pass, and their trials are the executions that were reported
  have hcount : ((report.groups.map Group.toJson).foldlM
      (verifyGroup w (report.saved holdout statistics case config)) 0) =
      .ok report.actualExecutions := by
    have hdict := isDict_of_seeds h.seeds
    rw [hreports.groups, verifyGroups_spec h.recorded hdict hsignature, h.length_allTrials,
      hreports.executions, Nat.zero_add]
  have hbudget : (report.actualExecutions : ℤ) ≤ report.policy.maxExecutions := by
    rw [hreports.executions, hreports.policy_eq]
    exact h.executions
  have hlast : report.groups.getLast? = some last := hreports.groups ▸ h.getLast?_groups
  have hfinal : last.statistics = some report.statistics :=
    hreports.statistics ▸ h.executed.statistics
  have hconfirmed : report.confirmed = true → last.phase = .confirmation := by
    intro hconfirmed
    rw [hreports.confirmed_eq, Bool.and_eq_true, decide_eq_true_eq] at hconfirmed
    exact hconfirmed.1
  have hholdoutself : statistics.toJson.eq statistics.toJson = true := Json.eq_self _ rfl
  rw [verifyJob, hworkload, hreduced, hgroups, htrials, hsignature, hstatistics]
  simp only [bind, Except.bind, hnew, hids, hcandidate, hself, elements, hcount,
    verifyBudget_saved report holdout statistics case config hbudget,
    verifyLast_saved report holdout statistics case config hlast hfinal hconfirmed, hholdout,
    hholdoutself]
  rfl

/-! ## Jobs that end -/

/-- What a job needs to end in a result: `reduce` accepts its request, and the adapter answers with
a dict to each seed that is left for the trials after the search. To the others, and so during the
search, it may raise. -/
structure Runs (adapter : Adapter σ) (request : Json) (state : σ) (job : Job) (policy : Policy) :
    Prop where
  read : readJob request = .ok job
  policy_eq : job.policy = some policy
  accepted : ∃ start, accept adapter policy job.workload state = .ok start
  seeds : ∃ seeds, holdoutSeeds job.config policy.seed = .ok seeds
  case : ∃ case, field request "case" = .ok case
  answers : ∀ (state : σ) (candidate : Json) (i : ℕ), ∃ entries,
    (adapter.execute state candidate (policy.seed + 1000000 + i)).1 = .ok (.dict entries)

/-- The seeds after the search are those from a million on. -/
theorem mem_holdoutSeeds {config : Json} {first : ℤ} {seeds : List ℤ}
    (h : holdoutSeeds config first = .ok seeds) {seed : ℤ} (hseed : seed ∈ seeds) :
    ∃ i : ℕ, seed = first + 1000000 + i := by
  unfold holdoutSeeds at h
  obtain ⟨value, -, h⟩ := bind_eq_ok_iff.mp h
  obtain ⟨count, -, h⟩ := bind_eq_ok_iff.mp h
  obtain rfl := Except.ok.inj h
  obtain ⟨i, -, rfl⟩ := List.mem_map.mp hseed
  exact ⟨i, rfl⟩

/-- The trials after the search are dicts if the adapter answers so. -/
theorem runHoldout_ok {reduced : Json} {seeds : List ℤ}
    (h : ∀ seed ∈ seeds, ∀ state : σ, ∃ entries,
      (adapter.execute state reduced seed).1 = .ok (.dict entries)) (state : σ) :
    ∃ trials after, runHoldout adapter reduced seeds state = .ok (trials, after) ∧
      ∀ trial ∈ trials, trial.isDict = true := by
  induction seeds generalizing state with
  | nil => exact ⟨[], state, rfl, fun trial htrial => absurd htrial List.not_mem_nil⟩
  | cons seed seeds ih =>
    obtain ⟨entries, hfirst⟩ := h seed List.mem_cons_self state
    obtain ⟨trials, after, hrest, hdict⟩ :=
      ih (fun t ht => h t (List.mem_cons_of_mem seed ht)) (adapter.execute state reduced seed).2
    refine ⟨.dict entries :: trials, after, ?_, ?_⟩
    · rw [runHoldout]
      simp only [hfirst, hrest, Except.mapError, bind, Except.bind]
      rfl
    · intro trial htrial
      rcases List.mem_cons.mp htrial with rfl | htrial
      · rfl
      · exact hdict trial htrial

/-- What `reduce` returns was accepted. -/
theorem accept_of_reduce {fuel : ℕ} {source : Json} {state : σ} {out : Option (Report × σ)}
    (h : reduce adapter policy fuel source state = .ok out) :
    ∃ w state', accept adapter policy source state = .ok (w, state') := by
  obtain ⟨⟨w, state'⟩, haccept, -⟩ := bind_eq_ok_iff.mp h
  exact ⟨w, state', haccept⟩

/-- There are at most twelve operations, which bounds the rounds of the search. -/
theorem rounds_le (w : Workload) : (w.size + 1) * (w.size + 2) ≤ 182 := by
  have := w.size_le
  calc (w.size + 1) * (w.size + 2) ≤ 13 * 14 := Nat.mul_le_mul (by omega) (by omega)
    _ = 182 := rfl

/-- The items that `execute_job` and its verification read alike. -/
theorem field_of_readJob {request : Json} {job : Job} (h : readJob request = .ok job) :
    field request "workload" = .ok job.workload := by
  unfold readJob at h
  obtain ⟨config, -, h⟩ := bind_eq_ok_iff.mp h
  obtain ⟨workload, hworkload, h⟩ := bind_eq_ok_iff.mp h
  obtain ⟨strategy, -, h⟩ := bind_eq_ok_iff.mp h
  obtain ⟨trials, -, h⟩ := bind_eq_ok_iff.mp h
  obtain ⟨maxExecutions, -, h⟩ := bind_eq_ok_iff.mp h
  obtain ⟨maxCandidates, -, h⟩ := bind_eq_ok_iff.mp h
  obtain ⟨threshold, -, h⟩ := bind_eq_ok_iff.mp h
  obtain ⟨seed, -, h⟩ := bind_eq_ok_iff.mp h
  obtain rfl := Except.ok.inj h
  exact hworkload

/-- Arguments of a wrong type are refused. -/
theorem refuse_ne_ok {α : Type} (workload : Json) (state : σ) (a : α) :
    refuse adapter workload state ≠ .ok a := by
  intro h
  obtain ⟨w, -, h⟩ := bind_eq_ok_iff.mp h
  obtain ⟨whole, -, h⟩ := bind_eq_ok_iff.mp h
  obtain ⟨-, -, h⟩ := bind_eq_ok_iff.mp h
  cases h

/-! ## Agreement -/

/-- Every job whose request is accepted ends in a result unless the trials after the search raise,
and every result that is saved passes. -/
theorem study_verifies (hadapter : adapter.WellTyped) {fuel : ℕ} (hfuel : 182 ≤ fuel)
    (request : Json) (state : σ) :
    (∀ job policy, Runs adapter request state job policy →
      ∃ out, executeJob adapter fuel request state = .ok out) ∧
    ∀ out, executeJob adapter fuel request state = .ok out →
      ∃ result after, out = some (result, after) ∧ verifyJob request result = .ok () := by
  constructor
  · intro job policy h
    obtain ⟨⟨w, state'⟩, haccept⟩ := h.accepted
    obtain ⟨report, s, last, stats, hreduce, -⟩ :=
      reduce_spec hadapter haccept ((rounds_le w).trans hfuel)
    obtain ⟨seeds, hseeds⟩ := h.seeds
    obtain ⟨case, hcase⟩ := h.case
    have hanswers : ∀ seed ∈ seeds, ∀ state : σ, ∃ entries,
        (adapter.execute state report.reduced seed).1 = .ok (.dict entries) := by
      intro seed hseed state
      -- these seeds are the ones the adapter has to answer
      obtain ⟨i, rfl⟩ := mem_holdoutSeeds hseeds hseed
      exact h.answers state report.reduced i
    obtain ⟨trials, after, hholdout, hdict⟩ := runHoldout_ok hanswers s.adapter
    obtain ⟨statistics, hstatistics, -⟩ := trialSummary_spec trials adapter.signature
    have hsummary : summaryOf (.list trials) (.str adapter.signature) = .ok statistics :=
      (summaryOf_list hdict _).trans hstatistics
    refine ⟨some (report.saved trials statistics case job.config, after), ?_⟩
    rw [executeJob, h.read]
    simp only [bind, Except.bind, h.policy_eq, hreduce, hseeds, hholdout, hsummary, hcase]
    rfl
  · intro out h
    obtain ⟨job, hjob, h⟩ := bind_eq_ok_iff.mp h
    cases hpolicy : job.policy with
    | none =>
      rw [hpolicy] at h
      -- there is no result to verify
      exact absurd h (refuse_ne_ok _ _ _)
    | some policy =>
      rw [hpolicy] at h
      obtain ⟨reduced, hreduce, h⟩ := bind_eq_ok_iff.mp h
      obtain ⟨w, state', haccept⟩ := accept_of_reduce hreduce
      -- the search has ended, and with a report
      obtain ⟨report, s, last, stats, hreduce', hconcluded, hreports⟩ :=
        reduce_spec hadapter haccept ((rounds_le w).trans hfuel)
      obtain rfl : some (report, s.adapter) = reduced := Except.ok.inj (hreduce'.symm.trans hreduce)
      obtain ⟨seeds, -, h⟩ := bind_eq_ok_iff.mp h
      obtain ⟨⟨holdout, after⟩, -, h⟩ := bind_eq_ok_iff.mp h
      obtain ⟨statistics, hholdout, h⟩ := bind_eq_ok_iff.mp h
      obtain ⟨case, -, h⟩ := bind_eq_ok_iff.mp h
      obtain rfl := Except.ok.inj h
      exact ⟨report.saved holdout statistics case job.config, after, rfl,
        verifyJob_saved hconcluded hreports (field_of_readJob hjob) (accept_ok haccept).1 hholdout
          case job.config⟩

/-- The configuration of the example. -/
def registerConfig : List (String × Json) :=
  [("trials", .int 2), ("max_executions", .int 12), ("max_candidates", .int 5),
    ("threshold", .float (.ofRat (1 / 2))), ("algorithm_seed", .int 42), ("holdout_trials", .int 3)]

/-- A request for the scenario of `registerSource`. -/
def registerRequest : Json :=
  .dict [("case", .str "c000"), ("target", .str "register"), ("strategy", .str "dradd"),
    ("workload", .dict registerSource), ("config", .dict registerConfig)]

/-- The example can be executed. -/
theorem runs_register : Runs alternating registerRequest false
    ⟨.dict registerConfig, .dict registerSource, some registerPolicy⟩ registerPolicy where
  read := rfl
  policy_eq := rfl
  accepted := ⟨_, accept_register⟩
  seeds := ⟨_, rfl⟩
  case := ⟨_, rfl⟩
  answers state candidate i := by
    cases state
    · exact ⟨_, rfl⟩
    · exact ⟨_, rfl⟩

/-- The result of the example is verified. -/
theorem study_verifies_register : ∃ result after,
    executeJob alternating 182 registerRequest false = .ok (some (result, after)) ∧
      verifyJob registerRequest result = .ok () := by
  obtain ⟨hruns, hverifies⟩ :=
    study_verifies wellTyped_alternating (le_refl 182) registerRequest false
  obtain ⟨out, hout⟩ := hruns _ _ runs_register
  obtain ⟨result, after, rfl, hverified⟩ := hverifies out hout
  exact ⟨result, after, hout, hverified⟩

end Lab.Dradd
