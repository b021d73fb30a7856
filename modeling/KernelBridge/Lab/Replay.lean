import KernelBridge.Lab.Study
import KernelBridge.Lib.Deletion

/-!
# The concurrent reducer

`reduce_concurrent` of `lab/replay.py`, the older of the two reducers: delete operations from a
concurrent scenario while every fresh trial of what is left fails the same contract.

What a trial shows depends on threads, so the evaluator is a parameter with a state of its own, and
the code is the one that runs, with the evidence it records and the budget it spends. Its `while`
loop is bounded by `fuel`, and `none` says that it has not left within that bound.

The code deletes by position, from the operations and their owners, and does not keep the original
indexes. The model carries them along (`Candidate.ids`), as it does whether the budget has cut the
search short (`Search.exhausted`); no decision reads either.

Elapsed times and the constant entries of the summary are left out: nothing reads them.
-/

namespace Lab.Replay

open Py

/-! ## Arguments -/

/-- The arguments of `reduce_concurrent` that say how to search. -/
structure Options where
  workers : ℤ
  strategy : Dradd.Strategy
  trials : ℤ
  budget : ℤ
  searchBudget : ℤ

/-- The check of the strategy, the trials and the budget. -/
def Options.check (options : Options) : Except String Unit :=
  if ¬(options.strategy = .single ∨ options.strategy = .chunk) ∨
      ¬(1 ≤ options.trials ∧ options.trials ≤ 20) ∨
      ¬(1 ≤ options.budget ∧ options.budget ≤ 100) then
    .error "invalid strategy, trials (1..20), or candidate budget (1..100)"
  else .ok ()

/-- What is checked before anything is executed. The result is `owners`. -/
def accept (options : Options) (scenario : Json) : Except String (List ℕ) := do
  let _ ← validate scenario
  let count := (operationsOf scenario).length
  if ¬(2 ≤ options.workers ∧ options.workers ≤ 4) ∨ ¬(1 ≤ count ∧ count ≤ 12) then
    .error "expected 2..4 workers and 1..12 operations"
  else do
    options.check
    let owners ← checkAssignments "invalid worker_ids"
      (workerIds scenario options.workers count) options.workers count
    if ¬(1 ≤ options.searchBudget ∧ options.searchBudget ≤ 100000) then
      .error "search budget must be 1..100000"
    else return owners

/-- `evaluator(candidate, factory, workers, search_budget)`, for one factory. An error is the text
of what it raises. -/
abbrev Evaluator (τ : Type) := τ → Json → ℤ → ℤ → Except String Json × τ

/-! ## Evidence -/

/-- The counts of the statuses. -/
structure Counts where
  pass : ℕ
  fail : ℕ
  inconclusive : ℕ
  deriving DecidableEq, Repr

/-- `counts`. -/
def countStatuses (results : List Json) : Except String Counts := do
  let statuses ← results.mapM fun result => Dradd.field result "status"
  let number := fun status : String => statuses.countP fun found => found.eq (.str status)
  return { pass := number "pass", fail := number "fail", inconclusive := number "inconclusive" }

/-- The trial shows the target failure. -/
def matched (result : Json) : Bool :=
  (result.get? "status").any (·.eq (.str "fail")) &&
    (result.get? "reason").any (·.eq (.str "no legal FIFO ordering"))

/-- A scenario, with the original indexes of its operations. -/
structure Candidate where
  scenario : Json
  ids : List ℕ

/-- The operations at some positions. -/
def Candidate.select (candidate : Candidate) (keep : List ℕ) : Candidate where
  scenario :=
    Json.set "worker_ids"
      (.list (keep.map fun i => (ownersOf candidate.scenario).getD i .null))
      (Json.set "operations"
        (.list (keep.map fun i => (operationsOf candidate.scenario).getD i .null))
        candidate.scenario)
  ids := keep.map fun i => candidate.ids.getD i 0

/-- A group of trials. -/
structure Evidence where
  phase : Dradd.Phase
  candidate : Candidate
  counts : Counts
  matchedFailures : ℕ
  trials : List Json

/-- The variables of the search. -/
structure Search (τ : Type) where
  /-- The state of the evaluator. -/
  evaluator : τ
  current : Candidate
  granularity : ℕ
  attempts : ℕ
  evidence : List Evidence
  /-- A deletion was due when the budget was spent. -/
  exhausted : Bool

variable {τ : Type} (evaluator : Evaluator τ) (options : Options)

/-- The search before the first group. -/
def Search.start (state : τ) (current : Candidate) : Search τ where
  evaluator := state
  current
  granularity := 2
  attempts := 0
  evidence := []
  exhausted := false

/-- The trials of a group. -/
def runTrials (scenario : Json) : ℕ → τ → Except String (List Json × τ)
  | 0, state => .ok ([], state)
  | n + 1, state => do
    let answer := evaluator state scenario options.workers options.searchBudget
    let result ← answer.1
    let (rest, state) ← runTrials scenario n answer.2
    return (result :: rest, state)

/-- `replay(candidate, phase)`. -/
def replay (candidate : Candidate) (phase : Dradd.Phase) (s : Search τ) :
    Except String ((Bool × Counts) × Search τ) := do
  let (trials, state) ←
    runTrials evaluator options candidate.scenario options.trials.toNat s.evaluator
  let counts ← countStatuses trials
  let matchedFailures := trials.countP matched
  return ((decide ((matchedFailures : ℤ) = options.trials), counts),
    { s with
      evaluator := state
      evidence := s.evidence ++ [{ phase, candidate, counts, matchedFailures, trials }] })

/-! ## The search -/

/-- `[i for i in range(size) if not start <= i < start + chunk]`. -/
def survivors (size start chunk : ℕ) : List ℕ :=
  (List.range size).filter fun i => ¬(start ≤ i ∧ i < start + chunk)

/-- The loop over the deletions. The flag is `changed`. -/
def sweep (size chunk : ℕ) : List ℕ → Search τ → Except String (Bool × Search τ)
  | [], s => .ok (false, s)
  | start :: rest, s =>
    let keep := survivors size start chunk
    if keep = [] then sweep size chunk rest s
    else do
      let candidate := s.current.select keep
      let (verdict, s) ←
        replay evaluator options candidate .candidate { s with attempts := s.attempts + 1 }
      if verdict.1 then
        return (true, { s with current := candidate, granularity := max 2 (s.granularity - 1) })
      else if options.budget ≤ s.attempts then
        return (false, { s with exhausted := s.exhausted || !rest.isEmpty })
      else sweep size chunk rest s

/-- `chunk`. -/
def chunkSize (size granularity : ℕ) : ℕ :=
  if options.strategy = .single then 1 else (size + granularity - 1) / granularity

/-- One round of the `while` loop. -/
def round (s : Search τ) : Search τ ⊕ Except String (Search τ) :=
  let size := (operationsOf s.current.scenario).length
  if size ≤ 1 then .inr (.ok s)
  else if options.budget ≤ s.attempts then .inr (.ok { s with exhausted := true })
  else
    let chunk := chunkSize options size s.granularity
    match sweep evaluator options size chunk (Dradd.offsets size chunk) s with
    | .error text => .inr (.error text)
    | .ok (true, s) => .inl s
    | .ok (false, s) =>
      if options.strategy = .single ∨ size ≤ s.granularity then .inr (.ok s)
      else .inl { s with granularity := min size (s.granularity * 2) }

/-! ## The summary -/

/-- `summary["outcome"]`. -/
inductive Outcome
  | executableReproducerFound
  | inconclusive
  | reproductionFailed
  deriving DecidableEq, Repr

/-- The dict that `reduce_concurrent` returns with the scenario. -/
structure Summary where
  outcome : Outcome
  strategy : Dradd.Strategy
  workers : ℤ
  attempts : ℕ
  budget : ℤ
  trialsPerCandidate : ℤ
  searchBudget : ℤ
  originalOperations : ℕ
  reducedOperations : ℕ
  confirmed : Bool
  confirmationCounts : Counts
  replaySuccessRate : Py.Float
  totalTrials : ℕ
  candidateOperationsExecuted : ℤ
  totalOperationsExecuted : ℤ
  searchTransitions : ℤ
  candidateEvidence : List Evidence
  /-- A deletion was due when the budget was spent. -/
  exhausted : Bool

/-- `evidence[-1]["matched_failures"]`. -/
def lastMatched (evidence : List Evidence) : Except String ℕ :=
  match evidence.getLast? with
  | some group => .ok group.matchedFailures
  | none => .error "list index out of range"

/-- The trials of all groups. -/
def allTrials (evidence : List Evidence) : List Json := evidence.flatMap Evidence.trials

/-- `summary`. -/
def summarize (scenario : Json) (confirmed : Bool) (counts : Counts) (s : Search τ) :
    Except String Summary := do
  let rate ← Py.Float.trueDiv (← lastMatched s.evidence) options.trials
  let candidates := s.evidence.filter fun group => group.phase = .candidate
  let executed ← (allTrials candidates).mapM Dradd.historyLength
  let operations ← (allTrials s.evidence).mapM Dradd.historyLength
  let transitions ← (allTrials s.evidence).mapM fun trial => Dradd.countOf trial "explored" 0
  return { outcome :=
             if confirmed then .executableReproducerFound
             else if counts.inconclusive ≠ 0 then .inconclusive
             else .reproductionFailed
           strategy := options.strategy
           workers := options.workers
           attempts := s.attempts
           budget := options.budget
           trialsPerCandidate := options.trials
           searchBudget := options.searchBudget
           originalOperations := (operationsOf scenario).length
           reducedOperations := (operationsOf s.current.scenario).length
           confirmed
           confirmationCounts := counts
           replaySuccessRate := rate
           totalTrials := (allTrials s.evidence).length
           candidateOperationsExecuted := executed.sum
           totalOperationsExecuted := operations.sum
           searchTransitions := transitions.sum
           candidateEvidence := s.evidence
           exhausted := s.exhausted }

/-- The scenario with its owners, which is where the search starts. -/
def whole (scenario : Json) (owners : List ℕ) : Candidate where
  scenario := Json.set "worker_ids" (.list (owners.map fun v : ℕ => Json.int v)) scenario
  ids := List.range (operationsOf scenario).length

/-- `reduce_concurrent(scenario, factory, …)`, with the state in which it leaves the evaluator. -/
def reduceConcurrent (fuel : ℕ) (scenario : Json) (state : τ) :
    Except String (Option ((Json × Summary) × τ)) := do
  let owners ← accept options scenario
  let (initial, s) ←
    replay evaluator options (whole scenario owners) .initial (.start state (whole scenario owners))
  if initial.1 then
    match Loop.run (round evaluator options) fuel s with
    | none => return none
    | some result =>
      let s ← result
      let (final, s) ← replay evaluator options s.current .confirmation s
      let summary ← summarize options scenario final.1 final.2 s
      return some ((s.current.scenario, summary), s.evaluator)
  else
    let summary ← summarize options scenario false initial.2 s
    return some ((s.current.scenario, summary), s.evaluator)

/-! ## Parts of a scenario -/

/-- A dict with some of the operations of a valid scenario, and the rest of what is read of it, is
valid. -/
theorem exists_validate {scenario part : Json} {sc : Scenario} {operations : List Json}
    (h : validate scenario = .ok sc) (hversion : part.get? "version" = scenario.get? "version")
    (hcapacity : part.get? "capacity" = scenario.get? "capacity")
    (hoperations : part.get? "operations" = some (.list operations))
    (hsub : operations.Sublist (operationsOf scenario)) (hne : operations ≠ []) :
    ∃ sc', validate part = .ok sc' := by
  obtain ⟨hone, hcap, elems, helems, hops⟩ := validate_ok_iff.mp h
  replace hsub : operations.Sublist elems := by rwa [operationsOf, helems] at hsub
  obtain ⟨ops, hread⟩ := exists_mapM_iff.mpr fun op hop =>
    exists_mapM_iff.mp ⟨_, hops⟩ op (hsub.subset hop)
  obtain ⟨hlength, hvalid⟩ := mapM_validateOp hread
  have hle := hsub.length_le
  have hbound := sc.operations_le
  rw [(mapM_validateOp hops).1] at hbound
  refine ⟨⟨sc.capacity, ops, sc.minCapacity_le, sc.le_maxCapacity, hvalid, ?_, by omega⟩,
    validate_ok_iff.mpr ⟨hversion ▸ hone, hcapacity ▸ hcap, operations, hoperations, hread⟩⟩
  rw [hlength]
  exact List.length_pos_of_ne_nil hne

/-- With an existing worker for each operation, it is a valid concurrent scenario. -/
theorem exists_prepare {scenario part : Json} {workers budget : ℤ} {plan : Plan}
    (operations : List Json) (owners : List ℕ) (h : prepare scenario workers budget = .ok plan)
    (hframe : ∀ key ∈ ["version", "capacity", "jitter_us"], part.get? key = scenario.get? key)
    (hoperations : part.get? "operations" = some (.list operations))
    (howners : part.get? "worker_ids" = some (.list (owners.map fun v : ℕ => Json.int v)))
    (hsub : operations.Sublist (operationsOf scenario)) (hne : operations ≠ [])
    (hlength : owners.length = operations.length) (hlt : ∀ v ∈ owners, (v : ℤ) < workers) :
    ∃ plan', prepare part workers budget = .ok plan' := by
  obtain ⟨hplan, hjitter, hbudget⟩ := prepare_eq_ok_iff.mp h
  obtain ⟨hscenario, hread, hworkers, -⟩ := validateWorkerPlan_eq_ok hplan
  obtain ⟨sc, hsc⟩ := exists_validate hscenario (hframe _ (by simp)) (hframe _ (by simp))
    hoperations hsub hne
  obtain rfl : operationsOf part = operations := by rw [operationsOf, hoperations]
  have hids : workerIds part workers (operationsOf part).length =
      .list (owners.map fun v : ℕ => Json.int v) := by
    rw [workerIds, howners, Option.getD_some]
  have hle := hsub.length_le
  have htwelve := plan.operations_le
  have htwo := plan.two_le_workers
  have hfour := plan.workers_le
  rw [hread] at htwelve
  obtain ⟨plan', hplan'⟩ := exists_validateWorkerPlan hsc (by omega) (hle.trans htwelve) hids hlength
    hlt
  refine ⟨plan', prepare_eq_ok_iff.mpr ⟨hplan', ?_, hbudget⟩⟩
  rwa [checkJitter, hframe _ (by simp)]

/-! ## Candidates -/

/-- Deleting by position. -/
theorem map_getD_survivors {α : Type*} (l : List α) (d : α) (start chunk : ℕ) :
    (survivors l.length start chunk).map (fun i => l.getD i d) =
      Deletion.delete chunk start l := by
  unfold Deletion.delete
  induction l generalizing start chunk with
  | nil => simp [survivors]
  | cons a l ih =>
    have hshift (p : ℕ → Bool) :
        (((List.range l.length).map Nat.succ).filter p).map (fun i => (a :: l).getD i d) =
          ((List.range l.length).filter (p ∘ Nat.succ)).map fun i => l.getD i d := by
      rw [List.filter_map, List.map_map]
      rfl
    rw [survivors, List.length_cons, List.range_succ_eq_map, List.filter_cons]
    rcases start with _ | start
    · rcases chunk with _ | chunk
      · -- nothing is deleted
        have hrest := ih 0 0
        rw [if_pos (by simp), List.map_cons, hshift]
        simpa [survivors, Function.comp_def] using hrest
      · -- the first entry is deleted
        have hrest := ih 0 chunk
        rw [if_neg (by simp), hshift]
        simpa [survivors, Function.comp_def] using hrest
    · have hrest := ih start chunk
      have hadd : start + 1 + chunk = (start + chunk) + 1 := by omega
      rw [if_pos (by simp), List.map_cons, hshift]
      simpa [survivors, Function.comp_def, hadd] using hrest

/-- No record of the workload is enforced. -/
def Unrestricted (w : Workload) : Prop := ∀ edge ∈ w.edges, edge.kind.required = false

variable {scenario : Json} {w : Workload}

/-- Without enforced records, every part of a candidate is one. -/
theorem Unrestricted.valid_of_sublist (hfree : Unrestricted w) {keep ids : List ℕ}
    (h : w.valid ids = true) (hsub : keep.Sublist ids) (hne : keep ≠ []) :
    w.valid keep = true := by
  obtain ⟨-, hsorted, hlt, -⟩ := w.valid_iff.mp h
  refine w.valid_iff.mpr ⟨hne, hsorted.sublist hsub, fun i hi => hlt i (hsub.subset hi), ?_⟩
  refine w.closed_iff.mpr fun edge hedge hkind => ?_
  rw [hfree edge hedge] at hkind
  cases hkind

/-- The candidate is the scenario with the operations that its indexes name, and their owners. -/
structure Candidate.Retains (scenario : Json) (w : Workload) (c : Candidate) : Prop where
  isDict : c.scenario.isDict = true
  valid : w.valid c.ids = true
  frame : ∀ key, key ≠ "operations" → key ≠ "worker_ids" →
    c.scenario.get? key = scenario.get? key
  operations : c.scenario.get? "operations" = some (.list (c.ids.map w.operation))
  owners : c.scenario.get? "worker_ids" = some (.list (c.ids.map fun i => Json.int (w.owner i)))

/-- A candidate has the operations that are retained. -/
theorem Candidate.Retains.operationsOf_eq {c : Candidate} (h : c.Retains scenario w) :
    operationsOf c.scenario = c.ids.map w.operation := by
  rw [operationsOf, h.operations]

/-- A candidate has the owners of the operations that are retained. -/
theorem Candidate.Retains.ownersOf_eq {c : Candidate} (h : c.Retains scenario w) :
    ownersOf c.scenario = c.ids.map fun i => Json.int (w.owner i) := by
  rw [ownersOf, h.owners]

/-- A candidate has an operation for each index. -/
theorem Candidate.Retains.length_operationsOf {c : Candidate} (h : c.Retains scenario w) :
    (operationsOf c.scenario).length = c.ids.length := by
  rw [h.operationsOf_eq, List.length_map]

/-- What `isinstance` calls a dict has entries. -/
theorem exists_of_isDict {j : Json} (h : j.isDict = true) : ∃ entries, j = .dict entries := by
  cases j with
  | dict entries => exact ⟨entries, rfl⟩
  | _ => cases h

/-- Deleting by position, from a candidate whose operations and owners are those of its indexes. -/
theorem Candidate.select_survivors {c : Candidate} (hdict : c.scenario.isDict = true)
    {operation owner : ℕ → Json}
    (hoperations : c.scenario.get? "operations" = some (.list (c.ids.map operation)))
    (howners : c.scenario.get? "worker_ids" = some (.list (c.ids.map owner))) (start chunk : ℕ) :
    let part := c.select (survivors c.ids.length start chunk)
    part.scenario.isDict = true ∧ part.ids = Deletion.delete chunk start c.ids ∧
      (∀ key, key ≠ "operations" → key ≠ "worker_ids" →
        part.scenario.get? key = c.scenario.get? key) ∧
      part.scenario.get? "operations" = some (.list (part.ids.map operation)) ∧
      part.scenario.get? "worker_ids" = some (.list (part.ids.map owner)) := by
  obtain ⟨entries, hentries⟩ := exists_of_isDict hdict
  have hids : (c.select (survivors c.ids.length start chunk)).ids =
      Deletion.delete chunk start c.ids := map_getD_survivors c.ids 0 start chunk
  -- the lists that go with the indexes are cut in the same way
  have hmap (f : ℕ → Json) : (survivors c.ids.length start chunk).map
      (fun i => (c.ids.map f).getD i .null) =
        (c.select (survivors c.ids.length start chunk)).ids.map f := by
    rw [hids, Deletion.map_delete, ← map_getD_survivors (c.ids.map f) .null, List.length_map]
  have hget (key : String) : (c.select (survivors c.ids.length start chunk)).scenario.get? key =
      if key = "worker_ids" then some (.list ((survivors c.ids.length start chunk).map
        fun i => (ownersOf c.scenario).getD i .null))
      else if key = "operations" then some (.list ((survivors c.ids.length start chunk).map
        fun i => (operationsOf c.scenario).getD i .null))
      else c.scenario.get? key := by
    simp only [Candidate.select, hentries, Json.set, Json.get?, lookup_setEntry]
  have hread : operationsOf c.scenario = c.ids.map operation ∧
      ownersOf c.scenario = c.ids.map owner := by
    rw [operationsOf, hoperations, ownersOf, howners]
    exact ⟨rfl, rfl⟩
  refine ⟨?_, hids, fun key hops howns => ?_, ?_, ?_⟩
  · simp only [Candidate.select, hentries, Json.set, Json.isDict]
  · rw [hget, if_neg howns, if_neg hops]
  · rw [hget, if_neg (by decide), if_pos rfl, ← hmap, ← hread.1]
  · rw [hget, if_pos rfl, ← hmap, ← hread.2]

/-- Deleting some but not all operations of a candidate. -/
theorem Candidate.Retains.select (hfree : Unrestricted w) {c : Candidate}
    (h : c.Retains scenario w) (start : ℕ) {chunk : ℕ} (hchunk : chunk < c.ids.length) :
    (c.select (survivors c.ids.length start chunk)).Retains scenario w ∧
      (c.select (survivors c.ids.length start chunk)).ids =
        Deletion.delete chunk start c.ids := by
  obtain ⟨hdict, hids, hframe, hoperations, howners⟩ :=
    Candidate.select_survivors h.isDict h.operations h.owners start chunk
  refine ⟨⟨hdict, ?_, fun key hops howns => ?_, hoperations, howners⟩, hids⟩
  · rw [hids]
    exact hfree.valid_of_sublist h.valid (Deletion.delete_sublist chunk start c.ids)
      (Deletion.delete_ne_nil hchunk)
  · rw [hframe key hops howns, h.frame key hops howns]

/-- The workload has the operations of the scenario, and their owners. -/
structure Shares (scenario : Json) (workers : ℤ) (w : Workload) : Prop where
  operations : operationsOf scenario = w.operations
  owners : workerIds scenario workers w.size = .list (w.owners.map fun v : ℕ => Json.int v)
  lt : ∀ v ∈ w.owners, (v : ℤ) < workers

/-- Candidates are valid concurrent scenarios. -/
theorem Candidate.Retains.exists_prepare {workers budget : ℤ} {plan : Plan}
    (hplan : prepare scenario workers budget = .ok plan) (hshares : Shares scenario workers w)
    {c : Candidate} (h : c.Retains scenario w) :
    ∃ plan', prepare c.scenario workers budget = .ok plan' := by
  obtain ⟨hne, -, hlt, -⟩ := w.valid_iff.mp h.valid
  refine Replay.exists_prepare (c.ids.map w.operation) (c.ids.map w.owner) hplan
    (fun key hkey => h.frame key ?_ ?_) h.operations ?_ ?_ (by simpa using hne) (by simp)
    fun v hv => ?_
  · rintro rfl
    simp at hkey
  · rintro rfl
    simp at hkey
  · rw [h.owners, List.map_map]
    rfl
  · rw [hshares.operations, ← w.map_operation_ids]
    exact (w.sublist_ids h.valid).map _
  · obtain ⟨i, hi, rfl⟩ := List.mem_map.mp hv
    refine hshares.lt _ ?_
    rw [← w.map_owner_ids]
    exact List.mem_map_of_mem (w.mem_ids.mpr (hlt i hi))

/-- The search starts with all operations. -/
theorem retains_whole {workers : ℤ} (hshares : Shares scenario workers w)
    (hdict : scenario.isDict = true) :
    (whole scenario w.owners).Retains scenario w ∧ (whole scenario w.owners).ids = w.ids := by
  obtain ⟨entries, rfl⟩ := exists_of_isDict hdict
  have hids : (whole (.dict entries) w.owners).ids = w.ids := by
    rw [whole, hshares.operations]
    rfl
  -- there is an operation, so the scenario has a list of them
  have hoperations : (Json.dict entries).get? "operations" = some (.list w.operations) := by
    have hpos := w.size_pos
    have hlist := hshares.operations
    unfold operationsOf at hlist
    split at hlist
    next elems helems => rw [helems, hlist]
    next => simp [Workload.size, ← hlist] at hpos
  have hget (key : String) : (whole (.dict entries) w.owners).scenario.get? key =
      if key = "worker_ids" then some (.list (w.owners.map fun v : ℕ => Json.int v))
      else (Json.dict entries).get? key := Json.get?_set _ _ _ _
  refine ⟨⟨rfl, hids ▸ w.valid_ids, fun key _ howners => ?_, ?_, ?_⟩, hids⟩
  · rw [hget, if_neg howners]
  · rw [hget, if_neg (by decide), hoperations, hids, w.map_operation_ids]
  · rw [hget, if_pos rfl, hids, ← w.map_owner_ids, List.map_map]
    rfl

/-! ## Groups of trials -/

/-- The evaluator answers every valid concurrent scenario with a dict that has a status. -/
def Answers (evaluator : Evaluator τ) (options : Options) : Prop :=
  ∀ state scenario plan, prepare scenario options.workers options.searchBudget = .ok plan →
    ∃ result status,
      (evaluator state scenario options.workers options.searchBudget).1 = .ok result ∧
        result.get? "status" = some status ∧ Dradd.WellTyped result

/-- The evidence is about a candidate, and says what its trials show. -/
structure Evidence.Judged (options : Options) (scenario : Json) (w : Workload) (group : Evidence) :
    Prop where
  retains : group.candidate.Retains scenario w
  length : group.trials.length = options.trials.toNat
  matchedFailures : group.matchedFailures = group.trials.countP matched
  wellTyped : ∀ trial ∈ group.trials, Dradd.WellTyped trial

/-- All trials of the group show the target failure. -/
def Evidence.accepted (options : Options) (group : Evidence) : Bool :=
  decide ((group.matchedFailures : ℤ) = options.trials)

variable {evaluator options}

/-- All trials of a candidate with a plan are executed. -/
theorem runTrials_spec (hanswers : Answers evaluator options) {candidate : Json} {plan : Plan}
    (hplan : prepare candidate options.workers options.searchBudget = .ok plan) (n : ℕ) (state : τ) :
    ∃ trials state', runTrials evaluator options candidate n state = .ok (trials, state') ∧
      trials.length = n ∧
      ∀ trial ∈ trials, (∃ status, trial.get? "status" = some status) ∧ Dradd.WellTyped trial := by
  induction n generalizing state with
  | zero => exact ⟨[], state, rfl, rfl, fun trial htrial => absurd htrial List.not_mem_nil⟩
  | succ n ih =>
    obtain ⟨result, status, hresult, hstatus, htyped⟩ := hanswers state candidate plan hplan
    obtain ⟨rest, state', hrest, hlength, hall⟩ :=
      ih (evaluator state candidate options.workers options.searchBudget).2
    refine ⟨result :: rest, state', ?_, by simp [hlength], ?_⟩
    · rw [runTrials, hresult]
      simp only [bind, Except.bind, hrest]
      rfl
    · rintro trial (_ | ⟨_, htrial⟩)
      · exact ⟨⟨status, hstatus⟩, htyped⟩
      · exact hall trial htrial

/-- A field that is there is read. -/
theorem field_of_get? {d value : Json} {key : String} (h : d.get? key = some value) :
    Dradd.field d key = .ok value := by
  cases d with
  | dict entries => exact Dradd.field_eq_ok h
  | _ => cases h

/-- A group of trials on a candidate is recorded, and decides. -/
theorem replay_spec (hanswers : Answers evaluator options) {plan : Plan}
    (hplan : prepare scenario options.workers options.searchBudget = .ok plan)
    (hshares : Shares scenario options.workers w) {c : Candidate} (h : c.Retains scenario w)
    (phase : Dradd.Phase) (s : Search τ) : ∃ group counts state,
      replay evaluator options c phase s = .ok ((group.accepted options, counts), { s with
        evaluator := state
        evidence := s.evidence ++ [group] }) ∧
      group.Judged options scenario w ∧ group.phase = phase ∧ group.candidate = c := by
  obtain ⟨plan', hplan'⟩ := h.exists_prepare hplan hshares
  obtain ⟨trials, state, htrials, hlength, hall⟩ :=
    runTrials_spec hanswers hplan' options.trials.toNat s.evaluator
  -- every trial has a status to count
  obtain ⟨statuses, hstatuses⟩ : ∃ statuses,
      (trials.mapM fun result => Dradd.field result "status") = .ok statuses :=
    exists_mapM_iff.mpr fun trial htrial => by
      obtain ⟨⟨status, hstatus⟩, -⟩ := hall trial htrial
      exact ⟨status, field_of_get? hstatus⟩
  obtain ⟨counts, hcounts⟩ : ∃ counts, countStatuses trials = .ok counts := by
    rw [countStatuses, hstatuses]
    exact ⟨_, rfl⟩
  refine ⟨{ phase, candidate := c, counts, matchedFailures := trials.countP matched, trials },
    counts, state, ?_, ⟨h, hlength, rfl, fun trial htrial => (hall trial htrial).2⟩, rfl, rfl⟩
  rw [replay, htrials]
  simp only [bind, Except.bind, hcounts]
  rfl

/-! ## The search by deletion -/

/-- The candidates recorded, in order. -/
def candidateIds (evidence : List Evidence) : List (List ℕ) :=
  (evidence.filter fun group => group.phase = .candidate).map fun group => group.candidate.ids

/-- What a search by deletion keeps of the search. -/
def Search.abstract (s : Search τ) : Deletion.Search ℕ where
  current := s.current.ids
  granularity := s.granularity
  tried := candidateIds s.evidence

/-- The strategy as a way to search by deletion, with a test. -/
def method (options : Options) (accepts : List ℕ → Bool) : Deletion.Method ℕ where
  single := decide (options.strategy = .single)
  propose := Deletion.delete
  accepts

/-- The verdicts on the candidates are those of the test. -/
def Agrees (options : Options) (accepts : List ℕ → Bool) (evidence : List Evidence) : Prop :=
  ∀ group ∈ evidence, group.phase = .candidate →
    group.accepted options = accepts group.candidate.ids

/-- Groups agree with a predicate one by one. -/
theorem agrees_append {accepts : List ℕ → Bool} {evidence new : List Evidence} :
    Agrees options accepts (evidence ++ new) ↔
      Agrees options accepts evidence ∧ Agrees options accepts new :=
  List.forall_mem_append

/-- The candidates of more groups are appended. -/
theorem candidateIds_append {evidence new : List Evidence}
    (hnew : ∀ group ∈ new, group.phase = .candidate) : candidateIds (evidence ++ new) =
      candidateIds evidence ++ new.map fun group => group.candidate.ids := by
  have hall : (new.filter fun group => group.phase = .candidate) = new :=
    List.filter_eq_self.mpr fun group hgroup => decide_eq_true (hnew group hgroup)
  rw [candidateIds, List.filter_append, hall, List.map_append, candidateIds]

/-- The state of the search between two groups. -/
structure Searching (options : Options) (scenario : Json) (w : Workload) (first : Evidence)
    (s : Search τ) : Prop where
  current : s.current.Retains scenario w
  two_le : 2 ≤ s.granularity
  granularity_le : s.granularity ≤ w.size + 1
  judged : ∀ group ∈ s.evidence, group.Judged options scenario w
  cut : s.exhausted = true → options.budget ≤ s.attempts
  evidence : ∃ rest, s.evidence = first :: rest ∧ ∀ group ∈ rest, group.phase = .candidate

/-- Recording a candidate, which may replace the current one. -/
theorem Searching.append {first : Evidence} {s s' : Search τ}
    (h : Searching options scenario w first s) (hcurrent : s'.current.Retains scenario w)
    (h2 : 2 ≤ s'.granularity) (hgranularity : s'.granularity ≤ w.size + 1) {group : Evidence}
    (hevidence : s'.evidence = s.evidence ++ [group]) (hjudged : group.Judged options scenario w)
    (hphase : group.phase = .candidate) (hattempts : s.attempts ≤ s'.attempts)
    (hcut : s'.exhausted = true → s.exhausted = true ∨ options.budget ≤ s'.attempts) :
    Searching options scenario w first s' := by
  refine ⟨hcurrent, h2, hgranularity, fun g hg => ?_, fun hyes => ?_, ?_⟩
  · rw [hevidence, List.mem_append, List.mem_singleton] at hg
    rcases hg with hg | rfl
    · exact h.judged g hg
    · exact hjudged
  · rcases hcut hyes with hbefore | hnow
    · have := h.cut hbefore
      omega
    · exact hnow
  · obtain ⟨rest, hrest, hphases⟩ := h.evidence
    refine ⟨rest ++ [group], by rw [hevidence, hrest, List.cons_append], fun g hg => ?_⟩
    rcases List.mem_append.mp hg with hg | hg
    · exact hphases g hg
    · rwa [List.mem_singleton.mp hg]

/-- How the loop over the deletions ends, and with what candidate. -/
def Ends (s s' : Search τ) : Bool → Option (List ℕ) → Prop
  | false, none => s'.current = s.current ∧ s'.granularity = s.granularity
  | true, some keep => s'.current.ids = keep ∧ keep.length < s.current.ids.length ∧
      s'.granularity = max 2 (s.granularity - 1)
  | _, _ => False

/-- The search after the group of a candidate. -/
def Search.record (s : Search τ) (state : τ) (group : Evidence) : Search τ :=
  { s with
    evaluator := state
    attempts := s.attempts + 1
    evidence := s.evidence ++ [group] }

variable (options) in
/-- The number of operations deleted at once is that of the search by deletion. -/
theorem chunkSize_eq (accepts : List ℕ → Bool) (size granularity : ℕ) :
    chunkSize options size granularity = (method options accepts).width size granularity := by
  simp [chunkSize, Deletion.Method.width, method]

/-- The rounds that are still possible: a change drops an operation, and a round without a change
refines the deletions. -/
def variant (w : Workload) (s : Search τ) : ℕ :=
  s.current.ids.length * (w.size + 2) + (w.size + 1 - s.granularity)

/-- Where no deletion that was due has been left out, what is done is a round of the search by
deletion. -/
def Refines (options : Options) (s s' : Search τ)
    (out : Deletion.Search ℕ → Deletion.Search ℕ ⊕ Deletion.Search ℕ) : Prop :=
  s'.exhausted = false → ∀ accepts, Agrees options accepts s'.evidence →
    (s.exhausted = false ∧ Agrees options accepts s.evidence) ∧
      (method options accepts).round s.abstract = out s'.abstract

section Search

variable (hanswers : Answers evaluator options) {plan : Plan}
  (hplan : prepare scenario options.workers options.searchBudget = .ok plan)
  (hshares : Shares scenario options.workers w) (hfree : Unrestricted w)
  {first : Evidence}

include hanswers hplan hshares hfree

/-- One deletion records a candidate, whose verdict says how the loop goes on. -/
theorem sweep_cons {chunk : ℕ} {s : Search τ} (h : Searching options scenario w first s)
    (hchunk : chunk < s.current.ids.length) (start : ℕ) (rest : List ℕ) : ∃ group state,
      group.Judged options scenario w ∧ group.phase = .candidate ∧
      group.candidate.ids = Deletion.delete chunk start s.current.ids ∧
      sweep evaluator options s.current.ids.length chunk (start :: rest) s =
        if group.accepted options then
          .ok (true, { s.record state group with
            current := group.candidate
            granularity := max 2 (s.granularity - 1) })
        else if options.budget ≤ ((s.attempts + 1 : ℕ) : ℤ) then
          .ok (false, { s.record state group with exhausted := s.exhausted || !rest.isEmpty })
        else sweep evaluator options s.current.ids.length chunk rest (s.record state group) := by
  obtain ⟨hretains, hids⟩ := h.current.select hfree start hchunk
  -- fewer operations are deleted than there are, so no candidate is skipped
  have hkeep : survivors s.current.ids.length start chunk ≠ [] := by
    intro hnil
    have hne := (w.valid_iff.mp hretains.valid).1
    rw [hnil] at hne
    exact hne rfl
  obtain ⟨group, counts, state, hreplay, hjudged, hphase, hcandidate⟩ :=
    replay_spec hanswers hplan hshares hretains .candidate { s with attempts := s.attempts + 1 }
  refine ⟨group, state, hjudged, hphase, hcandidate ▸ hids, ?_⟩
  rw [sweep, if_neg hkeep, hcandidate]
  dsimp only
  rw [hreplay]
  rfl

/-- The loop over the deletions is a sweep over their candidates, unless the budget ends it. -/
theorem sweep_spec {chunk : ℕ} (hpos : 0 < chunk) {starts : List ℕ} {s : Search τ}
    (h : Searching options scenario w first s) (hchunk : chunk < s.current.ids.length)
    (hstarts : ∀ start ∈ starts, start < s.current.ids.length) : ∃ changed s' groups found,
      sweep evaluator options s.current.ids.length chunk starts s = .ok (changed, s') ∧
        Searching options scenario w first s' ∧ s'.evidence = s.evidence ++ groups ∧
        (∀ group ∈ groups, group.phase = .candidate) ∧ Ends s s' changed found ∧
        (s'.exhausted = false → s.exhausted = false ∧ ∀ accepts, Agrees options accepts groups →
          Deletion.sweep accepts
            (starts.map fun start => Deletion.delete chunk start s.current.ids) =
              (groups.map fun group => group.candidate.ids, found)) := by
  induction starts generalizing s with
  | nil =>
    exact ⟨false, s, [], none, rfl, h, by simp, by simp, ⟨rfl, rfl⟩,
      fun hno => ⟨hno, fun _ _ => rfl⟩⟩
  | cons start rest ih =>
    obtain ⟨group, state, hjudged, hphase, hids, hsweep⟩ :=
      sweep_cons hanswers hplan hshares hfree h hchunk start rest
    have hsingle : ∀ g ∈ [group], g.phase = .candidate := by
      simpa using hphase
    rw [hsweep]
    cases haccepted : group.accepted options with
    | true =>
      have hlength := Deletion.length_delete_lt hpos (hstarts start List.mem_cons_self)
      have hgranularity : max 2 (s.granularity - 1) ≤ w.size + 1 := by
        have := h.granularity_le
        have := w.size_pos
        omega
      refine ⟨true, _, [group], some group.candidate.ids, rfl,
        h.append hjudged.retains (le_max_left _ _) hgranularity rfl hjudged hphase
          (Nat.le_succ _) .inl, rfl, hsingle, ⟨rfl, hids ▸ hlength, rfl⟩,
        fun hno => ⟨hno, fun accepts hagrees => ?_⟩⟩
      have haccepts : accepts group.candidate.ids = true :=
        (hagrees group List.mem_cons_self hphase).symm.trans haccepted
      rw [List.map_cons, ← hids, Deletion.sweep_cons_of_accepted haccepts]
      rfl
    | false =>
      -- the group is recorded, and the current candidate stays
      have hrejects {accepts : List ℕ → Bool} {groups : List Evidence}
          (hagrees : Agrees options accepts (group :: groups)) :
          accepts group.candidate.ids = false :=
        (hagrees group List.mem_cons_self hphase).symm.trans haccepted
      have hrecord : Searching options scenario w first (s.record state group) :=
        h.append h.current h.two_le h.granularity_le rfl hjudged hphase (Nat.le_succ _) .inl
      rw [if_neg (by decide)]
      split_ifs with hbudget
      · refine ⟨false, _, [group], none, rfl, { hrecord with cut := fun _ => hbudget }, rfl, hsingle,
          ⟨rfl, rfl⟩, fun hno => ?_⟩
        -- a deletion was due, unless this was the last
        obtain ⟨hbefore, hlast⟩ : s.exhausted = false ∧ rest = [] := by
          simpa using hno
        refine ⟨hbefore, fun accepts hagrees => ?_⟩
        rw [List.map_cons, ← hids, Deletion.sweep_cons_of_not_accepted (hrejects hagrees), hlast]
        rfl
      · obtain ⟨changed, s', groups, found, hrest, hs', hevidence, hphases, hends, habstract⟩ :=
          ih hrecord hchunk fun k hk => hstarts k (List.mem_cons_of_mem start hk)
        refine ⟨changed, s', group :: groups, found, hrest, hs', ?_, ?_, ?_, fun hno => ?_⟩
        · rw [hevidence, Search.record, List.append_assoc, List.singleton_append]
        · rintro g (_ | ⟨_, hg⟩)
          · exact hphase
          · exact hphases g hg
        · cases changed <;> cases found <;> exact hends
        · obtain ⟨hbefore, hsweep'⟩ := habstract hno
          refine ⟨hbefore, fun accepts hagrees => ?_⟩
          have hrest' := hsweep' accepts fun g hg => hagrees g (List.mem_cons_of_mem group hg)
          rw [List.map_cons, ← hids, Deletion.sweep_cons_of_not_accepted (hrejects hagrees)]
          rw [show (s.record state group).current = s.current from rfl] at hrest'
          rw [hrest']
          rfl

/-- The deletions of a round. Unless the budget ends them, they are those of the search by
deletion. -/
theorem sweep_round {s : Search τ} (h : Searching options scenario w first s)
    (hone : ¬s.current.ids.length ≤ 1) : ∃ changed s' tried found,
      sweep evaluator options s.current.ids.length
          (chunkSize options s.current.ids.length s.granularity)
          (Dradd.offsets s.current.ids.length
            (chunkSize options s.current.ids.length s.granularity)) s = .ok (changed, s') ∧
        Searching options scenario w first s' ∧ Ends s s' changed found ∧
        s'.abstract.tried = s.abstract.tried ++ tried ∧
        (s'.exhausted = false → ∀ accepts, Agrees options accepts s'.evidence →
          (s.exhausted = false ∧ Agrees options accepts s.evidence) ∧
            Deletion.sweep (method options accepts).accepts
              ((method options accepts).candidates s.abstract) = (tried, found)) := by
  have hwidth := chunkSize_eq options (fun _ => false) s.current.ids.length s.granularity
  have hchunk : chunkSize options s.current.ids.length s.granularity < s.current.ids.length :=
    hwidth ▸ Deletion.Method.width_lt (by omega) h.two_le
  have hpos : 0 < chunkSize options s.current.ids.length s.granularity :=
    hwidth ▸ Deletion.Method.width_pos (by omega) h.two_le
  obtain ⟨changed, s', groups, found, hsweep, hs', hevidence, hphases, hends, habstract⟩ :=
    sweep_spec hanswers hplan hshares hfree hpos h hchunk fun start
      (hstart : start ∈ Dradd.offsets s.current.ids.length
        (chunkSize options s.current.ids.length s.granularity)) => Dradd.lt_of_mem_offsets hstart
  refine ⟨changed, s', groups.map fun group => group.candidate.ids, found, hsweep, hs', hends, ?_,
    fun hno accepts hagrees => ?_⟩
  · rw [Search.abstract, hevidence]
    exact candidateIds_append hphases
  · rw [hevidence, agrees_append] at hagrees
    obtain ⟨hbefore, hsweep'⟩ := habstract hno
    refine ⟨⟨hbefore, hagrees.1⟩, ?_⟩
    -- the number deleted at once does not depend on the test
    rw [← hsweep' accepts hagrees.2, chunkSize_eq options accepts]
    rfl

/-- One round of the `while` loop. -/
theorem round_spec {s : Search τ} (h : Searching options scenario w first s) :
    (∃ s', round evaluator options s = .inl s' ∧ Searching options scenario w first s' ∧
      variant w s' < variant w s ∧ Refines options s s' .inl) ∨
    ∃ s', round evaluator options s = .inr (.ok s') ∧ Searching options scenario w first s' ∧
      Refines options s s' .inr := by
  unfold round
  dsimp only
  rw [h.current.length_operationsOf]
  by_cases hone : s.current.ids.length ≤ 1
  · rw [if_pos hone]
    exact .inr ⟨s, rfl, h, fun hno accepts hagrees =>
      ⟨⟨hno, hagrees⟩, Deletion.Method.round_of_single hone⟩⟩
  rw [if_neg hone]
  by_cases hbudget : options.budget ≤ s.attempts
  · rw [if_pos hbudget]
    exact .inr ⟨_, rfl, { h with cut := fun _ => hbudget }, fun hno => by cases hno⟩
  rw [if_neg hbudget]
  have hsize : s.current.ids.length ≤ w.size := by
    simpa using (w.sublist_ids h.current.valid).length_le
  obtain ⟨changed, s', tried, found, hsweep, hs', hends, htried, hround⟩ :=
    sweep_round hanswers hplan hshares hfree h hone
  rw [hsweep]
  cases changed with
  | true =>
    cases found with
    | none => exact hends.elim
    | some keep =>
      -- a candidate was accepted, and replaces the current one
      obtain ⟨hcurrent, hlength, hgranularity⟩ := hends
      refine .inl ⟨s', rfl, hs', ?_, fun hno accepts hagrees => ?_⟩
      · -- an operation less outweighs every granularity
        have hmul := Nat.mul_le_mul_right (w.size + 2) (Nat.succ_le_of_lt hlength)
        rw [Nat.succ_mul] at hmul
        have := hs'.granularity_le
        simp only [variant, hcurrent]
        omega
      · obtain ⟨hbefore, hfound⟩ := hround hno accepts hagrees
        refine ⟨hbefore, ?_⟩
        rw [← hcurrent] at hfound
        exact Deletion.Method.round_eq_of_found hone hfound hgranularity htried
  | false =>
    cases found with
    | some keep => exact hends.elim
    | none =>
      obtain ⟨hcurrent, hgranularity⟩ := hends
      dsimp only
      by_cases hfinest : options.strategy = .single ∨ s.current.ids.length ≤ s'.granularity
      · -- the deletions cannot be made finer, so the search is over
        rw [if_pos hfinest]
        refine .inr ⟨s', rfl, hs', fun hno accepts hagrees => ?_⟩
        obtain ⟨hbefore, hnone⟩ := hround hno accepts hagrees
        have hfinest' : (method options accepts).finest s.abstract :=
          hfinest.imp decide_eq_true fun hle => hle.trans_eq hgranularity
        refine ⟨hbefore, ?_⟩
        exact Deletion.Method.round_eq_of_finest hone hnone hfinest' (congrArg Candidate.ids hcurrent)
          hgranularity htried
      · rw [if_neg hfinest]
        simp only [not_or, not_le] at hfinest
        have h2 := hs'.two_le
        refine .inl ⟨{ s' with granularity := min s.current.ids.length (s'.granularity * 2) }, rfl,
          { hs' with two_le := ?_, granularity_le := ?_ }, ?_, fun hno accepts hagrees => ?_⟩
        · simp only [le_min_iff]
          omega
        · simp only [min_le_iff]
          omega
        · simp only [variant, hcurrent]
          omega
        · obtain ⟨hbefore, hnone⟩ := hround hno accepts hagrees
          have hcoarse : ¬(method options accepts).finest s.abstract := fun hyes => by
            rcases hyes with hsingle | hle
            · exact hfinest.1 (of_decide_eq_true hsingle)
            · exact absurd (hle.trans_eq hgranularity.symm) (not_le.mpr hfinest.2)
          refine ⟨hbefore, ?_⟩
          have hmin : min s.current.ids.length (s'.granularity * 2) =
              min s.current.ids.length (s.granularity * 2) := by rw [hgranularity]
          exact Deletion.Method.round_eq_of_coarse hone hnone hcoarse
            (congrArg Candidate.ids hcurrent) hmin htried

/-- The search ends, without an error. Unless the budget cuts it short, it is the search by
deletion. -/
theorem search_spec {s : Search τ} (h : Searching options scenario w first s) {fuel : ℕ}
    (hfuel : (w.size + 1) * (w.size + 2) ≤ fuel) : ∃ s',
      Loop.run (round evaluator options) fuel s = some (.ok s') ∧
        Searching options scenario w first s' ∧
        (s'.exhausted = false → ∀ accepts, Agrees options accepts s'.evidence →
          Loop.run (method options accepts).round fuel s.abstract = some s'.abstract) := by
  -- every round lowers the variant, which starts below the fuel
  have hvariant : variant w s < fuel := by
    have hlength : s.current.ids.length ≤ w.size := by
      simpa using (w.sublist_ids h.current.valid).length_le
    have := Nat.mul_le_mul_right (w.size + 2) hlength
    have := h.two_le
    rw [Nat.succ_mul] at hfuel
    simp only [variant]
    omega
  -- `round_spec` says which way a round went, and it went one way
  have hcont (t t' : Search τ) (ht : Searching options scenario w first t)
      (hround : round evaluator options t = .inl t') : Searching options scenario w first t' ∧
        variant w t' < variant w t ∧ Refines options t t' .inl := by
    rcases round_spec hanswers hplan hshares hfree ht with ⟨u, hu, hnext⟩ | ⟨u, hu, -⟩
    · obtain rfl : u = t' := Sum.inl.inj (hu.symm.trans hround)
      exact hnext
    · exact absurd (hu.symm.trans hround) Sum.inr_ne_inl
  have hexit (t : Search τ) (result : Except String (Search τ))
      (ht : Searching options scenario w first t)
      (hround : round evaluator options t = .inr result) :
      ∃ t', result = .ok t' ∧ Searching options scenario w first t' ∧ Refines options t t' .inr := by
    rcases round_spec hanswers hplan hshares hfree ht with ⟨u, hu, -⟩ | ⟨u, hu, hlast⟩
    · exact absurd (hu.symm.trans hround) Sum.inl_ne_inr
    · exact ⟨u, (Sum.inr.inj (hu.symm.trans hround)).symm, hlast⟩
  obtain ⟨result, hrun, s', rfl, hs'⟩ := Loop.run_of_variant (variant w)
    (Q := fun result => ∃ t, result = .ok t ∧ Searching options scenario w first t)
    (fun t t' ht hround => ⟨(hcont t t' ht hround).1, (hcont t t' ht hround).2.1⟩)
    (fun t result ht hround => by
      obtain ⟨u, hu, hsearching, -⟩ := hexit t result ht hround
      exact ⟨u, hu, hsearching⟩)
    h hvariant
  refine ⟨s', hrun, hs', fun hno accepts hagrees => ?_⟩
  obtain ⟨-, hrefines⟩ := Loop.run_refines (a := Search.abstract)
    (e := fun t => (.ok t : Except String (Search τ))) (I := Searching options scenario w first)
    (K := fun t => t.exhausted = false ∧ Agrees options accepts t.evidence)
    (fun t t' ht hround => ⟨(hcont t t' ht hround).1, fun hnext =>
      (hcont t t' ht hround).2.2 hnext.1 accepts hnext.2⟩)
    (fun t t' ht hround => by
      obtain ⟨u, hu, hsearching, hlast⟩ := hexit t _ ht hround
      cases hu
      exact ⟨hsearching, fun hnext => hlast hnext.1 accepts hnext.2⟩)
    h hrun
  exact (hrefines ⟨hno, hagrees⟩).2

end Search

/-! ## The end of a run -/

/-- What the check of the options says of the strategy and of the number of trials. -/
theorem Options.bounds (h : options.check = .ok ()) :
    (options.strategy = .single ∨ options.strategy = .chunk) ∧ 1 ≤ options.trials := by
  unfold Options.check at h
  split_ifs at h with hguard
  obtain ⟨hstrategy, htrials⟩ := not_or.mp hguard
  exact ⟨not_not.mp hstrategy, (not_not.mp (not_or.mp htrials).1).1⟩

/-- A valid concurrent scenario is accepted, with the owners of the workload. -/
theorem accept_eq_ok {plan : Plan}
    (hplan : prepare scenario options.workers options.searchBudget = .ok plan)
    (hshares : Shares scenario options.workers w) (hcheck : options.check = .ok ()) :
    accept options scenario = .ok w.owners := by
  obtain ⟨hworkers, -, hbudget⟩ := prepare_eq_ok_iff.mp hplan
  obtain ⟨hscenario, -, hcount, -⟩ := validateWorkerPlan_eq_ok hworkers
  have htwo := plan.two_le_workers
  have hfour := plan.workers_le
  have hpos := w.size_pos
  have htwelve := w.size_le
  have hsize : (operationsOf scenario).length = w.size := congrArg List.length hshares.operations
  have howners : checkAssignments "invalid worker_ids" (workerIds scenario options.workers w.size)
      options.workers w.size = .ok w.owners :=
    checkAssignments_eq_ok_iff.mpr ⟨hshares.owners, w.readOperations_spec.2.2.1, hshares.lt⟩
  unfold accept
  rw [hscenario, hsize]
  simp only [bind, Except.bind]
  rw [if_neg (by omega), hcheck]
  simp only [howners]
  rw [if_neg (by omega)]
  rfl

/-- The summary of a search can be made, and shows what the search has recorded. -/
theorem summarize_spec (hcheck : options.check = .ok ()) {s : Search τ}
    (hne : s.evidence ≠ []) (hjudged : ∀ group ∈ s.evidence, group.Judged options scenario w)
    (confirmed : Bool) (counts : Counts) : ∃ summary,
      summarize options scenario confirmed counts s = .ok summary ∧
        summary.candidateEvidence = s.evidence ∧ summary.exhausted = s.exhausted ∧
        summary.attempts = s.attempts := by
  have htyped : ∀ trial ∈ allTrials s.evidence, Dradd.WellTyped trial := by
    intro trial htrial
    obtain ⟨group, hgroup, hmem⟩ := List.mem_flatMap.mp htrial
    exact (hjudged group hgroup).wellTyped trial hmem
  have hcandidates : ∀ trial ∈ allTrials (s.evidence.filter fun group => group.phase = .candidate),
      Dradd.WellTyped trial := by
    intro trial htrial
    obtain ⟨group, hgroup, hmem⟩ := List.mem_flatMap.mp htrial
    exact (hjudged group (List.mem_of_mem_filter hgroup)).wellTyped trial hmem
  obtain ⟨executed, hexecuted⟩ :=
    exists_mapM_iff.mpr fun trial htrial => (hcandidates trial htrial).exists_historyLength
  obtain ⟨operations, hoperations⟩ :=
    exists_mapM_iff.mpr fun trial htrial => (htyped trial htrial).exists_historyLength
  obtain ⟨transitions, htransitions⟩ :=
    exists_mapM_iff.mpr fun trial htrial =>
      (htyped trial htrial).exists_countOf (show "explored" ∈ _ by simp) 0
  have htrials := (Options.bounds hcheck).2
  have hrate : Py.Float.trueDiv (s.evidence.getLast hne).matchedFailures options.trials = .ok _ :=
    if_neg (by omega)
  unfold summarize lastMatched
  rw [List.getLast?_eq_some_getLast hne]
  simp only [bind, Except.bind, hrate, hexecuted, hoperations, htransitions]
  exact ⟨_, rfl, rfl, rfl, rfl⟩

/-- What the summary of a run whose first group was accepted shows of its search. -/
structure Searched (options : Options) (scenario : Json) (w : Workload) (fuel : ℕ)
    (first : Evidence) (final : Json) (summary : Summary) (s : Search τ) (last : Evidence) :
    Prop where
  searching : Searching options scenario w first s
  refines : summary.exhausted = false → ∀ accepts, Agrees options accepts s.evidence →
    Loop.run (method options accepts).round fuel ⟨w.ids, 2, []⟩ = some s.abstract
  evidence : summary.candidateEvidence = s.evidence ++ [last]
  judged : last.Judged options scenario w
  phase : last.phase = .confirmation
  candidate : last.candidate = s.current
  final_eq : final = s.current.scenario

/-- A run on a valid concurrent scenario ends, with enough fuel: it stops at the first group, or
searches and confirms. -/
theorem reduceConcurrent_spec (hanswers : Answers evaluator options) {plan : Plan}
    (hplan : prepare scenario options.workers options.searchBudget = .ok plan)
    (hshares : Shares scenario options.workers w) (hfree : Unrestricted w)
    (hcheck : options.check = .ok ()) {fuel : ℕ} (hfuel : (w.size + 1) * (w.size + 2) ≤ fuel)
    (state : τ) : ∃ first final summary after,
      reduceConcurrent evaluator options fuel scenario state = .ok (some ((final, summary), after)) ∧
        (summary.exhausted = true → options.budget ≤ summary.attempts) ∧
        first.Judged options scenario w ∧ first.phase = .initial ∧ first.candidate.ids = w.ids ∧
        (first.accepted options = false ∧ summary.candidateEvidence = [first] ∧
            operationsOf final = w.operations ∧
            ownersOf final = (w.owners.map fun v : ℕ => Json.int v) ∨
          first.accepted options = true ∧ ∃ (s : Search τ) (last : Evidence),
            Searched options scenario w fuel first final summary s last) := by
  obtain ⟨hscenario, -⟩ := validateWorkerPlan_eq_ok (prepare_eq_ok_iff.mp hplan).1
  have hdict : scenario.isDict = true := by
    obtain ⟨⟨v, hv, -⟩, -⟩ := validate_ok_iff.mp hscenario
    cases scenario with
    | dict entries => rfl
    | _ => cases hv
  obtain ⟨hwhole, hids⟩ := retains_whole hshares hdict
  obtain ⟨first, counts, state', hreplay, hjudged, hphase, hcandidate⟩ :=
    replay_spec hanswers hplan hshares hwhole .initial (Search.start state (whole scenario w.owners))
  have hfirst : first.candidate.ids = w.ids := hcandidate ▸ hids
  -- what is known of the search behind the initial group
  obtain ⟨s, hinitial, hevidence, hcurrent, hgranularity, hfresh⟩ : ∃ s : Search τ,
      replay evaluator options (whole scenario w.owners) .initial
        (Search.start state (whole scenario w.owners)) = .ok ((first.accepted options, counts), s) ∧
      s.evidence = [first] ∧ s.current = whole scenario w.owners ∧ s.granularity = 2 ∧
      s.exhausted = false := ⟨_, hreplay, rfl, rfl, rfl, rfl⟩
  have hs : Searching options scenario w first s := by
    refine ⟨hcurrent ▸ hwhole, hgranularity.ge, ?_, ?_, by simp [hfresh], [], hevidence, by simp⟩
    · rw [hgranularity]
      exact Nat.succ_le_succ w.size_pos
    · rw [hevidence]
      simpa using hjudged
  cases haccepted : first.accepted options with
  | false =>
    obtain ⟨summary, hsummary, hsame, hcut, -⟩ := summarize_spec hcheck
      (hevidence ▸ List.cons_ne_nil first []) hs.judged false counts
    refine ⟨first, s.current.scenario, summary, s.evaluator, ?_, by simp [hcut, hfresh], hjudged,
      hphase, hfirst, .inl ⟨haccepted, hsame.trans hevidence, ?_, ?_⟩⟩
    · simp only [reduceConcurrent, accept_eq_ok hplan hshares hcheck, hinitial, haccepted, bind,
        Except.bind, Bool.false_eq_true, if_false, hsummary]
      rfl
    · rw [hcurrent, hwhole.operationsOf_eq, hids, w.map_operation_ids]
    · rw [hcurrent, hwhole.ownersOf_eq, hids, ← w.map_owner_ids, List.map_map]
      rfl
  | true =>
    obtain ⟨s', hloop, hs', hrefines⟩ := search_spec hanswers hplan hshares hfree hs hfuel
    obtain ⟨last, counts', state'', hreplay', hjudged', hphase', hcandidate'⟩ :=
      replay_spec hanswers hplan hshares hs'.current .confirmation s'
    -- the confirmation adds its group, and changes nothing else that is reported
    obtain ⟨s'', hconfirm, hevidence', hcurrent', hexhausted, hattempts⟩ : ∃ s'' : Search τ,
        replay evaluator options s'.current .confirmation s' =
          .ok ((last.accepted options, counts'), s'') ∧
        s''.evidence = s'.evidence ++ [last] ∧ s''.current = s'.current ∧
        s''.exhausted = s'.exhausted ∧ s''.attempts = s'.attempts :=
      ⟨_, hreplay', rfl, rfl, rfl, rfl⟩
    have hjudged'' : ∀ group ∈ s''.evidence, group.Judged options scenario w := by
      rw [hevidence', List.forall_mem_append]
      exact ⟨hs'.judged, by simpa using hjudged'⟩
    obtain ⟨summary, hsummary, hsame, hcut, hspent⟩ := summarize_spec hcheck
      (by rw [hevidence']; simp) hjudged'' (last.accepted options) counts'
    refine ⟨first, s'.current.scenario, summary, s''.evaluator, ?_, ?_, hjudged, hphase, hfirst,
      .inr ⟨haccepted, s', last, hs', fun hno accepts hagrees => ?_, hsame.trans hevidence',
        hjudged', hphase', hcandidate', rfl⟩⟩
    · simp only [reduceConcurrent, accept_eq_ok hplan hshares hcheck, hinitial, haccepted, bind,
        Except.bind, if_true, hloop, hconfirm, hsummary, hcurrent']
      rfl
    · rw [hcut, hspent, hexhausted, hattempts]
      exact hs'.cut
    · have habstract : s.abstract = ⟨w.ids, 2, []⟩ := by
        simp [Search.abstract, hcurrent, hgranularity, hevidence, hids, candidateIds, hphase]
      rw [← habstract]
      exact hrefines (hexhausted ▸ hcut ▸ hno) accepts hagrees

end Lab.Replay
