import KernelBridge.Lab.History
import KernelBridge.Lib.Lts
import Mathlib.Data.List.FinRange
import Mathlib.Data.List.GetD
import Mathlib.Data.List.Infix
import Mathlib.Logic.Function.Basic

/-!
# The concurrent harness

`lab/concurrency.py`: two to four worker threads apply the operations of a scenario to one device
at the same time and record when each call started and finished, and the recording goes to the
history checker.

`prepare` is the validation; what it accepts is a `Plan`. The threads are a transition system
(`Step`): a step is an arrival at the start barrier, a reading of the clock, a call on the device,
or the appending of an event under the history lock. The device and the clock are parameters
(`Env`), so that what holds whatever they do and what holds for the simulator are statements about
one system. The pause before a call (`jitter_us`) only delays it, and is no step.

Main result: `sound_of_run`. Whatever the device and the clock do, every recorded event is one of
the plan's, a worker's events are recorded in the order of the plan, and a worker that saw no
error records all of them.
-/

namespace Lab

open Py Lts

/-! ## Plans -/

/-- `scenario["operations"]`. -/
def operationsOf (scenario : Json) : List Json :=
  match scenario.get? "operations" with
  | some (.list elems) => elems
  | _ => []

/-- `scenario.get("worker_ids", [i % workers for i in range(count)])`. -/
def workerIds (scenario : Json) (workers : ℤ) (count : ℕ) : Json :=
  (scenario.get? "worker_ids").getD (.list ((List.range count).map fun i : ℕ => Json.int (i % workers)))

/-- An entry of `worker_ids` must be the number of a worker. -/
def checkOwner (message : String) (workers : ℤ) : Json → Except String ℕ
  | .int w => if 0 ≤ w ∧ w < workers then .ok w.toNat else .error message
  | _ => .error message

/-- The check of the assignment of `count` operations to workers, which the harness and the offline
check share but for the text of the error. -/
def checkAssignments (message : String) (ids : Json) (workers : ℤ) (count : ℕ) :
    Except String (List ℕ) :=
  match ids with
  | .list elems =>
    if elems.length = count then elems.mapM (checkOwner message workers) else .error message
  | _ => .error message

/-- A worker that is accepted is an integer below the number of workers. -/
theorem checkOwner_eq_ok_iff {message : String} {workers : ℤ} {j : Json} {w : ℕ} :
    checkOwner message workers j = .ok w ↔ j = .int w ∧ (w : ℤ) < workers := by
  cases j with
  | int n =>
    rw [checkOwner]
    split_ifs with h
    · simp only [Except.ok.injEq, Json.int.injEq]
      omega
    · simp only [Json.int.injEq, false_iff]
      omega
  | _ => simp [checkOwner]

/-- An assignment gives every operation to an existing worker. -/
theorem checkAssignments_eq_ok_iff {message : String} {ids : Json} {workers : ℤ} {count : ℕ}
    {ws : List ℕ} : checkAssignments message ids workers count = .ok ws ↔
      ids = .list (ws.map fun w : ℕ => Json.int w) ∧ ws.length = count ∧ ∀ w ∈ ws, (w : ℤ) < workers := by
  cases ids with
  | list elems =>
    have hlist : elems.mapM (checkOwner message workers) = .ok ws ↔
        elems = (ws.map fun w : ℕ => Json.int w) ∧ ∀ w ∈ ws, (w : ℤ) < workers := by
      -- element by element, `checkOwner` reads a worker out of its number
      simp only [mapM_eq_ok_iff, checkOwner_eq_ok_iff]
      constructor
      · intro hall
        induction hall with
        | nil => simp
        | cons hhead _ ih => simpa [hhead.1, hhead.2, ih.1] using ih.2
      · rintro ⟨rfl, hlt⟩
        rw [List.forall₂_map_left_iff, List.forall₂_same]
        exact fun w hw => ⟨rfl, hlt w hw⟩
    rw [checkAssignments, Json.list.injEq]
    split_ifs with hlen
    · rw [hlist]
      refine and_congr_right fun heq => (and_iff_right ?_).symm
      simpa [heq] using hlen
    · simp only [false_iff, not_and]
      rintro rfl hws
      exact absurd (by simpa using hws) hlen
  | _ => simp [checkAssignments]

/-- Operations are assigned to workers that exist. -/
theorem assignments_lt {message : String} {ids : Json} {workers : ℤ} {count : ℕ} {ws : List ℕ}
    (h : checkAssignments message ids workers count = .ok ws) : ∀ w ∈ ws, w < workers.toNat := by
  intro w hw
  have := (checkAssignments_eq_ok_iff.mp h).2.2 w hw
  omega

/-- The operations of an accepted scenario are those that were validated. -/
theorem mapM_operationsOf {scenario : Json} {sc : Scenario} (h : validate scenario = .ok sc) :
    (operationsOf scenario).mapM validateOp = .ok sc.operations := by
  obtain ⟨-, -, elems, helems, hops⟩ := validate_ok_iff.mp h
  simpa [operationsOf, helems] using hops

/-- The bounds on the size of a plan, from its check. -/
theorem plan_bounds {operations : List Json} {workers : ℤ}
    (h : ¬(¬(2 ≤ workers ∧ workers ≤ 4) ∨
      ¬(1 ≤ operations.length ∧ operations.length ≤ maxHistory))) :
    operations.length ≤ maxHistory ∧ 2 ≤ workers.toNat ∧ workers.toNat ≤ 4 := by
  omega

/-- What a concurrent run is about to do: the operations of a scenario, and who calls them. -/
structure Plan where
  scenario : Scenario
  operations : List Json
  workers : ℕ
  assignments : List ℕ
  operations_read : operations.mapM validateOp = .ok scenario.operations
  operations_le : operations.length ≤ maxHistory
  two_le_workers : 2 ≤ workers
  workers_le : workers ≤ 4
  assignments_length : assignments.length = operations.length
  assignments_lt : ∀ w ∈ assignments, w < workers

/-- `validate_worker_plan`. -/
def validateWorkerPlan (scenario : Json) (workers : ℤ) : Except String Plan :=
  match hscenario : validate scenario with
  | .error e => .error e
  | .ok sc =>
    let operations := operationsOf scenario
    if hbounds : ¬(2 ≤ workers ∧ workers ≤ 4) ∨
        ¬(1 ≤ operations.length ∧ operations.length ≤ maxHistory) then
      .error "concurrent runs require 2..4 workers and 1..12 operations"
    else
      match hassignments : checkAssignments
          "worker_ids must assign every operation to an existing worker"
          (workerIds scenario workers operations.length) workers operations.length with
      | .error e => .error e
      | .ok assignments => .ok
        { scenario := sc
          operations
          workers := workers.toNat
          assignments
          operations_read := mapM_operationsOf hscenario
          operations_le := (plan_bounds hbounds).1
          two_le_workers := (plan_bounds hbounds).2.1
          workers_le := (plan_bounds hbounds).2.2
          assignments_length := (checkAssignments_eq_ok_iff.mp hassignments).2.1
          assignments_lt := assignments_lt hassignments }

/-- The pause before each call, `scenario.get("jitter_us", 0)`. -/
def checkJitter (scenario : Json) : Except String ℕ :=
  match scenario.get? "jitter_us" with
  | none => .ok 0
  | some (.int jitter) =>
    if 0 ≤ jitter ∧ jitter ≤ 10000 then .ok jitter.toNat
    else .error "jitter_us must be 0..10000"
  | some _ => .error "jitter_us must be 0..10000"

/-- The checks of `evaluate_concurrent` before it opens the device. -/
def prepare (scenario : Json) (workers budget : ℤ) : Except String Plan := do
  let plan ← validateWorkerPlan scenario workers
  let _ ← checkJitter scenario
  if ¬(1 ≤ budget ∧ budget ≤ 100000) then .error "search budget must be 1..100000"
  else .ok plan

/-- What `validate_worker_plan` accepts. -/
theorem validateWorkerPlan_eq_ok {scenario : Json} {workers : ℤ} {plan : Plan}
    (h : validateWorkerPlan scenario workers = .ok plan) :
    validate scenario = .ok plan.scenario ∧ plan.operations = operationsOf scenario ∧
      (plan.workers : ℤ) = workers ∧
      workerIds scenario workers plan.operations.length =
        .list (plan.assignments.map fun w : ℕ => Json.int w) := by
  unfold validateWorkerPlan at h
  split at h
  · cases h
  next sc hscenario =>
    dsimp only at h
    split_ifs at h with hbounds
    split at h
    · cases h
    next assignments hassignments =>
      cases h
      refine ⟨hscenario, rfl, ?_, (checkAssignments_eq_ok_iff.mp hassignments).1⟩
      show ((workers.toNat : ℕ) : ℤ) = workers
      omega

/-- A valid scenario with an existing worker for each operation is accepted. -/
theorem exists_validateWorkerPlan {scenario : Json} {workers : ℤ} {sc : Scenario}
    {assignments : List ℕ} (hscenario : validate scenario = .ok sc)
    (hworkers : 2 ≤ workers ∧ workers ≤ 4) (hcount : (operationsOf scenario).length ≤ maxHistory)
    (hids : workerIds scenario workers (operationsOf scenario).length =
      .list (assignments.map fun w : ℕ => Json.int w))
    (hlength : assignments.length = (operationsOf scenario).length)
    (hlt : ∀ w ∈ assignments, (w : ℤ) < workers) :
    ∃ plan, validateWorkerPlan scenario workers = .ok plan := by
  have hcheck : checkAssignments "worker_ids must assign every operation to an existing worker"
      (workerIds scenario workers (operationsOf scenario).length) workers
      (operationsOf scenario).length = .ok assignments :=
    checkAssignments_eq_ok_iff.mpr ⟨hids, hlength, hlt⟩
  have hpos : 1 ≤ (operationsOf scenario).length := by
    obtain ⟨-, -, elems, helems, hops⟩ := validate_ok_iff.mp hscenario
    rw [operationsOf, helems]
    exact (mapM_validateOp hops).1 ▸ sc.operations_pos
  cases hresult : validateWorkerPlan scenario workers with
  | ok plan => exact ⟨plan, rfl⟩
  | error text =>
    -- none of the checks fails
    unfold validateWorkerPlan at hresult
    split at hresult
    next e he => rw [hscenario] at he; cases he
    next sc' hsc' =>
      dsimp only at hresult
      rw [dif_neg (by omega)] at hresult
      split at hresult
      next e he => rw [hcheck] at he; cases he
      next => cases hresult

/-- What passes all checks passes that of the worker plan, with a budget in range. -/
theorem prepare_eq_ok_iff {scenario : Json} {workers budget : ℤ} {plan : Plan} :
    prepare scenario workers budget = .ok plan ↔
      validateWorkerPlan scenario workers = .ok plan ∧
      (∃ jitter, checkJitter scenario = .ok jitter) ∧ 1 ≤ budget ∧ budget ≤ 100000 := by
  simp only [prepare, bind_eq_ok_iff]
  constructor
  · rintro ⟨plan', hplan, jitter, hjitter, h⟩
    split_ifs at h with hbudget
    cases h
    exact ⟨hplan, ⟨jitter, hjitter⟩, hbudget⟩
  · rintro ⟨hplan, ⟨jitter, hjitter⟩, hbudget⟩
    exact ⟨plan, hplan, jitter, hjitter, if_neg (not_not.mpr hbudget)⟩

/-! ## Tasks -/

/-- `[i for i, owner in enumerate(assignments) if owner == worker]`. -/
def indexesOf (assignments : List ℕ) (worker : ℕ) : List ℕ :=
  (assignments.zipIdx.filter fun x => x.1 = worker).map Prod.snd

/-- The calls of a worker: their operation indexes, with their numbers in its sequence. -/
def tasksOf (assignments : List ℕ) (worker : ℕ) : List (ℕ × ℕ) :=
  (indexesOf assignments worker).zipIdx

section Tasks

variable {assignments : List ℕ} {worker : ℕ} {i k : ℕ}

/-- The operations of a worker, when one more is assigned. -/
theorem indexesOf_concat (assignments : List ℕ) (owner worker : ℕ) :
    indexesOf (assignments ++ [owner]) worker =
      indexesOf assignments worker ++ if owner = worker then [assignments.length] else [] := by
  rw [indexesOf, indexesOf, List.zipIdx_append]
  by_cases h : owner = worker <;> simp [h]

/-- A worker has as many operations as are assigned to it. -/
theorem length_indexesOf : (indexesOf assignments worker).length = assignments.count worker := by
  induction assignments using List.reverseRecOn with
  | nil => rfl
  | append_singleton assignments owner ih =>
    rw [indexesOf_concat, List.length_append, List.count_append, ih]
    by_cases h : owner = worker <;> simp [h]

/-- The calls of a worker, when one more operation is assigned. -/
theorem tasksOf_concat (assignments : List ℕ) (owner worker : ℕ) :
    tasksOf (assignments ++ [owner]) worker = tasksOf assignments worker ++
      if owner = worker then [(assignments.length, assignments.count worker)] else [] := by
  rw [tasksOf, indexesOf_concat, List.zipIdx_append, length_indexesOf]
  by_cases h : owner = worker <;> simp [h, tasksOf]

/-- An operation is a task of the worker it is assigned to, and its number in the sequence of that
worker is how many earlier operations the worker has. -/
theorem mem_tasksOf_iff : (i, k) ∈ tasksOf assignments worker ↔
    assignments[i]? = some worker ∧ k = (assignments.take i).count worker := by
  -- from the end, because sequences count the earlier operations
  induction assignments using List.reverseRecOn with
  | nil => simp [tasksOf, indexesOf]
  | append_singleton assignments owner ih =>
    rw [tasksOf_concat, List.mem_append, ih]
    have hlast : ∀ c : ℕ, (i, k) ∈ (if owner = worker then [(assignments.length, c)] else []) ↔
        i = assignments.length ∧ owner = worker ∧ k = c := by
      intro c
      by_cases h : owner = worker <;> simp [h]
    rw [hlast]
    rcases lt_trichotomy i assignments.length with hlt | rfl | hgt
    · rw [List.getElem?_append_left hlt, List.take_append_of_le_length hlt.le]
      exact or_iff_left fun h => hlt.ne h.1
    · simp
    · have hlen : (assignments ++ [owner]).length ≤ i := by simpa using Nat.succ_le_of_lt hgt
      rw [List.getElem?_eq_none hlen, List.getElem?_eq_none hgt.le]
      simp [hgt.ne']

/-- The numbers of the tasks of a worker. -/
theorem map_snd_tasksOf : (tasksOf assignments worker).map Prod.snd =
    List.range (tasksOf assignments worker).length := by
  rw [tasksOf, List.zipIdx_map_snd, List.length_zipIdx, List.range_eq_range']

end Tasks

/-- The calls of a worker of the plan. -/
def Plan.tasks (plan : Plan) (worker : ℕ) : List (ℕ × ℕ) := tasksOf plan.assignments worker

/-- `operations[index]`. -/
def Plan.operation (plan : Plan) (index : ℕ) : Json := plan.operations.getD index .null

/-- The operation with this index, as validated. -/
def Plan.op (plan : Plan) (index : ℕ) : Op := plan.scenario.operations.getD index .clear

/-- An operation of the plan is read as the one that was validated. -/
theorem Plan.validateOp_operation (plan : Plan) {index : ℕ} (h : index < plan.operations.length) :
    validateOp (plan.operation index) = .ok (plan.op index) := by
  have hread := mapM_eq_ok_iff.mp plan.operations_read
  have h' : index < plan.scenario.operations.length := hread.length_eq ▸ h
  rw [operation, op, List.getD_eq_getElem _ _ h, List.getD_eq_getElem _ _ h']
  exact hread.get h h'

/-! ## Threads -/

/-- An exception: the name of its type, and its text. -/
structure Exc where
  type : String
  text : String

/-- `f"{type(exc).__name__}: {exc}"`. -/
def Exc.describe (exc : Exc) : String := exc.type ++ ": " ++ exc.text

/-- What `barrier.wait()` raises when the barrier is broken. -/
def brokenBarrier : Exc := ⟨"BrokenBarrierError", ""⟩

/-- The part of an event that is known when its call starts. -/
structure Call where
  index : ℕ
  worker : ℕ
  sequence : ℕ
  operation : Json
  started : ℕ

/-- An event as it is recorded: the call, what the device returned or raised, and when. -/
structure Recorded extends Call where
  outcome : Except Exc Json
  finished : ℕ

/-- The index and the number of a call. -/
def Call.task (call : Call) : ℕ × ℕ := (call.index, call.sequence)

/-- A recorded event as the dict it is. -/
def Recorded.toJson (event : Recorded) : Json :=
  .dict [("index", .int event.index), ("worker", .int event.worker),
    ("sequence", .int event.sequence), ("operation", event.operation),
    ("started_ns", .int event.started),
    match event.outcome with
    | .ok actual => ("actual", actual)
    | .error exc => ("error", .str exc.describe),
    ("finished_ns", .int event.finished)]

/-- Where a worker stands. -/
inductive Pc
  | starting
  /-- In `barrier.wait()`. -/
  | atBarrier
  /-- Between two calls, with these still to be made; finished if there is none. -/
  | running (todo : List (ℕ × ℕ))
  /-- The start was noted, and `device.apply` has not taken effect. -/
  | calling (call : Call) (todo : List (ℕ × ℕ))
  /-- `device.apply` took effect, and the finish was not noted. -/
  | returned (call : Call) (outcome : Except Exc Json) (todo : List (ℕ × ℕ))
  /-- About to append the event to the history. -/
  | recording (event : Recorded) (todo : List (ℕ × ℕ))
  | raised (exc : Exc)

/-- The state of the start barrier. -/
inductive Barrier
  | filling
  | released
  | broken
  deriving DecidableEq, Repr

/-- A state of a run of `n` workers. `clock` is the last reading of `perf_counter_ns`, a counter of
nanoseconds. -/
structure State (n : ℕ) (δ : Type) where
  device : δ
  clock : ℕ
  barrier : Barrier
  workers : Fin n → Pc
  history : List Recorded

/-- What surrounds the harness: what a call on the device can do, and which reading of the clock
can follow which. -/
structure Env (δ : Type) where
  apply : δ → Json → Except Exc Json → δ → Prop
  tick : ℕ → ℕ → Prop

section

variable {δ : Type} {n : ℕ}

/-- The worker moves on. -/
def State.move (s : State n δ) (w : Fin n) (pc : Pc) : State n δ :=
  { s with workers := Function.update s.workers w pc }

/-- Where a run starts: the threads are submitted to the pool. -/
def State.start (device : δ) (clock : ℕ) : State n δ where
  device
  clock
  barrier := .filling
  workers _ := .starting
  history := []

/-- All threads have ended. -/
def State.Finished (s : State n δ) : Prop :=
  ∀ w, s.workers w = .running [] ∨ ∃ exc, s.workers w = .raised exc

end

/-- The next step of a worker. -/
inductive Step {δ : Type} (env : Env δ) (plan : Plan) :
    State plan.workers δ → Fin plan.workers → State plan.workers δ → Prop
  | arrive {s w} (hpc : s.workers w = .starting) (hbarrier : s.barrier = .filling)
      (hothers : ∃ v, v ≠ w ∧ s.workers v ≠ .atBarrier) : Step env plan s w (s.move w .atBarrier)
  /-- The last to arrive releases the barrier. -/
  | release {s w} (hpc : s.workers w = .starting) (hbarrier : s.barrier = .filling)
      (hothers : ∀ v, v ≠ w → s.workers v = .atBarrier) :
      Step env plan s w { s.move w .atBarrier with barrier := .released }
  | pass {s w} (hpc : s.workers w = .atBarrier) (hbarrier : s.barrier = .released) :
      Step env plan s w (s.move w (.running (plan.tasks w)))
  /-- The wait at the barrier times out, which breaks it. -/
  | timeout {s w} (hpc : s.workers w = .atBarrier) (hbarrier : s.barrier = .filling) :
      Step env plan s w { s.move w (.raised brokenBarrier) with barrier := .broken }
  | broken {s w} (hpc : s.workers w = .starting ∨ s.workers w = .atBarrier)
      (hbarrier : s.barrier = .broken) : Step env plan s w (s.move w (.raised brokenBarrier))
  | invoke {s w index sequence todo now} (hpc : s.workers w = .running ((index, sequence) :: todo))
      (htick : env.tick s.clock now) :
      Step env plan s w { s.move w (.calling
        { index, worker := w, sequence, operation := plan.operation index, started := now } todo)
        with clock := now }
  | apply {s w call todo outcome device} (hpc : s.workers w = .calling call todo)
      (happly : env.apply s.device call.operation outcome device) :
      Step env plan s w { s.move w (.returned call outcome todo) with device }
  | respond {s w call outcome todo now} (hpc : s.workers w = .returned call outcome todo)
      (htick : env.tick s.clock now) :
      Step env plan s w { s.move w (.recording { call with outcome, finished := now } todo)
        with clock := now }
  /-- A worker stops after a call that raised. -/
  | record {s w event todo} (hpc : s.workers w = .recording event todo) :
      Step env plan s w { s.move w (.running (if event.outcome.isOk then todo else []))
        with history := s.history ++ [event] }

/-- What `future.result()` raises for the first worker that raised. -/
def State.exception {n : ℕ} {δ : Type} (s : State n δ) : Option Exc :=
  (List.finRange n).findSome? fun w =>
    match s.workers w with
    | .raised exc => some exc
    | _ => none

/-- How the `with` block of `evaluate_concurrent` can go: the history it leaves, and the exception
that it raises, if any. -/
inductive Execution {δ : Type} (env : Env δ) (plan : Plan) : List Recorded → Option Exc → Prop
  /-- Opening the device raised. -/
  | notOpened (exc : Exc) : Execution env plan [] (some exc)
  /-- The workers ran to their end. Closing the device may raise; an exception of a worker goes
  first. -/
  | ran {device : δ} {clock : ℕ} {tr : List (Fin plan.workers)} {s : State plan.workers δ}
      (hrun : Run (Step env plan) (.start device clock) tr s) (hfinished : s.Finished)
      (cleanup : Option Exc) : Execution env plan s.history (s.exception.or cleanup)

/-! ## Soundness of the recording -/

/-- The call that a worker is in. -/
def Pc.call? : Pc → Option Call
  | .calling call _ | .returned call _ _ => some call
  | .recording event _ => some event.toCall
  | _ => none

/-- The calls that a worker has not recorded yet, of those in `tasks`. -/
def Pc.pending (tasks : List (ℕ × ℕ)) : Pc → List (ℕ × ℕ)
  | .starting | .atBarrier => tasks
  | .running todo => todo
  | .calling call todo | .returned call _ todo => call.task :: todo
  | .recording event todo => event.task :: todo
  | .raised _ => []

section Soundness

variable {δ : Type} {env : Env δ} {plan : Plan} {s s' : State plan.workers δ}
  {w : Fin plan.workers}

/-- The events of a worker, in the order in which it recorded them. -/
def State.recordedBy {n : ℕ} (s : State n δ) (worker : ℕ) : List Recorded :=
  s.history.filter fun e => e.worker = worker

/-- The worker did not get through its calls: its thread raised, or one of its calls did. -/
def State.Failed {n : ℕ} (s : State n δ) (w : Fin n) : Prop :=
  (∃ exc, s.workers w = .raised exc) ∨ ∃ e ∈ s.recordedBy w, e.outcome.isOk = false

/-- The recording keeps to the plan. -/
structure State.Sound (plan : Plan) (s : State plan.workers δ) : Prop where
  call : ∀ w c, (s.workers w).call? = some c → c.worker = w ∧ c.operation = plan.operation c.index
  recorded : ∀ e ∈ s.history, e.worker < plan.workers ∧ e.operation = plan.operation e.index
  tasks : ∀ w : Fin plan.workers, ∃ dropped, (s.recordedBy w).map (·.task) ++
    (s.workers w).pending (plan.tasks w) ++ dropped = plan.tasks w ∧ (dropped ≠ [] → s.Failed w)

/-- What a step does to the history and to the worker that takes it. -/
theorem Step.frame (h : Step env plan s w s') : (∀ exc, s.workers w ≠ .raised exc) ∧
    ∃ pc, s'.workers = Function.update s.workers w pc ∧
    ((s'.history = s.history ∧
        ((∃ exc, pc = .raised exc) ∨
          pc.pending (plan.tasks w) = (s.workers w).pending (plan.tasks w)) ∧
        ∀ c, pc.call? = some c →
          (s.workers w).call? = some c ∨
            c.worker = w ∧ c.operation = plan.operation c.index ∧ c.started = s'.clock) ∨
      ∃ event todo, s.workers w = .recording event todo ∧
        pc = .running (if event.outcome.isOk then todo else []) ∧
        s'.history = s.history ++ [event]) := by
  cases h with
  | arrive hpc | release hpc | pass hpc =>
    exact ⟨by simp [hpc], _, rfl, .inl ⟨rfl, .inr (by rw [hpc]; rfl), nofun⟩⟩
  | timeout hpc => exact ⟨by simp [hpc], _, rfl, .inl ⟨rfl, .inl ⟨_, rfl⟩, nofun⟩⟩
  | broken hpc =>
    exact ⟨by rcases hpc with hpc | hpc <;> simp [hpc], _, rfl, .inl ⟨rfl, .inl ⟨_, rfl⟩, nofun⟩⟩
  -- the call that starts is the first of the pending ones
  | invoke hpc =>
    refine ⟨by simp [hpc], _, rfl, .inl ⟨rfl, .inr (by rw [hpc]; rfl), ?_⟩⟩
    rintro c ⟨⟩
    exact .inr ⟨rfl, rfl, rfl⟩
  | apply hpc | respond hpc =>
    refine ⟨by simp [hpc], _, rfl, .inl ⟨rfl, .inr (by rw [hpc]; rfl), ?_⟩⟩
    rintro c ⟨⟩
    exact .inl (by rw [hpc]; rfl)
  | record hpc => exact ⟨by simp [hpc], _, rfl, .inr ⟨_, _, hpc, rfl, rfl⟩⟩

/-- At the start nothing is recorded, and all calls are pending. -/
theorem State.start_sound (device : δ) (clock : ℕ) :
    (State.start device clock : State plan.workers δ).Sound plan where
  call := nofun
  recorded := nofun
  tasks _ := ⟨[], by simp [start, recordedBy, Pc.pending], fun h => absurd rfl h⟩

/-- A step of one worker records nothing of another. -/
theorem Step.recordedBy_of_ne (h : Step env plan s w s') (hsound : s.Sound plan)
    {v : Fin plan.workers} (hv : v ≠ w) : s'.recordedBy v = s.recordedBy v := by
  obtain ⟨-, pc, -, ⟨hhistory, -⟩ | ⟨event, todo, hpc, -, hhistory⟩⟩ := h.frame <;>
    rw [State.recordedBy, hhistory, State.recordedBy]
  have hworker : event.worker = w := (hsound.call w event.toCall (by rw [hpc]; rfl)).1
  have hne : event.worker ≠ v := fun h => hv (Fin.ext (h.symm.trans hworker))
  simp [List.filter_append, hne]

/-- A step keeps to the plan. -/
theorem Step.sound (h : Step env plan s w s') (hsound : s.Sound plan) : s'.Sound plan := by
  obtain ⟨hrunning, pc, hworkers, hframe⟩ := h.frame
  refine ⟨?call, ?recorded, ?tasks⟩
  case call =>
    intro v c hc
    by_cases hv : v = w
    · subst hv
      rw [hworkers, Function.update_self] at hc
      rcases hframe with ⟨-, -, hcall⟩ | ⟨event, todo, -, rfl, -⟩
      · exact (hcall c hc).elim (hsound.call v c) fun hnew => ⟨hnew.1, hnew.2.1⟩
      · cases hc
    · rw [hworkers, Function.update_of_ne hv] at hc
      exact hsound.call v c hc
  case recorded =>
    intro e he
    rcases hframe with ⟨hhistory, -⟩ | ⟨event, todo, hpc, -, hhistory⟩ <;> rw [hhistory] at he
    · exact hsound.recorded e he
    · rcases List.mem_append.mp he with he | he
      · exact hsound.recorded e he
      · obtain rfl := List.mem_singleton.mp he
        have := hsound.call w e.toCall (by rw [hpc]; rfl)
        exact ⟨this.1 ▸ w.isLt, this.2⟩
  case tasks =>
    intro v
    obtain ⟨dropped, htasks, hfailed⟩ := hsound.tasks v
    by_cases hv : v = w
    · subst hv
      rcases hframe with ⟨hhistory, hpending, -⟩ | ⟨event, todo, hpc, rfl, hhistory⟩
      · have hby : s'.recordedBy v = s.recordedBy v := by
          rw [State.recordedBy, hhistory, State.recordedBy]
        rw [hworkers, Function.update_self, hby]
        rcases hpending with ⟨exc, rfl⟩ | hpending
        · -- what was pending is dropped
          refine ⟨(s.workers v).pending (plan.tasks v) ++ dropped, ?_, fun _ => .inl ⟨exc, ?_⟩⟩
          · simpa [Pc.pending] using htasks
          · rw [hworkers, Function.update_self]
        · rw [hpending]
          refine ⟨dropped, htasks, fun hne => .inr ?_⟩
          rw [hby]
          exact (hfailed hne).resolve_left fun ⟨exc, hexc⟩ => hrunning exc hexc
      · have hby : s'.recordedBy v = s.recordedBy v ++ [event] := by
          rw [State.recordedBy, hhistory, List.filter_append, State.recordedBy]
          simp [(hsound.call v event.toCall (by rw [hpc]; rfl)).1]
        rw [hworkers, Function.update_self]
        rw [hpc] at htasks
        cases hok : event.outcome.isOk with
        | true =>
          refine ⟨dropped, by simpa [hby, Pc.pending] using htasks, fun hne => .inr ?_⟩
          obtain ⟨e, he, herror⟩ := (hfailed hne).resolve_left fun ⟨exc, hexc⟩ => hrunning exc hexc
          exact ⟨e, hby ▸ List.mem_append_left _ he, herror⟩
        | false =>
          -- the worker stops
          exact ⟨todo ++ dropped, by simpa [hby, Pc.pending] using htasks,
            fun _ => .inr ⟨event, by simp [hby], hok⟩⟩
    · have hby := h.recordedBy_of_ne hsound hv
      have hsame : s'.workers v = s.workers v := by rw [hworkers, Function.update_of_ne hv]
      rw [hby, hsame]
      refine ⟨dropped, htasks, fun hne => ?_⟩
      rw [State.Failed, hby, hsame]
      exact hfailed hne

/-- Whatever the device and the clock do, the recording keeps to the plan. -/
theorem sound_of_run {device : δ} {clock : ℕ} {tr : List (Fin plan.workers)}
    (h : Run (Step env plan) (.start device clock) tr s) : s.Sound plan :=
  h.inductive (State.start_sound device clock) fun _ _ _ hsound hstep => hstep.sound hsound

/-- The calls of a worker are numbered in their order. -/
theorem Plan.tasks_pairwise (plan : Plan) (worker : ℕ) :
    (plan.tasks worker).Pairwise fun a b => a.2 < b.2 := by
  rw [← List.pairwise_map (f := Prod.snd) (R := (· < ·)), tasks, map_snd_tasksOf]
  exact List.pairwise_lt_range

/-- The call that a worker is in is one of its tasks, and later in its sequence than what it
recorded. -/
theorem State.Sound.call_task (h : s.Sound plan) {c : Call} (hc : (s.workers w).call? = some c) :
    c.task ∈ plan.tasks w ∧ ∀ e ∈ s.recordedBy w, e.sequence < c.sequence := by
  obtain ⟨todo, hpending⟩ : ∃ todo, (s.workers w).pending (plan.tasks w) = c.task :: todo := by
    revert hc
    cases s.workers w <;> rintro ⟨⟩ <;> exact ⟨_, rfl⟩
  obtain ⟨dropped, htasks, -⟩ := h.tasks w
  rw [hpending] at htasks
  have hsorted := htasks ▸ plan.tasks_pairwise w
  refine ⟨by simp [← htasks], fun e he => ?_⟩
  rw [List.append_assoc] at hsorted
  exact (List.pairwise_append.mp hsorted).2.2 e.task (List.mem_map_of_mem he) c.task (by simp)

/-- The call that a worker is in is on its operation. -/
theorem State.Sound.validateOp_call (h : s.Sound plan) {c : Call}
    (hc : (s.workers w).call? = some c) : validateOp c.operation = .ok (plan.op c.index) := by
  have hlt := (List.getElem?_eq_some_iff.mp (mem_tasksOf_iff.mp (h.call_task hc).1).1).1
  rw [(h.call w c hc).2]
  exact plan.validateOp_operation (plan.assignments_length ▸ hlt)

/-- The place of a recorded event in the plan: its operation is assigned to its worker, and it
carries the number of that operation among those of the worker. -/
theorem State.Sound.placed (h : s.Sound plan) {e : Recorded} (he : e ∈ s.history) :
    plan.assignments[e.index]? = some e.worker ∧
      e.sequence = (plan.assignments.take e.index).count e.worker := by
  obtain ⟨dropped, htasks, -⟩ := h.tasks ⟨e.worker, (h.recorded e he).1⟩
  refine mem_tasksOf_iff.mp (?_ : e.task ∈ plan.tasks e.worker)
  rw [← htasks]
  have hmem : e ∈ s.recordedBy e.worker := List.mem_filter.mpr ⟨he, by simp⟩
  exact List.mem_append_left _ (List.mem_append_left _ (List.mem_map_of_mem hmem))

/-- An operation is called once only. -/
theorem State.Sound.index_ne (h : s.Sound plan) {e : Recorded} (he : e ∈ s.history) {c : Call}
    (hc : (s.workers w).call? = some c) : e.index ≠ c.index := by
  -- it would be assigned to the same worker, under the same number
  intro hindex
  obtain ⟨howner, hsequence⟩ := h.placed he
  obtain ⟨howner', hsequence'⟩ := mem_tasksOf_iff.mp (h.call_task hc).1
  rw [hindex, howner', Option.some.injEq] at howner
  have hlt := (h.call_task hc).2 e (List.mem_filter.mpr ⟨he, by simpa using howner.symm⟩)
  rw [hindex, ← howner] at hsequence
  omega

end Soundness

/-! ## Evaluation -/

/-- What `evaluate_concurrent` returns, the history apart. -/
inductive Evaluation
  /-- `EXECUTION_ERROR`. -/
  | executionError (exc : Exc)
  /-- `INVALID_CAPTURE`. -/
  | invalidCapture (exc : Exc)
  | checked (verdict : Verdict)

/-- The judgement of `evaluate_concurrent` on what the `with` block left. -/
def evaluate (plan : Plan) (budget : ℤ) (history : List Recorded) (exception : Option Exc) :
    Evaluation :=
  match exception with
  | some exc => .executionError exc
  | none =>
    match checkHistory (.int plan.scenario.capacity) (history.map Recorded.toJson)
        plan.operations.length budget with
    | .error text => .invalidCapture ⟨"ValueError", text⟩
    | .ok verdict => .checked verdict

/-! ## An example -/

/-- A write of one byte and a read, for two workers. -/
def handoffScenario : Json :=
  .dict [("version", .int 1), ("capacity", .int 256),
    ("operations", .list [(Op.write [0x61]).toJson, (Op.read 1).toJson])]

/-- The plan for `handoffScenario`: one call for each worker. -/
def handoffPlan : Plan where
  scenario :=
    { capacity := 256
      operations := [.write [0x61], .read 1]
      minCapacity_le := minCapacity_le_256
      le_maxCapacity := le_maxCapacity_256
      operations_valid := by decide
      operations_pos := by decide
      operations_le := by decide }
  operations := [(Op.write [0x61]).toJson, (Op.read 1).toJson]
  workers := 2
  assignments := [0, 1]
  operations_read := rfl
  operations_le := by decide
  two_le_workers := by decide
  workers_le := by decide
  assignments_length := rfl
  assignments_lt := by decide

/-- The two calls of `handoffPlan` can be made one after the other. -/
theorem handoff_run {δ : Type} (env : Env δ) (htick : ∀ c, env.tick c c)
    (happly : ∀ d, (∃ outcome d', env.apply d (Op.write [0x61]).toJson outcome d') ∧
      ∃ outcome d', env.apply d (Op.read 1).toJson outcome d') (device : δ) (clock : ℕ) :
    ∃ tr, ∃ s : State handoffPlan.workers δ,
      Run (Step env handoffPlan) (.start device clock) tr s ∧ s.Finished ∧ s.barrier ≠ .broken := by
  obtain ⟨outcome, device', hwrite⟩ := (happly device).1
  obtain ⟨outcome', device'', hread⟩ := (happly device').2
  -- the calls on the device are given last, when the states before them are known
  refine ⟨_, _, .cons (.arrive (w := (0 : Fin 2)) rfl rfl
      ⟨(1 : Fin 2), Fin.zero_ne_one.symm, nofun⟩) <|
    .cons (.release (w := (1 : Fin 2)) rfl rfl ?_) <|
    .cons (.pass (w := (0 : Fin 2)) rfl rfl) <| .cons (.pass (w := (1 : Fin 2)) rfl rfl) <|
    .cons (.invoke (w := (0 : Fin 2)) rfl (htick clock)) <|
    .cons (.apply (w := (0 : Fin 2)) rfl (by exact hwrite)) <|
    .cons (.respond (w := (0 : Fin 2)) rfl (htick clock)) <|
    .cons (.record (w := (0 : Fin 2)) rfl) <|
    .cons (.invoke (w := (1 : Fin 2)) rfl (htick clock)) <|
    .cons (.apply (w := (1 : Fin 2)) rfl (by exact hread)) <|
    .cons (.respond (w := (1 : Fin 2)) rfl (htick clock)) <|
    .cons (.record (w := (1 : Fin 2)) rfl) .nil, ?_, nofun⟩
  · exact Fin.forall_fin_two.mpr ⟨fun _ => rfl, fun h => absurd rfl h⟩
  · refine Fin.forall_fin_two.mpr ⟨.inl ?_, .inl ?_⟩
    · exact congrArg Pc.running (ite_self _)
    · exact congrArg Pc.running (ite_self _)

end Lab
