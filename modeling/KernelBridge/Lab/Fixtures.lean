import KernelBridge.Lab.Evaluate
import KernelBridge.Lab.Locked

/-!
# Research fixtures

`lab/research_targets.py`: the simulated device with the controlled faults, the adapter that runs a
workload on it, and `fixture`, which hides the few operations that show a fault among queries of the
capacity.

The random numbers are a parameter (`Rng`). The delay of the device only makes calls slower, and is
left out; so is the run of the adapter on a driver, which excludes a fault.

Main result: `fixture_never_mislabelled`. The queries change neither the device nor the model, so
the operations of the fault, which all belong to one worker, are answered as if they were alone, and
what they show then is computed.
-/

namespace Lab

open Py Lts

/-! ## The device -/

/-- `FAULTS`. -/
inductive ResearchFault
  | none
  | falseEof
  | reverseRead
  | resizeLoss
  | wrongEagain
  | shortWrite
  | capacityCorruption
  | clearNoop
  | intermittentEof
  deriving DecidableEq, Repr

namespace ResearchFault

/-- The name of a fault. -/
def text : ResearchFault → String
  | none => "none"
  | falseEof => "false-eof"
  | reverseRead => "reverse-read"
  | resizeLoss => "resize-loss"
  | wrongEagain => "wrong-eagain"
  | shortWrite => "short-write"
  | capacityCorruption => "capacity-corruption"
  | clearNoop => "clear-noop"
  | intermittentEof => "intermittent-eof"

/-- The fault as the methods of `SimulatedDevice` know it. -/
def simulated : ResearchFault → Fault
  | falseEof => .falseEof
  | reverseRead => .reverseRead
  | resizeLoss => .resizeLoss
  | _ => .none

end ResearchFault

/-- `ResearchDevice`. -/
structure ResearchDevice where
  capacity : ℕ
  queue : List UInt8
  fault : ResearchFault

/-- `data[:-2]`. -/
def withoutLastByte : Json → Except Exc Json
  | .str data => .ok (.str (String.ofList (data.toList.take (data.toList.length - 2))))
  | _ => .error .typeError

/-- Hexadecimal text loses its last byte. -/
theorem withoutLastByte_hex (payload : List UInt8) :
    withoutLastByte (.str (hex payload)) = .ok (.str (hex payload.dropLast)) := by
  rcases List.eq_nil_or_concat payload with rfl | ⟨init, last, rfl⟩
  · rfl
  · simp [withoutLastByte, hex, List.concat_eq_append]

/-- `op["op"] == kind and op[key]`. -/
def isNonempty (op : Json) (kind key : String) : Except Exc Bool := do
  if (← item op "op").eq (.str kind) then return (← item op key).truthy
  else return false

namespace ResearchDevice

/-- `ResearchDevice(capacity, fault, active)`. -/
def new (capacity : ℕ) (fault : ResearchFault) (active : Bool) : ResearchDevice :=
  ⟨capacity, [], if active then fault else .none⟩

/-- The device as a `SimulatedDevice`. -/
def toSimulated (device : ResearchDevice) : SimulatedDevice :=
  ⟨device.capacity, device.queue, device.fault.simulated⟩

/-- `super()._apply_locked`. -/
def superApply (device : ResearchDevice) (op : Json) : Except Exc (Json × ResearchDevice) := do
  let (actual, simulated) ← device.toSimulated.applyJson op
  return (actual, { device with capacity := simulated.capacity, queue := simulated.queue })

/-- `ResearchDevice._apply_locked`. -/
def apply (device : ResearchDevice) (op : Json) : Except Exc (Json × ResearchDevice) :=
  match device.fault with
  | .wrongEagain => do
    if (← isNonempty op "read" "count") && device.queue.isEmpty then
      return ((failure EINVAL).toJson, device)
    else device.superApply op
  | .shortWrite => do
    if ← isNonempty op "write" "data" then
      device.superApply (Json.set "data" (← withoutLastByte (← item op "data")) op)
    else device.superApply op
  | .capacityCorruption => do
    if (← item op "op").eq (.str "capacity") then
      return ((success (device.capacity + 1) Option.none).toJson, device)
    else device.superApply op
  | .clearNoop => do
    if (← item op "op").eq (.str "clear") then return ((success 0 Option.none).toJson, device)
    else device.superApply op
  | .intermittentEof => do
    if (← isNonempty op "read" "count") && device.queue.isEmpty then
      return ((success 0 (some [])).toJson, device)
    else device.superApply op
  | _ => device.superApply op

/-- The inherited method never raises on an operation within bounds. -/
theorem superApply_toJson (device : ResearchDevice) {op : Op} (hop : op.Valid) :
    ∃ result : Result, ∃ device', device.superApply op.toJson = .ok (result.toJson, device') := by
  simp only [superApply, SimulatedDevice.applyJson, readOp_of_validateOp (validateOp_toJson hop)]
  exact ⟨_, _, rfl⟩

/-- A short write is the write of all bytes but the last. -/
theorem apply_shortWrite (capacity : ℕ) (queue payload : List UInt8) :
    apply ⟨capacity, queue, .shortWrite⟩ (Op.write payload).toJson =
      superApply ⟨capacity, queue, .shortWrite⟩ (Op.write payload.dropLast).toJson := by
  have hkind : item (Op.write payload).toJson "op" = .ok (.str "write") := rfl
  have hdata : item (Op.write payload).toJson "data" = .ok (.str (hex payload)) := rfl
  have hset : Json.set "data" (.str (hex payload.dropLast)) (Op.write payload).toJson =
      (Op.write payload.dropLast).toJson := rfl
  simp only [apply, isNonempty, hkind, hdata, bind, Except.bind, pure, Except.pure, Json.eq_str,
    decide_true, if_true, withoutLastByte_hex, hset]
  split_ifs with hempty
  · rfl
  · -- no byte is written
    have hnil : payload = [] := by
      have hlength := length_hex payload
      rw [not_not.mp (by simpa [Json.truthy] using hempty : ¬¬hex payload = "")] at hlength
      exact List.length_eq_zero_iff.mp (by simpa using hlength.symm)
    rw [hnil]
    rfl

/-- No fault makes the device raise on an operation within bounds. -/
theorem apply_toJson (device : ResearchDevice) {op : Op} (hop : op.Valid) :
    ∃ result : Result, ∃ device', device.apply op.toJson = .ok (result.toJson, device') := by
  obtain ⟨capacity, queue, fault⟩ := device
  cases fault with
  | none | falseEof | reverseRead | resizeLoss => exact superApply_toJson _ hop
  | wrongEagain | intermittentEof =>
    cases op with
    | read count =>
      by_cases hempty : ((Json.int count).truthy && queue.isEmpty) = true
      · exact ⟨_, _, if_pos hempty⟩
      · obtain ⟨result, device', happly⟩ := superApply_toJson ⟨capacity, queue, _⟩ hop
        exact ⟨result, device', (if_neg hempty).trans happly⟩
    | _ => exact superApply_toJson _ hop
  | shortWrite =>
    cases op with
    | write payload =>
      rw [apply_shortWrite]
      refine superApply_toJson _ ?_
      simp only [Op.Valid, List.length_dropLast] at hop ⊢
      omega
    | _ => exact superApply_toJson _ hop
  | capacityCorruption =>
    cases op with
    | capacity => exact ⟨_, _, rfl⟩
    | _ => exact superApply_toJson _ hop
  | clearNoop =>
    cases op with
    | clear => exact ⟨_, _, rfl⟩
    | _ => exact superApply_toJson _ hop

/-- A query of the capacity leaves the device as it is. -/
theorem attempt_capacity (device : ResearchDevice) :
    (attempt apply device Op.capacity.toJson).2 = device := by
  obtain ⟨capacity, queue, fault⟩ := device
  cases fault <;> rfl

end ResearchDevice

/-! ## The adapter -/

/-- The random numbers that a seed gives. -/
structure Rng where
  /-- `random.Random(seed).sample(range(length), count)`. -/
  sample (seed : ℤ) (length count : ℕ) : List ℕ
  /-- `random.Random(seed).random()`. -/
  random (seed : ℤ) : ℚ
  sample_nodup : ∀ seed length count, (sample seed length count).Nodup
  sample_lt : ∀ seed length count, ∀ i ∈ sample seed length count, i < length
  length_sample : ∀ seed length count, count ≤ length → (sample seed length count).length = count

/-- `workload["workers"]`, for the harness, which refuses what is not an integer as it refuses an
integer out of range. -/
def workersOf (workload : Json) : Except Exc ℤ := do
  match ← item workload "workers" with
  | .int workers => return workers
  | _ => return 0

/-- `FIFOAdapter`, on the simulator. -/
structure FIFOAdapter where
  fault : ResearchFault
  probability : ℚ
  searchBudget : ℤ
  probability_nonneg : 0 ≤ probability
  probability_le_one : probability ≤ 1

namespace FIFOAdapter

variable (adapter : FIFOAdapter)

/-- `signature`. -/
def signature : String := "FIFO:NO_LEGAL_ORDER"

/-- Whether the fault shows in a trial. -/
def active (rng : Rng) (trialSeed : ℤ) : Bool :=
  adapter.fault ≠ .intermittentEof || rng.random trialSeed < adapter.probability

/-- What `execute` makes of the result of `evaluate_concurrent`. -/
def judge (ev : Evaluation) (history : List Recorded) : Json :=
  let result := Json.set "history" (.list (history.map Recorded.toJson)) ev.toJson
  let result :=
    if (getD result "status").eq (.str "fail") then Json.set "signature" (.str signature) result
    else if (getD result "status").eq (.str "inconclusive") then
      let status :=
        if (getD result "failure_class").eq (.str "EXECUTION_ERROR") then "environment"
        else "incomplete"
      Json.set "status" (.str status) result
    else result
  Json.set "operations_executed" (.int history.length) result

/-- How `FIFOAdapter.execute` can end, under some schedule of the workers. -/
inductive Execute (rng : Rng) (workload : Json) (trialSeed : ℤ) : Except Exc Json → Prop
  | noWorkers {exc : Exc} (hworkers : workersOf workload = .error exc) :
      Execute rng workload trialSeed (.error exc)
  | refused {workers : ℤ} {text : String} (hworkers : workersOf workload = .ok workers)
      (hprepare : prepare workload workers adapter.searchBudget = .error text) :
      Execute rng workload trialSeed (.error (.valueError text))
  | ran {workers : ℤ} {plan : Plan} {clock : ℕ} {tr : List (Fin plan.workers)}
      {s : State plan.workers ResearchDevice} (hworkers : workersOf workload = .ok workers)
      (hprepare : prepare workload workers adapter.searchBudget = .ok plan)
      (hrun : Run (Step (.locked ResearchDevice.apply) plan)
        (.start (.new plan.scenario.capacity adapter.fault (adapter.active rng trialSeed)) clock)
        tr s)
      (hfinished : s.Finished) :
      Execute rng workload trialSeed
        (.ok (judge (evaluate plan adapter.searchBudget s.history s.exception) s.history))

/-- The status that `execute` makes of a result. -/
theorem get?_status_judge (ev : Evaluation) (history : List Recorded) :
    (judge ev history).get? "status" = some (.str
      (match ev with
      | .executionError _ => "environment"
      | .invalidCapture _ | .checked (.inconclusive _ _) => "incomplete"
      | .checked verdict => verdict.status)) := by
  cases ev with
  | checked verdict => cases verdict <;> rfl
  | _ => rfl

/-- Only a history with an explanation passes. -/
theorem judge_pass {ev : Evaluation} {history : List Recorded}
    (h : (judge ev history).get? "status" = some (.str "pass")) :
    ∃ order explored, ev = .checked (.pass order explored) := by
  rw [get?_status_judge] at h
  cases ev with
  | checked verdict =>
    cases verdict with
    | pass order explored => exact ⟨order, explored, rfl⟩
    | _ => simp [Verdict.status] at h
  | _ => simp at h

/-- Only a history without an explanation fails. -/
theorem judge_fail {ev : Evaluation} {history : List Recorded}
    (h : (judge ev history).get? "status" = some (.str "fail")) :
    ∃ explored, ev = .checked (.fail explored) := by
  rw [get?_status_judge] at h
  cases ev with
  | checked verdict =>
    cases verdict with
    | fail explored => exact ⟨explored, rfl⟩
    | _ => simp [Verdict.status] at h
  | _ => simp at h

end FIFOAdapter

/-! ## Fixtures -/

/-- The densities of the declared dependencies. -/
inductive Density
  | none
  | sparse
  | dense
  deriving DecidableEq, Repr

/-- The name of a density. -/
def Density.text : Density → String
  | none => "none"
  | sparse => "sparse"
  | dense => "dense"

namespace ResearchFault

/-- `cores[fault]`, the operations that show the fault. -/
def core : ResearchFault → List Op
  | none | falseEof | wrongEagain | intermittentEof => [.read 1]
  | shortWrite => [.write [1, 2, 3]]
  | capacityCorruption => [.capacity]
  | reverseRead => [.write [1, 2, 3], .read 3]
  | resizeLoss => [.write [1, 2, 3], .resize 512, .read 3]
  | clearNoop => [.write [1, 2, 3], .clear, .read 3]

/-- The label of the fixture. -/
def label (fault : ResearchFault) : String :=
  if fault = intermittentEof then "INTERMITTENT_INJECTED_FAULT"
  else if fault ≠ none then "DETERMINISTIC_INJECTED_FAULT"
  else "CORRECT_CONTROL"

end ResearchFault

/-- `[next(core) if i in positions else {"op": "capacity"} for i in indexes]`. There are as many
positions as operations in the core, so that `next` never runs out. -/
def placeCore (positions : List ℕ) : List Op → List ℕ → List Op
  | _, [] => []
  | [], _ :: indexes => .capacity :: placeCore positions [] indexes
  | op :: core, i :: indexes =>
    if i ∈ positions then op :: placeCore positions core indexes
    else .capacity :: placeCore positions (op :: core) indexes

/-- The worker of operation `i`. -/
def ownerOf (positions : List ℕ) (workers : ℤ) (i : ℕ) : ℤ :=
  if i ∈ positions then 0 else 1 + (i : ℤ).fmod (workers - 1)

/-- The declared dependencies. -/
def dependenciesOf (density : Density) (length : ℕ) : List Json :=
  ((List.range length).filter fun i => 1 ≤ i ∧ (density = .dense ∨ density = .sparse ∧ i % 3 = 0)).map
    fun i => .dict [("operation", .int i), ("requires", .int (i - 1)),
      ("kind", .str "CONTRACT_REQUIRED")]

/-- `fixture`. -/
def fixture (rng : Rng) (fault : ResearchFault) (seed : ℤ) (length : ℕ) (workers : ℤ)
    (density : Density) (delayUs : ℤ) : Except Exc Json :=
  if ¬(4 ≤ length ∧ length ≤ 12) then .error (.valueError "invalid fixture")
  else
    let positions := (rng.sample seed length fault.core.length).insertionSort (· ≤ ·)
    let operations := placeCore positions fault.core (List.range length)
    -- some operation is not at a position
    if workers = 1 then .error ⟨"ZeroDivisionError", "integer modulo by zero"⟩
    else
      let owners := (List.range length).map (ownerOf positions workers)
      .ok (.dict [("version", .int 1), ("capacity", .int 256), ("seed", .int seed),
        ("workers", .int workers), ("worker_ids", .list (owners.map Json.int)),
        ("operations", .list (operations.map Op.toJson)),
        ("dependencies", .list (dependenciesOf density length)),
        ("fixture", .dict [("fault", .str fault.text), ("density", .str density.text),
          ("delay_us", .int delayUs), ("label", .str fault.label)])])

/-- The first worker has the core, and the others exist. -/
theorem ownerOf_mem {workers : ℤ} (hworkers : 2 ≤ workers) (positions : List ℕ) (i : ℕ) :
    0 ≤ ownerOf positions workers i ∧ ownerOf positions workers i < workers ∧
      (ownerOf positions workers i = 0 ↔ i ∈ positions) := by
  have hnonneg := Int.fmod_nonneg (a := i) (b := workers - 1) (by omega) (by omega)
  have hlt := Int.fmod_lt_of_pos i (show 0 < workers - 1 by omega)
  unfold ownerOf
  split_ifs with hi
  · exact ⟨le_rfl, by omega, iff_of_true rfl hi⟩
  · exact ⟨by omega, by omega, iff_of_false (by omega) hi⟩

/-- Placing the core does not change the number of operations. -/
theorem length_placeCore (positions : List ℕ) (core : List Op) (indexes : List ℕ) :
    (placeCore positions core indexes).length = indexes.length := by
  induction indexes generalizing core with
  | nil => cases core <;> rfl
  | cons i indexes ih =>
    cases core with
    | nil => simp [placeCore, ih]
    | cons op core => simp only [placeCore]; split_ifs <;> simp [ih]

/-- The operations of the core are those at the positions, and the others query the capacity. -/
theorem placeCore_spec {positions : List ℕ} {f : ℕ → ℕ} (hf : ∀ i, f i = 0 ↔ i ∈ positions)
    {core : List Op} {indexes : List ℕ}
    (hlength : (indexes.filter (· ∈ positions)).length = core.length) :
    (((placeCore positions core indexes).zip (indexes.map f)).filter fun x => x.2 = 0).map Prod.fst =
        core ∧
      ∀ x ∈ (placeCore positions core indexes).zip (indexes.map f), x.2 ≠ 0 → x.1 = .capacity := by
  induction indexes generalizing core with
  | nil =>
    obtain rfl := List.length_eq_zero_iff.mp hlength.symm
    exact ⟨rfl, nofun⟩
  | cons i indexes ih =>
    cases core with
    | nil =>
      have hi : i ∉ positions := fun hi => by simp [hi] at hlength
      have hrest := @ih [] (by simpa [hi] using hlength)
      have hne : ¬f i = 0 := (hf i).not.mpr hi
      simpa [placeCore, hne] using hrest
    | cons op core =>
      by_cases hi : i ∈ positions
      · have hrest := @ih core (by simpa [hi] using hlength)
        have hzero := (hf i).mpr hi
        simpa [placeCore, hi, hzero] using hrest
      · have hrest := @ih (op :: core) (by simpa [hi] using hlength)
        have hne : ¬f i = 0 := (hf i).not.mpr hi
        simpa [placeCore, hi, hne] using hrest

/-- All operations but those of the core are queries of the capacity. -/
theorem mem_placeCore {positions indexes : List ℕ} {core : List Op} {op : Op}
    (hop : op ∈ placeCore positions core indexes) : op ∈ core ∨ op = .capacity := by
  induction indexes generalizing core with
  | nil => cases hop
  | cons i indexes ih =>
    cases core with
    | nil => exact .inr ((List.mem_cons.mp hop).elim id fun hop => (ih hop).resolve_left nofun)
    | cons first core =>
      rw [placeCore] at hop
      split_ifs at hop
      · rcases List.mem_cons.mp hop with rfl | hop
        · exact .inl List.mem_cons_self
        · exact (ih hop).imp_left (List.mem_cons_of_mem first)
      · exact (List.mem_cons.mp hop).elim .inr ih

/-- The operations of a worker, found by their indexes. -/
theorem map_getD_indexesOf {ops : List Op} {assignments : List ℕ}
    (hlength : ops.length = assignments.length) (worker : ℕ) (d : Op) :
    (indexesOf assignments worker).map (fun i => ops.getD i d) =
      ((ops.zip assignments).filter fun x => x.2 = worker).map Prod.fst := by
  induction assignments using List.reverseRecOn generalizing ops with
  | nil =>
    obtain rfl := List.length_eq_zero_iff.mp hlength
    rfl
  | append_singleton assignments owner ih =>
    obtain ⟨ops, op, rfl⟩ : ∃ init last, ops = init ++ [last] :=
      (List.eq_nil_or_concat' ops).resolve_left (by rintro rfl; simp at hlength)
    have hlength : ops.length = assignments.length := by simpa using hlength
    have hinit : (indexesOf assignments worker).map (fun i => (ops ++ [op]).getD i d) =
        (indexesOf assignments worker).map fun i => ops.getD i d := by
      refine List.map_congr_left fun i hi => List.getD_append _ _ _ _ ?_
      obtain ⟨x, hx, rfl⟩ := List.mem_map.mp hi
      have := List.mem_zipIdx (List.mem_filter.mp hx).1
      omega
    have hlast : (ops ++ [op])[assignments.length]?.getD d = op := by
      simp [← hlength]
    rw [indexesOf_concat, List.map_append, hinit, ih hlength, List.zip_append hlength,
      List.filter_append, List.map_append]
    by_cases howner : owner = worker
    · simp [howner, hlast]
    · simp [howner]

/-- What the harness makes of a fixture: the first worker has the operations of the core, and the
others query the capacity. -/
structure Planted (plan : Plan) (core : List Op) : Prop where
  capacity : plan.scenario.capacity = 256
  core : (plan.tasks 0).map (fun task => plan.op task.1) = core
  probes : ∀ i (w : ℕ), plan.assignments[i]? = some w → w ≠ 0 → plan.op i = .capacity
  operation : ∀ i < plan.operations.length, plan.operation i = (plan.op i).toJson

section Planted

variable {rng : Rng} {fault : ResearchFault} {seed delayUs workers budget : ℤ} {length : ℕ}
  {density : Density} {workload : Json} {plan : Plan}

/-- All operations of a core are valid. -/
theorem ResearchFault.core_valid (fault : ResearchFault) : ∀ op ∈ fault.core, op.Valid := by
  cases fault <;> decide

/-- All operations of a fixture are valid. -/
theorem ResearchFault.placeCore_valid (fault : ResearchFault) (positions indexes : List ℕ) :
    ∀ op ∈ placeCore positions fault.core indexes, op.Valid := fun op hop =>
  (mem_placeCore hop).elim (fault.core_valid op) fun heq => heq ▸ trivial

/-- There are as many positions as operations in the core. -/
theorem length_positions (hlength : 4 ≤ length) {positions : List ℕ}
    (hpositions : positions.Perm (rng.sample seed length fault.core.length)) :
    ((List.range length).filter (· ∈ positions)).length = fault.core.length := by
  have hcore : fault.core.length ≤ length := by
    have : fault.core.length ≤ 3 := by cases fault <;> decide
    omega
  have hperm : ((List.range length).filter (· ∈ positions)).Perm positions := by
    refine (List.perm_ext_iff_of_nodup (List.nodup_range.filter _)
      (hpositions.nodup_iff.mpr (rng.sample_nodup _ _ _))).mpr fun i => ?_
    simp only [List.mem_filter, List.mem_range, decide_eq_true_eq, and_iff_right_iff_imp]
    exact fun hi => rng.sample_lt _ _ _ i (hpositions.mem_iff.mp hi)
  rw [hperm.length_eq, hpositions.length_eq, rng.length_sample _ _ _ hcore]

/-- What the harness reads of a fixture. -/
theorem fixture_spec (h : fixture rng fault seed length workers density delayUs = .ok workload) :
    4 ≤ length ∧ ∃ positions : List ℕ,
      positions.Perm (rng.sample seed length fault.core.length) ∧
      workload.get? "version" = some (.int 1) ∧ workload.get? "capacity" = some (.int 256) ∧
      workersOf workload = .ok workers ∧
      workload.get? "worker_ids" = some (.list
        (((List.range length).map (ownerOf positions workers)).map Json.int)) ∧
      workload.get? "operations" = some (.list
        ((placeCore positions fault.core (List.range length)).map Op.toJson)) ∧
      workload.get? "jitter_us" = none := by
  unfold fixture at h
  split_ifs at h with hrange hone
  cases h
  exact ⟨hrange.1, _, List.perm_insertionSort _ _, rfl, rfl, rfl, rfl, rfl, rfl⟩

/-- The harness reads the owners and the operations as they were written. -/
theorem plan_of_fixture
    (h : fixture rng fault seed length workers density delayUs = .ok workload)
    (hplan : prepare workload workers budget = .ok plan) :
    plan.scenario.capacity = 256 ∧ 4 ≤ length ∧ 2 ≤ workers ∧ ∃ positions : List ℕ,
      positions.Perm (rng.sample seed length fault.core.length) ∧
      plan.assignments = (List.range length).map (fun i => (ownerOf positions workers i).toNat) ∧
      plan.scenario.operations = placeCore positions fault.core (List.range length) ∧
      plan.operations = plan.scenario.operations.map Op.toJson := by
  obtain ⟨hplan, -⟩ := prepare_eq_ok_iff.mp hplan
  obtain ⟨hscenario, hread, hworkers, hids⟩ := validateWorkerPlan_eq_ok hplan
  obtain ⟨-, hcapacity, elems, helems, hops⟩ := validate_ok_iff.mp hscenario
  obtain ⟨hlength, positions, hpositions, -, hcapacity', -, hids', helems', -⟩ := fixture_spec h
  have htwo := plan.two_le_workers
  -- the owners are the assignments of the plan
  have howners : (List.range length).map (ownerOf positions workers) =
      plan.assignments.map fun w : ℕ => (w : ℤ) := by
    have hlists : ((List.range length).map (ownerOf positions workers)).map Json.int =
        (plan.assignments.map fun w : ℕ => (w : ℤ)).map Json.int := by
      rw [workerIds, hids', Option.getD_some, Json.list.injEq] at hids
      rw [hids, List.map_map (f := fun w : ℕ => (w : ℤ))]
      rfl
    exact List.map_injective_iff.mpr (fun _ _ => Json.int.inj) hlists
  have hassignments : plan.assignments =
      (List.range length).map fun i => (ownerOf positions workers i).toNat := by
    have := congrArg (List.map Int.toNat) howners
    simpa [Function.comp_def] using this.symm
  obtain rfl := Json.list.inj (Option.some.inj (helems'.symm.trans helems))
  have hoperations : plan.scenario.operations = placeCore positions fault.core (List.range length) :=
    Except.ok.inj (hops.symm.trans (mapM_validateOp_toJson (fault.placeCore_valid _ _)))
  refine ⟨?_, hlength, by omega, positions, hpositions, hassignments, hoperations, ?_⟩
  · have := Json.int.inj (Option.some.inj (hcapacity'.symm.trans hcapacity))
    omega
  · rw [hread, operationsOf, helems, hoperations]

/-- The plan of a fixture has its core planted. -/
theorem planted_of_fixture
    (h : fixture rng fault seed length workers density delayUs = .ok workload)
    (hplan : prepare workload workers budget = .ok plan) : Planted plan fault.core := by
  obtain ⟨hcapacity, hlength, htwo, positions, hpositions, hassignments, hoperations, hread⟩ :=
    plan_of_fixture h hplan
  have hzero (i : ℕ) : (ownerOf positions workers i).toNat = 0 ↔ i ∈ positions := by
    obtain ⟨hnonneg, -, hmem⟩ := ownerOf_mem htwo positions i
    rw [← hmem]
    omega
  obtain ⟨hcore, hprobes⟩ := placeCore_spec hzero (length_positions hlength hpositions)
  rw [← hoperations, ← hassignments] at hcore hprobes
  have hcovers : plan.scenario.operations.length = plan.assignments.length := by
    rw [hoperations, length_placeCore, hassignments, List.length_map]
  refine ⟨hcapacity, ?hcore, ?hprobes, ?hoperation⟩
  case hcore =>
    rw [← hcore, ← map_getD_indexesOf hcovers 0 .clear]
    change (indexesOf plan.assignments 0).zipIdx.map (plan.op ∘ Prod.fst) = _
    rw [← List.map_map, List.zipIdx_map_fst]
    rfl
  case hprobes =>
    intro i w hw hne
    obtain ⟨hi, rfl⟩ := List.getElem?_eq_some_iff.mp hw
    have hi' : i < plan.scenario.operations.length := hcovers ▸ hi
    have hmem : (plan.scenario.operations[i], plan.assignments[i]) ∈
        plan.scenario.operations.zip plan.assignments := by
      rw [← List.getElem_zip (h := by simp [hi, hi'])]
      exact List.getElem_mem _
    rw [Plan.op, List.getD_eq_getElem _ _ hi']
    exact hprobes _ hmem hne
  case hoperation =>
    intro i hi
    rw [hread, List.length_map] at hi
    rw [Plan.operation, Plan.op, hread, List.getD_eq_getElem _ _ (by simpa using hi),
      List.getD_eq_getElem _ _ hi, List.getElem_map]

/-- Every fixture within bounds is accepted by the harness. -/
theorem exists_prepare_fixture (rng : Rng) (fault : ResearchFault) (seed : ℤ) (density : Density)
    (delayUs : ℤ) (hlength : 4 ≤ length ∧ length ≤ 12) (hworkers : 2 ≤ workers ∧ workers ≤ 4)
    (hbudget : 1 ≤ budget ∧ budget ≤ 100000) :
    ∃ workload plan, fixture rng fault seed length workers density delayUs = .ok workload ∧
      prepare workload workers budget = .ok plan := by
  obtain ⟨workload, hfixture⟩ : ∃ workload,
      fixture rng fault seed length workers density delayUs = .ok workload := by
    rw [fixture, if_neg (not_not.mpr hlength), if_neg (by omega)]
    exact ⟨_, rfl⟩
  obtain ⟨-, positions, -, hversion, hcapacity, -, hids, hops, hjitter⟩ := fixture_spec hfixture
  have hcount := length_placeCore positions fault.core (List.range length)
  rw [List.length_range] at hcount
  have hvalid := fault.placeCore_valid positions (List.range length)
  set ops := placeCore positions fault.core (List.range length)
  have hscenario : validate workload = .ok
      { capacity := 256
        operations := ops
        minCapacity_le := by decide
        le_maxCapacity := by decide
        operations_valid := hvalid
        operations_pos := by omega
        operations_le := hcount.le.trans (hlength.2.trans (by decide)) } :=
    validate_ok_iff.mpr ⟨⟨_, hversion, by simp⟩, hcapacity, _, hops, mapM_validateOp_toJson hvalid⟩
  have howner := ownerOf_mem hworkers.1 positions
  have hoperations : operationsOf workload = ops.map Op.toJson := by rw [operationsOf, hops]
  have howners : workerIds workload workers (operationsOf workload).length = .list
      (((List.range length).map fun i => (ownerOf positions workers i).toNat).map
        fun w : ℕ => Json.int w) := by
    rw [workerIds, hids, Option.getD_some, List.map_map, List.map_map]
    refine congrArg Json.list (List.map_congr_left fun i _ => ?_)
    exact congrArg Json.int (Int.toNat_of_nonneg (howner i).1).symm
  obtain ⟨plan, hplan⟩ := exists_validateWorkerPlan hscenario hworkers
    (by rw [hoperations, List.length_map, hcount]; exact hlength.2) howners
    (by rw [hoperations]; simp [hcount]) fun w hw => by
      obtain ⟨i, -, rfl⟩ := List.mem_map.mp hw
      have := howner i
      omega
  refine ⟨workload, plan, hfixture, prepare_eq_ok_iff.mpr ⟨hplan, ⟨0, ?_⟩, hbudget⟩⟩
  rw [checkJitter, hjitter]

/-- Every fixture within bounds can be run to its end. -/
theorem exists_execute (rng : Rng) (fault : ResearchFault) (seed : ℤ) (density : Density)
    (delayUs : ℤ) (adapter : FIFOAdapter) (trialSeed : ℤ) (hlength : 4 ≤ length ∧ length ≤ 12)
    (hworkers : 2 ≤ workers ∧ workers ≤ 4)
    (hbudget : 1 ≤ adapter.searchBudget ∧ adapter.searchBudget ≤ 100000) :
    ∃ workload result, fixture rng fault seed length workers density delayUs = .ok workload ∧
      adapter.Execute rng workload trialSeed (.ok result) := by
  obtain ⟨workload, plan, hfixture, hprepare⟩ :=
    exists_prepare_fixture rng fault seed density delayUs hlength hworkers hbudget
  obtain ⟨-, -, -, -, -, hcount, -⟩ := fixture_spec hfixture
  -- a run that has not begun can go on to its end
  have hstart : Run (Step (.locked ResearchDevice.apply) plan) (.start
      (.new plan.scenario.capacity adapter.fault (adapter.active rng trialSeed)) 0) [] _ := .nil
  obtain ⟨tr, s, hrun, hfinished⟩ :=
    exists_finished (fun last => ⟨last, le_refl last⟩) (fun _ _ _ _ => ⟨_, _, rfl⟩) hstart
  exact ⟨workload, _, hfixture, .ran hcount hprepare hrun hfinished⟩

end Planted

/-! ## Labels -/

section Labels

variable {rng : Rng} {adapter : FIFOAdapter} {trialSeed : ℤ} {plan : Plan} {clock : ℕ}
  {tr : List (Fin plan.workers)} {s : State plan.workers ResearchDevice}

/-- A device that returns a result for every operation within bounds leaves a complete recording. -/
theorem Planted.complete_of_total {δ : Type} {apply : δ → Json → Except Exc (Json × δ)}
    {core : List Op} (hplanted : Planted plan core)
    (htotal : ∀ (device : δ) {op : Op}, op.Valid →
      ∃ result : Result, ∃ device', apply device op.toJson = .ok (result.toJson, device'))
    {device : δ} {s : State plan.workers δ}
    (hrun : Run (Step (.locked apply) plan) (.start device clock) tr s)
    (hrunning : ∀ w, s.workers w = .running []) : Complete plan s.history := by
  refine complete_of_run (fun _ _ h => h) (fun e he => ?_) hrun hrunning
  refine outcome_of_run (P := fun outcome => ∃ result : Result, outcome = .ok result.toJson)
    (fun device index outcome device' hindex happly => ?_) hrun (x := (e.toCall, e.outcome))
    (.inr ⟨e, he, rfl⟩)
  have hvalid := validateOp_valid (plan.validateOp_operation hindex)
  obtain ⟨result, device'', hresult⟩ := htotal device hvalid
  have happly : attempt apply device (plan.operation index) = (outcome, device') := happly
  rw [hplanted.operation index hindex, attempt, hresult] at happly
  exact ⟨result, (congrArg Prod.fst happly).symm⟩

/-- On a fixture the research device returns a result for every call. -/
theorem Planted.complete {core : List Op} (hplanted : Planted plan core) {device : ResearchDevice}
    (hrun : Run (Step (.locked ResearchDevice.apply) plan) (.start device clock) tr s)
    (hrunning : ∀ w, s.workers w = .running []) : Complete plan s.history :=
  hplanted.complete_of_total (fun device _ hop => device.apply_toJson hop) hrun hrunning

/-- Alone, the core of a deterministic fault is not answered as the model answers it. -/
theorem core_differs {fault : ResearchFault} (hnone : fault ≠ .none)
    (hintermittent : fault ≠ .intermittentEof) :
    Json.eqList (((ReferenceModel.new 256).run fault.core).1.map Result.toJson)
      ((attempts ResearchDevice.apply (.new 256 fault true) (fault.core.map Op.toJson)).1.map
        fun outcome => outcome.toOption.getD .null) = false := by
  cases fault with
  | none => exact absurd rfl hnone
  | intermittentEof => exact absurd rfl hintermittent
  | _ => decide +kernel

/-- The first worker calls the operations of the core. -/
theorem Planted.map_operation {core : List Op} (hplanted : Planted plan core) :
    (plan.tasks 0).map (fun task => plan.operation task.1) = core.map Op.toJson := by
  rw [← hplanted.core, List.map_map]
  refine List.map_congr_left fun task htask => hplanted.operation _ ?_
  rw [← plan.assignments_length]
  exact (List.getElem?_eq_some_iff.mp (mem_tasksOf_iff.mp htask).1).1

/-- What a worker other than the first calls is a query of the capacity. -/
theorem Planted.probe {core : List Op} (hplanted : Planted plan core) {i w : ℕ}
    (hw : plan.assignments[i]? = some w) (hne : w ≠ 0) :
    plan.op i = .capacity ∧ plan.operation i = Op.capacity.toJson := by
  have hprobe := hplanted.probes i w hw hne
  have hlt := plan.assignments_length ▸ (List.getElem?_eq_some_iff.mp hw).1
  exact ⟨hprobe, by rw [hplanted.operation i hlt, hprobe]⟩

/-- A worker that only queries the capacity changes neither the device nor the model. -/
theorem Planted.others {core : List Op} (hplanted : Planted plan core) {i w : ℕ}
    (hw : plan.assignments[i]? = some w) (hne : w ≠ 0) :
    (∀ device, (attempt ResearchDevice.apply device (plan.operation i)).2 = device) ∧
      ∀ model : ReferenceModel, (model.apply (plan.op i)).2 = model := by
  obtain ⟨hop, hoperation⟩ := hplanted.probe hw hne
  rw [hoperation, hop]
  exact ⟨ResearchDevice.attempt_capacity, fun _ => rfl⟩

/-- Without a fault the research device is the simulated device. -/
theorem run_simulated
    (h : Run (Step (.locked ResearchDevice.apply) plan)
      (.start (.new plan.scenario.capacity .none true) clock) tr s) :
    ∃ device, Run (Step .simulated plan) (.start (.new plan.scenario.capacity .none) clock) tr
      (s.withDevice device) := by
  refine run_simulate (R := fun (d : ResearchDevice) (d' : SimulatedDevice) =>
    d.fault = .none ∧ d' = d.toSimulated) (fun _ _ h => h) ?_ h ⟨rfl, rfl⟩
  rintro ⟨capacity, queue, fault⟩ _ op outcome d₁ ⟨rfl, rfl⟩ ⟨typed, htyped⟩ happly
  have happly : attempt ResearchDevice.apply ⟨capacity, queue, .none⟩ op = (outcome, d₁) := happly
  simp only [attempt, ResearchDevice.apply, ResearchDevice.superApply, SimulatedDevice.applyJson,
    readOp_of_validateOp htyped] at happly
  obtain ⟨rfl, rfl⟩ := Prod.mk.inj happly
  refine ⟨_, ⟨typed, htyped, rfl, rfl⟩, rfl, ?_⟩
  -- the state after the call, its fault apart, is taken over
  have hfault : ((ResearchDevice.mk capacity queue .none).toSimulated.apply typed).2.fault = .none :=
    SimulatedDevice.fault_apply _ _
  change _ = SimulatedDevice.mk _ _ Fault.none
  rw [← hfault]

end Labels

/-- Research fixtures are never mislabelled. Wherever the core is placed, and under every schedule of
the workers and every search budget, the adapter with the fault of the fixture reports no pass if the
fault is deterministic, and no failure if there is none. -/
theorem fixture_never_mislabelled {rng : Rng} {seed trialSeed workers delayUs : ℤ} {length : ℕ}
    {density : Density} {adapter : FIFOAdapter} {workload result : Json}
    (hfixture : fixture rng adapter.fault seed length workers density delayUs = .ok workload)
    (hexecute : adapter.Execute rng workload trialSeed (.ok result)) :
    (adapter.fault ≠ .none → adapter.fault ≠ .intermittentEof →
      result.get? "status" ≠ some (.str "pass")) ∧
    (adapter.fault = .none → result.get? "status" ≠ some (.str "fail")) := by
  cases hexecute with
  | @ran workers' plan clock tr s hworkers hprepare hrun hfinished =>
  obtain ⟨-, -, -, -, -, hcount, -⟩ := fixture_spec hfixture
  obtain rfl : workers = workers' := Except.ok.inj (hcount.symm.trans hworkers)
  have hplanted := planted_of_fixture hfixture hprepare
  obtain ⟨-, -, hbudget⟩ := prepare_eq_ok_iff.mp hprepare
  constructor
  · intro hnone hintermittent hpass
    obtain ⟨order, explored, hev⟩ := FIFOAdapter.judge_pass hpass
    obtain ⟨hexception, hrunning⟩ := running_of_checked hfinished hev
    have hcomplete := hplanted.complete hrun hrunning
    -- the recording has an explanation
    rw [hexception, hcomplete.evaluate_eq hbudget, Evaluation.checked.injEq] at hev
    have hwitness := hcomplete.toHistory.check_spec adapter.searchBudget.toNat
    rw [hev] at hwitness
    have hactive : adapter.active rng trialSeed = true := by
      simp [FIFOAdapter.active, hintermittent]
    -- so the core is answered as by the model
    have hagrees := agrees_of_witness (v := ⟨0, by have := plan.two_le_workers; omega⟩)
      (fun i w hw hne => hplanted.others hw hne) hrun hrunning hcomplete hwitness
    rw [hplanted.capacity, hplanted.core, hplanted.map_operation, hactive,
      core_differs hnone hintermittent] at hagrees
    cases hagrees
  · intro hnone hfail
    obtain ⟨explored, hev⟩ := FIFOAdapter.judge_fail hfail
    obtain ⟨hexception, hrunning⟩ := running_of_checked hfinished hev
    have hactive : (ResearchDevice.new plan.scenario.capacity adapter.fault
        (adapter.active rng trialSeed)) = .new plan.scenario.capacity .none true := by
      simp [ResearchDevice.new, hnone]
    rw [hactive] at hrun
    obtain ⟨device, hsimulated⟩ := run_simulated hrun
    have hcomplete := complete_of_finished hsimulated hrunning
    obtain ⟨order, heffects⟩ := effects_of_run hsimulated
    obtain ⟨indexes, hwitness⟩ := heffects.isWitness hrunning hcomplete
    have hcheck : evaluate plan adapter.searchBudget s.history none = _ :=
      hcomplete.evaluate_eq hbudget
    rw [hexception, hcheck, Evaluation.checked.injEq] at hev
    have hno := hcomplete.toHistory.check_spec adapter.searchBudget.toNat
    rw [hev] at hno
    exact hno indexes hwitness

/-- Random numbers that are as small as they can be; a sample of one out of four begins so under the
seed 2. -/
def Rng.smallest : Rng where
  sample _ length count := List.range (min count length)
  random _ := 0
  sample_nodup _ _ _ := List.nodup_range
  sample_lt _ _ _ i hi := (List.mem_range.mp hi).trans_le (min_le_right _ _)
  length_sample _ _ _ h := by rw [List.length_range, min_eq_left h]

/-- `FIFOAdapter("false-eof")`. -/
def FIFOAdapter.falseEof : FIFOAdapter where
  fault := .falseEof
  probability := 7 / 10
  searchBudget := 10000
  probability_nonneg := by norm_num
  probability_le_one := by norm_num

/-- A fixture with `false-eof` does not pass, whichever schedule its trial runs under. -/
theorem fixture_never_mislabelled_falseEof : ∃ workload result,
    fixture .smallest .falseEof 2 4 2 .sparse 0 = .ok workload ∧
      FIFOAdapter.falseEof.Execute .smallest workload 0 (.ok result) ∧
      result.get? "status" ≠ some (.str "pass") := by
  obtain ⟨workload, result, hfixture, hexecute⟩ :=
    exists_execute .smallest .falseEof 2 .sparse 0 .falseEof 0 (show 4 ≤ 4 ∧ 4 ≤ 12 by decide)
      (show (2 : ℤ) ≤ 2 ∧ (2 : ℤ) ≤ 4 by decide) (by decide)
  exact ⟨workload, result, hfixture, hexecute,
    (fixture_never_mislabelled hfixture hexecute).1 (by decide) (by decide)⟩

end Lab
