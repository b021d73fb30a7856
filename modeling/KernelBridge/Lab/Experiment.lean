import KernelBridge.Lab.Corpus
import KernelBridge.Lab.Schedulable
import KernelBridge.Lab.Unanimous

/-!
# The experiments

`lab/experiment.py` reduces every fixture of its corpus with `reduce_concurrent`, whose evaluator is
`evaluate_concurrent` on the simulated device with the fault of the fixture. Here the evaluator is
any one whose answers are those of runs of the harness (`Harness`): nothing is assumed of the
schedules of the trials.

A trial of a part that has the whole core fails or is inconclusive, and a trial of any other part
passes or is inconclusive (`Shows`). So a reduction gives up none of the core, and it ends with the
core alone if no trial was inconclusive and its budget sufficed (`reduceConcurrent_fixture`).
-/

namespace Lab.Experiment

open Py Lts Replay

/-! ## Parts with the core -/

/-- The worker of an operation. -/
def ownerAt (positions : List ℕ) (workers : ℤ) (i : ℕ) : ℕ := (ownerOf positions workers i).toNat

section Parts

variable {scenario : Json} {steps : ℕ} {workers budget : ℤ} {fault : Fault} {positions ids : List ℕ}

/-- The first worker has the operations of the core and no others. -/
theorem ownerAt_eq_zero_iff (hworkers : 2 ≤ workers) (i : ℕ) :
    ownerAt positions workers i = 0 ↔ i ∈ positions := by
  obtain ⟨hnonneg, -, hmem⟩ := ownerOf_mem hworkers positions i
  rw [← hmem, ownerAt]
  omega

/-- The owner of an operation as the fixture writes it. -/
theorem int_ownerAt (hworkers : 2 ≤ workers) (i : ℕ) :
    (ownerAt positions workers i : ℤ) = ownerOf positions workers i :=
  Int.toNat_of_nonneg (ownerOf_mem hworkers positions i).1

/-- What is left of the core in a part of the operations. -/
def left (positions ids : List ℕ) : List ℕ := ids.filter (· ∈ positions)

/-- The positions that are left are in order. -/
theorem left_sorted (hids : ids.Sublist (List.range steps)) :
    (left positions ids).Pairwise (· < ·) :=
  (List.pairwise_lt_range.sublist hids).filter _

namespace Places

variable {core : List Op} (h : Places steps core positions)
  (hids : ids.Sublist (List.range steps))

include h hids

/-- The positions that are left are positions of the core. -/
theorem left_sublist : (left positions ids).Sublist positions :=
  Workload.sublist_of_subset (left_sorted hids) h.sorted fun _ hi =>
    of_decide_eq_true (List.mem_filter.mp hi).2

/-- A part with the whole core has it in its order. -/
theorem left_eq (hwhole : positions ⊆ ids) : left positions ids = positions := by
  have hsub : positions ⊆ left positions ids := fun i hi =>
    List.mem_filter.mpr ⟨hwhole hi, decide_eq_true hi⟩
  exact (h.left_sublist hids).antisymm
    (Workload.sublist_of_subset h.sorted (left_sorted hids) hsub)

/-- A part without some of the core has less of it. -/
theorem length_left_lt (hpart : ¬positions ⊆ ids) :
    (left positions ids).length < positions.length := by
  refine lt_of_le_of_ne (h.left_sublist hids).length_le fun hlength => hpart fun i hi => ?_
  rw [← (h.left_sublist hids).eq_of_length hlength] at hi
  exact (List.mem_filter.mp hi).1

end Places

end Parts

/-! ## Trials of parts -/

/-- The evaluator answers as `evaluate_concurrent` does on the simulated device with the fault, each
time under some schedule of the workers. -/
def Harness {τ : Type} (fault : Fault) (evaluator : Evaluator τ) : Prop :=
  ∀ state candidate workers budget,
    Trial fault candidate workers budget (evaluator state candidate workers budget).1

/-- What a trial of a part shows, which has the whole core or not. -/
inductive Shows (fault : Fault) (whole : Prop) (trial : Json) : Prop
  | pass (hstatus : trial.get? "status" = some (.str "pass")) (hpart : fault = .none ∨ ¬whole)
  | fail (hstatus : trial.get? "status" = some (.str "fail")) (hmatched : matched trial = true)
      (hfault : fault ≠ .none) (hwhole : whole)
  | inconclusive (hstatus : trial.get? "status" = some (.str "inconclusive"))

section Shows

variable {fault : Fault} {whole : Prop} {trial : Json}

/-- A trial with another status than `fail` does not match. -/
theorem not_matched_of_status {status : String}
    (hstatus : trial.get? "status" = some (.str status)) (hne : status ≠ "fail") :
    matched trial = false := by
  simp [matched, hstatus, hne]

/-- A trial has a status. -/
theorem Shows.exists_status (h : Shows fault whole trial) :
    ∃ status : String, trial.get? "status" = some (.str status) := by
  cases h with
  | pass hstatus | fail hstatus | inconclusive hstatus => exact ⟨_, hstatus⟩

/-- The failure is the fault's, and shows with the whole core only. -/
theorem Shows.of_matched (h : Shows fault whole trial) (hmatched : matched trial = true) :
    fault ≠ .none ∧ whole := by
  cases h with
  | fail _ _ hfault hwhole => exact ⟨hfault, hwhole⟩
  | pass hstatus | inconclusive hstatus =>
    rw [not_matched_of_status hstatus (by decide)] at hmatched
    cases hmatched

/-- With the whole core the failure shows, or nothing does. -/
theorem Shows.of_whole (h : Shows fault whole trial) (hfault : fault ≠ .none) (hwhole : whole) :
    matched trial = true ∨ trial.get? "status" = some (.str "inconclusive") := by
  cases h with
  | pass _ hpart => exact (hpart.elim hfault fun hno => hno hwhole).elim
  | fail _ hmatched => exact .inl hmatched
  | inconclusive hstatus => exact .inr hstatus

end Shows

/-- The dict that `evaluate_concurrent` returns, with its history. -/
def report (ev : Evaluation) (history : List Recorded) : Json :=
  Json.set "history" (.list (history.map Recorded.toJson)) ev.toJson

/-- The status of the report of a trial. -/
theorem get?_status_report (ev : Evaluation) (history : List Recorded) :
    (report ev history).get? "status" = some (.str ev.status) := by
  cases ev with
  | checked verdict => cases verdict <;> rfl
  | _ => rfl

/-- A refuted history matches. -/
theorem matched_report (explored : ℕ) (history : List Recorded) :
    matched (report (.checked (.fail explored)) history) = true := rfl

/-- The results of a trial: a pass, a failure or an inconclusive one. -/
theorem status_cases (ev : Evaluation) :
    (∃ order explored, ev = .checked (.pass order explored)) ∨
      (∃ explored, ev = .checked (.fail explored)) ∨ ev.status = "inconclusive" := by
  cases ev with
  | checked verdict =>
    cases verdict with
    | pass order explored => exact .inl ⟨order, explored, rfl⟩
    | fail explored => exact .inr (.inl ⟨explored, rfl⟩)
    | inconclusive reason explored => exact .inr (.inr rfl)
  | _ => exact .inr (.inr rfl)

section Trials

variable {scenario : Json} {steps : ℕ} {workers budget : ℤ} {fault : Fault} {positions : List ℕ}
  (h : Hides scenario steps workers (core fault) positions) {c : Candidate}

include h

/-- What the fixture and its owners say of its parts. -/
theorem Hides.part (hc : c.PartOf scenario ((List.range steps).map (ownerAt positions workers))) :
    c.scenario.get? "capacity" = some (.int 256) ∧
      c.scenario.get? "operations" =
        some (.list (c.ids.map fun i => (opAt positions (core fault) i).toJson)) ∧
      c.scenario.get? "worker_ids" =
        some (.list (c.ids.map fun i => Json.int (ownerAt positions workers i))) := by
  have hread : operationsOf scenario =
      (List.range steps).map fun i => (opAt positions (core fault) i).toJson := by
    rw [operationsOf, h.operations]
  have hlt (i : ℕ) (hi : i ∈ c.ids) : i < steps := by
    have := List.mem_range.mp (hc.ids.subset hi)
    rwa [hread, List.length_map, List.length_range] at this
  refine ⟨by rw [hc.frame _ (by decide) (by decide), h.capacity], ?_, ?_⟩
  · rw [hc.operations, hread]
    refine congrArg (fun l => some (Json.list l)) (List.map_congr_left fun i hi => ?_)
    simp [hlt i hi]
  · rw [hc.owners]
    refine congrArg (fun l => some (Json.list l)) (List.map_congr_left fun i hi => ?_)
    simp [hlt i hi]

/-- The indexes of a candidate of a fixture are in order. -/
theorem Hides.ids_sublist
    (hc : c.PartOf scenario ((List.range steps).map (ownerAt positions workers))) :
    c.ids.Sublist (List.range steps) := by
  have hids := hc.ids
  rwa [operationsOf, h.operations, List.length_map, List.length_range] at hids

variable (hworkers : 2 ≤ workers)

include hworkers

/-- A part is planted with what it has of the core. -/
theorem Hides.planted (hc : c.PartOf scenario ((List.range steps).map (ownerAt positions workers)))
    {plan : Plan} (hplan : prepare c.scenario workers budget = .ok plan) :
    Planted plan ((left positions c.ids).map (opAt positions (core fault))) := by
  obtain ⟨hcapacity, hoperations, howners⟩ := h.part hc
  have hplanted := planted_of_lists hplan hcapacity hoperations howners
    (h.places.opAt_valid (core_valid fault)) fun i hi =>
      opAt_of_notMem ((ownerAt_eq_zero_iff hworkers i).not.mp hi)
  simpa only [ownerAt_eq_zero_iff hworkers, left] using hplanted

/-- A trial of a part. -/
theorem Hides.shows (hc : c.PartOf scenario ((List.range steps).map (ownerAt positions workers)))
    {trial : Json} (htrial : Trial fault c.scenario workers budget (.ok trial)) :
    Shows fault (positions ⊆ c.ids) trial := by
  cases htrial with
  | @ran plan clock tr s hprepare hrun hfinished =>
  have hplanted := h.planted hworkers hc hprepare
  obtain ⟨-, -, hbudget⟩ := prepare_eq_ok_iff.mp hprepare
  have hids := h.ids_sublist hc
  have hcore := map_opAt h.places.nodup h.places.length
  change Shows fault _ (report (evaluate plan budget s.history s.exception) s.history)
  have hstatus := get?_status_report (evaluate plan budget s.history s.exception) s.history
  rcases status_cases (evaluate plan budget s.history s.exception) with ⟨order, explored, hev⟩ |
    ⟨explored, hev⟩ | hev
  · refine .pass (by rw [hstatus, hev]; rfl) ?_
    by_contra hno
    obtain ⟨hfault, hwhole⟩ := not_or.mp hno
    rw [h.places.left_eq hids (not_not.mp hwhole), hcore] at hplanted
    exact not_pass hplanted hfault hbudget hrun hfinished order explored hev
  · have hnoticed :
        ¬Unnoticed fault ((left positions c.ids).map (opAt positions (core fault))) := by
      intro hunnoticed
      refine not_fail hplanted (fun op hop => ?_) hunnoticed hbudget hrun hfinished explored hev
      obtain ⟨i, -, rfl⟩ := List.mem_map.mp hop
      exact h.places.opAt_valid (core_valid fault) i
    refine .fail (by rw [hstatus, hev]; rfl) (by rw [hev, matched_report]) ?_ ?_
    · rintro rfl
      exact hnoticed (unnoticed_none _)
    · by_contra hpart
      refine hnoticed (unnoticed_of_sublist ?_ ?_)
      · have hsub := (h.places.left_sublist hids).map (opAt positions (core fault))
        rwa [hcore] at hsub
      · rw [List.length_map, ← h.places.length]
        exact h.places.length_left_lt hids hpart
  · exact .inconclusive (by rw [hstatus, hev])

/-- The scenario has these operations in their order, all of them for the first worker. -/
def HasCore (scenario : Json) (core : List Op) : Prop :=
  (core.map fun op => (op.toJson, Json.int 0)).Sublist
    ((operationsOf scenario).zip (ownersOf scenario))

/-- The scenario has these operations and no others, all of them for the first worker. -/
def IsCore (scenario : Json) (core : List Op) : Prop :=
  operationsOf scenario = core.map Op.toJson ∧ ownersOf scenario = core.map fun _ => Json.int 0

/-- A part with the places of the core has the core. -/
theorem Hides.hasCore
    (hc : c.PartOf scenario ((List.range steps).map (ownerAt positions workers)))
    (hwhole : positions ⊆ c.ids) : HasCore c.scenario (core fault) := by
  obtain ⟨-, hoperations, howners⟩ := h.part hc
  have hcore : ((core fault).map fun op => (op.toJson, Json.int 0)) =
      positions.map fun i => ((opAt positions (core fault) i).toJson,
        Json.int (ownerAt positions workers i)) := by
    have hmap := congrArg (List.map fun op => (op.toJson, Json.int 0))
      (map_opAt h.places.nodup h.places.length)
    rw [← hmap, List.map_map]
    refine List.map_congr_left fun i hi => ?_
    rw [(ownerAt_eq_zero_iff hworkers i).mpr hi]
    rfl
  have hsub : positions.Sublist c.ids :=
    Workload.sublist_of_subset h.places.sorted
      (List.pairwise_lt_range.sublist (h.ids_sublist hc)) hwhole
  rw [HasCore, operationsOf, hoperations, ownersOf, howners, hcore, List.zip_map']
  exact hsub.map _

/-- A part with no other places is the core. -/
theorem Hides.isCore
    (hc : c.PartOf scenario ((List.range steps).map (ownerAt positions workers)))
    (hids : c.ids = positions) : IsCore c.scenario (core fault) := by
  obtain ⟨-, hoperations, howners⟩ := h.part hc
  have hcore := map_opAt h.places.nodup h.places.length
  rw [IsCore, operationsOf, hoperations, ownersOf, howners, hids]
  constructor
  · have hmap := congrArg (List.map Op.toJson) hcore
    rwa [List.map_map] at hmap
  · have hmap := congrArg (List.map fun _ => Json.int 0) hcore
    rw [List.map_map] at hmap
    rw [← hmap]
    refine List.map_congr_left fun i hi => ?_
    rw [(ownerAt_eq_zero_iff hworkers i).mpr hi]
    rfl

end Trials

/-! ## Groups -/

section Groups

variable {τ : Type} {evaluator : Evaluator τ} {options : Options} {fault : Fault}

/-- All trials of a group that was executed are trials of its candidate. -/
theorem trial_of_runTrials (hevaluator : Harness fault evaluator) {candidate : Json} {n : ℕ}
    {state state' : τ} {trials : List Json}
    (h : runTrials evaluator options candidate n state = .ok (trials, state')) :
    ∀ trial ∈ trials, Trial fault candidate options.workers options.searchBudget (.ok trial) := by
  induction n generalizing state trials with
  | zero =>
    cases h
    exact fun trial htrial => absurd htrial List.not_mem_nil
  | succ n ih =>
    obtain ⟨result, hresult, h⟩ := bind_eq_ok_iff.mp h
    obtain ⟨⟨rest, after⟩, hrest, h⟩ := bind_eq_ok_iff.mp h
    cases h
    rw [List.forall_mem_cons]
    exact ⟨hresult ▸ hevaluator state candidate _ _, ih hrest⟩

/-- No trial of the group is counted as inconclusive iff none was. -/
theorem inconclusive_eq_zero_iff {trials : List Json} {counts : Counts}
    (hstatus : ∀ trial ∈ trials, ∃ status : String, trial.get? "status" = some (.str status))
    (h : countStatuses trials = .ok counts) : counts.inconclusive = 0 ↔
      ∀ trial ∈ trials, trial.get? "status" ≠ some (.str "inconclusive") := by
  have hread : (trials.mapM fun trial => Dradd.field trial "status") =
      .ok (trials.map fun trial => (trial.get? "status").getD .null) := by
    refine mapM_eq_ok_iff.mpr (List.forall₂_map_right_iff.mpr (List.forall₂_same.mpr ?_))
    intro trial htrial
    obtain ⟨status, hget⟩ := hstatus trial htrial
    rw [field_of_get? hget, hget, Option.getD_some]
  rw [countStatuses, hread] at h
  cases h
  dsimp only
  rw [List.countP_map, List.countP_eq_zero]
  refine forall₂_congr fun trial htrial => ?_
  obtain ⟨status, hget⟩ := hstatus trial htrial
  simp [hget]

variable {group : Evidence} {state state' : τ} {whole : Prop}
  (hshows : ∀ trial ∈ group.trials, Shows fault whole trial)

include hshows

/-- Unanimous evidence is about a faulty device, and has the whole core. -/
theorem whole_of_unanimous (hne : group.trials ≠ []) (hunanimous : group.Unanimous) :
    fault ≠ .none ∧ whole := by
  obtain ⟨trial, htrial⟩ := List.exists_mem_of_ne_nil _ hne
  exact (hshows trial htrial).of_matched (hunanimous trial htrial)

/-- If no trial is inconclusive, they all show the failure or none does. -/
theorem decided_of_shows (hexecuted : group.Executed evaluator options state state')
    (hconclusive : group.counts.inconclusive = 0) (hfault : fault ≠ .none) :
    (whole → ∀ trial ∈ group.trials, matched trial = true) ∧
      (¬whole → ∀ trial ∈ group.trials, ¬matched trial = true) := by
  have hnone := (inconclusive_eq_zero_iff (fun trial htrial => (hshows trial htrial).exists_status)
    hexecuted.counts).mp hconclusive
  refine ⟨fun hwhole trial htrial => ?_, fun hpart trial htrial hmatched => ?_⟩
  · exact ((hshows trial htrial).of_whole hfault hwhole).resolve_right (hnone trial htrial)
  · exact hpart ((hshows trial htrial).of_matched hmatched).2

/-- With the whole core only an inconclusive trial keeps the evidence from being unanimous. -/
theorem inconclusive_of_not_unanimous (hexecuted : group.Executed evaluator options state state')
    (hfault : fault ≠ .none) (hwhole : whole) (hnot : ¬group.Unanimous) :
    group.counts.inconclusive ≠ 0 := fun hconclusive =>
  hnot ((decided_of_shows hshows hexecuted hconclusive hfault).1 hwhole)

end Groups

/-! ## Plans and workloads of fixtures -/

section Fixture

variable {scenario : Json} {steps : ℕ} {workers budget : ℤ} {fault : Fault} {positions : List ℕ}
  (h : Hides scenario steps workers (core fault) positions) (hsteps : 1 ≤ steps ∧ steps ≤ 12)
  (hworkers : 2 ≤ workers ∧ workers ≤ 4)

include h hsteps hworkers

/-- The harness accepts the fixture. -/
theorem Hides.exists_plan (hbudget : 1 ≤ budget ∧ budget ≤ 100000) :
    ∃ plan, prepare scenario workers budget = .ok plan := by
  set ops := (List.range steps).map (opAt positions (core fault)) with hops
  have hvalid : ∀ op ∈ ops, op.Valid := fun op hop => by
    obtain ⟨i, -, rfl⟩ := List.mem_map.mp hop
    exact h.places.opAt_valid (core_valid fault) i
  have hcount : ops.length = steps := by simp [hops]
  have helems : scenario.get? "operations" = some (.list (ops.map Op.toJson)) := by
    rw [h.operations, hops, List.map_map]
    rfl
  have hscenario : validate scenario = .ok
      { capacity := 256
        operations := ops
        minCapacity_le := by decide
        le_maxCapacity := by decide
        operations_valid := hvalid
        operations_pos := by omega
        operations_le := hcount.le.trans (hsteps.2.trans (by decide)) } :=
    validate_ok_iff.mpr ⟨⟨_, h.version, by simp⟩, h.capacity, _, helems,
      mapM_validateOp_toJson hvalid⟩
  have hread : operationsOf scenario = ops.map Op.toJson := by rw [operationsOf, helems]
  have hids : workerIds scenario workers (operationsOf scenario).length = .list
      (((List.range steps).map (ownerAt positions workers)).map fun w : ℕ => Json.int w) := by
    rw [workerIds, h.owners, Option.getD_some, List.map_map]
    refine congrArg Json.list (List.map_congr_left fun i _ => ?_)
    exact congrArg Json.int (int_ownerAt hworkers.1 i).symm
  obtain ⟨plan, hplan⟩ := exists_validateWorkerPlan hscenario hworkers
    (by rw [hread, List.length_map, hcount]; exact hsteps.2) hids
    (by rw [hread]; simp [hcount]) fun w hw => by
      obtain ⟨i, -, rfl⟩ := List.mem_map.mp hw
      rw [int_ownerAt hworkers.1]
      exact (ownerOf_mem hworkers.1 positions i).2.1
  refine ⟨plan, prepare_eq_ok_iff.mpr ⟨hplan, ⟨0, ?_⟩, hbudget⟩⟩
  rw [checkJitter, h.noJitter]

/-- The operations of the fixture and their owners are a workload without dependencies. -/
theorem Hides.exists_workload : ∃ w : Workload, Shares scenario workers w ∧ Unrestricted w ∧
    w.operations = (List.range steps).map (fun i => (opAt positions (core fault) i).toJson) ∧
    w.owners = (List.range steps).map (ownerAt positions workers) := by
  set operations := (List.range steps).map fun i => (opAt positions (core fault) i).toJson
  set owners := (List.range steps).map (ownerAt positions workers)
  have hlt : ∀ v ∈ owners, (v : ℤ) < workers := fun v hv => by
    obtain ⟨i, -, rfl⟩ := List.mem_map.mp hv
    rw [int_ownerAt hworkers.1]
    exact (ownerOf_mem hworkers.1 positions i).2.1
  have hcount : operations.length = steps := by simp [operations]
  have hdescribes : Workload.Describes [("operations", .list operations), ("workers", .int workers),
      ("worker_ids", .list (owners.map fun v : ℕ => Json.int v))] operations owners [] := by
    refine ⟨rfl, by omega, ⟨workers.toNat, ?_, by omega, by omega, fun v hv => ?_⟩, rfl,
      by simp [owners, hcount], ⟨[], rfl, rfl⟩, List.nodup_nil⟩
    · rw [Int.toNat_of_nonneg (by omega)]
      rfl
    · have := hlt v hv
      omega
  -- the operations in their order are a schedule
  have hschedule : Schedulable owners ([] : List (Edge operations.length)) := by
    have hplace (i : ℕ) (hi : i < operations.length) :
        (List.range operations.length).idxOf i = i := by
      have hplace := List.nodup_range.idxOf_getElem i (hi.trans_eq List.length_range.symm)
      rwa [List.getElem_range] at hplace
    refine ⟨List.range operations.length, .refl _, fun i j hij hj _ => ?_, by simp⟩
    rwa [hplace i (hij.trans hj), hplace j hj]
  obtain ⟨hoperations, hedges, hordered, -⟩ := Workload.exists_of_schedulable hdescribes hschedule
  refine ⟨⟨_, operations, owners, [], hoperations, hedges, hordered⟩, ⟨?_, ?_, hlt⟩,
    fun edge hedge => ?_, rfl, rfl⟩
  · rw [operationsOf, h.operations]
  · rw [workerIds, h.owners, Option.getD_some, List.map_map]
    refine congrArg Json.list (List.map_congr_left fun i _ => ?_)
    exact congrArg Json.int (int_ownerAt hworkers.1 i).symm
  · cases hedge

end Fixture

/-! ## Outcomes -/

section Outcomes

variable {τ : Type} {evaluator : Evaluator τ} {options : Options} {scenario : Json}

/-- The outcome, from the counts of the trials. -/
theorem outcome_of_summarize {confirmed : Bool} {counts : Counts} {s : Search τ}
    {summary : Summary} (h : summarize options scenario confirmed counts s = .ok summary) :
    summary.outcome = if confirmed then .executableReproducerFound
      else if counts.inconclusive ≠ 0 then .inconclusive else .reproductionFailed := by
  obtain ⟨_, -, h⟩ := bind_eq_ok_iff.mp h
  obtain ⟨_, -, h⟩ := bind_eq_ok_iff.mp h
  obtain ⟨_, -, h⟩ := bind_eq_ok_iff.mp h
  obtain ⟨_, -, h⟩ := bind_eq_ok_iff.mp h
  obtain ⟨_, -, h⟩ := bind_eq_ok_iff.mp h
  cases h
  rfl

/-- The outcome is what the last group shows of the scenario that is returned. -/
theorem outcome_of_reduceConcurrent {fuel : ℕ} {state after : τ} {final : Json} {summary : Summary}
    (h : reduceConcurrent evaluator options fuel scenario state =
      .ok (some ((final, summary), after))) :
    ∃ last, summary.candidateEvidence.getLast? = some last ∧
      summary.outcome = if last.accepted options then .executableReproducerFound
        else if last.counts.inconclusive ≠ 0 then .inconclusive else .reproductionFailed := by
  obtain ⟨owners, -, h⟩ := bind_eq_ok_iff.mp h
  obtain ⟨⟨⟨verdict, counts⟩, s⟩, hinitial, h⟩ := bind_eq_ok_iff.mp h
  obtain ⟨first, _, -, -, -, rfl, rfl, hs⟩ := replay_ok hinitial
  dsimp only at h
  by_cases haccepted : first.accepted options = true
  · rw [if_pos haccepted] at h
    split at h
    · cases h
    next result hrun =>
    obtain ⟨s', -, h⟩ := bind_eq_ok_iff.mp h
    obtain ⟨⟨⟨confirmed, counts'⟩, t⟩, hconfirm, h⟩ := bind_eq_ok_iff.mp h
    obtain ⟨last, _, -, -, -, rfl, rfl, rfl⟩ := replay_ok hconfirm
    obtain ⟨summary', hsummary, h⟩ := bind_eq_ok_iff.mp h
    cases h
    obtain ⟨hevidence, -, -⟩ := summarize_ok hsummary
    refine ⟨last, ?_, outcome_of_summarize hsummary⟩
    rw [hevidence]
    exact List.getLast?_concat
  · rw [if_neg haccepted] at h
    obtain ⟨summary', hsummary, h⟩ := bind_eq_ok_iff.mp h
    cases h
    obtain ⟨hevidence, -, -⟩ := summarize_ok hsummary
    refine ⟨first, ?_, ?_⟩
    · rw [hevidence, hs]
      exact List.getLast?_concat
    · rw [outcome_of_summarize hsummary, if_neg haccepted]
      rfl

end Outcomes

/-! ## Reductions -/

/-- Every group of a run was executed. -/
theorem executed_of_accounted {τ : Type} {evaluator : Evaluator τ} {options : Options}
    {scenario : Json} {owners : List ℕ} {state after : τ} {final : Json} {summary : Summary}
    (h : Accounted evaluator options scenario owners state final summary after) :
    ∀ group ∈ summary.candidateEvidence, ∃ before behind : τ,
      group.Executed evaluator options before behind := by
  have htried {c₀ current : Candidate} {state₀ state₁ : τ} {groups : List Evidence}
      (hreplayed : Replayed evaluator options scenario owners c₀ state₀ groups current state₁) :
      ∀ group ∈ groups, ∃ before behind : τ, group.Executed evaluator options before behind := by
    induction hreplayed with
    | start => exact fun group hgroup => absurd hgroup List.not_mem_nil
    | accepted _ htries _ ih | rejected _ htries _ ih =>
      rw [List.forall_mem_append, List.forall_mem_singleton]
      exact ⟨ih, _, _, htries.executed⟩
  obtain ⟨first, state₀, hexecuted, -, -, hcases⟩ := h.account
  rcases hcases with ⟨-, hhalted⟩ | ⟨-, groups, current, state₁, last, hconfirmed⟩
  · rw [hhalted.evidence, List.forall_mem_singleton]
    exact ⟨_, _, hexecuted⟩
  · rw [hconfirmed.evidence, List.forall_mem_cons, List.forall_mem_append,
      List.forall_mem_singleton]
    exact ⟨⟨_, _, hexecuted⟩, htried hconfirmed.replayed, _, _, hconfirmed.executed⟩

/-- What no single deletion makes smaller without losing some of the core is the core. -/
theorem subset_of_minimal {options : Options} {w : Workload} {positions ids : List ℕ}
    (hminimal : (method options (test w fun ids => positions ⊆ ids)).Minimal ids)
    (hvalid : w.valid ids = true) (hfree : Unrestricted w) (hwhole : positions ⊆ ids)
    (hne : positions ≠ []) : ids ⊆ positions := by
  intro i hi
  by_contra hnot
  have hnodup : ids.Nodup := (w.valid_iff.mp hvalid).2.1.imp ne_of_lt
  -- no operation of the core is the one that is left out
  have hcore : positions ⊆ ids.erase i := fun k hk => by
    have hk' : k ≠ i := fun heq => hnot (heq ▸ hk)
    exact (List.mem_erase_of_ne hk').mpr (hwhole hk)
  obtain ⟨j, hj⟩ := List.exists_mem_of_ne_nil _ hne
  have hmem := hcore hj
  rcases hminimal with hone | hall
  · have hlength := List.length_erase_of_mem hi
    have hpos := List.length_pos_of_mem hmem
    omega
  · have hrejected := hall (ids.idxOf i) (List.idxOf_lt_length_of_mem hi)
    have hdelete : Deletion.delete 1 (ids.idxOf i) ids = ids.erase i := by
      rw [List.erase_eq_eraseIdx_of_idxOf (rfl : ids.idxOf i = _)]
      exact (List.eraseIdx_eq_take_drop_succ ids _).symm
    have hvalid' : w.valid (ids.erase i) = true :=
      hfree.valid_of_sublist hvalid List.erase_sublist (List.ne_nil_of_mem hmem)
    simp only [method, hdelete, test, hvalid', hcore, decide_true, Bool.and_self] at hrejected
    cases hrejected

section Reductions

variable {τ : Type} {evaluator : Evaluator τ} {options : Options} {scenario : Json} {steps : ℕ}
  {fault : Fault} {positions : List ℕ} (hevaluator : Harness fault evaluator)
  (h : Hides scenario steps options.workers (core fault) positions) (hworkers : 2 ≤ options.workers)

include hevaluator h hworkers

/-- What the trials of a group show. -/
theorem shows_of_executed {group : Evidence} {state state' : τ}
    (hexecuted : group.Executed evaluator options state state')
    (hpart : group.candidate.PartOf scenario
      ((List.range steps).map (ownerAt positions options.workers))) :
    ∀ trial ∈ group.trials, Shows fault (positions ⊆ group.candidate.ids) trial :=
  fun trial htrial => h.shows hworkers hpart
    (trial_of_runTrials hevaluator hexecuted.trials trial htrial)

/-- No candidate that replaces another has lost any of the core. -/
theorem whole_of_replayed (htrials : 1 ≤ options.trials) {c₀ current : Candidate} {state₀ state : τ}
    {groups : List Evidence} (hreplayed : Replayed evaluator options scenario
      ((List.range steps).map (ownerAt positions options.workers)) c₀ state₀ groups current state)
    (hwhole : positions ⊆ c₀.ids) : positions ⊆ current.ids := by
  induction hreplayed with
  | start => exact hwhole
  | rejected _ _ _ ih => exact ih
  | accepted _ htries hunanimous _ =>
    have hne := List.ne_nil_of_length_pos (by rw [htries.executed.length]; omega)
    exact (whole_of_unanimous (shows_of_executed hevaluator h hworkers htries.executed
      htries.partOf) hne hunanimous).2

variable {state after : τ} {final : Json} {summary : Summary}
  (haccounted : Accounted evaluator options scenario
    ((List.range steps).map (ownerAt positions options.workers)) state final summary after)

include haccounted

/-- What is returned is the candidate of the last group, which has the whole core. -/
theorem final_of_accounted (htrials : 1 ≤ options.trials) {last : Evidence}
    (hlast : summary.candidateEvidence.getLast? = some last) :
    last.candidate.scenario = final ∧ positions ⊆ last.candidate.ids := by
  obtain ⟨first, state₀, -, -, hcandidate, hcases⟩ := haccounted.account
  have hwhole : positions ⊆ first.candidate.ids := fun i hi => by
    have hread : (operationsOf scenario).length = steps := by
      rw [operationsOf, h.operations, List.length_map, List.length_range]
    rw [hcandidate, whole, hread]
    exact List.mem_range.mpr (h.places.lt i hi)
  rcases hcases with ⟨-, hhalted⟩ | ⟨-, groups, current, state₁, last', hconfirmed⟩
  · rw [hhalted.evidence] at hlast
    cases hlast
    exact ⟨hhalted.final_eq.symm, hwhole⟩
  · rw [hconfirmed.evidence, ← List.cons_append, List.getLast?_concat] at hlast
    cases hlast
    rw [hconfirmed.candidate]
    exact ⟨hconfirmed.final_eq.symm,
      whole_of_replayed hevaluator h hworkers htrials hconfirmed.replayed hwhole⟩

/-- A device without a fault is not blamed. -/
theorem outcome_of_none (hfault : fault = .none) (htrials : 1 ≤ options.trials) :
    summary.outcome ≠ .executableReproducerFound ∧ operationsOf final = operationsOf scenario := by
  obtain ⟨first, state₀, hexecuted, -, hcandidate, hcases⟩ := haccounted.account
  have hfirst : first ∈ summary.candidateEvidence := by
    rcases hcases with ⟨-, hhalted⟩ | ⟨-, groups, current, state₁, last, hconfirmed⟩
    · rw [hhalted.evidence]
      exact List.mem_cons_self
    · rw [hconfirmed.evidence]
      exact List.mem_cons_self
  rcases hcases with ⟨-, hhalted⟩ | ⟨hunanimous, -⟩
  · refine ⟨hhalted.outcome, ?_⟩
    rw [hhalted.final_eq, operationsOf, (haccounted.parts first hfirst).operations, hcandidate]
    exact Workload.map_getD_range _ _
  · have hne := List.ne_nil_of_length_pos (by rw [hexecuted.length]; omega)
    exact absurd hfault (whole_of_unanimous
      (shows_of_executed hevaluator h hworkers hexecuted (haccounted.parts first hfirst)) hne
      hunanimous).1

/-- A faulty device is not acquitted. -/
theorem outcome_of_fault (hfault : fault ≠ .none) (htrials : 1 ≤ options.trials)
    (hcheck : options.check = .ok ()) {last : Evidence}
    (hlast : summary.candidateEvidence.getLast? = some last)
    (houtcome : summary.outcome = if last.accepted options then .executableReproducerFound
      else if last.counts.inconclusive ≠ 0 then .inconclusive else .reproductionFailed) :
    summary.outcome ≠ .reproductionFailed := by
  obtain ⟨before, behind, hexecuted⟩ :=
    executed_of_accounted haccounted last (List.mem_of_getLast? hlast)
  obtain ⟨-, hwhole⟩ := final_of_accounted hevaluator h hworkers haccounted htrials hlast
  have hshows := shows_of_executed hevaluator h hworkers hexecuted
    (haccounted.parts last (List.mem_of_getLast? hlast))
  rw [houtcome]
  by_cases haccepted : last.accepted options = true
  · rw [if_pos haccepted]
    decide
  · have hsome := inconclusive_of_not_unanimous hshows hexecuted hfault hwhole fun hunanimous =>
      haccepted ((hexecuted.accepted_iff hcheck).mpr hunanimous)
    rw [if_neg haccepted, if_pos hsome]
    decide

end Reductions

/-! ## Whole reductions -/

section Run

variable {τ : Type} {evaluator : Evaluator τ} {options : Options} {fault : Fault}

/-- What `evaluate_concurrent` returns is a dict with a status. -/
theorem wellTyped_report (ev : Evaluation) (history : List Recorded) :
    Dradd.WellTyped (report ev history) := by
  have hcounts : ∀ key ∈ ["operations_executed", "explored"], ∀ v,
      ev.toJson.get? key = some v → ∃ n, v = .int n := by
    cases ev with
    | checked verdict =>
      cases verdict <;> simp [Evaluation.toJson, Verdict.toJson, Json.get?, lookup]
    | _ => simp [Evaluation.toJson, Json.get?, lookup]
  obtain ⟨entries, hentries⟩ : ∃ entries, ev.toJson = .dict entries := by
    cases ev with
    | checked verdict => cases verdict <;> exact ⟨_, rfl⟩
    | _ => exact ⟨_, rfl⟩
  rw [hentries] at hcounts
  refine ⟨fun v hv => ?_, fun key hkey v hv => hcounts key hkey v ?_⟩
  · rw [report, hentries, Json.get?_set, if_pos rfl] at hv
    exact ⟨_, (Option.some.inj hv).symm⟩
  · have hne : key ≠ "history" := by
      rintro rfl
      simp at hkey
    rwa [report, hentries, Json.get?_set, if_neg hne] at hv

/-- The harness answers every valid concurrent scenario. -/
theorem answers_of_harness (hevaluator : Harness fault evaluator) : Answers evaluator options := by
  intro state candidate plan hplan
  have htrial := hevaluator state candidate options.workers options.searchBudget
  cases hanswer : (evaluator state candidate options.workers options.searchBudget).1 with
  | error text =>
    rw [hanswer] at htrial
    cases htrial with
    | refused hprepare => cases hprepare.symm.trans hplan
  | ok result =>
    rw [hanswer] at htrial
    cases htrial with
    | @ran plan clock tr s hprepare hrun hfinished =>
      exact ⟨_, _, rfl, get?_status_report _ s.history, wellTyped_report _ s.history⟩

/-- The reduction of a fixture is right. Around the simulated device with the fault of the fixture,
whatever the schedules of the trials, it ends. Without a fault it reports no reproducer. With a
fault it does not report that there is none, and gives up none of the core; and if no trial was
inconclusive, and the budget is not spent, it reports a reproducer, which is the core. -/
theorem reduceConcurrent_fixture (hevaluator : Harness fault evaluator)
    (hcheck : options.check = .ok ()) (hworkers : 2 ≤ options.workers ∧ options.workers ≤ 4)
    (hsearch : 1 ≤ options.searchBudget ∧ options.searchBudget ≤ 100000) {steps : ℕ}
    (hsteps : (core fault).length ≤ steps ∧ steps ≤ 12) {fuel : ℕ}
    (hfuel : (steps + 1) * (steps + 2) ≤ fuel) (rng : Rng) (seed : ℤ) (state : τ) :
    ∃ scenario final summary after,
      fixture rng fault seed steps options.workers = .ok scenario ∧
      reduceConcurrent evaluator options fuel scenario state =
        .ok (some ((final, summary), after)) ∧
      (fault = .none → summary.outcome ≠ .executableReproducerFound ∧
        operationsOf final = operationsOf scenario) ∧
      (fault ≠ .none → summary.outcome ≠ .reproductionFailed ∧ HasCore final (core fault) ∧
        ((summary.attempts : ℤ) < options.budget →
          (∀ group ∈ summary.candidateEvidence, group.counts.inconclusive = 0) →
          summary.outcome = .executableReproducerFound ∧ IsCore final (core fault))) := by
  obtain ⟨scenario, positions, hfixture, h⟩ := exists_fixture rng fault seed hsteps.1 hworkers.1
  have hpos : 1 ≤ (core fault).length := by cases fault <;> decide
  have hcount : 1 ≤ steps ∧ steps ≤ 12 := ⟨hpos.trans hsteps.1, hsteps.2⟩
  obtain ⟨plan, hplan⟩ := h.exists_plan hcount hworkers hsearch
  obtain ⟨w, hshares, hfree, hoperations, howners⟩ := h.exists_workload hcount hworkers
  have hsize : w.size = steps := by
    rw [Workload.size, hoperations, List.length_map, List.length_range]
  have htrials := (Options.bounds hcheck).2
  obtain ⟨first, final, summary, after, hreduce, hcut, hjudged, hphase, hids, hcases⟩ :=
    reduceConcurrent_spec (answers_of_harness hevaluator) hplan hshares hfree hcheck
      (hsize.symm ▸ hfuel) state
  have haccept := accept_eq_ok hplan hshares hcheck
  rw [howners] at haccept
  have haccounted := accounted_of_ok haccept hreduce
  refine ⟨scenario, final, summary, after, hfixture, hreduce, fun hfault => ?_, fun hfault => ?_⟩
  · exact outcome_of_none hevaluator h hworkers.1 haccounted hfault htrials
  obtain ⟨last, hlast, houtcome⟩ := outcome_of_reduceConcurrent hreduce
  obtain ⟨hfinal, hwhole⟩ := final_of_accounted hevaluator h hworkers.1 haccounted htrials hlast
  have hpart := haccounted.parts last (List.mem_of_getLast? hlast)
  refine ⟨outcome_of_fault hevaluator h hworkers.1 haccounted hfault htrials hcheck hlast houtcome,
    hfinal ▸ h.hasCore hworkers.1 hpart hwhole, fun hbudget hconclusive => ?_⟩
  -- all groups are decided by whether they have the core
  have hdecided : ∀ group ∈ summary.candidateEvidence, Decided (fun ids => positions ⊆ ids)
      (fun trial => matched trial = true) group.candidate.ids group.trials := by
    intro group hgroup
    obtain ⟨_, _, hexecuted⟩ := executed_of_accounted haccounted group hgroup
    exact decided_of_shows (shows_of_executed hevaluator h hworkers.1 hexecuted
      (haccounted.parts group hgroup)) hexecuted (hconclusive group hgroup) hfault
  have hall : positions ⊆ w.ids := fun i hi => by
    rw [w.mem_ids, hsize]
    exact h.places.lt i hi
  rcases hcases with ⟨hrejected, hgroups, -⟩ | ⟨haccepted, s, last', hsearched⟩
  · -- the initial group has the core, so it is accepted
    have hverdict := (hjudged.accepted_iff htrials
      (hdecided first (hgroups ▸ List.mem_cons_self))).mpr (hids.symm ▸ hall)
    rw [hrejected] at hverdict
    cases hverdict
  have hsame : last' = last := by
    rw [hsearched.evidence, List.getLast?_concat] at hlast
    exact Option.some.inj hlast
  have hcurrent : last.candidate = s.current := hsame ▸ hsearched.candidate
  have hfinished : summary.exhausted = false := by
    by_contra hexhausted
    have := hcut (by simpa using hexhausted)
    omega
  -- the search has ended where no single deletion keeps the core
  have hcore : last.candidate.ids = positions := by
    rcases deletionRun_of_searched hcheck hphase hids haccepted hsearched hdecided hfinished with
      ⟨hno, -⟩ | ⟨-, t, hloop, hlast, -⟩
    · exact absurd hall hno
    have hminimal := Deletion.Method.run_minimal hloop
    have hvalid := hsearched.searching.current.valid
    rw [← hlast, ← hcurrent] at hminimal
    rw [← hcurrent] at hvalid
    have hne : positions ≠ [] := List.ne_nil_of_length_pos (h.places.length ▸ hpos)
    have hsub := subset_of_minimal hminimal hvalid hfree hwhole hne
    have hsorted := (w.valid_iff.mp hvalid).2.1
    exact (Workload.sublist_of_subset hsorted h.places.sorted hsub).antisymm
      (Workload.sublist_of_subset h.places.sorted hsorted hwhole)
  obtain ⟨_, _, hexecuted⟩ := executed_of_accounted haccounted last (List.mem_of_getLast? hlast)
  have haccepted' := (hexecuted.accepted_iff hcheck).mpr
    ((hdecided last (List.mem_of_getLast? hlast)).1 hwhole)
  rw [houtcome, if_pos haccepted']
  exact ⟨rfl, hfinal ▸ h.isCore hworkers.1 hpart hcore⟩

/-- Every trial can be run to its end. -/
theorem exists_trial (fault : Fault) (candidate : Json) (workers budget : ℤ) :
    ∃ answer, Trial fault candidate workers budget answer := by
  cases hprepare : prepare candidate workers budget with
  | error text => exact ⟨_, .refused hprepare⟩
  | ok plan =>
    have hstart : Run (Step (.locked SimulatedDevice.applyJson) plan)
      (.start (.new plan.scenario.capacity fault) 0) [] _ := .nil
    obtain ⟨tr, s, hrun, hfinished⟩ :=
      exists_finished (fun last => ⟨last, le_refl last⟩) (fun _ _ _ _ => ⟨_, _, rfl⟩) hstart
    exact ⟨_, .ran hprepare hrun hfinished⟩

/-- On a fixture with `false-eof`, the core is all that is left. -/
theorem reduceConcurrent_fixture_falseEof : ∃ (evaluator : Evaluator Unit) (scenario final : Json)
    (summary : Summary), fixture .smallest .falseEof 2 4 2 = .ok scenario ∧
      reduceConcurrent evaluator eofOptions 30 scenario () = .ok (some ((final, summary), ())) ∧
      summary.outcome ≠ .reproductionFailed ∧ HasCore final [.read 1] := by
  -- some schedule for each trial
  choose answer hanswer using exists_trial .falseEof
  let evaluator : Evaluator Unit := fun _ candidate workers budget =>
    (answer candidate workers budget, ())
  have hevaluator : Harness .falseEof evaluator := fun _ => hanswer
  obtain ⟨scenario, final, summary, ⟨⟩, hfixture, hreduce, -, hfault⟩ :=
    reduceConcurrent_fixture hevaluator (rfl : eofOptions.check = .ok ()) (by decide) (by decide)
      (show (core .falseEof).length ≤ 4 ∧ 4 ≤ 12 by decide) (show (4 + 1) * (4 + 2) ≤ 30 by decide)
      .smallest 2 ()
  obtain ⟨houtcome, hcore, -⟩ := hfault (by decide)
  exact ⟨_, scenario, final, summary, hfixture, hreduce, houtcome, hcore⟩

end Run

end Lab.Experiment
