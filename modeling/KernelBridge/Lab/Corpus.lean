import KernelBridge.Lab.Fixtures

/-!
# The fixture corpus of the experiments

`fixture` of `lab/experiment.py` hides the operations that show a fault of the simulated device
among queries of the capacity: the core is given to the first worker, at random places, and the
others only query.

A part of a fixture is `Planted` with what it has of the core. As the queries change neither the
device nor the model, a trial of a part is decided by what the device does with these operations
alone, whatever the schedule: no trial passes in which the first worker has the whole core
(`not_pass`), and none fails in which the fault goes unnoticed (`not_fail`).
-/

namespace Lab

open Py Lts

namespace Experiment

/-! ## Fixtures -/

/-- `cores[fault]`. -/
def core : Fault → List Op
  | .falseEof => [.read 1]
  | .reverseRead => [.write [0x41, 0x42, 0x43], .read 3]
  | .resizeLoss => [.write [0x41, 0x42, 0x43], .resize 512, .read 3]
  | .none => [.write [0x41, 0x42, 0x43], .read 3]

/-- `for index, value in placed: slots[index] = value`. -/
def assign {α : Type} (slots : List α) (placed : List (ℕ × α)) : List α :=
  placed.foldl (fun slots x => slots.set x.1 x.2) slots

/-- `fixture`. -/
def fixture (rng : Rng) (fault : Fault) (seed : ℤ) (steps : ℕ) (workers : ℤ) : Except Exc Json :=
  if steps < (core fault).length then
    .error (.valueError "Sample larger than population or is negative")
  else
    let positions := (rng.sample seed steps (core fault).length).insertionSort (· ≤ ·)
    let operations := List.replicate steps Op.capacity
    if workers = 1 ∧ 0 < steps then
      .error ⟨"ZeroDivisionError", "integer modulo by zero"⟩
    else
      let owners := (List.range steps).map fun i : ℕ => 1 + (i : ℤ).fmod (workers - 1)
      let operations := assign operations (positions.zip (core fault))
      let owners := assign owners ((positions.zip (core fault)).map fun x => (x.1, 0))
      .ok (.dict [("version", .int 1), ("capacity", .int 256), ("seed", .int seed),
        ("operations", .list (operations.map Op.toJson)),
        ("worker_ids", .list (owners.map Json.int))])

/-- The operation at a place, if the core is at these positions. -/
def opAt (positions : List ℕ) (core : List Op) (i : ℕ) : Op :=
  ((positions.zip core).lookup i).getD .capacity

/-- Placing the core does not change the number of operations. -/
theorem length_assign {α : Type} (slots : List α) (placed : List (ℕ × α)) :
    (assign slots placed).length = slots.length := by
  induction placed generalizing slots with
  | nil => rfl
  | cons x placed ih =>
    rw [assign, List.foldl_cons, ← assign, ih, List.length_set]

/-- Every place holds what was assigned to it last, or what it held before. -/
theorem assign_getElem? {α : Type} {slots : List α} {placed : List (ℕ × α)}
    (hnodup : (placed.map Prod.fst).Nodup) {i : ℕ} (hi : i < slots.length) :
    (assign slots placed)[i]? = some ((placed.lookup i).getD slots[i]) := by
  induction placed generalizing slots with
  | nil => simp [assign, hi]
  | cons x placed ih =>
    obtain ⟨k, value⟩ := x
    obtain ⟨hnew, hnodup⟩ := List.nodup_cons.mp hnodup
    have hrest : (assign (slots.set k value) placed)[i]? = _ := ih hnodup (by simpa using hi)
    rw [assign, List.foldl_cons, ← assign, hrest]
    by_cases hk : i = k
    · -- later assignments are to other places
      subst hk
      have hnone : placed.lookup i = none := by
        refine List.lookup_eq_none_iff.mpr fun x hx => ?_
        have hne : i ≠ x.1 := fun heq => hnew (List.mem_map.mpr ⟨x, hx, heq.symm⟩)
        simpa using hne
      simp [hnone]
    · have hne : (i == k) = false := by simpa using hk
      simp [List.lookup_cons, hne, Ne.symm hk]

/-- The places of the core among the operations, in order. -/
structure Places (steps : ℕ) (core : List Op) (positions : List ℕ) : Prop where
  sorted : positions.Pairwise (· < ·)
  lt : ∀ i ∈ positions, i < steps
  length : positions.length = core.length

/-- Outside the positions of the core, the capacity is queried. -/
theorem opAt_of_notMem {positions : List ℕ} {core : List Op} {i : ℕ} (hi : i ∉ positions) :
    opAt positions core i = .capacity := by
  have hnone : (positions.zip core).lookup i = none := by
    refine List.lookup_eq_none_iff.mpr fun x hx => ?_
    have hne : i ≠ x.1 := fun heq => hi (heq ▸ (List.of_mem_zip hx).1)
    simpa using hne
  rw [opAt, hnone]
  rfl

section Places

variable {steps : ℕ} {core : List Op} {positions : List ℕ}

/-- The places of the core hold the core, in its order. -/
theorem map_opAt (hnodup : positions.Nodup) (hlength : positions.length = core.length) :
    positions.map (opAt positions core) = core := by
  induction positions generalizing core with
  | nil => exact (List.length_eq_zero_iff.mp hlength.symm).symm
  | cons i positions ih =>
    obtain ⟨op, core, rfl⟩ := List.exists_cons_of_length_eq_add_one hlength.symm
    obtain ⟨hi, hnodup⟩ := List.nodup_cons.mp hnodup
    have hrest : positions.map (opAt (i :: positions) (op :: core)) = core := by
      refine (List.map_congr_left fun j hj => ?_).trans (ih hnodup (by simpa using hlength))
      have hne : (j == i) = false := by simpa using fun heq : j = i => hi (heq ▸ hj)
      simp [opAt, List.lookup_cons, hne]
    rw [List.map_cons, hrest]
    simp [opAt]

namespace Places

/-- The core is put at different positions. -/
theorem nodup (h : Places steps core positions) : positions.Nodup := h.sorted.imp ne_of_lt

/-- All operations of a fixture are valid. -/
theorem opAt_valid (h : Places steps core positions) (hcore : ∀ op ∈ core, op.Valid) (i : ℕ) :
    (opAt positions core i).Valid := by
  by_cases hi : i ∈ positions
  · have hmem : opAt positions core i ∈ positions.map (opAt positions core) :=
      List.mem_map_of_mem hi
    rw [map_opAt h.nodup h.length] at hmem
    exact hcore _ hmem
  · rw [opAt_of_notMem hi]
    exact trivial

/-- The loop of `fixture` over the operations. -/
theorem assign_operations (h : Places steps core positions) :
    assign (List.replicate steps .capacity) (positions.zip core) =
      (List.range steps).map (opAt positions core) := by
  have hnodup : ((positions.zip core).map Prod.fst).Nodup := by
    rw [List.map_fst_zip h.length.le]
    exact h.nodup
  refine List.ext_getElem? fun i => ?_
  by_cases hi : i < steps
  · rw [assign_getElem? hnodup (by simpa using hi)]
    simp [hi, opAt]
  · rw [List.getElem?_eq_none (by simpa [length_assign] using hi),
      List.getElem?_eq_none (by simpa using hi)]

/-- The loop of `fixture` over the owners. -/
theorem assign_owners (h : Places steps core positions) (workers : ℤ) :
    assign ((List.range steps).map fun i : ℕ => 1 + (i : ℤ).fmod (workers - 1))
        ((positions.zip core).map fun x => (x.1, 0)) =
      (List.range steps).map (ownerOf positions workers) := by
  have hfst : ((positions.zip core).map fun x => (x.1, (0 : ℤ))).map Prod.fst = positions := by
    rw [List.map_map]
    exact List.map_fst_zip h.length.le
  have hnodup := h.nodup
  refine List.ext_getElem? fun i => ?_
  by_cases hi : i < steps
  · rw [assign_getElem? (by rw [hfst]; exact hnodup) (by simpa using hi)]
    cases hlookup : ((positions.zip core).map fun x => (x.1, (0 : ℤ))).lookup i with
    | none =>
      have hnot : i ∉ positions := by
        intro hmem
        rw [← hfst] at hmem
        obtain ⟨x, hx, rfl⟩ := List.mem_map.mp hmem
        simpa using List.lookup_eq_none_iff.mp hlookup x hx
      simp [hi, ownerOf, hnot]
    | some owner =>
      obtain ⟨before, after, heq, -⟩ := List.lookup_eq_some_iff.mp hlookup
      have hmem : (i, owner) ∈ (positions.zip core).map fun x => (x.1, (0 : ℤ)) := by
        simp [heq]
      obtain ⟨x, hx, hpair⟩ := List.mem_map.mp hmem
      obtain ⟨rfl, rfl⟩ := Prod.mk.inj hpair
      simp [hi, ownerOf, (List.of_mem_zip hx).1]
  · rw [List.getElem?_eq_none (by simpa [length_assign] using hi),
      List.getElem?_eq_none (by simpa using hi)]

end Places

end Places

/-- All operations of a core are valid. -/
theorem core_valid (fault : Fault) : ∀ op ∈ core fault, op.Valid := by
  cases fault <;> decide

/-- The scenario has the core at these places, for the first worker, and queries of the capacity by
the others around it. -/
structure Hides (scenario : Json) (steps : ℕ) (workers : ℤ) (core : List Op)
    (positions : List ℕ) : Prop where
  places : Places steps core positions
  version : scenario.get? "version" = some (.int 1)
  capacity : scenario.get? "capacity" = some (.int 256)
  operations : scenario.get? "operations" =
    some (.list ((List.range steps).map fun i => (opAt positions core i).toJson))
  owners : scenario.get? "worker_ids" =
    some (.list ((List.range steps).map fun i => Json.int (ownerOf positions workers i)))
  noJitter : scenario.get? "jitter_us" = none

/-- The positions are those of the sample, sorted. -/
theorem places_sample (rng : Rng) (seed : ℤ) {steps : ℕ} {core : List Op}
    (hsteps : core.length ≤ steps) :
    Places steps core ((rng.sample seed steps core.length).insertionSort (· ≤ ·)) := by
  have hperm := List.perm_insertionSort (· ≤ ·) (rng.sample seed steps core.length)
  refine ⟨?_, fun i hi => rng.sample_lt _ _ _ i (hperm.mem_iff.mp hi), ?_⟩
  · have hsorted := List.pairwise_insertionSort (· ≤ ·) (rng.sample seed steps core.length)
    have hnodup : (List.insertionSort (· ≤ ·) (rng.sample seed steps core.length)).Pairwise
        (· ≠ ·) := hperm.nodup_iff.mpr (rng.sample_nodup _ _ _)
    exact (hsorted.and hnodup).imp fun ⟨hle, hne⟩ => lt_of_le_of_ne hle hne
  · rw [hperm.length_eq, rng.length_sample _ _ _ hsteps]

/-- The fixture can be made if there is room for the core. -/
theorem exists_fixture (rng : Rng) (fault : Fault) (seed : ℤ) {steps : ℕ} {workers : ℤ}
    (hsteps : (core fault).length ≤ steps) (hworkers : 2 ≤ workers) :
    ∃ scenario positions, fixture rng fault seed steps workers = .ok scenario ∧
      Hides scenario steps workers (core fault) positions := by
  have hplaces := places_sample rng seed hsteps
  have hfixture : fixture rng fault seed steps workers = .ok _ :=
    (if_neg (by omega)).trans (if_neg (by omega))
  refine ⟨_, _, hfixture, hplaces, rfl, rfl, ?_, ?_, rfl⟩
  · rw [hplaces.assign_operations, List.map_map]
    rfl
  · rw [hplaces.assign_owners, List.map_map]
    rfl

/-! ## Parts of a fixture -/

section Part

variable {candidate : Json} {workers budget : ℤ} {plan : Plan} {ids : List ℕ}

/-- A scenario in which the first worker has some operations, and the others query the capacity, is
planted with these operations. -/
theorem planted_of_lists {f : ℕ → Op} {g : ℕ → ℕ}
    (hplan : prepare candidate workers budget = .ok plan)
    (hcapacity : candidate.get? "capacity" = some (.int 256))
    (hoperations : candidate.get? "operations" = some (.list (ids.map fun i => (f i).toJson)))
    (howners : candidate.get? "worker_ids" = some (.list (ids.map fun i => Json.int (g i))))
    (hvalid : ∀ i, (f i).Valid) (hprobes : ∀ i, g i ≠ 0 → f i = .capacity) :
    Planted plan ((ids.filter fun i => g i = 0).map f) := by
  obtain ⟨hplan, -⟩ := prepare_eq_ok_iff.mp hplan
  obtain ⟨hscenario, hread, -, hids⟩ := validateWorkerPlan_eq_ok hplan
  obtain ⟨-, hcapacity', elems, helems, hops⟩ := validate_ok_iff.mp hscenario
  obtain rfl := Json.list.inj (Option.some.inj (hoperations.symm.trans helems))
  have hassignments : plan.assignments = ids.map g := by
    have hinjective : Function.Injective fun v : ℕ => Json.int v := fun a b h => by simpa using h
    refine List.map_injective_iff.mpr hinjective ?_
    rw [workerIds, howners, Option.getD_some, Json.list.injEq] at hids
    rw [List.map_map]
    exact hids.symm
  have htyped : plan.scenario.operations = ids.map f := by
    have hall : ∀ op ∈ ids.map f, op.Valid := fun op hop => by
      obtain ⟨i, -, rfl⟩ := List.mem_map.mp hop
      exact hvalid i
    have hboth := hops.symm.trans (List.map_map (g := Op.toJson) ▸ mapM_validateOp_toJson hall)
    exact Except.ok.inj hboth
  have hcovers : plan.scenario.operations.length = plan.assignments.length := by
    rw [htyped, hassignments, List.length_map, List.length_map]
  refine ⟨?capacity, ?core, fun i w hw hne => ?probes, fun i hi => ?operation⟩
  case capacity =>
    have := Json.int.inj (Option.some.inj (hcapacity.symm.trans hcapacity'))
    omega
  case core =>
    have hpairs : plan.scenario.operations.zip plan.assignments = ids.map fun i => (f i, g i) := by
      rw [htyped, hassignments, List.zip_map']
    have htasks : (plan.tasks 0).map (fun task => plan.op task.1) =
        (indexesOf plan.assignments 0).map fun i => plan.scenario.operations.getD i .clear := by
      change (indexesOf plan.assignments 0).zipIdx.map (plan.op ∘ Prod.fst) = _
      rw [← List.map_map, List.zipIdx_map_fst]
      rfl
    rw [htasks, map_getD_indexesOf hcovers 0 .clear, hpairs, List.filter_map, List.map_map]
    rfl
  case probes =>
    rw [hassignments, List.getElem?_map, Option.map_eq_some_iff] at hw
    obtain ⟨id, hid, rfl⟩ := hw
    rw [Plan.op, htyped, List.getD_eq_getElem?_getD, List.getElem?_map, hid]
    exact hprobes id hne
  case operation =>
    rw [hread, operationsOf, hoperations, List.length_map] at hi
    rw [Plan.operation, Plan.op, hread, operationsOf, hoperations, htyped,
      List.getD_eq_getElem _ _ (by simpa using hi), List.getD_eq_getElem _ _ (by simpa using hi),
      List.getElem_map, List.getElem_map]

end Part

/-! ## Trials -/

/-- How a trial can end: `evaluate_concurrent` on the simulated device with a fault, under some
schedule of the workers. -/
inductive Trial (fault : Fault) (candidate : Json) (workers budget : ℤ) : Except String Json → Prop
  | refused {text : String} (hprepare : prepare candidate workers budget = .error text) :
      Trial fault candidate workers budget (.error text)
  | ran {plan : Plan} {clock : ℕ} {tr : List (Fin plan.workers)}
      {s : State plan.workers SimulatedDevice}
      (hprepare : prepare candidate workers budget = .ok plan)
      (hrun : Run (Step (.locked SimulatedDevice.applyJson) plan)
        (.start (.new plan.scenario.capacity fault) clock) tr s)
      (hfinished : s.Finished) :
      Trial fault candidate workers budget
        (.ok (Json.set "history" (.list (s.history.map Recorded.toJson))
          (evaluate plan budget s.history s.exception).toJson))

/-- The results of a list of operations, one after the other, and the device after them. -/
def run (device : SimulatedDevice) : List Op → List Result × SimulatedDevice
  | [] => ([], device)
  | op :: ops =>
    let (result, device) := device.apply op
    let (results, device) := run device ops
    (result :: results, device)

/-- On an operation that is valid, `apply_json` is `apply`. -/
theorem applyJson_toJson (device : SimulatedDevice) {op : Op} (hop : op.Valid) :
    device.applyJson op.toJson = .ok ((device.apply op).1.toJson, (device.apply op).2) := by
  rw [SimulatedDevice.applyJson, readOp_of_validateOp (validateOp_toJson hop)]
  rfl

/-- A call with an operation that is valid returns a result. -/
theorem attempt_toJson (device : SimulatedDevice) {op : Op} (hop : op.Valid) :
    attempt SimulatedDevice.applyJson device op.toJson =
      (.ok (device.apply op).1.toJson, (device.apply op).2) := by
  rw [attempt, applyJson_toJson device hop]

/-- The calls with operations that are valid return the results of the run. -/
theorem attempts_toJson (device : SimulatedDevice) {ops : List Op} (hops : ∀ op ∈ ops, op.Valid) :
    attempts SimulatedDevice.applyJson device (ops.map Op.toJson) =
      ((run device ops).1.map fun result => .ok result.toJson, (run device ops).2) := by
  induction ops generalizing device with
  | nil => rfl
  | cons op ops ih =>
    obtain ⟨hop, hops⟩ := List.forall_mem_cons.mp hops
    rw [List.map_cons, attempts, attempt_toJson device hop]
    simp only [ih _ hops, run, List.map_cons]

/-- The device with the fault answers these operations as the device without one, and so it does
with queries of the capacity among them. -/
def Unnoticed (fault : Fault) (ops : List Op) : Prop :=
  (run (.new 256 fault) ops).1 = (run (.new 256 .none) ops).1 ∧
    ∀ before ∈ ops.inits,
      (run (.new 256 fault) before).2.capacity = (run (.new 256 .none) before).2.capacity

/-- Both runs can be computed. -/
instance (fault : Fault) (ops : List Op) : Decidable (Unnoticed fault ops) :=
  inferInstanceAs (Decidable (_ ∧ _))

/-- Alone, the core is not answered as the model answers it. -/
theorem core_differs {fault : Fault} (hfault : fault ≠ .none) :
    (run (.new 256 fault) (core fault)).1 ≠ ((ReferenceModel.new 256).run (core fault)).1 := by
  cases fault with
  | none => exact absurd rfl hfault
  | _ => decide +kernel

/-- A part of the core shows no fault. -/
theorem unnoticed_of_sublist {fault : Fault} {part : List Op} (hpart : part.Sublist (core fault))
    (hlength : part.length < (core fault).length) : Unnoticed fault part := by
  have hall : ∀ part ∈ (core fault).sublists, part.length < (core fault).length →
      Unnoticed fault part := by
    cases fault <;> decide +kernel
  exact hall part (List.mem_sublists.mpr hpart) hlength

/-- Without a fault there is nothing to notice. -/
theorem unnoticed_none (ops : List Op) : Unnoticed .none ops := ⟨rfl, fun _ _ => rfl⟩

/-- Results are told apart as dicts. -/
theorem eqList_toJson {results results' : List Result}
    (h : Json.eqList (results.map Result.toJson) (results'.map Result.toJson) = true) :
    results = results' := by
  induction results generalizing results' with
  | nil =>
    cases results' with
    | nil => rfl
    | cons => simp [Json.eqList] at h
  | cons result results ih =>
    cases results' with
    | nil => simp [Json.eqList] at h
    | cons result' results' =>
      have hnan : result.toJson.isNan = false := rfl
      simp only [List.map_cons, Json.eqList, hnan, Bool.false_and, Bool.false_or,
        Bool.and_eq_true] at h
      rw [(Result.eq_toJson_iff _ _).mp h.1, ih h.2]

section Verdicts

variable {fault : Fault} {part : List Op} {plan : Plan} {clock : ℕ} {tr : List (Fin plan.workers)}
  {s : State plan.workers SimulatedDevice}

/-- The first worker. -/
def first (plan : Plan) : Fin plan.workers := ⟨0, by have := plan.two_le_workers; omega⟩

/-- The queries of the other workers change neither the device nor the model. -/
theorem others_of_planted (hplanted : Planted plan part) {i w : ℕ}
    (hw : plan.assignments[i]? = some w) (hne : w ≠ 0) :
    (∀ device, (attempt SimulatedDevice.applyJson device (plan.operation i)).2 = device) ∧
      ∀ model : ReferenceModel, (model.apply (plan.op i)).2 = model := by
  obtain ⟨hop, hoperation⟩ := hplanted.probe hw hne
  rw [hoperation, hop]
  exact ⟨fun _ => rfl, fun _ => rfl⟩

/-- No trial passes in which the first worker has the whole core of the fault. -/
theorem not_pass (hplanted : Planted plan (core fault)) (hfault : fault ≠ .none) {budget : ℤ}
    (hbudget : 1 ≤ budget ∧ budget ≤ 100000)
    (hrun : Run (Step (.locked SimulatedDevice.applyJson) plan)
      (.start (.new plan.scenario.capacity fault) clock) tr s) (hfinished : s.Finished)
    (order : List ℕ) (explored : ℕ) :
    evaluate plan budget s.history s.exception ≠ .checked (.pass order explored) := by
  intro hev
  obtain ⟨hexception, hrunning⟩ := running_of_checked hfinished hev
  have hcomplete := hplanted.complete_of_total
    (fun device _ hop => ⟨_, _, applyJson_toJson device hop⟩) hrun hrunning
  -- the recording has an explanation
  rw [hexception, hcomplete.evaluate_eq hbudget, Evaluation.checked.injEq] at hev
  have hwitness := hcomplete.toHistory.check_spec budget.toNat
  rw [hev] at hwitness
  -- so the core is answered as by the model
  have hagrees := agrees_of_witness (v := first plan) (fun i w => others_of_planted hplanted) hrun
    hrunning hcomplete hwitness
  rw [hplanted.capacity, show (first plan : ℕ) = 0 from rfl, hplanted.core, hplanted.map_operation,
    attempts_toJson _ (core_valid fault), List.map_map] at hagrees
  exact core_differs hfault (eqList_toJson hagrees).symm

/-- The harness reads the operations as they were validated. -/
theorem run_simulated {device : SimulatedDevice}
    (h : Run (Step (.locked SimulatedDevice.applyJson) plan) (.start device clock) tr s) :
    ∃ device', Run (Step .simulated plan) (.start device clock) tr (s.withDevice device') := by
  refine run_simulate (R := Eq) (fun last now (h : last ≤ now) => h) ?_ h rfl
  rintro device _ op outcome device' rfl ⟨typed, htyped⟩ happly
  have happly : attempt SimulatedDevice.applyJson device op = (outcome, device') := happly
  simp only [attempt, SimulatedDevice.applyJson, readOp_of_validateOp htyped] at happly
  obtain ⟨rfl, rfl⟩ := Prod.mk.inj happly
  exact ⟨_, ⟨typed, htyped, rfl, rfl⟩, rfl⟩

/-- The device without a fault gives the same recording as one whose fault goes unnoticed. -/
theorem run_unnoticed (hplanted : Planted plan part) (hvalid : ∀ op ∈ part, op.Valid)
    (hunnoticed : Unnoticed fault part)
    (hrun : Run (Step (.locked SimulatedDevice.applyJson) plan)
      (.start (.new plan.scenario.capacity fault) clock) tr s) :
    ∃ device, Run (Step (.locked SimulatedDevice.applyJson) plan)
      (.start (.new plan.scenario.capacity .none) clock) tr (s.withDevice device) := by
  obtain ⟨hreplies, hcapacity⟩ := hunnoticed
  have hprogram : plan.program (first plan) = part.map Op.toJson := hplanted.map_operation
  rw [hplanted.capacity] at hrun ⊢
  refine run_of_answers (v := first plan) (fun i w hw hne => ?_) ?_ (fun i w hw hne ops hops => ?_)
    hrun
  · exact ⟨(others_of_planted hplanted hw hne).1, (others_of_planted hplanted hw hne).1⟩
  · rw [hprogram, attempts_toJson _ hvalid, attempts_toJson _ hvalid, hreplies]
  · rw [hprogram, List.prefix_map_iff] at hops
    obtain ⟨before, hbefore, rfl⟩ := hops
    have hvalid' := fun op hop => hvalid op (hbefore.subset hop)
    have hquery : Op.capacity.Valid := trivial
    rw [(hplanted.probe hw hne).2, attempts_toJson _ hvalid', attempts_toJson _ hvalid',
      attempt_toJson _ hquery, attempt_toJson _ hquery]
    have hsame := hcapacity before ((List.mem_inits _ _).mpr hbefore)
    simp only [SimulatedDevice.apply, hsame]

/-- No trial fails in which the fault goes unnoticed. -/
theorem not_fail (hplanted : Planted plan part) (hvalid : ∀ op ∈ part, op.Valid)
    (hunnoticed : Unnoticed fault part) {budget : ℤ} (hbudget : 1 ≤ budget ∧ budget ≤ 100000)
    (hrun : Run (Step (.locked SimulatedDevice.applyJson) plan)
      (.start (.new plan.scenario.capacity fault) clock) tr s) (hfinished : s.Finished)
    (explored : ℕ) :
    evaluate plan budget s.history s.exception ≠ .checked (.fail explored) := by
  intro hev
  obtain ⟨hexception, hrunning⟩ := running_of_checked hfinished hev
  obtain ⟨_, hnone⟩ := run_unnoticed hplanted hvalid hunnoticed hrun
  obtain ⟨_, hsimulated⟩ := run_simulated hnone
  have hcomplete := complete_of_finished hsimulated hrunning
  obtain ⟨order, heffects⟩ := effects_of_run hsimulated
  -- the order in which the calls took effect is an explanation
  obtain ⟨indexes, hwitness⟩ := heffects.isWitness hrunning hcomplete
  have hcheck : evaluate plan budget s.history none = _ := hcomplete.evaluate_eq hbudget
  rw [hexception, hcheck, Evaluation.checked.injEq] at hev
  have hno := hcomplete.toHistory.check_spec budget.toNat
  rw [hev] at hno
  exact hno indexes hwitness

end Verdicts

end Experiment

end Lab
