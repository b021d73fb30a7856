import KernelBridge.Lab.DraddMinimal
import KernelBridge.Lab.Replay

/-!
# The two reducers

`reduce` of `lab/dradd.py` with the strategies `single` and `chunk`, and `reduce_concurrent` of
`lab/replay.py` with the same ones, are written differently: one keeps indexes, rounds up a quotient
of floats, tests its budgets before a candidate and records the candidates it does not execute; the
other filters operations again, rounds up in integers, tests its budget after a candidate and skips
empty ones. On a concurrent scenario without enforced records both are the same search by deletion,
so where the trials agree on what fails, and neither runs out of its budgets, they replay the same
candidates in the same order and end with the same operations (`reducers_agree`).
-/

namespace Lab

open Py

/-! ## The workload of a scenario -/

/-- The scenario with the number of its workers and their operations, as `dradd` asks for them. -/
def asWorkload (scenario : Json) (workers : ℤ) : Json :=
  Json.set "workers" (.int workers)
    (Json.set "worker_ids" (workerIds scenario workers (operationsOf scenario).length) scenario)

section Workload

variable {scenario : Json} {workers budget : ℤ} {plan : Plan} {w : Workload}
  (hplan : prepare scenario workers budget = .ok plan)
  (hnew : Workload.new (asWorkload scenario workers) = .ok w)

include hplan hnew

/-- What `as_workload` sets, and what it takes over from the scenario. -/
theorem get?_source (key : String) : (Json.dict w.source).get? key =
    if key = "workers" then some (.int workers)
    else if key = "worker_ids" then
      some (workerIds scenario workers (operationsOf scenario).length)
    else scenario.get? key := by
  obtain ⟨hscenario, -⟩ := validateWorkerPlan_eq_ok (prepare_eq_ok_iff.mp hplan).1
  obtain ⟨⟨v, hv, -⟩, -⟩ := validate_ok_iff.mp hscenario
  rw [← Workload.new_eq_ok hnew, asWorkload]
  cases scenario with
  | dict entries => simp only [Json.set, Json.get?, lookup_setEntry]
  | _ => cases hv

/-- The workload has the operations of the scenario, and their owners. -/
theorem shares_of_new : Replay.Shares scenario workers w := by
  obtain ⟨hworkers, -⟩ := prepare_eq_ok_iff.mp hplan
  obtain ⟨-, hread, hcount, hassignments⟩ := validateWorkerPlan_eq_ok hworkers
  obtain ⟨hoperations, howners, -⟩ := w.readOperations_spec
  have hsame : operationsOf scenario = w.operations := by
    have hget := get?_source hplan hnew "operations"
    rw [if_neg (by decide), if_neg (by decide)] at hget
    rw [operationsOf, ← hget]
    simp only [Json.get?, hoperations]
  have hids : workerIds scenario workers (operationsOf scenario).length =
      .list (w.owners.map fun v : ℕ => Json.int v) := by
    have hget := get?_source hplan hnew "worker_ids"
    rw [if_neg (by decide), if_pos rfl] at hget
    exact (Option.some.inj (howners.symm.trans hget)).symm
  refine ⟨hsame, by rw [← hids, hsame]; rfl, ?_⟩
  -- the owners are the assignments of the plan, which are below the number of workers
  have hlists : w.owners = plan.assignments := by
    rw [← hread, hassignments] at hids
    have hinjective : Function.Injective fun v : ℕ => Json.int v := fun a b h => by
      simpa using h
    exact (List.map_injective_iff.mpr hinjective (Json.list.inj hids)).symm
  intro v hv
  rw [hlists] at hv
  have := plan.assignments_lt v hv
  omega

/-- Candidates of the workload are valid concurrent scenarios. -/
theorem exists_plan_project {keep : List ℕ} (hvalid : w.valid keep = true) :
    (w.project keep).get? "workers" = some (.int workers) ∧
      ∃ plan', validateWorkerPlan (w.project keep) workers = .ok plan' := by
  have hshares := shares_of_new hplan hnew
  obtain ⟨hne, -, hlt, -⟩ := w.valid_iff.mp hvalid
  have hget (key : String) (hkey : key ∈ ["workers", "version", "capacity", "jitter_us"]) :
      (w.project keep).get? key = (Json.dict w.source).get? key := by
    simp only [List.mem_cons, List.not_mem_nil, or_false] at hkey
    rcases hkey with rfl | rfl | rfl | rfl <;> simp [Workload.project, Json.get?]
  refine ⟨?_, ?_⟩
  · rw [hget _ (by simp), get?_source hplan hnew, if_pos rfl]
  obtain ⟨plan', hplan'⟩ : ∃ plan', prepare (w.project keep) workers budget = .ok plan' := by
    refine Replay.exists_prepare (keep.map w.operation) (keep.map w.owner) hplan
      (fun key hkey => ?_) (by simp [Workload.project, Json.get?])
      (by simp [Workload.project, Json.get?, Function.comp_def]) ?_ (by simpa using hne) (by simp)
      fun v hv => ?_
    · rw [hget key (List.mem_cons_of_mem "workers" hkey), get?_source hplan hnew]
      simp only [List.mem_cons, List.not_mem_nil, or_false] at hkey
      rcases hkey with rfl | rfl | rfl <;> simp
    · rw [hshares.operations, ← w.map_operation_ids]
      exact (w.sublist_ids hvalid).map _
    · obtain ⟨i, hi, rfl⟩ := List.mem_map.mp hv
      refine hshares.lt _ ?_
      rw [← w.map_owner_ids]
      exact List.mem_map_of_mem (w.mem_ids.mpr (hlt i hi))
  exact ⟨plan', (prepare_eq_ok_iff.mp hplan').1⟩

end Workload

/-! ## Verdicts -/

/-- All trials show the failure if the index set has the property, and none otherwise. -/
def Decided (P : List ℕ → Prop) (shows : Json → Prop) (ids : List ℕ) (trials : List Json) : Prop :=
  (P ids → ∀ trial ∈ trials, shows trial) ∧ (¬P ids → ∀ trial ∈ trials, ¬shows trial)

namespace Dradd

variable {σ : Type} {adapter : Adapter σ} {policy : Policy} {w : Workload} {P : List ℕ → Prop}

/-- What `check` has found of the threshold. -/
theorem Policy.threshold_le (h : policy.check = .ok ()) : policy.threshold.le 1 = true := by
  unfold check at h
  split_ifs at h with hguard
  simp only [not_or, not_not] at hguard
  exact hguard.2.2.2.2.1.2

/-- No policy asks for more than all trials. -/
theorem Policy.decisionThreshold_le (h : policy.check = .ok ()) :
    policy.decisionThreshold.le 1 = true := by
  unfold decisionThreshold
  split_ifs
  · exact threshold_le h
  · decide +kernel

/-- A group whose trials agree is accepted iff they show the failure. -/
theorem Group.Executed.accepted_iff_of_decided {n : ℕ} {rate : Py.Float} {stats : Summary}
    {group : Group} (h : group.Executed adapter policy w n rate stats) (hn : 1 ≤ n)
    (hrate : rate.le 1 = true) (hbound : policy.requiredBound = none)
    (hdecided : Decided P (ShowsTarget adapter.signature) group.ids group.trials) :
    group.accepted = true ↔ P group.ids := by
  have hne : group.trials ≠ [] := List.ne_nil_of_length_pos (by rw [h.length]; exact hn)
  rw [h.accepted, ← h.length, Dradd.accepted_iff h.summary, hbound]
  constructor
  · rintro ⟨-, ⟨trial, htrial, hshows⟩, -⟩
    by_contra hnot
    exact hdecided.2 hnot trial htrial hshows
  · intro hP
    have hshows := hdecided.1 hP
    refine ⟨fun trial htrial => ?_, ?_, ⟨1, ?_, hrate⟩, fun b hb => by cases hb⟩
    · obtain ⟨hstatus, hsignature⟩ := hshows trial htrial
      exact .inr ⟨hstatus, _, hsignature⟩
    · obtain ⟨trial, htrial⟩ := List.exists_mem_of_ne_nil _ hne
      exact ⟨trial, htrial, hshows trial htrial⟩
    · -- all trials count, so the fraction is one
      have hcount : count adapter.signature .target group.trials = group.trials.length :=
        List.countP_eq_length.mpr fun trial htrial =>
          decide_eq_true (classify_eq_target_iff.mpr (hshows trial htrial))
      have hlength : (group.trials.length : ℤ) ≠ 0 := by
        rw [h.length]
        omega
      have hone : ((group.trials.length : ℤ) : ℚ) ≠ 0 := by exact_mod_cast hlength
      rw [hcount, Py.Float.trueDiv, if_neg hlength, div_self hone,
        Py.Float.round_one]
      rfl

end Dradd

namespace Replay

variable {options : Options} {scenario : Json} {w : Workload} {P : List ℕ → Prop}

/-- A group whose trials agree is accepted iff they show the failure. -/
theorem Evidence.Judged.accepted_iff {group : Evidence} (h : group.Judged options scenario w)
    (htrials : 1 ≤ options.trials)
    (hdecided : Decided P (fun trial => matched trial = true) group.candidate.ids group.trials) :
    group.accepted options = true ↔ P group.candidate.ids := by
  rw [Evidence.accepted, decide_eq_true_eq, h.matchedFailures]
  have hlength := h.length
  constructor
  · intro hall
    by_contra hnot
    have hzero : group.trials.countP matched = 0 :=
      List.countP_eq_zero.mpr (hdecided.2 hnot)
    omega
  · intro hP
    rw [List.countP_eq_length.mpr (hdecided.1 hP), hlength]
    omega

end Replay

/-! ## Runs -/

open scoped Classical in
/-- The test of the search that both reducers are: candidates with the property. -/
noncomputable def test (w : Workload) (P : List ℕ → Prop) (keep : List ℕ) : Bool :=
  w.valid keep && decide (P keep)

open scoped Classical in
/-- The verdict on a candidate, as a test of its indexes. -/
theorem test_eq_iff {w : Workload} {P : List ℕ → Prop} {keep : List ℕ} {verdict : Bool}
    (hvalid : w.valid keep = true) (hverdict : verdict = true ↔ P keep) :
    verdict = test w P keep := by
  rw [test, hvalid, Bool.true_and, Bool.eq_iff_iff, hverdict]
  exact decide_eq_true_iff.symm

/-- The groups are those of a search by deletion from all operations, which ends with `final`. -/
def DeletionRun (m : Deletion.Method ℕ) (fuel : ℕ) (P : List ℕ → Prop) (w : Workload)
    (groups : List (Dradd.Phase × List ℕ)) (final : List ℕ) : Prop :=
  ¬P w.ids ∧ groups = [(.initial, w.ids)] ∧ final = w.ids ∨
    P w.ids ∧ ∃ t, Loop.run m.round fuel ⟨w.ids, 2, []⟩ = some t ∧ final = t.current ∧
      groups = (.initial, w.ids) :: t.tried.map (fun ids => (.candidate, ids)) ++
        [(.confirmation, t.current)]

/-- There is one such run. -/
theorem DeletionRun.unique {m : Deletion.Method ℕ} {fuel : ℕ} {P : List ℕ → Prop} {w : Workload}
    {groups groups' : List (Dradd.Phase × List ℕ)} {final final' : List ℕ}
    (h : DeletionRun m fuel P w groups final) (h' : DeletionRun m fuel P w groups' final') :
    groups = groups' ∧ final = final' := by
  rcases h with ⟨hno, hgroups, hfinal⟩ | ⟨hyes, t, hrun, hfinal, hgroups⟩
  · rcases h' with ⟨-, hgroups', hfinal'⟩ | ⟨hyes, -⟩
    · exact ⟨hgroups.trans hgroups'.symm, hfinal.trans hfinal'.symm⟩
    · exact absurd hyes hno
  · rcases h' with ⟨hno, -⟩ | ⟨-, t', hrun', hfinal', hgroups'⟩
    · exact absurd hyes hno
    · obtain rfl : t = t' := Option.some.inj (hrun.symm.trans hrun')
      exact ⟨hgroups.trans hgroups'.symm, hfinal.trans hfinal'.symm⟩

variable {σ τ : Type} {adapter : Dradd.Adapter σ} {policy : Dradd.Policy}
  {evaluator : Replay.Evaluator τ} {options : Replay.Options} {scenario : Json} {plan : Plan}
  {w : Workload} {P : List ℕ → Prop}

/-- The strategies that the reducers share neither prune nor lower the threshold. -/
theorem propose_eq_delete (h : policy.strategy = .single ∨ policy.strategy = .chunk) :
    policy.requiredBound = none ∧ Dradd.propose policy w = Deletion.delete := by
  rcases h with h | h <;>
    simp only [Dradd.Policy.requiredBound, Dradd.Strategy.repeated, h, Bool.false_eq_true, if_false,
      true_and] <;>
    · funext width offset current
      simp [Dradd.propose, Dradd.Strategy.guided, h, Deletion.delete]

/-- The strategies that both reducers have are the same deletion. -/
theorem method_eq (hstrategy : policy.strategy = options.strategy)
    (hshared : policy.strategy = .single ∨ policy.strategy = .chunk) (accepts : List ℕ → Bool) :
    Dradd.method policy w accepts = Replay.method options accepts := by
  rw [Dradd.method, Replay.method, (propose_eq_delete hshared).2, hstrategy]

namespace Dradd

/-- A candidate that is not refused was executed. -/
theorem Settled.exists_executed {group : Group} (h : Settled adapter policy w group)
    (hvalidate : ∀ s, (adapter.validate s (w.project group.ids)).1 = .ok ())
    (hvalid : w.valid group.ids = true) : ∃ stats, group.Executed adapter policy w
      policy.candidateTrials.toNat policy.decisionThreshold stats := by
  cases h with
  | invalid hinvalid _ =>
    rw [hvalid] at hinvalid
    cases hinvalid
  | refused s text _ hrefused _ =>
    rw [hvalidate s] at hrefused
    cases hrefused
  | executed _ stats _ _ _ _ _ hexecuted => exact ⟨stats, hexecuted⟩

/-- A candidate that is not valid is not accepted. -/
theorem Settled.accepted_of_invalid {group : Group} (h : Settled adapter policy w group)
    (hinvalid : w.valid group.ids = false) : group.accepted = false := by
  cases h with
  | invalid _ hrejected => exact hrejected.accepted
  | refused _ _ _ _ hrejected => exact hrejected.accepted
  | executed _ _ _ _ _ _ _ hexecuted =>
    have := hexecuted.valid
    rw [hinvalid] at this
    cases this

/-- The recorded verdicts are those of the test. -/
theorem agrees_test (hpolicy : policy.check = .ok ()) (hbound : policy.requiredBound = none)
    (hvalidate : ∀ keep s, w.valid keep = true → (adapter.validate s (w.project keep)).1 = .ok ())
    {groups : List Group}
    (hsettled : ∀ group ∈ groups, group.phase = .candidate → Settled adapter policy w group)
    (hdecided : ∀ group ∈ groups,
      Decided P (ShowsTarget adapter.signature) group.ids group.trials) :
    Agrees (test w P) groups := by
  intro group hgroup hphase
  have h := hsettled group hgroup hphase
  cases hvalid : w.valid group.ids with
  | false => rw [h.accepted_of_invalid hvalid, test, hvalid, Bool.false_and]
  | true =>
    obtain ⟨stats, hexecuted⟩ := h.exists_executed (fun s => hvalidate _ s hvalid) hvalid
    have htrials := policy.candidateTrials_bounds hpolicy
    exact test_eq_iff hvalid (hexecuted.accepted_iff_of_decided (by omega)
      (policy.decisionThreshold_le hpolicy) hbound (hdecided group hgroup))

/-- If no candidate of the workload is refused, all groups of a finished run are executed, and they
are those of a search by deletion. -/
theorem reduce_deletionRun {source : Json} {state after : σ} {fuel : ℕ} {report : Report}
    (hnew : Workload.new source = .ok w)
    (hreduce : reduce adapter policy fuel source state = .ok (some (report, after)))
    (hshared : policy.strategy = .single ∨ policy.strategy = .chunk)
    (hfree : Replay.Unrestricted w)
    (hvalidate : ∀ keep s, w.valid keep = true → (adapter.validate s (w.project keep)).1 = .ok ())
    (hdecided : ∀ group ∈ report.groups,
      Decided P (ShowsTarget adapter.signature) group.ids group.trials)
    (hfinished : report.exhausted = false) : (∀ group ∈ report.groups, group.trials ≠ []) ∧
      ∃ final, report.reduced = w.project final ∧
        DeletionRun (method policy w (test w P)) fuel P w
          (report.groups.map fun group => (group.phase, group.ids)) final := by
  obtain ⟨hbound, hpropose⟩ := propose_eq_delete (w := w) hshared
  obtain ⟨hpolicy, first, stats, hphase, hids, hexecuted, hcases⟩ := reduce_inv hnew hreduce
  have hbounds := policy.bounds hpolicy
  have hcandidate := policy.candidateTrials_bounds hpolicy
  have htrials {n : ℕ} (hn : 1 ≤ n) {group : Group} (hlength : group.trials.length = n) :
      group.trials ≠ [] := List.ne_nil_of_length_pos (by omega)
  rcases hcases with ⟨hrejected, hgroups, hreduced⟩ | ⟨haccepted, s, s', last, h⟩
  · -- the initial group is not accepted: it is the only one
    have hverdict := hexecuted.accepted_iff_of_decided (by omega) (policy.threshold_le hpolicy)
      hbound (hdecided first (by rw [hgroups]; exact List.mem_cons_self))
    rw [hrejected, hids] at hverdict
    refine ⟨?_, w.ids, hreduced, .inl ⟨fun hP => by simpa using hverdict.mpr hP, ?_, rfl⟩⟩
    · rw [hgroups]
      simpa using htrials (by omega) hexecuted.length
    · rw [hgroups, List.map_singleton, hphase, hids]
  -- otherwise the groups are the initial one, the candidates and the confirmation
  obtain ⟨hexplained, hrefines⟩ := search_refines hpolicy h.start (hfinished ▸ h.run)
  obtain ⟨first', rest, hgroups, -, -, hrest⟩ := hexplained.phases
  obtain rfl : first' = first := by
    simpa [hgroups] using hexplained.head
  have hall : report.groups = first' :: rest ++ [last] := by rw [h.report_groups, hgroups]
  have hmem {group : Group} (hgroup : group ∈ s'.groups) : group ∈ report.groups := by
    rw [h.report_groups]
    exact List.mem_append_left _ hgroup
  have hverdict := hexecuted.accepted_iff_of_decided (by omega) (policy.threshold_le hpolicy) hbound
    (hdecided first' (hmem (hgroups ▸ List.mem_cons_self)))
  rw [haccepted, hids] at hverdict
  have hagrees : Agrees (test w P) s'.groups := agrees_test hpolicy hbound hvalidate
    hexplained.settled fun group hgroup => hdecided group (hmem hgroup)
  have hrun := hrefines _ hagrees
  rw [h.abstract] at hrun
  have htried : s'.abstract.tried = rest.map Group.ids := by
    have hfilter : (rest.filter fun group => group.phase = .candidate) = rest :=
      List.filter_eq_self.mpr fun group hgroup => decide_eq_true (hrest group hgroup)
    simp [Search.abstract, candidateIds, hgroups, hphase, hfilter]
  -- whatever was tried is a candidate, so it was executed
  have hwithin : Deletion.Method.Within w.ids s'.abstract :=
    Deletion.Method.run_tried (fun width offset l => congrFun (congrFun (congrFun hpropose _) _) _)
      ⟨List.Sublist.refl _, le_rfl, by simp⟩ hrun
  have hexecuted' : ∀ group ∈ rest, group.trials ≠ [] := by
    intro group hgroup
    have hgroup' : group ∈ s'.groups := hgroups ▸ List.mem_cons_of_mem first' hgroup
    obtain ⟨hne, hsub⟩ := hwithin.tried group.ids (htried ▸ List.mem_map_of_mem hgroup)
    have hvalid := hfree.valid_of_sublist w.valid_ids hsub hne
    have hsettled := hexplained.settled group hgroup' (hrest group hgroup)
    obtain ⟨_, hexecuted'⟩ := hsettled.exists_executed (fun s => hvalidate _ s hvalid) hvalid
    exact htrials (by omega) hexecuted'.length
  obtain ⟨_, hlast⟩ := h.executed
  refine ⟨?_, s'.current, h.reduced, .inr ⟨hverdict.mp rfl, s'.abstract, hrun, rfl, ?_⟩⟩
  · rw [hall, List.cons_append, List.forall_mem_cons, List.forall_mem_append]
    exact ⟨htrials (by omega) hexecuted.length, hexecuted',
      by simpa using htrials (by omega) hlast.length⟩
  · have hmap : (rest.map fun group => (group.phase, group.ids)) =
        rest.map fun group => (.candidate, group.ids) :=
      List.map_congr_left fun group hgroup => by rw [hrest group hgroup]
    rw [hall, List.map_append, List.map_cons, hmap, htried, List.map_map, hphase, hids,
      List.map_singleton, h.phase, h.ids]
    rfl

end Dradd

namespace Replay

/-- The groups of a run that the budget has not cut short are those of a search by deletion. -/
theorem deletionRun_of_searched {fuel : ℕ} {first last : Evidence} {final : Json}
    {summary : Summary} {s : Search τ} (hoptions : options.check = .ok ())
    (hphase : first.phase = .initial) (hids : first.candidate.ids = w.ids)
    (haccepted : first.accepted options = true)
    (h : Searched options scenario w fuel first final summary s last)
    (hdecided : ∀ group ∈ summary.candidateEvidence,
      Decided P (fun trial => matched trial = true) group.candidate.ids group.trials)
    (hfinished : summary.exhausted = false) :
    DeletionRun (method options (test w P)) fuel P w
      (summary.candidateEvidence.map fun group => (group.phase, group.candidate.ids))
      s.current.ids := by
  obtain ⟨-, htrials⟩ := Options.bounds hoptions
  obtain ⟨rest, hevidence, hrest⟩ := h.searching.evidence
  have hmem {group : Evidence} (hgroup : group ∈ s.evidence) :
      group ∈ summary.candidateEvidence := by
    rw [h.evidence]
    exact List.mem_append_left _ hgroup
  have hverdict {group : Evidence} (hgroup : group ∈ s.evidence) :
      group.accepted options = true ↔ P group.candidate.ids :=
    (h.searching.judged group hgroup).accepted_iff htrials (hdecided group (hmem hgroup))
  -- the test says of the recorded candidates what their trials have shown
  have hrun := h.refines hfinished (test w P) fun group hgroup _ =>
    test_eq_iff (h.searching.judged group hgroup).retains.valid (hverdict hgroup)
  have htried : s.abstract.tried = rest.map fun group => group.candidate.ids := by
    have hfilter : (rest.filter fun group => group.phase = .candidate) = rest :=
      List.filter_eq_self.mpr fun group hgroup => decide_eq_true (hrest group hgroup)
    simp [Search.abstract, candidateIds, hevidence, hphase, hfilter]
  have hmap : (rest.map fun group => (group.phase, group.candidate.ids)) =
      rest.map fun group => (.candidate, group.candidate.ids) :=
    List.map_congr_left fun group hgroup => by rw [hrest group hgroup]
  have hfirst := (hverdict (hevidence ▸ List.mem_cons_self)).mp haccepted
  rw [hids] at hfirst
  refine .inr ⟨hfirst, s.abstract, hrun, rfl, ?_⟩
  rw [h.evidence, hevidence, List.map_append, List.map_cons, hmap, htried, List.map_map, hphase,
    hids, List.map_singleton, h.phase, h.candidate]
  rfl

end Replay

/-! ## Agreement -/

/-- The adapter lets every valid concurrent scenario through. -/
def LetsThrough (adapter : Dradd.Adapter σ) : Prop :=
  ∀ state candidate workers plan, candidate.get? "workers" = some (.int workers) →
    validateWorkerPlan candidate workers = .ok plan → (adapter.validate state candidate).1 = .ok ()

/-! ### An example

A read between two queries of the capacity, on a device that reports the end of the file instead of
`EAGAIN`. The device is empty at every read, so a candidate fails in every schedule if it has the
read, and in none otherwise.
-/

/-- The fault `false-eof` shows. -/
def showsEof (workload : Json) : Bool :=
  (operationsOf workload).any fun op => (op.get? "op").any (·.eq (.str "read"))

/-- `FIFOAdapter`, on this device. -/
def eofAdapter : Dradd.Adapter Unit where
  signature := "FIFO:NO_LEGAL_ORDER"
  validate _ workload :=
    (match workload.get? "workers" with
      | some (.int workers) => (validateWorkerPlan workload workers).map fun _ => ()
      | _ => .error "concurrent runs require 2..4 workers and 1..12 operations", ())
  execute _ workload _ :=
    (.ok (.dict (if showsEof workload then
        [("status", .str "fail"), ("reason", .str "no legal FIFO ordering"),
          ("signature", .str "FIFO:NO_LEGAL_ORDER")]
      else [("status", .str "pass")])), ())

/-- `evaluate_concurrent`, on this device. -/
def eofEvaluator : Replay.Evaluator Unit := fun _ scenario _ _ =>
  (.ok (.dict (if showsEof scenario then
      [("status", .str "fail"), ("reason", .str "no legal FIFO ordering")]
    else [("status", .str "pass")])), ())

/-- A read between two queries of the capacity. -/
def eofScenario : Json :=
  .dict [("version", .int 1), ("capacity", .int 256),
    ("operations", .list [.dict [("op", .str "capacity")],
      .dict [("op", .str "read"), ("count", .int 1)], .dict [("op", .str "capacity")]])]

/-- The plan for `eofScenario`, with two workers. -/
def eofPlan : Plan where
  scenario :=
    { capacity := 256
      operations := [.capacity, .read 1, .capacity]
      minCapacity_le := minCapacity_le_256
      le_maxCapacity := le_maxCapacity_256
      operations_valid := by decide
      operations_pos := by decide
      operations_le := by decide }
  operations := operationsOf eofScenario
  workers := 2
  assignments := [0, 1, 0]
  operations_read := rfl
  operations_le := by decide
  two_le_workers := handoffPlan.two_le_workers
  workers_le := handoffPlan.workers_le
  assignments_length := rfl
  assignments_lt := by decide

/-- `as_workload` of `eofScenario`. -/
def eofWorkload : Workload where
  source :=
    [("version", .int 1), ("capacity", .int 256), ("operations", .list (operationsOf eofScenario)),
      ("worker_ids", .list [.int 0, .int 1, .int 0]), ("workers", .int 2)]
  operations := operationsOf eofScenario
  owners := [0, 1, 0]
  edges := []
  operations_eq := rfl
  edges_eq := rfl
  ordered := by decide +kernel

/-- Chunks, with two trials for each candidate. -/
def eofOptions : Replay.Options where
  workers := 2
  strategy := .chunk
  trials := 2
  budget := 20
  searchBudget := 10000

/-- The same as a policy of `reduce`. -/
def eofPolicy : Dradd.Policy where
  strategy := .chunk
  trials := 2
  maxExecutions := 40
  maxCandidates := 20
  threshold := .ofRat (3 / 5)
  lowerBound := none
  seed := 42

/-- The adapter returns no other fields than those of a trial. -/
theorem wellTyped_eofAdapter : eofAdapter.WellTyped := by
  intro state candidate seed reply h
  cases h
  split_ifs <;> simp [Dradd.WellTyped, Json.get?, lookup]

/-- The adapter does not refuse a valid plan. -/
theorem letsThrough_eofAdapter : LetsThrough eofAdapter := by
  intro state candidate workers plan hget hplan
  simp only [eofAdapter, hget, hplan]
  rfl

/-- The evaluator answers every plan. -/
theorem answers_eofEvaluator : Replay.Answers eofEvaluator eofOptions := by
  intro state scenario plan _
  refine ⟨_, .str (if showsEof scenario then "fail" else "pass"), rfl, ?_, ?_⟩
  · split_ifs <;> rfl
  · split_ifs <;> simp [Dradd.WellTyped, Json.get?, lookup]

/-- Trials that all say whether the index set has the property. -/
theorem decided_of_all {P : List ℕ → Prop} {ids : List ℕ} [Decidable (P ids)] {shows : Json → Prop}
    [DecidablePred shows] {trials : List Json}
    (h : (trials.all fun trial => decide (shows trial) == decide (P ids)) = true) :
    Decided P shows ids trials := by
  simp only [List.all_eq_true, beq_iff_eq, decide_eq_decide] at h
  exact ⟨fun hP trial htrial => (h trial htrial).mpr hP,
    fun hno trial htrial hshows => hno ((h trial htrial).mp hshows)⟩

/-- Whether a trial shows the target can be read off its class. -/
instance (signature : String) : DecidablePred (Dradd.ShowsTarget signature) := fun _ =>
  decidable_of_iff _ Dradd.classify_eq_target_iff

/-- In the run of `reduce`, a candidate fails iff it has the read. -/
theorem decided_reduce_eof {report : Dradd.Report} {after : Unit}
    (h : Dradd.reduce eofAdapter eofPolicy 182 (asWorkload eofScenario 2) () =
      .ok (some (report, after))) : report.exhausted = false ∧
      ∀ group ∈ report.groups,
        Decided (1 ∈ ·) (Dradd.ShowsTarget eofAdapter.signature) group.ids group.trials := by
  have heval : ((Dradd.reduce eofAdapter eofPolicy 182
      (asWorkload eofScenario 2) ()).toOption.join.any fun p =>
        !p.1.exhausted && p.1.groups.all fun group => group.trials.all fun trial =>
          decide (Dradd.ShowsTarget eofAdapter.signature trial) ==
            decide (1 ∈ group.ids)) = true := by
    decide +kernel
  simp only [h, Except.toOption, Option.join_some, Option.any_some, Bool.and_eq_true,
    Bool.not_eq_true', List.all_eq_true (l := report.groups)] at heval
  exact ⟨heval.1, fun group hgroup => decided_of_all (heval.2 group hgroup)⟩

/-- In the run of `reduce_concurrent`, a candidate fails iff it has the read. -/
theorem decided_reduceConcurrent_eof {final : Json} {summary : Replay.Summary} {after : Unit}
    (h : Replay.reduceConcurrent eofEvaluator eofOptions 182 eofScenario () =
      .ok (some ((final, summary), after))) : summary.exhausted = false ∧
      ∀ group ∈ summary.candidateEvidence,
        Decided (1 ∈ ·) (fun trial => Replay.matched trial = true) group.candidate.ids
          group.trials := by
  have heval : ((Replay.reduceConcurrent eofEvaluator eofOptions 182
      eofScenario ()).toOption.join.any fun p =>
        !p.1.2.exhausted && p.1.2.candidateEvidence.all fun group =>
          group.trials.all fun trial =>
            decide (Replay.matched trial = true) == decide (1 ∈ group.candidate.ids)) = true := by
    decide +kernel
  simp only [h, Except.toOption, Option.join_some, Option.any_some, Bool.and_eq_true,
    Bool.not_eq_true', List.all_eq_true (l := summary.candidateEvidence)] at heval
  exact ⟨heval.1, fun group hgroup => decided_of_all (heval.2 group hgroup)⟩

/-- On a valid concurrent scenario without enforced records, the reducers replay the same
candidates in the same order and end with the same operations and owners, for every property of
index sets on which their trials agree, if neither runs out of its budgets. -/
theorem reducers_agree (hplan : prepare scenario options.workers options.searchBudget = .ok plan)
    (hnew : Workload.new (asWorkload scenario options.workers) = .ok w)
    (hfree : Replay.Unrestricted w) (hpolicy : policy.check = .ok ())
    (hoptions : options.check = .ok ()) (hstrategy : policy.strategy = options.strategy)
    (hadapter : adapter.WellTyped) (hlets : LetsThrough adapter)
    (hanswers : Replay.Answers evaluator options) {fuel : ℕ} (hfuel : 182 ≤ fuel) (state : σ)
    (state' : τ) : ∃ report after final summary after',
      Dradd.reduce adapter policy fuel (asWorkload scenario options.workers) state =
        .ok (some (report, after)) ∧
      Replay.reduceConcurrent evaluator options fuel scenario state' =
        .ok (some ((final, summary), after')) ∧
      (summary.exhausted = true → options.budget ≤ summary.attempts) ∧
      ∀ P : List ℕ → Prop,
        (∀ group ∈ report.groups,
          Decided P (Dradd.ShowsTarget adapter.signature) group.ids group.trials) →
        (∀ group ∈ summary.candidateEvidence,
          Decided P (fun trial => Replay.matched trial = true) group.candidate.ids group.trials) →
        report.exhausted = false → summary.exhausted = false →
        (∀ group ∈ report.groups, group.trials ≠ []) ∧
          (report.groups.map fun group => (group.phase, group.ids)) =
            (summary.candidateEvidence.map fun group => (group.phase, group.candidate.ids)) ∧
          operationsOf report.reduced = operationsOf final ∧
          ownersOf report.reduced = ownersOf final := by
  have hshares := shares_of_new hplan hnew
  obtain ⟨hshared, htrials⟩ := Replay.Options.bounds hoptions
  rw [← hstrategy] at hshared
  -- candidates are valid concurrent scenarios, so none is refused
  have hvalidate (keep : List ℕ) (s : σ) (hvalid : w.valid keep = true) :
      (adapter.validate s (w.project keep)).1 = .ok () := by
    obtain ⟨hget, plan', hplan'⟩ := exists_plan_project hplan hnew hvalid
    exact hlets s _ _ plan' hget hplan'
  have haccept : Dradd.accept adapter policy (asWorkload scenario options.workers) state =
      .ok (w, (adapter.validate state (w.project w.ids)).2) := by
    simp only [Dradd.accept, hnew, w.candidate_eq_ok w.valid_ids, hvalidate _ _ w.valid_ids, hpolicy,
      bind, Except.bind]
    rfl
  -- both runs end within the fuel
  have hrounds : (w.size + 1) * (w.size + 2) ≤ fuel := (Dradd.rounds_le w).trans hfuel
  obtain ⟨report, s, _, _, hreduce, -⟩ := Dradd.reduce_spec hadapter haccept hrounds
  obtain ⟨first', final, summary, after', hconcurrent, hcut, hjudged, hphase', hids', hcases'⟩ :=
    Replay.reduceConcurrent_spec hanswers hplan hshares hfree hoptions hrounds state'
  refine ⟨report, s.adapter, final, summary, after', hreduce, hconcurrent, hcut,
    fun P hdecided hdecided' hfinished hfinished' => ?_⟩
  obtain ⟨hexecuted, ids, hreduced, hrun⟩ := Dradd.reduce_deletionRun hnew hreduce hshared hfree
    hvalidate hdecided hfinished
  rw [method_eq hstrategy hshared] at hrun
  -- the other run is the same search by deletion, and ends with the same indexes
  obtain ⟨ids', hrun', hoperations, howners⟩ : ∃ ids',
      DeletionRun (Replay.method options (test w P)) fuel P w
        (summary.candidateEvidence.map fun group => (group.phase, group.candidate.ids)) ids' ∧
      operationsOf final = ids'.map w.operation ∧
      ownersOf final = ids'.map fun i => Json.int (w.owner i) := by
    rcases hcases' with ⟨hrejected, hevidence, hoperations, howners⟩ | ⟨haccepted, t, last, h⟩
    · -- the initial group is not accepted here either
      have hverdict := hjudged.accepted_iff htrials
        (hdecided' first' (by rw [hevidence]; exact List.mem_cons_self))
      rw [hrejected, hids'] at hverdict
      refine ⟨w.ids, .inl ⟨fun hP => by simpa using hverdict.mpr hP, ?_, rfl⟩, ?_, ?_⟩
      · rw [hevidence, List.map_singleton, hphase', hids']
      · rw [hoperations, w.map_operation_ids]
      · rw [howners, ← w.map_owner_ids, List.map_map]
        rfl
    · refine ⟨t.current.ids, Replay.deletionRun_of_searched hoptions hphase' hids' haccepted h
        hdecided' hfinished', ?_, ?_⟩
      · rw [h.final_eq, h.searching.current.operationsOf_eq]
      · rw [h.final_eq, h.searching.current.ownersOf_eq]
  obtain ⟨hgroups, rfl⟩ := hrun.unique hrun'
  refine ⟨hexecuted, hgroups, ?_, ?_⟩
  · rw [hreduced, hoperations, w.operationsOf_project]
  · rw [hreduced, howners, w.ownersOf_project]

/-- On the scenario with one read, both reducers execute the same candidates and keep the read. -/
theorem reducers_agree_eof : ∃ report after final summary after',
    Dradd.reduce eofAdapter eofPolicy 182 (asWorkload eofScenario 2) () =
      .ok (some (report, after)) ∧
    Replay.reduceConcurrent eofEvaluator eofOptions 182 eofScenario () =
      .ok (some ((final, summary), after')) ∧
    (report.groups.map fun group => (group.phase, group.ids)) =
      (summary.candidateEvidence.map fun group => (group.phase, group.candidate.ids)) ∧
    operationsOf report.reduced = operationsOf final ∧
    ownersOf report.reduced = ownersOf final := by
  obtain ⟨report, after, final, summary, after', hreduce, hconcurrent, -, hagree⟩ :=
    reducers_agree
      (show prepare eofScenario eofOptions.workers eofOptions.searchBudget = .ok eofPlan from rfl)
      (show Workload.new (asWorkload eofScenario eofOptions.workers) = .ok eofWorkload from rfl)
      (fun edge hedge => absurd hedge List.not_mem_nil)
      (show eofPolicy.check = .ok () by decide +kernel) (by decide +kernel) rfl
      wellTyped_eofAdapter letsThrough_eofAdapter answers_eofEvaluator le_rfl () ()
  obtain ⟨hfinished, hdecided⟩ := decided_reduce_eof hreduce
  obtain ⟨hfinished', hdecided'⟩ := decided_reduceConcurrent_eof hconcurrent
  obtain ⟨-, hgroups, hoperations, howners⟩ :=
    hagree (1 ∈ ·) hdecided hdecided' hfinished hfinished'
  exact ⟨report, after, final, summary, after', hreduce, hconcurrent, hgroups, hoperations, howners⟩

end Lab
