import KernelBridge.Lab.Baselines

/-!
# What guidance changes

The strategies `dradd` and `reproduction` of `reduce` differ in one thing: `dradd` deletes with an
operation those that require it. On a workload without enforced records nothing requires anything,
so pruning leaves every index set of the search as it is, and the two strategies are the same
search: they hand the adapter the same calls, and their reports differ in the name of the strategy
only (`reduce_dradd_eq`).
-/

namespace Lab.Dradd

open Py

variable {σ : Type} (adapter : Adapter σ) (policy : Policy) {w : Workload}

/-- The policy with another strategy. -/
def Policy.withStrategy (strategy : Strategy) : Policy := { policy with strategy }

/-- The strategy does not change the number of trials. -/
@[simp]
theorem Policy.withStrategy_trials (strategy : Strategy) :
    (policy.withStrategy strategy).trials = policy.trials := rfl

/-- The strategy does not change the threshold. -/
@[simp]
theorem Policy.withStrategy_threshold (strategy : Strategy) :
    (policy.withStrategy strategy).threshold = policy.threshold := rfl

/-! ## Pruning -/

/-- Without enforced records every index set is closed, and an increasing one is pruned to itself. -/
theorem prune_eq_self (hfree : Replay.Unrestricted w) {keep : List ℕ}
    (hsorted : keep.Pairwise (· < ·)) : w.prune keep = keep := by
  obtain ⟨hpruned, hsub, -, hmax⟩ := w.prune_spec keep
  have hclosed : Closure.Closed w.required keep := by
    refine w.closed_iff.mpr fun edge hedge hkind => ?_
    rw [hfree edge hedge] at hkind
    cases hkind
  -- each is a part of the other, and both are increasing
  have hkeep := hmax keep hclosed (List.Subset.refl keep)
  exact (Workload.sublist_of_subset hpruned hsorted hsub).antisymm
    (Workload.sublist_of_subset hsorted hpruned hkeep)

/-- A deletion keeps the indexes in order. -/
theorem pairwise_delete {current : List ℕ} (h : current.Pairwise (· < ·)) (width offset : ℕ) :
    (current.take offset ++ current.drop (offset + width)).Pairwise (· < ·) :=
  h.sublist (Deletion.delete_sublist width offset current)

/-! ## Two searches in step -/

section Search

variable {adapter policy}

/-- The trials of a group do not depend on the strategy. -/
theorem runTrials_withStrategy (strategy : Strategy) (candidate : Json) (n : ℕ) (s : Search σ) :
    runTrials adapter (policy.withStrategy strategy) candidate n s =
      runTrials adapter policy candidate n s := by
  induction n generalizing s with
  | zero => rfl
  | succ n ih =>
    rw [runTrials, ih]
    rfl

/-- A group does not depend on which of the two strategies it is for. -/
theorem replay_dradd_eq (keep : List ℕ) (phase : Phase) (n : ℕ) (rate : Py.Float) (s : Search σ) :
    replay adapter (policy.withStrategy .dradd) w keep phase n rate s =
      replay adapter (policy.withStrategy .reproduction) w keep phase n rate s := by
  simp only [replay, runTrials_withStrategy]
  rfl

/-- A deletion that finds an increasing index set leaves one. -/
theorem pairwise_of_tryOffset {width offset : ℕ} {s s' : Search σ} {out : Option Sweep}
    (hsorted : s.current.Pairwise (· < ·))
    (h : tryOffset adapter policy w width offset s = .ok (out, s')) :
    s'.current.Pairwise (· < ·) := by
  unfold tryOffset at h
  dsimp only at h
  by_cases hattempts : policy.maxCandidates ≤ s.attempts
  · rw [if_pos hattempts] at h
    cases h
    exact hsorted
  rw [if_neg hattempts] at h
  by_cases hinvalid : w.valid (propose policy w width offset s.current) = false
  · rw [if_pos hinvalid] at h
    cases h
    exact hsorted
  rw [if_neg hinvalid] at h
  have hvalid := (Bool.not_eq_false _).mp hinvalid
  generalize validateCandidate adapter w (propose policy w width offset s.current) s.adapter =
    answer at h
  obtain ⟨_ | _, state⟩ := answer
  · cases h
    exact hsorted
  dsimp only at h
  by_cases hbudget : policy.maxExecutions < s.executions + policy.candidateTrials + policy.trials
  · rw [if_pos hbudget] at h
    cases h
    exact hsorted
  rw [if_neg hbudget] at h
  obtain ⟨group, stats, state', hreplay, -⟩ := replay_spec adapter policy hvalid .candidate
    policy.candidateTrials.toNat policy.decisionThreshold
    { s with attempts := s.attempts + 1, adapter := state }
  rw [hreplay] at h
  cases haccepted : group.accepted with
  | true =>
    rw [haccepted] at h
    cases h
    exact (w.valid_iff.mp hvalid).2.1
  | false =>
    rw [haccepted] at h
    cases h
    exact hsorted

/-- A sweep keeps the indexes in order. -/
theorem pairwise_of_sweep {width : ℕ} {offsets : List ℕ} {s s' : Search σ} {out : Sweep}
    (hsorted : s.current.Pairwise (· < ·))
    (h : sweep adapter policy w width offsets s = .ok (out, s')) : s'.current.Pairwise (· < ·) := by
  induction offsets generalizing s with
  | nil =>
    cases h
    exact hsorted
  | cons offset rest ih =>
    rw [sweep] at h
    obtain ⟨⟨_ | out', t⟩, hstep, h⟩ := bind_eq_ok_iff.mp h
    · exact ih (pairwise_of_tryOffset hsorted hstep) h
    · cases h
      exact pairwise_of_tryOffset hsorted hstep

/-- A round keeps the indexes in order. -/
theorem pairwise_of_round {s s' : Search σ} (hsorted : s.current.Pairwise (· < ·))
    (h : round adapter policy w s = .inl s') : s'.current.Pairwise (· < ·) := by
  unfold round at h
  dsimp only at h
  by_cases hone : s.current.length ≤ 1
  · rw [if_pos hone] at h
    cases h
  rw [if_neg hone] at h
  cases hsweep : width policy s.current.length s.granularity >>= fun width =>
      sweep adapter policy w width (offsets s.current.length width) s with
  | error text =>
    rw [hsweep] at h
    cases h
  | ok result =>
    obtain ⟨out, t⟩ := result
    obtain ⟨width, -, hresult⟩ := bind_eq_ok_iff.mp hsweep
    have ht := pairwise_of_sweep hsorted hresult
    rw [hsweep] at h
    cases out with
    | exhausted => cases h
    | changed =>
      cases h
      exact ht
    | unchanged =>
      dsimp only at h
      split_ifs at h
      cases h
      exact ht

variable (hfree : Replay.Unrestricted w)

include hfree

/-- On a workload without enforced records, an offset is tried alike under both strategies. -/
theorem tryOffset_dradd_eq {s : Search σ} (hsorted : s.current.Pairwise (· < ·))
    (width offset : ℕ) : tryOffset adapter (policy.withStrategy .dradd) w width offset s =
      tryOffset adapter (policy.withStrategy .reproduction) w width offset s := by
  have hpropose : propose (policy.withStrategy .dradd) w width offset s.current =
      propose (policy.withStrategy .reproduction) w width offset s.current :=
    prune_eq_self hfree (pairwise_delete hsorted width offset)
  unfold tryOffset
  rw [hpropose]
  simp only [replay_dradd_eq]
  rfl

/-- So is a sweep. -/
theorem sweep_dradd_eq {s : Search σ} (hsorted : s.current.Pairwise (· < ·)) (width : ℕ)
    (offsets : List ℕ) : sweep adapter (policy.withStrategy .dradd) w width offsets s =
      sweep adapter (policy.withStrategy .reproduction) w width offsets s := by
  induction offsets generalizing s with
  | nil => rfl
  | cons offset rest ih =>
    rw [sweep, sweep, tryOffset_dradd_eq hfree hsorted]
    cases hstep : tryOffset adapter (policy.withStrategy .reproduction) w width offset s with
    | error text => rfl
    | ok result =>
      obtain ⟨_ | out, s'⟩ := result
      · exact ih (pairwise_of_tryOffset hsorted hstep)
      · rfl

/-- So is a round. -/
theorem round_dradd_eq {s : Search σ} (hsorted : s.current.Pairwise (· < ·)) :
    round adapter (policy.withStrategy .dradd) w s =
      round adapter (policy.withStrategy .reproduction) w s := by
  have hwidth (size granularity : ℕ) : width (policy.withStrategy .dradd) size granularity =
      width (policy.withStrategy .reproduction) size granularity := rfl
  have hdradd : ¬(policy.withStrategy .dradd).strategy = .single := nofun
  have hreproduction : ¬(policy.withStrategy .reproduction).strategy = .single := nofun
  unfold round
  simp only [hwidth, sweep_dradd_eq hfree hsorted, hdradd, hreproduction]

/-- From an increasing index set on, the searches are the same. -/
theorem run_dradd_eq {s : Search σ} (hsorted : s.current.Pairwise (· < ·)) (fuel : ℕ) :
    Loop.run (round adapter (policy.withStrategy .dradd) w) fuel s =
      Loop.run (round adapter (policy.withStrategy .reproduction) w) fuel s :=
  Loop.run_congr (I := fun s => s.current.Pairwise (· < ·))
    (fun _ _ hs hround => pairwise_of_round hs hround) (fun _ hs => round_dradd_eq hfree hs) fuel
    hsorted

end Search

/-! ## Reports -/

/-- The report under the name of another strategy. -/
def Report.withStrategy (strategy : Strategy) (report : Report) : Report :=
  { report with strategy, policy := report.policy.withStrategy strategy }

/-- The reports differ in the name of the strategy only. -/
theorem report_dradd_eq (exhausted confirmed : Bool) (final : Summary) (s : Search σ) :
    report adapter (policy.withStrategy .dradd) w exhausted confirmed final s =
      (report adapter (policy.withStrategy .reproduction) w exhausted confirmed final s).map
        (Report.withStrategy .dradd) := by
  unfold report
  generalize w.candidate s.current = reduced
  generalize ((allTrials s.groups).mapM fun trial => do
    countOf trial "operations_executed" (← historyLength trial)) = operations
  generalize ((allTrials s.groups).mapM fun trial => countOf trial "explored" 0) = transitions
  cases reduced with
  | error text => rfl
  | ok reduced =>
    cases operations with
    | error text => rfl
    | ok operations => cases transitions <;> rfl

/-- What `reduce` returns differs in the name of the strategy only. -/
theorem reduce_withStrategy {source : Json}
    (hfree : ∀ w, Workload.new source = .ok w → Replay.Unrestricted w) (fuel : ℕ) (state : σ) :
    reduce adapter (policy.withStrategy .dradd) fuel source state =
      (reduce adapter (policy.withStrategy .reproduction) fuel source state).map
        (Option.map fun result => (result.1.withStrategy .dradd, result.2)) := by
  have haccept : accept adapter (policy.withStrategy .dradd) source state =
      accept adapter (policy.withStrategy .reproduction) source state := rfl
  unfold reduce
  rw [haccept]
  cases hresult : accept adapter (policy.withStrategy .reproduction) source state with
  | error text => rfl
  | ok result =>
    obtain ⟨w, state'⟩ := result
    have hrequired := hfree w (accept_ok hresult).1
    simp only [bind, Except.bind, replay_dradd_eq, report_dradd_eq, Policy.withStrategy_trials,
      Policy.withStrategy_threshold]
    obtain ⟨group, stats, state'', hinitial, -⟩ := replay_spec adapter
      (policy.withStrategy .reproduction) w.valid_ids .initial policy.trials.toNat policy.threshold
      (.start w state')
    rw [hinitial]
    dsimp only
    cases group.accepted with
    | false =>
      generalize report adapter (policy.withStrategy .reproduction) w _ _ _ _ = final
      cases final <;> rfl
    | true =>
      -- the search starts with all operations
      rw [if_pos rfl, if_pos rfl, run_dradd_eq hrequired (w.valid_iff.mp w.valid_ids).2.1]
      generalize Loop.run (round adapter (policy.withStrategy .reproduction) w) fuel _ = ended
      rcases ended with _ | _ | ⟨exhausted, s⟩
      · rfl
      · rfl
      dsimp only
      generalize replay adapter (policy.withStrategy .reproduction) w s.current .confirmation _ _ s =
        confirmed
      cases confirmed with
      | error text => rfl
      | ok confirmed =>
        dsimp only
        generalize report adapter (policy.withStrategy .reproduction) w _ _ _ _ = final
        cases final <;> rfl

/-- Without enforced records guidance changes nothing. The two strategies run the same search, from
every state on, and what `reduce` returns for them differs in the name of the strategy only: the
calls of the adapter and the state in which they leave it, the groups, the reduced workload, the
outcome, the state of the search and all counts are the same. -/
theorem reduce_dradd_eq {source : Json}
    (hfree : ∀ w, Workload.new source = .ok w → ∀ edge ∈ w.edges, edge.kind.required = false) :
    (∀ w, Workload.new source = .ok w → ∀ s : Search σ, s.current.Pairwise (· < ·) →
      (∀ keep phase n rate, replay adapter (policy.withStrategy .dradd) w keep phase n rate s =
        replay adapter (policy.withStrategy .reproduction) w keep phase n rate s) ∧
      ∀ fuel, Loop.run (round adapter (policy.withStrategy .dradd) w) fuel s =
        Loop.run (round adapter (policy.withStrategy .reproduction) w) fuel s) ∧
    ∀ (fuel : ℕ) (state : σ),
      reduce adapter (policy.withStrategy .dradd) fuel source state =
        (reduce adapter (policy.withStrategy .reproduction) fuel source state).map
          (Option.map fun result => (result.1.withStrategy .dradd, result.2)) :=
  ⟨fun w hnew _ hsorted => ⟨fun keep phase n rate => replay_dradd_eq keep phase n rate _,
      run_dradd_eq (hfree w hnew) hsorted⟩,
    fun fuel state => reduce_withStrategy adapter policy hfree fuel state⟩

/-- `eofScenario` with a record that is advice. -/
def advisedWorkload : Json :=
  Json.set "dependencies" (.list [.dict [("operation", .int 2), ("requires", .int 1),
    ("kind", .str "OPTIONAL_HEURISTIC")]]) (asWorkload eofScenario 2)

/-- A workload with a record that is not enforced. -/
theorem reduce_dradd_eq_advised :
    reduce eofAdapter (eofPolicy.withStrategy .dradd) 182 advisedWorkload () =
      (reduce eofAdapter (eofPolicy.withStrategy .reproduction) 182 advisedWorkload ()).map
        (Option.map fun result => (result.1.withStrategy .dradd, result.2)) := by
  have hadvice : (Workload.new advisedWorkload).toOption.all
      (fun w => w.edges.all fun edge => !edge.kind.required) = true := by decide +kernel
  refine (reduce_dradd_eq eofAdapter eofPolicy fun w hnew edge hedge => ?_).2 182 ()
  rw [hnew] at hadvice
  simpa using List.all_eq_true.mp hadvice edge hedge

end Lab.Dradd
