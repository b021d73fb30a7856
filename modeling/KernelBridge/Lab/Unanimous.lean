import KernelBridge.Lab.Baselines

/-!
# What a concurrent reduction replays and accepts

`reduce_concurrent` for an evaluator of which nothing is assumed: it may pass, fail for any reason,
be inconclusive or raise, in any pattern. `Replayed` is the account of a search that the recorded
groups give, and `reduceConcurrent_unanimous` says that every run has one: it replays parts of the
scenario only, moves on to a smaller part when all its trials show the target failure and then
always, keeps to its budget, and reports a reproducer exactly when a last group on what it returns
is unanimous once more.
-/

namespace Lab.Replay

open Py

variable {τ : Type} {evaluator : Evaluator τ} {options : Options} {scenario : Json}
  {owners : List ℕ}

/-! ## Parts of the scenario -/

/-- The candidate is the scenario with some of its operations, in their order, each with its
owner. -/
structure Candidate.PartOf (scenario : Json) (owners : List ℕ) (c : Candidate) : Prop where
  isDict : c.scenario.isDict = true
  ids : c.ids.Sublist (List.range (operationsOf scenario).length)
  ne_nil : c.ids ≠ []
  frame : ∀ key, key ≠ "operations" → key ≠ "worker_ids" →
    c.scenario.get? key = scenario.get? key
  operations : c.scenario.get? "operations" =
    some (.list (c.ids.map fun i => (operationsOf scenario).getD i .null))
  owners : c.scenario.get? "worker_ids" =
    some (.list (c.ids.map fun i => Json.int (owners.getD i 0)))

/-- A candidate has an operation for each index. -/
theorem Candidate.PartOf.length_operationsOf {c : Candidate} (h : c.PartOf scenario owners) :
    (operationsOf c.scenario).length = c.ids.length := by
  rw [operationsOf, h.operations, List.length_map]

/-- Deleting some but not all operations. -/
theorem Candidate.PartOf.select {c : Candidate} (h : c.PartOf scenario owners) (start : ℕ)
    {chunk : ℕ} (hchunk : chunk < c.ids.length) :
    (c.select (survivors c.ids.length start chunk)).PartOf scenario owners ∧
      (c.select (survivors c.ids.length start chunk)).ids =
        Deletion.delete chunk start c.ids := by
  obtain ⟨hdict, hids, hframe, hoperations, howners⟩ :=
    Candidate.select_survivors h.isDict h.operations h.owners start chunk
  refine ⟨⟨hdict, ?_, ?_, fun key hops howns => ?_, hoperations, howners⟩, hids⟩
  · rw [hids]
    exact (Deletion.delete_sublist chunk start c.ids).trans h.ids
  · rw [hids]
    exact Deletion.delete_ne_nil hchunk
  · rw [hframe key hops howns, h.frame key hops howns]

/-- What is accepted is a valid scenario, with options in range and the owners that it assigns. -/
theorem accept_ok (h : accept options scenario = .ok owners) :
    (∃ sc, validate scenario = .ok sc) ∧ options.check = .ok () ∧
      workerIds scenario options.workers (operationsOf scenario).length =
        .list (owners.map fun v : ℕ => Json.int v) ∧
      owners.length = (operationsOf scenario).length := by
  unfold accept at h
  obtain ⟨sc, hsc, h⟩ := bind_eq_ok_iff.mp h
  dsimp only at h
  by_cases hbounds : ¬(2 ≤ options.workers ∧ options.workers ≤ 4) ∨
      ¬(1 ≤ (operationsOf scenario).length ∧ (operationsOf scenario).length ≤ 12)
  · rw [if_pos hbounds] at h
    cases h
  rw [if_neg hbounds] at h
  obtain ⟨⟨⟩, hcheck, h⟩ := bind_eq_ok_iff.mp h
  obtain ⟨owners', howners, h⟩ := bind_eq_ok_iff.mp h
  by_cases hsearch : ¬(1 ≤ options.searchBudget ∧ options.searchBudget ≤ 100000)
  · rw [if_pos hsearch] at h
    cases h
  rw [if_neg hsearch] at h
  cases h
  obtain ⟨hids, hlength, -⟩ := checkAssignments_eq_ok_iff.mp howners
  exact ⟨⟨sc, hsc⟩, hcheck, hids, hlength⟩

/-- The search starts with all operations. -/
theorem whole_partOf (h : accept options scenario = .ok owners) :
    (whole scenario owners).PartOf scenario owners := by
  obtain ⟨⟨sc, hsc⟩, -, -, hlength⟩ := accept_ok h
  obtain ⟨⟨v, hv, -⟩, -, elems, helems, hops⟩ := validate_ok_iff.mp hsc
  obtain ⟨entries, rfl⟩ : ∃ entries, scenario = .dict entries := by
    cases scenario with
    | dict entries => exact ⟨entries, rfl⟩
    | _ => cases hv
  have hread : operationsOf (.dict entries) = elems := by
    rw [operationsOf, helems]
  have hpos : 0 < elems.length := (mapM_validateOp hops).1 ▸ sc.operations_pos
  have hget (key : String) : (whole (.dict entries) owners).scenario.get? key =
      if key = "worker_ids" then some (.list (owners.map fun v : ℕ => Json.int v))
      else (Json.dict entries).get? key := Json.get?_set _ _ _ _
  refine ⟨rfl, List.Sublist.refl _, ?_, fun key _ howners => ?_, ?_, ?_⟩
  · rw [whole, hread]
    exact fun hnil => hpos.ne' (by simpa using congrArg List.length hnil)
  · rw [hget, if_neg howners]
  · rw [hget, if_neg (by decide), helems, whole, hread, Workload.map_getD_range]
  · have hmap : (List.range owners.length).map (fun i => Json.int (owners.getD i 0)) =
        owners.map fun v : ℕ => Json.int v := by
      rw [← Workload.map_getD_range owners 0, List.map_map, List.length_map, List.length_range]
      simp only [Workload.map_getD_range]
      rfl
    rw [hget, if_pos rfl, whole, ← hlength, hmap]

/-! ## Groups of trials -/

/-- All trials of the group show the target failure. -/
def Evidence.Unanimous (group : Evidence) : Prop := ∀ trial ∈ group.trials, matched trial = true

/-- The group is what the evaluator shows of its candidate, between two of its states. -/
structure Evidence.Executed (evaluator : Evaluator τ) (options : Options) (group : Evidence)
    (state state' : τ) : Prop where
  trials : runTrials evaluator options group.candidate.scenario options.trials.toNat state =
    .ok (group.trials, state')
  counts : countStatuses group.trials = .ok group.counts
  matchedFailures : group.matchedFailures = group.trials.countP matched

/-- As many trials are recorded as were asked for. -/
theorem length_of_runTrials {candidate : Json} {n : ℕ} {state state' : τ} {trials : List Json}
    (h : runTrials evaluator options candidate n state = .ok (trials, state')) :
    trials.length = n := by
  induction n generalizing state trials with
  | zero =>
    cases h
    rfl
  | succ n ih =>
    obtain ⟨result, -, h⟩ := bind_eq_ok_iff.mp h
    obtain ⟨⟨rest, after⟩, hrest, h⟩ := bind_eq_ok_iff.mp h
    cases h
    rw [List.length_cons, ih hrest]

section Executed

variable {group : Evidence} {state state' : τ}

/-- An executed group has all its trials. -/
theorem Evidence.Executed.length (h : group.Executed evaluator options state state') :
    group.trials.length = options.trials.toNat := length_of_runTrials h.trials

/-- A group is accepted iff all its trials match. -/
theorem Evidence.Executed.accepted_iff (h : group.Executed evaluator options state state')
    (hcheck : options.check = .ok ()) : group.accepted options = true ↔ group.Unanimous := by
  have htrials := (Options.bounds hcheck).2
  have hlength := h.length
  have hcount : (group.matchedFailures : ℤ) = options.trials ↔
      group.trials.countP matched = group.trials.length := by
    rw [h.matchedFailures]
    omega
  rw [Evidence.accepted, decide_eq_true_iff, hcount, List.countP_eq_length, Evidence.Unanimous]

end Executed

/-- A replay records a group and nothing else. -/
theorem replay_ok {c : Candidate} {phase : Dradd.Phase} {s s' : Search τ} {verdict : Bool}
    {counts : Counts} (h : replay evaluator options c phase s = .ok ((verdict, counts), s')) :
    ∃ (group : Evidence) (state : τ), group.Executed evaluator options s.evaluator state ∧
      group.phase = phase ∧ group.candidate = c ∧ group.counts = counts ∧
      verdict = group.accepted options ∧
      s' = { s with evaluator := state, evidence := s.evidence ++ [group] } := by
  obtain ⟨⟨trials, state⟩, htrials, h⟩ := bind_eq_ok_iff.mp h
  obtain ⟨counts', hcounts, h⟩ := bind_eq_ok_iff.mp h
  cases h
  exact ⟨{ phase, candidate := c, counts, matchedFailures := trials.countP matched, trials },
    state, ⟨htrials, hcounts, rfl⟩, rfl, rfl, rfl, rfl, rfl⟩

/-- A replay asks the evaluator about its candidate only. -/
theorem replay_congr {other : Evaluator τ} {c : Candidate}
    (h : ∀ state, other state c.scenario options.workers options.searchBudget =
      evaluator state c.scenario options.workers options.searchBudget)
    (phase : Dradd.Phase) (s : Search τ) :
    replay other options c phase s = replay evaluator options c phase s := by
  have htrials (n : ℕ) (state : τ) : runTrials other options c.scenario n state =
      runTrials evaluator options c.scenario n state := by
    induction n generalizing state with
    | zero => rfl
    | succ n ih => simp only [runTrials, h, ih]
  rw [replay, htrials]
  rfl

/-! ## The account of a search -/

/-- The group is about a smaller part of the current candidate. -/
structure Evidence.Tries (evaluator : Evaluator τ) (options : Options) (scenario : Json)
    (owners : List ℕ) (current : Candidate) (group : Evidence) (state state' : τ) : Prop where
  executed : group.Executed evaluator options state state'
  phase : group.phase = .candidate
  partOf : group.candidate.PartOf scenario owners
  sublist : group.candidate.ids.Sublist current.ids
  length_lt : group.candidate.ids.length < current.ids.length

/-- From a candidate, the groups lead to another: each is about a smaller part of the candidate that
is current then, and replaces it iff all its trials show the target failure. -/
inductive Replayed (evaluator : Evaluator τ) (options : Options) (scenario : Json)
    (owners : List ℕ) (c₀ : Candidate) (state₀ : τ) : List Evidence → Candidate → τ → Prop
  | start : Replayed evaluator options scenario owners c₀ state₀ [] c₀ state₀
  | accepted {groups current state group state'}
      (h : Replayed evaluator options scenario owners c₀ state₀ groups current state)
      (htries : group.Tries evaluator options scenario owners current state state')
      (hunanimous : group.Unanimous) :
      Replayed evaluator options scenario owners c₀ state₀ (groups ++ [group]) group.candidate
        state'
  | rejected {groups current state group state'}
      (h : Replayed evaluator options scenario owners c₀ state₀ groups current state)
      (htries : group.Tries evaluator options scenario owners current state state')
      (hnot : ¬group.Unanimous) :
      Replayed evaluator options scenario owners c₀ state₀ (groups ++ [group]) current state'

/-- The groups of a search are about parts of the scenario, and were executed. -/
theorem Replayed.tried {c₀ current : Candidate} {state₀ state : τ} {groups : List Evidence}
    (h : Replayed evaluator options scenario owners c₀ state₀ groups current state) :
    ∀ group ∈ groups, group.candidate.PartOf scenario owners ∧
      group.trials.length = options.trials.toNat := by
  induction h with
  | start => exact fun group hgroup => absurd hgroup List.not_mem_nil
  | accepted _ htries _ ih | rejected _ htries _ ih =>
    rw [List.forall_mem_append, List.forall_mem_singleton]
    exact ⟨ih, htries.partOf, htries.executed.length⟩

/-- The search behind its initial group, and what it has recorded. -/
structure Running (evaluator : Evaluator τ) (options : Options) (scenario : Json)
    (owners : List ℕ) (first : Evidence) (state₀ : τ) (s : Search τ) : Prop where
  current : s.current.PartOf scenario owners
  two_le : 2 ≤ s.granularity
  attempts_le : (s.attempts : ℤ) ≤ options.budget
  evidence : ∃ groups, s.evidence = first :: groups ∧ groups.length = s.attempts ∧
    Replayed evaluator options scenario owners first.candidate state₀ groups s.current s.evaluator

section Search

variable (hcheck : options.check = .ok ()) {first : Evidence} {state₀ : τ}

include hcheck

/-- The loop over the deletions. Each candidate costs an attempt, and there is one if there is a
deletion. -/
theorem sweep_running {chunk : ℕ} (hpos : 0 < chunk) {starts : List ℕ} {s s' : Search τ}
    {changed : Bool} (h : Running evaluator options scenario owners first state₀ s)
    (hbudget : (s.attempts : ℤ) < options.budget) (hchunk : chunk < s.current.ids.length)
    (hstarts : ∀ start ∈ starts, start < s.current.ids.length)
    (hsweep : sweep evaluator options s.current.ids.length chunk starts s = .ok (changed, s')) :
    Running evaluator options scenario owners first state₀ s' ∧ s.attempts ≤ s'.attempts ∧
      (starts ≠ [] → s.attempts < s'.attempts) := by
  induction starts generalizing s with
  | nil =>
    cases hsweep
    exact ⟨h, le_rfl, fun hne => absurd rfl hne⟩
  | cons start rest ih =>
    obtain ⟨hpart, hids⟩ := h.current.select start hchunk
    -- fewer operations are deleted than there are, so no candidate is skipped
    have hkeep : survivors s.current.ids.length start chunk ≠ [] := by
      intro hnil
      rw [hnil] at hpart
      exact hpart.ne_nil rfl
    rw [sweep, if_neg hkeep] at hsweep
    obtain ⟨⟨⟨verdict, counts⟩, t⟩, hreplay, hsweep⟩ := bind_eq_ok_iff.mp hsweep
    obtain ⟨group, state, hexecuted, hphase, hcandidate, -, rfl, rfl⟩ := replay_ok hreplay
    have htries : group.Tries evaluator options scenario owners s.current s.evaluator state := by
      refine ⟨hexecuted, hphase, hcandidate ▸ hpart, ?_, ?_⟩
      · rw [hcandidate, hids]
        exact Deletion.delete_sublist chunk start _
      · rw [hcandidate, hids]
        exact Deletion.length_delete_lt hpos (hstarts start List.mem_cons_self)
    obtain ⟨groups, hevidence, hlength, hreplayed⟩ := h.evidence
    have hrecord : s.evidence ++ [group] = first :: (groups ++ [group]) := by
      rw [hevidence, List.cons_append]
    have hcount : (groups ++ [group]).length = s.attempts + 1 := by
      rw [List.length_append, hlength, List.length_singleton]
    have hspent : ((s.attempts + 1 : ℕ) : ℤ) ≤ options.budget := by omega
    dsimp only at hsweep
    by_cases haccepted : group.accepted options = true
    · rw [if_pos haccepted] at hsweep
      cases hsweep
      refine ⟨⟨hpart, le_max_left _ _, hspent, groups ++ [group], hrecord, hcount, ?_⟩,
        Nat.le_succ _, fun _ => Nat.lt_succ_self _⟩
      rw [← hcandidate]
      exact .accepted hreplayed htries ((hexecuted.accepted_iff hcheck).mp haccepted)
    · rw [if_neg haccepted] at hsweep
      have hrejected := Replayed.rejected hreplayed htries fun hyes =>
        haccepted ((hexecuted.accepted_iff hcheck).mpr hyes)
      by_cases hlast : options.budget ≤ ((s.attempts + 1 : ℕ) : ℤ)
      · rw [if_pos hlast] at hsweep
        cases hsweep
        exact ⟨⟨h.current, h.two_le, hspent, groups ++ [group], hrecord, hcount, hrejected⟩,
          Nat.le_succ _, fun _ => Nat.lt_succ_self _⟩
      · rw [if_neg hlast] at hsweep
        obtain ⟨hrunning, hle, -⟩ := ih (s := s.record state group)
          ⟨h.current, h.two_le, hspent, groups ++ [group], hrecord, hcount, hrejected⟩
          (not_le.mp hlast) hchunk (fun k hk => hstarts k (List.mem_cons_of_mem start hk)) hsweep
        exact ⟨hrunning, (Nat.le_succ _).trans hle, fun _ => hle⟩

omit hcheck in
/-- Between zero and all operations are deleted at once. -/
theorem Running.chunk (h : Running evaluator options scenario owners first state₀ s)
    (hone : ¬s.current.ids.length ≤ 1) :
    0 < chunkSize options s.current.ids.length s.granularity ∧
      chunkSize options s.current.ids.length s.granularity < s.current.ids.length := by
  rw [chunkSize_eq options fun _ => false]
  exact ⟨Deletion.Method.width_pos (by omega) h.two_le, Deletion.Method.width_lt (by omega) h.two_le⟩

/-- A round of the search. One that goes on has tried a candidate. -/
theorem round_running {s : Search τ}
    (h : Running evaluator options scenario owners first state₀ s) :
    (∀ s', round evaluator options s = .inl s' →
      Running evaluator options scenario owners first state₀ s' ∧ s.attempts < s'.attempts) ∧
    ∀ s', round evaluator options s = .inr (.ok s') →
      Running evaluator options scenario owners first state₀ s' := by
  unfold round
  dsimp only
  rw [h.current.length_operationsOf]
  by_cases hone : s.current.ids.length ≤ 1
  · rw [if_pos hone]
    refine ⟨nofun, fun s' hs' => ?_⟩
    cases hs'
    exact h
  rw [if_neg hone]
  by_cases hbudget : options.budget ≤ s.attempts
  · rw [if_pos hbudget]
    refine ⟨nofun, fun s' hs' => ?_⟩
    cases hs'
    exact { h with }
  rw [if_neg hbudget]
  obtain ⟨hpos, hchunk⟩ := h.chunk hone
  have hnonempty : Dradd.offsets s.current.ids.length
      (chunkSize options s.current.ids.length s.granularity) ≠ [] :=
    List.ne_nil_of_mem (List.mem_map.mpr
      ⟨0, List.mem_range.mpr (Nat.div_pos (by omega) hpos), rfl⟩)
  cases hsweep : sweep evaluator options s.current.ids.length
      (chunkSize options s.current.ids.length s.granularity)
      (Dradd.offsets s.current.ids.length
        (chunkSize options s.current.ids.length s.granularity)) s with
  | error text => exact ⟨nofun, nofun⟩
  | ok result =>
    obtain ⟨changed, t⟩ := result
    obtain ⟨ht, -, hlt⟩ := sweep_running hcheck hpos h (not_le.mp hbudget) hchunk
      (fun start hstart => Dradd.lt_of_mem_offsets hstart) hsweep
    cases changed with
    | true =>
      refine ⟨fun s' hs' => ?_, nofun⟩
      cases hs'
      exact ⟨ht, hlt hnonempty⟩
    | false =>
      dsimp only
      split_ifs with hfinest
      · refine ⟨nofun, fun s' hs' => ?_⟩
        cases hs'
        exact ht
      · refine ⟨fun s' hs' => ?_, nofun⟩
        cases hs'
        have htwo : 2 ≤ min s.current.ids.length (t.granularity * 2) := by
          have := ht.two_le
          rw [le_min_iff]
          omega
        exact ⟨{ ht with two_le := htwo }, hlt hnonempty⟩

/-- A search that has ended. -/
theorem search_running {fuel : ℕ} {s s' : Search τ}
    (h : Running evaluator options scenario owners first state₀ s)
    (hrun : Loop.run (round evaluator options) fuel s = some (.ok s')) :
    Running evaluator options scenario owners first state₀ s' :=
  Loop.run_invariant (I := Running evaluator options scenario owners first state₀)
    (Q := fun result => ∀ t, result = .ok t →
      Running evaluator options scenario owners first state₀ t)
    (fun _ _ ht hround => ((round_running hcheck ht).1 _ hround).1)
    (fun _ _ ht hround t hresult => (round_running hcheck ht).2 t (hresult ▸ hround)) h hrun s' rfl

/-- The attempts that are left bound the rounds, so the search ends. -/
theorem exists_search {fuel : ℕ} {s : Search τ}
    (h : Running evaluator options scenario owners first state₀ s)
    (hfuel : options.budget.toNat < fuel) :
    ∃ result, Loop.run (round evaluator options) fuel s = some result := by
  obtain ⟨result, hrun, -⟩ := Loop.run_of_variant
    (I := Running evaluator options scenario owners first state₀) (Q := fun _ => True)
    (fun t => options.budget.toNat - t.attempts)
    (fun t t' ht hround => by
      obtain ⟨ht', hlt⟩ := (round_running hcheck ht).1 t' hround
      have := ht'.attempts_le
      exact ⟨ht', by omega⟩)
    (fun _ _ _ _ => trivial) h (show options.budget.toNat - s.attempts < fuel by omega)
  exact ⟨result, hrun⟩

end Search

/-! ## What is asked -/

/-- The evaluators answer alike on every part of the scenario. -/
def AgreeOnParts (evaluator other : Evaluator τ) (options : Options) (scenario : Json)
    (owners : List ℕ) : Prop :=
  ∀ c : Candidate, c.PartOf scenario owners → ∀ state,
    other state c.scenario options.workers options.searchBudget =
      evaluator state c.scenario options.workers options.searchBudget

section Congruence

variable {other : Evaluator τ} (hagree : AgreeOnParts evaluator other options scenario owners)
  {first : Evidence} {state₀ : τ}

include hagree

/-- Evaluators that agree on the parts of the scenario sweep alike. -/
theorem sweep_congr {chunk : ℕ} {s : Search τ} (h : s.current.PartOf scenario owners)
    (hchunk : chunk < s.current.ids.length) (starts : List ℕ) :
    sweep other options s.current.ids.length chunk starts s =
      sweep evaluator options s.current.ids.length chunk starts s := by
  induction starts generalizing s with
  | nil => rfl
  | cons start rest ih =>
    rw [sweep, sweep]
    by_cases hkeep : survivors s.current.ids.length start chunk = []
    · rw [if_pos hkeep, if_pos hkeep, ih h hchunk]
    rw [if_neg hkeep, if_neg hkeep]
    dsimp only
    rw [replay_congr (hagree _ (h.select start hchunk).1)]
    -- the replay goes the same way, and leaves the current candidate as it is
    cases hreplay : replay evaluator options
        (s.current.select (survivors s.current.ids.length start chunk)) .candidate
        { s with attempts := s.attempts + 1 } with
    | error text => rfl
    | ok result =>
      obtain ⟨⟨verdict, counts⟩, t⟩ := result
      obtain ⟨group, state, -, -, -, -, -, rfl⟩ := replay_ok hreplay
      have hrest := ih (s := s.record state group) h hchunk
      show (if _ then _ else if _ then _ else sweep other options s.current.ids.length chunk rest
          (s.record state group)) = _
      rw [show s.current.ids.length = (s.record state group).current.ids.length from rfl, hrest]
      rfl

/-- They go through a round alike. -/
theorem round_congr {s : Search τ}
    (h : Running evaluator options scenario owners first state₀ s) :
    round other options s = round evaluator options s := by
  unfold round
  dsimp only
  rw [h.current.length_operationsOf]
  by_cases hone : s.current.ids.length ≤ 1
  · rw [if_pos hone, if_pos hone]
  · rw [sweep_congr hagree h.current (h.chunk hone).2]

end Congruence

/-! ## Runs -/

/-- The run has ended with its initial group. -/
structure Halted (first : Evidence) (state₀ : τ) (final : Json) (summary : Summary) (after : τ) :
    Prop where
  evidence : summary.candidateEvidence = [first]
  attempts : summary.attempts = 0
  final_eq : final = first.candidate.scenario
  after_eq : after = state₀
  outcome : summary.outcome ≠ .executableReproducerFound

/-- The run has searched, and replayed once more what it returns. -/
structure Confirmed (evaluator : Evaluator τ) (options : Options) (scenario : Json)
    (owners : List ℕ) (first : Evidence) (state₀ : τ) (groups : List Evidence)
    (current : Candidate) (state₁ : τ) (last : Evidence) (final : Json) (summary : Summary)
    (after : τ) : Prop where
  replayed : Replayed evaluator options scenario owners first.candidate state₀ groups current state₁
  attempts : groups.length = summary.attempts
  evidence : summary.candidateEvidence = first :: (groups ++ [last])
  length_evidence : summary.candidateEvidence.length = summary.attempts + 2
  executed : last.Executed evaluator options state₁ after
  phase : last.phase = .confirmation
  candidate : last.candidate = current
  final_eq : final = current.scenario
  outcome : summary.outcome = .executableReproducerFound ↔ last.Unanimous

/-- All groups of such a run are about parts of the scenario, and were executed. -/
theorem Confirmed.recorded {first last group : Evidence} {state₀ state₁ after : τ}
    {groups : List Evidence} {current : Candidate} {final : Json} {summary : Summary}
    (h : Confirmed evaluator options scenario owners first state₀ groups current state₁ last final
      summary after) (hcurrent : current.PartOf scenario owners)
    (hgroup : group ∈ summary.candidateEvidence) :
    group = first ∨ group.candidate.PartOf scenario owners ∧
      group.trials.length = options.trials.toNat := by
  rw [h.evidence, List.mem_cons, List.mem_append, List.mem_singleton] at hgroup
  rcases hgroup with rfl | hgroup | rfl
  · exact .inl rfl
  · exact .inr (h.replayed.tried group hgroup)
  · exact .inr ⟨h.candidate ▸ hcurrent, h.executed.length⟩

/-- What a run has replayed, and what it makes of it. -/
structure Accounted (evaluator : Evaluator τ) (options : Options) (scenario : Json)
    (owners : List ℕ) (state : τ) (final : Json) (summary : Summary) (after : τ) : Prop where
  parts : ∀ group ∈ summary.candidateEvidence, group.candidate.PartOf scenario owners
  trials : ∀ group ∈ summary.candidateEvidence, (group.trials.length : ℤ) = options.trials
  attempts_le : (summary.attempts : ℤ) ≤ options.budget
  account : ∃ (first : Evidence) (state₀ : τ), first.Executed evaluator options state state₀ ∧
    first.phase = .initial ∧ first.candidate = whole scenario owners ∧
    (¬first.Unanimous ∧ Halted first state₀ final summary after ∨
      first.Unanimous ∧ ∃ groups current state₁ last, Confirmed evaluator options scenario owners
        first state₀ groups current state₁ last final summary after)

/-- The summary reports the groups, the attempts and the verdict. -/
theorem summarize_ok {confirmed : Bool} {counts : Counts} {s : Search τ} {summary : Summary}
    (h : summarize options scenario confirmed counts s = .ok summary) :
    summary.candidateEvidence = s.evidence ∧ summary.attempts = s.attempts ∧
      (summary.outcome = .executableReproducerFound ↔ confirmed = true) := by
  obtain ⟨_, -, h⟩ := bind_eq_ok_iff.mp h
  obtain ⟨_, -, h⟩ := bind_eq_ok_iff.mp h
  obtain ⟨_, -, h⟩ := bind_eq_ok_iff.mp h
  obtain ⟨_, -, h⟩ := bind_eq_ok_iff.mp h
  obtain ⟨_, -, h⟩ := bind_eq_ok_iff.mp h
  cases h
  refine ⟨rfl, rfl, ?_⟩
  dsimp only
  split_ifs with hconfirmed <;> simp [hconfirmed]

/-- The initial group, and the search behind it. -/
theorem initial_ok (haccept : accept options scenario = .ok owners) {state : τ} {verdict : Bool}
    {counts : Counts} {s : Search τ} (h : replay evaluator options (whole scenario owners) .initial
      (.start state (whole scenario owners)) = .ok ((verdict, counts), s)) :
    ∃ first : Evidence, first.Executed evaluator options state s.evaluator ∧
      first.phase = .initial ∧ first.candidate = whole scenario owners ∧
      verdict = first.accepted options ∧ s.current = whole scenario owners ∧ s.attempts = 0 ∧
      s.evidence = [first] ∧
      Running evaluator options scenario owners first s.evaluator s := by
  obtain ⟨-, hcheck, -⟩ := accept_ok haccept
  obtain ⟨first, state₀, hexecuted, hphase, hcandidate, -, hverdict, rfl⟩ := replay_ok h
  have hbudget : ((0 : ℕ) : ℤ) ≤ options.budget := by
    unfold Options.check at hcheck
    split_ifs at hcheck
    omega
  exact ⟨first, hexecuted, hphase, hcandidate, hverdict, rfl, rfl, rfl, whole_partOf haccept,
    le_rfl, hbudget, [], rfl, rfl, hcandidate ▸ .start⟩

/-- What is reported accounts for all trials. -/
theorem accounted_of_ok (haccept : accept options scenario = .ok owners) {fuel : ℕ} {state after : τ}
    {final : Json} {summary : Summary} (h : reduceConcurrent evaluator options fuel scenario state =
      .ok (some ((final, summary), after))) :
    Accounted evaluator options scenario owners state final summary after := by
  obtain ⟨-, hcheck, -⟩ := accept_ok haccept
  have htrials := (Options.bounds hcheck).2
  obtain ⟨owners', howners, h⟩ := bind_eq_ok_iff.mp h
  obtain rfl : owners' = owners := Except.ok.inj (howners.symm.trans haccept)
  obtain ⟨⟨⟨verdict, counts⟩, s⟩, hinitial, h⟩ := bind_eq_ok_iff.mp h
  obtain ⟨first, hexecuted, hphase, hcandidate, rfl, hcurrent, hzero, hsingle, hrunning⟩ :=
    initial_ok haccept hinitial
  have hfirst : first.candidate.PartOf scenario owners' ∧
      first.trials.length = options.trials.toNat :=
    ⟨hcandidate ▸ whole_partOf haccept, hexecuted.length⟩
  dsimp only at h
  by_cases haccepted : first.accepted options = true
  · rw [if_pos haccepted] at h
    split at h
    · cases h
    next result hrun =>
    obtain ⟨s', hresult, hrest⟩ := bind_eq_ok_iff.mp h
    obtain ⟨⟨⟨confirmed, counts'⟩, t⟩, hconfirm, hrest⟩ := bind_eq_ok_iff.mp hrest
    obtain ⟨last, state₁, hlast, hphase', hcandidate', -, rfl, rfl⟩ := replay_ok hconfirm
    obtain ⟨summary', hsummary, hrest⟩ := bind_eq_ok_iff.mp hrest
    cases hrest
    obtain ⟨hevidence, hattempts, houtcome⟩ := summarize_ok hsummary
    have hs' := search_running hcheck hrunning (hresult ▸ hrun)
    obtain ⟨groups, hgroups, hcount, hreplayed⟩ := hs'.evidence
    have hall : summary.candidateEvidence = first :: (groups ++ [last]) := by
      rw [hevidence, hgroups, List.cons_append]
    have hconfirmed : Confirmed evaluator options scenario owners' first s.evaluator groups s'.current
        s'.evaluator last s'.current.scenario summary state₁ := by
      refine ⟨hreplayed, hcount.trans hattempts.symm, hall, ?_, hlast, hphase', hcandidate', rfl,
        houtcome.trans (hlast.accepted_iff hcheck)⟩
      rw [hall, List.length_cons, List.length_append, List.length_singleton, hattempts, ← hcount]
    have hrecorded : ∀ group ∈ summary.candidateEvidence, group.candidate.PartOf scenario owners' ∧
        group.trials.length = options.trials.toNat := fun group hgroup =>
      (hconfirmed.recorded hs'.current hgroup).elim (fun heq => heq ▸ hfirst) id
    exact ⟨fun group hgroup => (hrecorded group hgroup).1,
      fun group hgroup => by rw [(hrecorded group hgroup).2]; omega, hattempts ▸ hs'.attempts_le,
      first, s.evaluator, hexecuted, hphase, hcandidate,
      .inr ⟨(hexecuted.accepted_iff hcheck).mp haccepted, _, _, _, _, hconfirmed⟩⟩
  · rw [if_neg haccepted] at h
    obtain ⟨summary', hsummary, h⟩ := bind_eq_ok_iff.mp h
    cases h
    obtain ⟨hevidence, hattempts, houtcome⟩ := summarize_ok hsummary
    have hall : summary.candidateEvidence = [first] := hevidence.trans hsingle
    have hhalted : Halted first s.evaluator s.current.scenario summary s.evaluator :=
      ⟨hall, hattempts.trans hzero, by rw [hcurrent, hcandidate], rfl, fun hfound =>
        Bool.false_ne_true (houtcome.mp hfound)⟩
    refine ⟨?_, ?_, hattempts ▸ hrunning.attempts_le, first, s.evaluator, hexecuted, hphase,
      hcandidate, .inl ⟨fun hyes => haccepted ((hexecuted.accepted_iff hcheck).mpr hyes), hhalted⟩⟩
    · rw [hall, List.forall_mem_singleton]
      exact hfirst.1
    · rw [hall, List.forall_mem_singleton, hfirst.2]
      omega

/-- With more fuel than there are attempts, a run ends. -/
theorem reduceConcurrent_ne_none (haccept : accept options scenario = .ok owners) {fuel : ℕ}
    (hfuel : options.budget.toNat < fuel) (state : τ) :
    reduceConcurrent evaluator options fuel scenario state ≠ .ok none := by
  obtain ⟨-, hcheck, -⟩ := accept_ok haccept
  intro h
  obtain ⟨owners', howners, h⟩ := bind_eq_ok_iff.mp h
  obtain rfl : owners' = owners := Except.ok.inj (howners.symm.trans haccept)
  obtain ⟨⟨⟨verdict, counts⟩, s⟩, hinitial, h⟩ := bind_eq_ok_iff.mp h
  obtain ⟨first, -, -, -, -, -, -, -, hrunning⟩ := initial_ok haccept hinitial
  obtain ⟨result, hrun⟩ := exists_search hcheck hrunning hfuel
  dsimp only at h
  split_ifs at h
  · split at h
    next hnone => cases hnone.symm.trans hrun
    next =>
      obtain ⟨_, -, h⟩ := bind_eq_ok_iff.mp h
      obtain ⟨_, -, h⟩ := bind_eq_ok_iff.mp h
      obtain ⟨_, -, h⟩ := bind_eq_ok_iff.mp h
      cases h
  · obtain ⟨_, -, h⟩ := bind_eq_ok_iff.mp h
    cases h

/-- A run depends on what the evaluator shows of the parts of the scenario only. -/
theorem reduceConcurrent_congr (haccept : accept options scenario = .ok owners)
    {other : Evaluator τ} (hagree : AgreeOnParts evaluator other options scenario owners)
    (fuel : ℕ) (state : τ) : reduceConcurrent other options fuel scenario state =
      reduceConcurrent evaluator options fuel scenario state := by
  obtain ⟨-, hcheck, -⟩ := accept_ok haccept
  unfold reduceConcurrent
  rw [haccept]
  simp only [bind, Except.bind]
  rw [replay_congr (hagree _ (whole_partOf haccept))]
  cases hinitial : replay evaluator options (whole scenario owners) .initial
      (.start state (whole scenario owners)) with
  | error text => rfl
  | ok result =>
    obtain ⟨⟨verdict, counts⟩, s⟩ := result
    obtain ⟨first, -, -, -, -, -, -, -, hrunning⟩ := initial_ok haccept hinitial
    have hloop := Loop.run_congr
      (fun t t' ht hround => ((round_running hcheck ht).1 t' hround).1)
      (fun t ht => round_congr hagree ht) fuel hrunning
    dsimp only
    split_ifs
    · rw [hloop]
      cases hrun : Loop.run (round evaluator options) fuel s with
      | none => rfl
      | some result =>
        cases result with
        | error text => rfl
        | ok s' =>
          have hpart := (search_running hcheck hrunning hrun).current
          dsimp only
          rw [replay_congr (hagree _ hpart)]
    · rfl

/-- Only unanimous evidence is accepted. On a scenario that `reduce_concurrent` accepts, whatever
the evaluator does, a run ends, replays parts of the scenario only, and has an account. -/
theorem reduceConcurrent_unanimous (evaluator : Evaluator τ)
    (haccept : accept options scenario = .ok owners) (state : τ) :
    workerIds scenario options.workers (operationsOf scenario).length =
      .list (owners.map fun v : ℕ => Json.int v) ∧
    (∀ fuel, options.budget.toNat < fuel →
      reduceConcurrent evaluator options fuel scenario state ≠ .ok none) ∧
    (∀ other : Evaluator τ, AgreeOnParts evaluator other options scenario owners → ∀ fuel,
      reduceConcurrent other options fuel scenario state =
        reduceConcurrent evaluator options fuel scenario state) ∧
    ∀ fuel final summary after,
      reduceConcurrent evaluator options fuel scenario state =
        .ok (some ((final, summary), after)) →
      Accounted evaluator options scenario owners state final summary after :=
  ⟨(accept_ok haccept).2.2.1, fun _ hfuel => reduceConcurrent_ne_none haccept hfuel state,
    fun _ hagree fuel => reduceConcurrent_congr haccept hagree fuel state,
    fun _ _ _ _ h => accounted_of_ok haccept h⟩

/-- Three operations, of which the second shows the failure on every trial. -/
theorem reduceConcurrent_unanimous_eof : ∃ final summary,
    reduceConcurrent eofEvaluator eofOptions 21 eofScenario () =
      .ok (some ((final, summary), ())) ∧
    Accounted eofEvaluator eofOptions eofScenario [0, 1, 0] () final summary () := by
  have hsome : (reduceConcurrent eofEvaluator eofOptions 21 eofScenario ()).toOption.join.isSome =
      true := by decide +kernel
  obtain ⟨-, -, -, haccounted⟩ := reduceConcurrent_unanimous eofEvaluator
    (show accept eofOptions eofScenario = .ok [0, 1, 0] from rfl) ()
  cases h : reduceConcurrent eofEvaluator eofOptions 21 eofScenario () with
  | error text =>
    rw [h] at hsome
    cases hsome
  | ok result =>
    cases result with
    | none =>
      rw [h] at hsome
      cases hsome
    | some result =>
      obtain ⟨⟨final, summary⟩, ⟨⟩⟩ := result
      exact ⟨final, summary, rfl, haccounted 21 final summary () h⟩

end Lab.Replay
