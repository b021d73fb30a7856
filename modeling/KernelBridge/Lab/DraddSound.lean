import KernelBridge.Lab.DraddSearch

/-!
# Soundness of the reducer

What the report of `reduce` says, for every workload, strategy and policy that it accepts and
every adapter.

* `reduce_sound`: executed groups respect the dependencies, accepted candidates shrink, the reduced
  workload is the projection on the last of them, and a reproducer is confirmed exactly if the last
  group is a confirmation that shows it.
* `reduce_resources`: the search ends within its budgets, hands out each seed once, spends nothing
  on invalid candidates, and keeps room for the confirmation.
-/

namespace Lab.Dradd

open Py

variable {σ : Type} {adapter : Adapter σ} {policy : Policy} {w : Workload}

/-! ## The end of a run -/

/-- What `reduce` accepts: a workload, and a policy within bounds. -/
theorem accept_ok {source : Json} {state state' : σ}
    (h : accept adapter policy source state = .ok (w, state')) :
    Workload.new source = .ok w ∧ policy.check = .ok () := by
  unfold accept at h
  obtain ⟨w', hnew, h⟩ := bind_eq_ok_iff.mp h
  obtain ⟨whole, -, h⟩ := bind_eq_ok_iff.mp h
  obtain ⟨-, -, h⟩ := bind_eq_ok_iff.mp h
  obtain ⟨_, hcheck, h⟩ := bind_eq_ok_iff.mp h
  obtain ⟨rfl, -⟩ := Prod.mk.inj (Except.ok.inj h)
  exact ⟨hnew, hcheck⟩

/-- The state of the search after its last group. -/
structure Concluded (adapter : Adapter σ) (policy : Policy) (w : Workload) (s : Search σ)
    (last : Group) (stats : Summary) : Prop extends Ledger adapter policy w s where
  valid : w.valid s.current = true
  executed : last.Executed adapter policy w policy.trials.toNat policy.threshold stats
  ids : last.ids = s.current
  phases : s.groups = [last] ∧ last.phase = .initial ∧ last.accepted = false ∨
    ∃ first rest, s.groups = first :: rest ++ [last] ∧ first.phase = .initial ∧
      first.accepted = true ∧ (∀ group ∈ rest, group.phase = .candidate) ∧
      last.phase = .confirmation
  chain : (w.ids :: acceptedIds s.groups).IsChain Narrows
  last : (w.ids :: acceptedIds s.groups).getLast? = some s.current
  executions : (s.executions : ℤ) ≤ policy.maxExecutions
  attempts : (s.attempts : ℤ) ≤ policy.maxCandidates

/-- The last group is the one that concluded the search. -/
theorem Concluded.getLast?_groups {s : Search σ} {last : Group} {stats : Summary}
    (h : Concluded adapter policy w s last stats) : s.groups.getLast? = some last := by
  rcases h.phases with ⟨hgroups, -⟩ | ⟨first, rest, hgroups, -⟩
  · rw [hgroups, List.getLast?_singleton]
  · rw [hgroups, List.getLast?_append, List.getLast?_singleton, Option.some_or]

/-- The report shows the end of the search. -/
structure Reports (adapter : Adapter σ) (policy : Policy) (w : Workload) (confirmed : Bool)
    (final : Summary) (s : Search σ) (report : Report) : Prop where
  groups : report.groups = s.groups
  calls : report.calls = s.calls
  reduced : report.reduced = w.project s.current
  confirmed_eq : report.confirmed = confirmed
  outcome : report.outcome = if confirmed then .successReproducer else rejection final
  statistics : report.statistics = final
  signature : report.signature = adapter.signature
  executions : report.actualExecutions = s.executions
  evaluations : report.candidateEvaluations = s.attempts
  policy_eq : report.policy = policy

/-- A count that is missing is taken to be its default, one that is there is an integer. -/
theorem WellTyped.exists_countOf {trial : Json} (h : WellTyped trial) {key : String}
    (hkey : key ∈ ["operations_executed", "explored"]) (default : ℤ) :
    ∃ n, countOf trial key default = .ok n := by
  unfold countOf
  cases hget : trial.get? key with
  | none => exact ⟨default, rfl⟩
  | some v =>
    obtain ⟨n, rfl⟩ := h.2 key hkey v hget
    exact ⟨n, rfl⟩

/-- A well-typed trial has a length of its history. -/
theorem WellTyped.exists_historyLength {trial : Json} (h : WellTyped trial) :
    ∃ n, historyLength trial = .ok n := by
  unfold historyLength
  cases hget : trial.get? "history" with
  | none => exact ⟨0, rfl⟩
  | some v =>
    obtain ⟨events, rfl⟩ := h.1 v hget
    exact ⟨events.length, rfl⟩

/-- No count in a well-typed trial is refused. -/
theorem exists_counts {trials : List Json} (h : ∀ trial ∈ trials, WellTyped trial) :
    (∃ counts, (trials.mapM fun trial => do
      countOf trial "operations_executed" (← historyLength trial)) = .ok counts) ∧
    ∃ counts, (trials.mapM fun trial => countOf trial "explored" 0) = .ok counts := by
  constructor
  · refine exists_mapM_iff.mpr fun trial htrial => ?_
    obtain ⟨length, hlength⟩ := (h trial htrial).exists_historyLength
    obtain ⟨n, hn⟩ := (h trial htrial).exists_countOf (show "operations_executed" ∈ _ by simp) length
    exact ⟨n, bind_eq_ok_iff.mpr ⟨length, hlength, hn⟩⟩
  · exact exists_mapM_iff.mpr fun trial htrial => (h trial htrial).exists_countOf (by simp) 0

/-- The report of a search can be made, and shows what the search has recorded. -/
theorem report_spec (hadapter : adapter.WellTyped) {s : Search σ}
    (h : Ledger adapter policy w s) (hvalid : w.valid s.current = true) (exhausted confirmed : Bool)
    (final : Summary) : ∃ rep, report adapter policy w exhausted confirmed final s = .ok rep ∧
      Reports adapter policy w confirmed final s rep := by
  obtain ⟨⟨operations, hoperations⟩, transitions, htransitions⟩ :=
    exists_counts (h.wellTyped hadapter)
  unfold report
  rw [w.candidate_eq_ok hvalid, hoperations, htransitions]
  exact ⟨_, rfl, rfl, rfl, rfl, rfl, rfl, rfl, rfl, rfl, rfl, rfl⟩

/-- The first group, on the whole workload. If it is accepted the search goes on, otherwise it has
ended. -/
theorem initial_spec (hpolicy : policy.check = .ok ()) (state : σ) : ∃ first stats s,
    replay adapter policy w w.ids .initial policy.trials.toNat policy.threshold
        (Search.start w state) = .ok ((first.accepted, stats), s) ∧ first.phase = .initial ∧
      (first.accepted = true → Searching adapter policy w s) ∧
      (first.accepted = false → Concluded adapter policy w s first stats) := by
  obtain ⟨htrials, hbudget, hcandidates⟩ := policy.bounds hpolicy
  have hn : 1 ≤ policy.trials.toNat := by omega
  obtain ⟨first, stats, state', hreplay, hexecuted, hphase, hids, hseeds, htyped⟩ :=
    replay_spec adapter policy w.valid_ids .initial
      policy.trials.toNat policy.threshold (Search.start w state)
  have hstart : Ledger adapter policy w (Search.start w state) :=
    ⟨fun group hgroup => absurd hgroup List.not_mem_nil,
      fun _ trial htrial => absurd htrial List.not_mem_nil, rfl, rfl⟩
  let s : Search σ := { Search.start w state with
    adapter := state'
    groups := [first]
    executions := 0 + policy.trials.toNat
    calls := (policy.seeds 0 policy.trials.toNat).map fun seed => (w.project w.ids, seed) }
  have hledger : Ledger adapter policy w s :=
    hstart.append rfl (.inl ⟨_, _, stats, hn, hexecuted⟩) htyped rfl
      (by simp [s, Search.start, Function.comp_def]) hseeds
  -- the whole workload is no candidate, so nothing has been accepted yet
  have hnone : acceptedIds s.groups = [] := by
    simp [s, acceptedIds, hphase]
  have hchain : (w.ids :: acceptedIds s.groups).IsChain Narrows := by
    rw [hnone]
    exact List.isChain_singleton _
  have hlast : (w.ids :: acceptedIds s.groups).getLast? = some s.current := by
    rw [hnone]
    rfl
  refine ⟨first, stats, s, hreplay, hphase, fun haccepted => ?_, fun haccepted => ?_⟩
  · exact { hledger with
      valid := w.valid_ids
      phases := ⟨first, [], rfl, hphase, haccepted, fun g hg => absurd hg List.not_mem_nil⟩
      chain := hchain
      last := hlast
      executions := by simp only [s]; omega
      attempts := by simp only [s, Search.start]; omega
      two_le := le_rfl
      granularity_le := Nat.succ_le_succ w.size_pos }
  · exact { hledger with
      valid := w.valid_ids
      executed := hexecuted
      ids := hids
      phases := .inl ⟨rfl, hphase, haccepted⟩
      chain := hchain
      last := hlast
      executions := by simp only [s]; omega
      attempts := by simp only [s, Search.start]; omega }

/-- The last group, on what the search has arrived at: the budget has room for it. -/
theorem confirmation_spec (hpolicy : policy.check = .ok ()) {s : Search σ}
    (h : Searching adapter policy w s) : ∃ last stats s',
    replay adapter policy w s.current .confirmation policy.trials.toNat policy.threshold s =
        .ok ((last.accepted, stats), s') ∧ last.phase = .confirmation ∧
      Concluded adapter policy w s' last stats := by
  obtain ⟨htrials, hbudget, hcandidates⟩ := policy.bounds hpolicy
  have hn : 1 ≤ policy.trials.toNat := by omega
  obtain ⟨last, stats, state', hreplay, hexecuted, hphase, hids, hseeds, htyped⟩ :=
    replay_spec adapter policy h.valid .confirmation policy.trials.toNat policy.threshold s
  let s' : Search σ := { s with
    adapter := state'
    groups := s.groups ++ [last]
    executions := s.executions + policy.trials.toNat
    calls := s.calls ++ (policy.seeds s.executions policy.trials.toNat).map
      fun seed => (w.project s.current, seed) }
  have hledger : Ledger adapter policy w s' :=
    h.toLedger.append rfl (.inl ⟨_, _, stats, hn, hexecuted⟩) htyped rfl
      (by simp [s', Function.comp_def]) hseeds
  -- a confirmation is no candidate, so the chain stays as it is
  have hsame : acceptedIds s'.groups = acceptedIds s.groups := by
    simp [s', acceptedIds, hphase]
  have hroom := h.executions
  obtain ⟨first, rest, hgroups, hfirst, haccepted, hrest⟩ := h.phases
  refine ⟨last, stats, s', hreplay, hphase, ?_⟩
  exact { hledger with
    valid := h.valid
    executed := hexecuted
    ids := hids
    phases := .inr ⟨first, rest, by simp only [s', hgroups], hfirst, haccepted, hrest, hphase⟩
    chain := hsame ▸ h.chain
    last := hsame ▸ h.last
    executions := by simp only [s']; omega
    attempts := h.attempts }

/-- A run that is accepted ends, with enough fuel, in a report of a concluded search. -/
theorem reduce_spec (hadapter : adapter.WellTyped) {source : Json} {state state' : σ}
    (haccept : accept adapter policy source state = .ok (w, state')) {fuel : ℕ}
    (hfuel : (w.size + 1) * (w.size + 2) ≤ fuel) :
    ∃ rep s last stats, reduce adapter policy fuel source state = .ok (some (rep, s.adapter)) ∧
      Concluded adapter policy w s last stats ∧
      Reports adapter policy w (decide (last.phase = .confirmation) && last.accepted) stats s rep := by
  obtain ⟨-, hpolicy⟩ := accept_ok haccept
  obtain ⟨first, stats, s₁, hinitial, hphase, hsearching, hconcluded⟩ :=
    initial_spec (w := w) hpolicy state'
  cases haccepted : first.accepted with
  | false =>
    have h := hconcluded haccepted
    obtain ⟨rep, hreport, hreports⟩ :=
      report_spec hadapter h.toLedger h.valid false false stats
    refine ⟨rep, s₁, first, stats, ?_, h, ?_⟩
    · simp only [reduce, haccept, hinitial, haccepted, bind, Except.bind]
      simp only [Bool.false_eq_true, if_false, hreport]
      rfl
    · simpa [haccepted] using hreports
  | true =>
    obtain ⟨exhausted, s₂, hsearch, hs₂⟩ := search_spec hpolicy (hsearching haccepted) hfuel
    obtain ⟨last, final, s₃, hconfirmation, hlast, h⟩ := confirmation_spec hpolicy hs₂
    obtain ⟨rep, hreport, hreports⟩ :=
      report_spec hadapter h.toLedger h.valid exhausted last.accepted final
    refine ⟨rep, s₃, last, final, ?_, h, ?_⟩
    · simp only [reduce, haccept, hinitial, haccepted, bind, Except.bind]
      simp only [if_true, hsearch, hconfirmation, hreport]
      rfl
    · simpa [hlast] using hreports

/-! ## An example

`put`, `delete` and `get` on one worker, where `get` requires `put`, and an adapter that shows the
target failure at every other call.
-/

/-- The entries of the scenario. -/
def registerSource : List (String × Json) :=
  [("workers", .int 1), ("worker_ids", .list [.int 0, .int 0, .int 0]),
    ("operations", .list [.dict [("op", .str "put")], .dict [("op", .str "delete")],
      .dict [("op", .str "get")]]),
    ("dependencies", .list [.dict [("operation", .int 2), ("requires", .int 0),
      ("kind", .str "CONTRACT_REQUIRED")]])]

/-- The workload with these entries. -/
def registerWorkload : Workload where
  source := registerSource
  operations := [.dict [("op", .str "put")], .dict [("op", .str "delete")], .dict [("op", .str "get")]]
  owners := [0, 0, 0]
  edges := [⟨[("operation", .int 2), ("requires", .int 0), ("kind", .str "CONTRACT_REQUIRED")], 2, 0,
    .contractRequired⟩]
  operations_eq := rfl
  edges_eq := rfl
  ordered := by decide +kernel

/-- An adapter whose trials fail and pass in turn. -/
def alternating : Adapter Bool where
  signature := "REGISTER:STALE_AFTER_DELETE"
  validate state _ := (.ok (), state)
  execute state _ _ :=
    (if state then .ok (.dict [("status", .str "pass")])
      else .ok (.dict [("status", .str "fail"), ("signature", .str "REGISTER:STALE_AFTER_DELETE")]),
      !state)

/-- A policy with two trials for each candidate. -/
def registerPolicy : Policy where
  strategy := .dradd
  trials := 2
  maxExecutions := 12
  maxCandidates := 5
  threshold := .ofRat (1 / 2)
  lowerBound := none
  seed := 42

/-- The adapter returns no optional fields. -/
theorem wellTyped_alternating : alternating.WellTyped := by
  intro state candidate seed reply h
  cases state <;> cases h <;> simp [WellTyped, Json.get?, lookup]

/-- The workload and the policy are accepted. -/
theorem accept_register : accept alternating registerPolicy (.dict registerSource) false =
    .ok (registerWorkload, false) := by
  have hnew : Workload.new (.dict registerSource) = .ok registerWorkload := rfl
  have hcheck : registerPolicy.check = .ok () := by decide +kernel
  simp only [accept, hnew, bind, Except.bind,
    registerWorkload.candidate_eq_ok registerWorkload.valid_ids, hcheck]
  rfl

/-! ## Soundness -/

/-- The operations retained are a nonempty part of the workload, in order, that holds what its
enforced records require. -/
structure Retained (w : Workload) (ids : List ℕ) : Prop where
  nonempty : ids ≠ []
  increasing : ids.Pairwise (· < ·)
  lt : ∀ i ∈ ids, i < w.size
  closed : ∀ edge ∈ w.edges, edge.kind.required = true → (edge.operation : ℕ) ∈ ids →
    (edge.requires : ℕ) ∈ ids

/-- The candidates that are valid are those that may be retained. -/
theorem retained_iff {ids : List ℕ} : Retained w ids ↔ w.valid ids = true := by
  rw [w.valid_iff, w.closed_iff]
  exact ⟨fun h => ⟨h.1, h.2, h.3, h.4⟩, fun h => ⟨h.1, h.2.1, h.2.2.1, h.2.2.2⟩⟩

/-- The trials of the group confirm the target failure under the policy. -/
structure Confirms (adapter : Adapter σ) (policy : Policy) (trials : List Json) : Prop where
  length : (trials.length : ℤ) = policy.trials
  conclusive : ∀ trial ∈ trials, Conclusive trial
  shows : ∃ trial ∈ trials, ShowsTarget adapter.signature trial
  fraction : ∃ fraction, Py.Float.trueDiv
    (trials.countP fun trial => classify adapter.signature trial = .target) trials.length =
      .ok fraction ∧ policy.threshold.le fraction = true
  bound : ∀ b, policy.lowerBound = some b → policy.strategy.repeated = true →
    ∃ interval, wilson (trials.countP fun trial => classify adapter.signature trial = .target)
      trials.length quantile = .ok (some interval) ∧ b.le interval.1 = true

/-- A group with the trials of a confirmation is accepted iff they confirm the failure. -/
theorem Group.Executed.accepted_iff {group : Group} {stats : Summary}
    (hpolicy : policy.check = .ok ())
    (h : group.Executed adapter policy w policy.trials.toNat policy.threshold stats) :
    group.accepted = true ↔ Confirms adapter policy group.trials := by
  have htrials := policy.bounds hpolicy
  have hlength := h.length
  have hbound (P : Py.Float → Prop) : (∀ b, policy.requiredBound = some b → P b) ↔
      ∀ b, policy.lowerBound = some b → policy.strategy.repeated = true → P b := by
    unfold Policy.requiredBound
    split_ifs with hrepeated
    · exact ⟨fun hall b hb _ => hall b hb, fun hall b hb => hall b hb hrepeated⟩
    · exact ⟨fun _ _ _ hyes => absurd hyes hrepeated, fun _ _ hb => nomatch hb⟩
  rw [h.accepted, ← hlength, Dradd.accepted_iff h.summary, hbound]
  constructor
  · rintro ⟨hconclusive, hshows, hfraction, hlower⟩
    exact ⟨by omega, hconclusive, hshows, hfraction, hlower⟩
  · intro hconfirms
    exact ⟨hconfirms.conclusive, hconfirms.shows, hconfirms.fraction, hconfirms.bound⟩

/-- The reducer is sound against every adapter. -/
theorem reduce_sound (hadapter : adapter.WellTyped) {source : Json} {state state' : σ}
    (haccept : accept adapter policy source state = .ok (w, state')) {fuel : ℕ}
    (hfuel : (w.size + 1) * (w.size + 2) ≤ fuel) :
    ∃ report final after, reduce adapter policy fuel source state = .ok (some (report, after)) ∧
      (∀ group ∈ report.groups, group.trials ≠ [] → Retained w group.ids) ∧
      (w.ids :: acceptedIds report.groups).IsChain Narrows ∧
      (w.ids :: acceptedIds report.groups).getLast? = some final ∧
      report.reduced = w.project final ∧
      (∀ v, program report.reduced v =
        (final.filter fun i => decide (w.owner i = v)).map w.operation ∧
        (program report.reduced v).Sublist (program source v)) ∧
      (report.outcome = .successReproducer ↔ report.confirmed = true) ∧
      (report.confirmed = true ↔ ∃ last, report.groups.getLast? = some last ∧
        last.phase = .confirmation ∧ last.ids = final ∧
        Confirms adapter policy last.trials) := by
  obtain ⟨hnew, hpolicy⟩ := accept_ok haccept
  obtain ⟨report, s, last, stats, hreduce, h, hreports⟩ := reduce_spec hadapter haccept hfuel
  refine ⟨report, s.current, s.adapter, hreduce, ?_, ?_, ?_, hreports.reduced, ?_, ?_, ?_⟩
  · intro group hgroup htrials
    -- a group with trials was executed, and only valid candidates are
    rcases h.recorded group (hreports.groups ▸ hgroup) with ⟨n, rate, stats, -, hexecuted⟩ | hrejected
    · exact retained_iff.mpr hexecuted.valid
    · exact absurd hrejected.trials htrials
  · exact hreports.groups ▸ h.chain
  · exact hreports.groups ▸ h.last
  · intro v
    rw [hreports.reduced, Workload.new_eq_ok hnew]
    exact ⟨w.program_project s.current v, w.program_sublist h.valid v⟩
  · rw [hreports.outcome, hreports.confirmed_eq]
    split_ifs with hconfirmed
    · simp [hconfirmed]
    · simp [hconfirmed, rejection_ne_success]
  · rw [hreports.confirmed_eq, hreports.groups, h.getLast?_groups, Bool.and_eq_true,
      decide_eq_true_eq, h.executed.accepted_iff hpolicy]
    constructor
    · rintro ⟨hphase, hconfirms⟩
      exact ⟨last, rfl, hphase, h.ids, hconfirms⟩
    · rintro ⟨last', hlast, hphase, -, hconfirms⟩
      -- the search has one last group
      obtain rfl : last = last' := Option.some.inj hlast
      exact ⟨hphase, hconfirms⟩

/-- On the register: what is reported is a candidate that is allowed, and rests on the last group.
-/
theorem reduce_sound_register : ∃ report final after,
    reduce alternating registerPolicy 20 (.dict registerSource) false = .ok (some (report, after)) ∧
      (∀ group ∈ report.groups, group.trials ≠ [] → Retained registerWorkload group.ids) ∧
      report.reduced = registerWorkload.project final ∧
      (report.confirmed = true ↔ ∃ last, report.groups.getLast? = some last ∧
        last.phase = .confirmation ∧ last.ids = final ∧
        Confirms alternating registerPolicy last.trials) := by
  obtain ⟨report, final, after, hreduce, hretained, -, -, hreduced, -, -, hconfirmed⟩ :=
    reduce_sound wellTyped_alternating accept_register (show 4 * 5 ≤ 20 by decide)
  exact ⟨report, final, after, hreduce, hretained, hreduced, hconfirmed⟩

/-- Groups without trials may be left out of the count. -/
theorem allTrials_filter {groups : List Group} {p : Group → Bool}
    (h : ∀ group ∈ groups, p group = false → group.trials = []) :
    allTrials (groups.filter p) = allTrials groups := by
  induction groups with
  | nil => rfl
  | cons group groups ih =>
    have ih := ih fun g hg => h g (List.mem_cons_of_mem group hg)
    simp only [allTrials, List.flatMap_cons] at ih ⊢
    cases hp : p group with
    | true => rw [List.filter_cons_of_pos hp, List.flatMap_cons, ih]
    | false =>
      rw [List.filter_cons_of_neg (by simp [hp]), ih, h group List.mem_cons_self hp, List.nil_append]

/-- The reducer ends within its budgets, whatever the adapter does. -/
theorem reduce_resources (hadapter : adapter.WellTyped) {source : Json} {state state' : σ}
    (haccept : accept adapter policy source state = .ok (w, state')) {fuel : ℕ}
    (hfuel : (w.size + 1) * (w.size + 2) ≤ fuel) :
    ∃ report after, reduce adapter policy fuel source state = .ok (some (report, after)) ∧
      (report.actualExecutions : ℤ) ≤ policy.maxExecutions ∧
      (report.candidateEvaluations : ℤ) ≤ policy.maxCandidates ∧
      report.calls.map Prod.snd =
        (List.range report.actualExecutions).map (fun k : ℕ => policy.seed + k) ∧
      (allTrials report.groups).map (fun trial => trial.get? "trial_seed") =
        (List.range report.actualExecutions).map (fun k : ℕ => some (.int (policy.seed + k))) ∧
      (∀ group ∈ report.groups, group.state = .invalidCandidate → group.trials = []) ∧
      (allTrials (report.groups.filter fun group => group.state ≠ .invalidCandidate)).length =
        report.actualExecutions ∧
      ∃ first rest, report.groups = first :: rest ∧ first.phase = .initial ∧
        (first.accepted = true → ∃ candidates last, rest = candidates ++ [last] ∧
          last.phase = .confirmation ∧ (last.trials.length : ℤ) = policy.trials) := by
  obtain ⟨-, hpolicy⟩ := accept_ok haccept
  have htrials := policy.bounds hpolicy
  obtain ⟨report, s, last, stats, hreduce, h, hreports⟩ := reduce_spec hadapter haccept hfuel
  -- an executed group is in another state, whatever its trials showed
  have hrejected : ∀ group ∈ s.groups, group.state = .invalidCandidate → group.trials = [] := by
    intro group hgroup hstate
    rcases h.recorded group hgroup with ⟨n, rate, stats, -, hexecuted⟩ | hrejected
    · exact absurd hstate hexecuted.state_ne
    · exact hrejected.trials
  refine ⟨report, s.adapter, hreduce, ?_, ?_, ?_, ?_, hreports.groups ▸ hrejected, ?_, ?_⟩
  · exact hreports.executions ▸ h.executions
  · exact hreports.evaluations ▸ h.attempts
  · rw [hreports.calls, hreports.executions, h.calls, Policy.seeds, List.range_eq_range']
  · have hseeds := h.seeds
    rw [hreports.groups, hreports.executions, List.range_eq_range']
    rw [Policy.seeds, List.map_map] at hseeds
    exact hseeds
  · rw [hreports.groups, hreports.executions, ← h.length_allTrials, allTrials_filter]
    intro group hgroup hstate
    exact hrejected group hgroup (by simpa using hstate)
  · rw [hreports.groups]
    rcases h.phases with ⟨hgroups, hphase, haccepted⟩ |
      ⟨first, rest, hgroups, hphase, haccepted, -, hlast⟩
    · exact ⟨last, [], hgroups, hphase, fun hinitial => absurd hinitial (by simp [haccepted])⟩
    · refine ⟨first, rest ++ [last], hgroups, hphase, fun _ => ⟨rest, last, rfl, hlast, ?_⟩⟩
      rw [h.executed.length]
      omega

/-- On the register: the search stays within the twelve executions and five candidates it is given.
-/
theorem reduce_resources_register : ∃ report after,
    reduce alternating registerPolicy 20 (.dict registerSource) false = .ok (some (report, after)) ∧
      (report.actualExecutions : ℤ) ≤ 12 ∧ (report.candidateEvaluations : ℤ) ≤ 5 ∧
      report.calls.map Prod.snd =
        (List.range report.actualExecutions).map (fun k : ℕ => (42 : ℤ) + k) := by
  obtain ⟨report, after, hreduce, hexecutions, hevaluations, hcalls, -⟩ :=
    reduce_resources wellTyped_alternating accept_register (show 4 * 5 ≤ 20 by decide)
  exact ⟨report, after, hreduce, hexecutions, hevaluations, hcalls⟩

end Lab.Dradd
