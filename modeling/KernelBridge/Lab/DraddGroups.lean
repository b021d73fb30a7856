import KernelBridge.Lab.Dradd

/-!
# Groups of trials

What one group of trials does, whatever the adapter answers.

* `accepted_iff`: a group is accepted iff all its trials ran to a verdict, one of them showed the
  target failure, and the fraction of those that did is large enough.
* `replay_spec`: a call of `replay` on a candidate records one group of that many trials, with the
  next seeds of the stream, and leaves the other variables of the search alone.
-/

namespace Lab.Dradd

open Py

/-! ## Classification -/

/-- The trial shows the target failure. -/
def ShowsTarget (signature : String) (trial : Json) : Prop :=
  trial.get? "status" = some (.str "fail") ∧ trial.get? "signature" = some (.str signature)

/-- The trial ran to a verdict: it passed, or failed with a signature. -/
def Conclusive (trial : Json) : Prop :=
  trial.get? "status" = some (.str "pass") ∨
    trial.get? "status" = some (.str "fail") ∧ ∃ s, trial.get? "signature" = some (.str s)

/-- A trial that counts as a target failure shows the target. -/
theorem classify_eq_target_iff {signature : String} {trial : Json} :
    classify signature trial = .target ↔ ShowsTarget signature trial := by
  unfold classify ShowsTarget
  split
  next s hstatus hsignature =>
    rw [hstatus, hsignature]
    split_ifs with hs <;> simp [hs]
  next hstatus => simp [hstatus]
  next hstatus => simp [hstatus]
  next hstatus => simp [hstatus]
  next hfail =>
    simp only [reduceCtorEq, false_iff, not_and]
    exact fun hstatus hsignature => hfail _ hstatus hsignature

/-- The trials that are valid are those that came to a verdict. -/
theorem valid_classify_iff {signature : String} {trial : Json} :
    (classify signature trial).valid = true ↔ Conclusive trial := by
  unfold classify Conclusive
  split
  next s hstatus hsignature =>
    rw [hstatus, hsignature]
    split_ifs <;> simp [Class.valid]
  next hstatus => simp [hstatus, Class.valid]
  next hstatus => simp [hstatus, Class.valid]
  next hstatus => simp [hstatus, Class.valid]
  next hpass _ _ hfail =>
    simp only [Class.valid, Bool.false_eq_true, false_iff, not_or, not_and, not_exists]
    exact ⟨hpass, fun hstatus s hsignature => hfail s hstatus hsignature⟩

/-! ## Statistics -/

/-- The Wilson interval is defined for all counts of successes among trials, if there are any
trials. -/
theorem wilson_ok {successes valid : ℕ} (h : successes ≤ valid) :
    ∃ interval, wilson successes valid quantile = .ok interval ∧ (interval = none ↔ valid = 0) := by
  have hz : quantile.isFinite = true ∧ quantile.le 0 = false := by decide +kernel
  have hguard : ¬(¬((0 : ℤ) ≤ successes ∧ (successes : ℤ) ≤ valid) ∨ quantile.isFinite = false ∨
      quantile.le 0 = true) := by
    rw [hz.1, hz.2]
    simp [h]
  rw [wilson, if_neg hguard]
  rcases Nat.eq_zero_or_pos valid with rfl | hpos
  · exact ⟨none, by simp⟩
  rw [if_neg (by omega)]
  have hsquare : Py.Float.Nonneg (quantile * quantile) :=
    Py.Float.Nonneg.mul (Py.Float.Pos.nonneg hz.2) (Py.Float.Pos.nonneg hz.2)
  have hone : (1 : ℚ) ≤ ((valid : ℤ) : ℚ) := by exact_mod_cast hpos
  have hdivisor {q : ℚ} (hq : 1 ≤ q) : Py.Float.Pos (.ofRat q) := Py.Float.pos_round hq
  -- the fraction is between zero and one
  have hfraction : ((successes : ℤ) : ℚ) / ((valid : ℤ) : ℚ) ≤ 1 := by
    rw [div_le_one (by linarith)]
    exact_mod_cast h
  obtain ⟨p, hp, hp0, hp1⟩ := Py.Float.round_fraction
    (q := ((successes : ℤ) : ℚ) / ((valid : ℤ) : ℚ)) (by positivity) hfraction
  have hrest : Py.Float.Nonneg (1 - .finite p) := Py.Float.nonneg_round (by linarith)
  have htrue : Py.Float.trueDiv successes valid = .ok (.finite p) := by
    rw [Py.Float.trueDiv, if_neg (by omega), hp]
  -- so no divisor is zero, and no root is of a negative number
  obtain ⟨a, ha, ha0⟩ := hsquare.div_ok (hdivisor hone)
  obtain ⟨b, hb, -⟩ := hsquare.div_ok (hdivisor (q := 2 * ((valid : ℤ) : ℚ)) (by linarith))
  obtain ⟨c, hc, hc0⟩ := hsquare.div_ok
    (hdivisor (q := 4 * ((valid : ℤ) : ℚ) * ((valid : ℤ) : ℚ)) (by nlinarith))
  obtain ⟨d, hd, hd0⟩ := (Py.Float.Nonneg.mul (Py.Float.nonneg_finite.mpr hp0) hrest).div_ok
    (hdivisor hone)
  obtain ⟨root, hroot⟩ := (Py.Float.Nonneg.add hd0 hc0).sqrt_ok
  obtain ⟨center, hcenter⟩ := Py.Float.div_ok (.finite p + b) (Py.Float.Nonneg.one_add ha0)
  obtain ⟨radius, hradius⟩ := Py.Float.div_ok (quantile * root) (Py.Float.Nonneg.one_add ha0)
  refine ⟨some (Py.Float.max 0 (center - radius), Py.Float.min 1 (center + radius)), ?_, ?_⟩
  · simp only [htrue, ha, hb, hc, hd, hroot, hcenter, hradius, bind, Except.bind, pure,
      Except.pure]
  · simp only [reduceCtorEq, false_iff]
    omega

/-- The number of the trials that ran to a verdict. -/
theorem count_valid (signature : String) (trials : List Json) :
    count signature .target trials + count signature .pass trials +
      count signature .different trials =
    trials.countP fun trial => (classify signature trial).valid := by
  induction trials with
  | nil => rfl
  | cons trial trials ih =>
    simp only [count, List.countP_cons] at ih ⊢
    rw [← ih]
    cases classify signature trial <;> simp [Class.valid] <;> omega

/-- What `trial_summary` returns. -/
theorem trialSummary_spec (trials : List Json) (signature : String) :
    ∃ stats, trialSummary trials signature = .ok stats ∧
      stats.target = count signature .target trials ∧
      stats.valid = (trials.countP fun trial => (classify signature trial).valid) ∧
      (stats.valid ≠ 0 → ∃ frequency interval,
        stats.frequency = some frequency ∧ stats.wilson95 = some interval ∧
        Py.Float.trueDiv stats.target stats.valid = .ok frequency ∧
        wilson stats.target stats.valid quantile = .ok (some interval)) := by
  have hle : count signature .target trials ≤ count signature .target trials +
      count signature .pass trials + count signature .different trials := by omega
  obtain ⟨interval, hwilson, hnone⟩ := wilson_ok hle
  rw [trialSummary, ← count_valid]
  dsimp only
  rw [hwilson]
  split_ifs with hzero
  · exact ⟨_, rfl, rfl, rfl, fun hne => absurd hzero hne⟩
  · -- `wilson` returns `None` only if no trial ran to a verdict
    obtain ⟨bounds, rfl⟩ := Option.ne_none_iff_exists'.mp (mt hnone.mp hzero)
    have htrue : Py.Float.trueDiv (count signature .target trials) ↑(count signature .target trials +
        count signature .pass trials + count signature .different trials) = .ok (.round _) :=
      if_neg (by exact_mod_cast hzero)
    rw [htrue]
    exact ⟨_, rfl, rfl, rfl, fun _ => ⟨_, bounds, rfl, rfl, htrue, hwilson⟩⟩

/-- A group is accepted iff all its trials ran to a verdict, one shows the target failure, the
fraction of those that do is at least the rate, and so is the lower end of its interval the bound,
if one is asked for. -/
theorem accepted_iff {trials : List Json} {signature : String} {stats : Summary}
    (hstats : trialSummary trials signature = .ok stats) (rate : Py.Float)
    (bound : Option Py.Float) :
    accepted stats trials.length rate bound = true ↔
      (∀ trial ∈ trials, Conclusive trial) ∧ (∃ trial ∈ trials, ShowsTarget signature trial) ∧
      (∃ fraction, Py.Float.trueDiv (count signature .target trials) trials.length = .ok fraction ∧
        rate.le fraction = true) ∧
      ∀ b, bound = some b → ∃ interval,
        wilson (count signature .target trials) trials.length quantile = .ok (some interval) ∧
          b.le interval.1 = true := by
  obtain ⟨stats', hstats', htarget, hvalid, hfields⟩ := trialSummary_spec trials signature
  obtain rfl : stats' = stats := Except.ok.inj (hstats'.symm.trans hstats)
  have hall : stats'.valid = trials.length ↔ ∀ trial ∈ trials, Conclusive trial := by
    rw [hvalid, List.countP_eq_length]
    simp only [valid_classify_iff]
  have hsome : 0 < stats'.target ↔ ∃ trial ∈ trials, ShowsTarget signature trial := by
    rw [htarget, count, List.countP_pos_iff]
    simp only [decide_eq_true_eq, classify_eq_target_iff]
  simp only [accepted, Bool.and_eq_true, decide_eq_true_eq, and_assoc, hsome]
  -- once all trials ran to a verdict, the numbers compared are those of the counts
  constructor
  · rintro ⟨hlength, ⟨trial, htrial, hshows⟩, hrate, hbound⟩
    have hne : stats'.valid ≠ 0 := by
      rw [hlength]
      exact (List.length_pos_of_mem htrial).ne'
    obtain ⟨frequency, interval, hfrequency, hinterval, htrue, hwilson⟩ := hfields hne
    rw [hlength, htarget] at htrue hwilson
    refine ⟨hall.mp hlength, ⟨trial, htrial, hshows⟩, ⟨frequency, htrue, ?_⟩, ?_⟩
    · simpa [hfrequency] using hrate
    · rintro b rfl
      exact ⟨interval, hwilson, by simpa [hinterval] using hbound⟩
  · rintro ⟨hconclusive, ⟨trial, htrial, hshows⟩, ⟨fraction, hfraction, hrate⟩, hbound⟩
    have hlength := hall.mpr hconclusive
    have hne : stats'.valid ≠ 0 := by
      rw [hlength]
      exact (List.length_pos_of_mem htrial).ne'
    obtain ⟨frequency, interval, hfrequency, hinterval, htrue, hwilson⟩ := hfields hne
    rw [hlength, htarget] at htrue hwilson
    obtain rfl : frequency = fraction := Except.ok.inj (htrue.symm.trans hfraction)
    refine ⟨hlength, ⟨trial, htrial, hshows⟩, by simpa [hfrequency] using hrate, ?_⟩
    cases bound with
    | none => rfl
    | some b =>
      obtain ⟨interval', hwilson', hle⟩ := hbound b rfl
      obtain rfl : interval = interval' := Option.some.inj (Except.ok.inj (hwilson.symm.trans hwilson'))
      simpa [hinterval] using hle

/-! ## Executions -/

variable {σ : Type} (adapter : Adapter σ) (policy : Policy) {w : Workload}

/-- `n` seeds of the stream, after the first `first`. -/
def Policy.seeds (policy : Policy) (first n : ℕ) : List ℤ :=
  (List.range' first n).map fun k : ℕ => policy.seed + k

/-- The seeds of two groups in a row. -/
theorem seeds_append (first m n : ℕ) :
    policy.seeds first m ++ policy.seeds (first + m) n = policy.seeds first (m + n) := by
  simp only [Policy.seeds, ← List.map_append, List.range'_append_1]

/-- The seed that is recorded with a trial. -/
def seedOf (trial : Json) : Option Json := trial.get? "trial_seed"

/-- A result that is recorded is a dict, which keeps what its keys say. -/
theorem exists_resultOf (answer : Except Exc Json) :
    ∃ entries, resultOf answer = .dict entries ∧
      ((∀ reply, answer = .ok reply → WellTyped reply) → WellTyped (.dict entries)) := by
  have hfailed (exc : Exc) : WellTyped (failed exc) := by
    simp [WellTyped, failed, Json.get?, lookup]
  unfold resultOf
  split
  next entries => exact ⟨entries, rfl, fun h => h _ rfl⟩
  next => exact ⟨_, rfl, fun _ => hfailed _⟩
  next exc => exact ⟨_, rfl, fun _ => hfailed exc⟩

/-- The seed that is added to a result leaves it well typed. -/
theorem WellTyped.set_seed {entries : List (String × Json)} (h : WellTyped (.dict entries))
    (seed : Json) : WellTyped (Json.set "trial_seed" seed (.dict entries)) := by
  simpa [WellTyped, Json.set, Json.get?] using h

/-- One execution: the next seed is handed to the adapter and recorded. -/
theorem trial_spec (candidate : Json) (s : Search σ) : ∃ state,
    (trial adapter policy candidate s).2 = { s with
      adapter := state
      executions := s.executions + 1
      calls := s.calls ++ [(candidate, policy.seed + s.executions)] } ∧
    seedOf (trial adapter policy candidate s).1 = some (.int (policy.seed + s.executions)) ∧
    (adapter.WellTyped → WellTyped (trial adapter policy candidate s).1) := by
  -- the seed is set in a dict, whatever the adapter has answered
  obtain ⟨entries, hresult, htyped⟩ := exists_resultOf
    (adapter.execute s.adapter candidate (policy.seed + s.executions)).1
  refine ⟨_, rfl, ?_, fun hadapter => ?_⟩
  · rw [trial, hresult]
    simp [seedOf, Json.set, Json.get?]
  · rw [trial, hresult]
    exact (htyped fun reply hreply => hadapter _ _ _ reply hreply).set_seed _

/-- `n` executions. -/
theorem runTrials_spec (candidate : Json) (n : ℕ) (s : Search σ) : ∃ state,
    (runTrials adapter policy candidate n s).2 = { s with
      adapter := state
      executions := s.executions + n
      calls := s.calls ++ (policy.seeds s.executions n).map fun seed => (candidate, seed) } ∧
    (runTrials adapter policy candidate n s).1.map seedOf =
      (policy.seeds s.executions n).map (fun seed => some (.int seed)) ∧
    (adapter.WellTyped → ∀ trial ∈ (runTrials adapter policy candidate n s).1, WellTyped trial) := by
  induction n generalizing s with
  | zero => exact ⟨s.adapter, by simp [runTrials, Policy.seeds], rfl, by simp [runTrials]⟩
  | succ n ih =>
    obtain ⟨_, hfirst, hseed, htyped⟩ := trial_spec adapter policy candidate s
    -- the rest of the trials starts one seed later
    obtain ⟨state, hrest, hseeds, htypeds⟩ := ih (trial adapter policy candidate s).2
    have hcons : policy.seeds s.executions (n + 1) =
        (policy.seed + s.executions) :: policy.seeds (s.executions + 1) n := by
      simp [Policy.seeds, List.range'_succ]
    refine ⟨state, ?_, ?_, fun hadapter trial htrial => ?_⟩
    · rw [runTrials, hrest, hfirst, hcons]
      simp only [List.map_cons, List.append_assoc, List.singleton_append, Search.mk.injEq, true_and,
        and_true]
      omega
    · rw [runTrials, List.map_cons, hseeds, hseed, hfirst, hcons, List.map_cons]
    · rcases List.mem_cons.mp htrial with rfl | hmem
      · exact htyped hadapter
      · exact htypeds hadapter trial hmem

/-! ## Groups -/

/-- The group was executed on a candidate, and says what its trials do. -/
structure Group.Executed (adapter : Adapter σ) (policy : Policy) (w : Workload) (n : ℕ)
    (rate : Py.Float) (stats : Summary) (group : Group) : Prop where
  valid : w.valid group.ids = true
  length : group.trials.length = n
  summary : trialSummary group.trials adapter.signature = .ok stats
  statistics : group.statistics = some stats
  accepted : group.accepted = Dradd.accepted stats n rate policy.requiredBound
  state : group.state = if group.accepted then .successReproducer else rejection stats
  error : group.error = none

/-- The group was not executed. -/
structure Group.Rejected (group : Group) : Prop where
  phase : group.phase = .candidate
  trials : group.trials = []
  statistics : group.statistics = none
  accepted : group.accepted = false
  state : group.state = .invalidCandidate

variable {adapter policy}

/-- An executed group is not rejected as an invalid candidate. -/
theorem rejection_ne_invalid (stats : Summary) : rejection stats ≠ .invalidCandidate := by
  unfold rejection
  split_ifs <;> decide

/-- A rejected group is no success. -/
theorem rejection_ne_success (stats : Summary) : rejection stats ≠ .successReproducer := by
  unfold rejection
  split_ifs <;> decide

/-- The state of an executed group is not that of an invalid candidate. -/
theorem Group.Executed.state_ne {n : ℕ} {rate : Py.Float} {stats : Summary} {group : Group}
    (h : group.Executed adapter policy w n rate stats) : group.state ≠ .invalidCandidate := by
  rw [h.state]
  split_ifs
  · decide
  · exact rejection_ne_invalid stats

variable (adapter policy)

/-- A call of `replay` on a candidate records one executed group. -/
theorem replay_spec {keep : List ℕ} (hkeep : w.valid keep = true) (phase : Phase) (n : ℕ)
    (rate : Py.Float) (s : Search σ) : ∃ group stats state,
    replay adapter policy w keep phase n rate s = .ok ((group.accepted, stats), { s with
      adapter := state
      groups := s.groups ++ [group]
      executions := s.executions + n
      calls := s.calls ++ (policy.seeds s.executions n).map fun seed => (w.project keep, seed) }) ∧
    group.Executed adapter policy w n rate stats ∧ group.phase = phase ∧ group.ids = keep ∧
    group.trials.map seedOf = (policy.seeds s.executions n).map (fun seed => some (.int seed)) ∧
    (adapter.WellTyped → ∀ trial ∈ group.trials, WellTyped trial) := by
  obtain ⟨state, hsearch, hseeds, htyped⟩ :=
    runTrials_spec adapter policy (w.project keep) n s
  obtain ⟨stats, hstats, -⟩ :=
    trialSummary_spec (runTrials adapter policy (w.project keep) n s).1 adapter.signature
  have hlength : (runTrials adapter policy (w.project keep) n s).1.length = n := by
    have := congrArg List.length hseeds
    simpa [Policy.seeds] using this
  let ok := accepted stats n rate policy.requiredBound
  let group : Group :=
    { phase, ids := keep, trials := (runTrials adapter policy (w.project keep) n s).1
      statistics := some stats, accepted := ok
      state := if ok then .successReproducer else rejection stats, error := none }
  refine ⟨group, stats, state, ?_, ⟨hkeep, hlength, hstats, rfl, rfl, rfl, rfl⟩, rfl, rfl, hseeds,
    htyped⟩
  -- neither the candidate nor the summary of its trials is refused
  rw [replay, w.candidate_eq_ok hkeep]
  simp only [bind, Except.bind, hstats, hsearch]
  rfl

end Lab.Dradd
