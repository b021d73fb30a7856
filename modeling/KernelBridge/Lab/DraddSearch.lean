import KernelBridge.Lab.DraddGroups
import Mathlib.Data.List.Chain

/-!
# The search of the reducer

What holds after every step of the search, whatever the adapter answers, and that the search ends.

* `Ledger`: the recorded groups and the stream of seeds account for every execution.
* `Searching`: in addition, the accepted candidates are a chain of ever smaller index sets that
  ends at the current one, and the budgets leave room for the confirmation.
* `search_spec`: the `while` loop leaves within `(n + 1) * (n + 2)` rounds for `n` operations,
  without an error and with `Searching` kept.
-/

namespace Lab.Dradd

open Py

variable {σ : Type} {adapter : Adapter σ} {policy : Policy} {w : Workload}

/-! ## Budgets -/

/-- The bounds that the policy has passed. -/
theorem Policy.bounds (h : policy.check = .ok ()) :
    1 ≤ policy.trials ∧ 2 * policy.trials ≤ policy.maxExecutions ∧ 1 ≤ policy.maxCandidates := by
  unfold check at h
  split_ifs at h with hguard
  simp only [not_or, not_not] at hguard
  omega

/-- A candidate has at least one trial, and no more than a confirmation. -/
theorem Policy.candidateTrials_bounds (h : policy.check = .ok ()) :
    1 ≤ policy.candidateTrials ∧ policy.candidateTrials ≤ policy.trials := by
  have := policy.bounds h
  unfold candidateTrials
  split_ifs <;> omega

/-- On the sizes that occur, rounding up the quotient of floats is exact. -/
theorem ceil_trueDiv {size granularity : ℕ} (hsize : size ≤ 12) (h2 : 2 ≤ granularity)
    (hgranularity : granularity ≤ 13) : (Py.Float.trueDiv size granularity >>= Py.Float.ceil) =
      .ok ((size + granularity - 1) / granularity : ℕ) := by
  have hall : ∀ m < 13, ∀ g < 14, 2 ≤ g → (Py.Float.trueDiv (m : ℕ) (g : ℕ) >>= Py.Float.ceil) =
      .ok ((m + g - 1) / g : ℕ) := by decide +kernel
  exact hall size (by omega) granularity (by omega) h2

/-- Some operations are deleted at once. -/
theorem exists_width {size granularity : ℕ} (hpos : 1 ≤ size) (hsize : size ≤ 12)
    (h2 : 2 ≤ granularity) (hgranularity : granularity ≤ 13) :
    ∃ k, width policy size granularity = .ok k ∧ 1 ≤ k := by
  unfold width
  split_ifs
  · exact ⟨1, rfl, le_rfl⟩
  · have hceil := ceil_trueDiv hsize h2 hgranularity
    rw [bind_eq_ok_iff] at hceil
    obtain ⟨quotient, hquotient, hceil⟩ := hceil
    refine ⟨(size + granularity - 1) / granularity, ?_, ?_⟩
    · rw [hquotient]
      simp only [bind, Except.bind, hceil]
      rfl
    · exact (Nat.le_div_iff_mul_le (by omega)).mpr (by omega)

/-- Every offset is inside the list. -/
theorem lt_of_mem_offsets {size width offset : ℕ} (h : offset ∈ offsets size width) :
    offset < size := by
  obtain ⟨k, hk, rfl⟩ := List.mem_map.mp h
  rw [List.mem_range] at hk
  have hwidth : 0 < width := by
    by_contra hzero
    simp [show width = 0 by omega] at hk
  have := (Nat.lt_iff_add_one_le.trans (Nat.le_div_iff_mul_le hwidth)).mp hk
  rw [Nat.add_mul, Nat.one_mul] at this
  omega

/-! ## Deletions -/

/-- The new index set is a strict subset of the one it replaces. -/
def Narrows (old new : List ℕ) : Prop := new ⊆ old ∧ ¬old ⊆ new

/-- What a deletion leaves is a strict subset, pruned or not. -/
theorem narrows_propose {current : List ℕ} (hvalid : w.valid current = true) {width offset : ℕ}
    (hwidth : 1 ≤ width) (hoffset : offset < current.length) :
    Narrows current (propose policy w width offset current) := by
  obtain ⟨-, hsorted, -, -⟩ := w.valid_iff.mp hvalid
  -- no index occurs twice, so a deletion loses what it deletes
  have hnodup : current.Nodup := hsorted.imp fun hlt => hlt.ne
  have hsub : current.take offset ++ current.drop (offset + width) ⊆ current := fun i hi =>
    (List.mem_append.mp hi).elim List.mem_of_mem_take List.mem_of_mem_drop
  have hproper : ¬current ⊆ current.take offset ++ current.drop (offset + width) := fun hall => by
    have := (List.subperm_of_subset hnodup hall).length_le
    simp only [List.length_append, List.length_take, List.length_drop] at this
    omega
  rw [propose]
  split_ifs
  · obtain ⟨-, hprune, -, -⟩ := w.prune_spec (current.take offset ++ current.drop (offset + width))
    exact ⟨fun i hi => hsub (hprune hi), fun hall => hproper fun i hi => hprune (hall hi)⟩
  · exact ⟨hsub, hproper⟩

/-- A valid candidate that is narrower is shorter. -/
theorem Narrows.length_lt {old new : List ℕ} (h : Narrows old new) (hold : w.valid old = true)
    (hnew : w.valid new = true) : new.length < old.length := by
  obtain ⟨-, hold, -, -⟩ := w.valid_iff.mp hold
  obtain ⟨-, hnew, -, -⟩ := w.valid_iff.mp hnew
  -- both are increasing, so the subset is a sublist
  have hsub := Workload.sublist_of_subset hnew hold h.1
  refine lt_of_le_of_ne hsub.length_le fun heq => h.2 ?_
  rw [hsub.eq_of_length heq]
  exact List.Subset.refl _

/-! ## What the groups account for -/

/-- The index sets of the accepted candidates. -/
def acceptedIds (groups : List Group) : List (List ℕ) :=
  (groups.filter fun group => decide (group.phase = .candidate) && group.accepted).map Group.ids

/-- The groups and the calls account for all executions. -/
structure Ledger (adapter : Adapter σ) (policy : Policy) (w : Workload) (s : Search σ) : Prop where
  recorded : ∀ group ∈ s.groups,
    (∃ n rate stats, 1 ≤ n ∧ group.Executed adapter policy w n rate stats) ∨ group.Rejected
  wellTyped : adapter.WellTyped → ∀ trial ∈ allTrials s.groups, WellTyped trial
  calls : s.calls.map Prod.snd = policy.seeds 0 s.executions
  seeds : (allTrials s.groups).map seedOf =
    (policy.seeds 0 s.executions).map fun seed => some (.int seed)

/-- The state of the search between two groups. -/
structure Searching (adapter : Adapter σ) (policy : Policy) (w : Workload) (s : Search σ) : Prop
    extends Ledger adapter policy w s where
  valid : w.valid s.current = true
  phases : ∃ first rest, s.groups = first :: rest ∧ first.phase = .initial ∧
    first.accepted = true ∧ ∀ group ∈ rest, group.phase = .candidate
  chain : (w.ids :: acceptedIds s.groups).IsChain Narrows
  last : (w.ids :: acceptedIds s.groups).getLast? = some s.current
  executions : (s.executions : ℤ) + policy.trials ≤ policy.maxExecutions
  attempts : (s.attempts : ℤ) ≤ policy.maxCandidates
  two_le : 2 ≤ s.granularity
  granularity_le : s.granularity ≤ w.size + 1

/-- Recording a group keeps the accounts if its trials used the next seeds. -/
theorem Ledger.append {s s' : Search σ} {group : Group} (h : Ledger adapter policy w s)
    (hgroups : s'.groups = s.groups ++ [group])
    (hgroup : (∃ n rate stats, 1 ≤ n ∧ group.Executed adapter policy w n rate stats) ∨
      group.Rejected)
    (htyped : adapter.WellTyped → ∀ trial ∈ group.trials, WellTyped trial) {n : ℕ}
    (hexecutions : s'.executions = s.executions + n)
    (hcalls : s'.calls.map Prod.snd = s.calls.map Prod.snd ++ policy.seeds s.executions n)
    (hseeds : group.trials.map seedOf =
      (policy.seeds s.executions n).map fun seed => some (.int seed)) :
    Ledger adapter policy w s' := by
  -- the new trials use the seeds that follow those already used
  have hseeds_append := seeds_append policy 0 s.executions n
  rw [Nat.zero_add] at hseeds_append
  constructor
  · intro g hg
    rw [hgroups, List.mem_append, List.mem_singleton] at hg
    rcases hg with hg | rfl
    · exact h.recorded g hg
    · exact hgroup
  · intro hadapter trial htrial
    rw [hgroups, allTrials, List.flatMap_append, List.mem_append] at htrial
    rcases htrial with htrial | htrial
    · exact h.wellTyped hadapter trial htrial
    · exact htyped hadapter trial (by simpa using htrial)
  · rw [hcalls, hexecutions, h.calls, hseeds_append]
  · have htrials : allTrials (s.groups ++ [group]) = allTrials s.groups ++ group.trials := by
      simp [allTrials]
    rw [hgroups, htrials, List.map_append, h.seeds, hseeds, ← List.map_append, hseeds_append,
      hexecutions]

/-- The number of executions is the number of recorded trials. -/
theorem Ledger.length_allTrials {s : Search σ} (h : Ledger adapter policy w s) :
    (allTrials s.groups).length = s.executions := by
  have := congrArg List.length h.seeds
  simpa [Policy.seeds] using this

/-- After the first group the search records candidates. -/
theorem Searching.phases_append {s : Search σ} {group : Group} (h : Searching adapter policy w s)
    (hphase : group.phase = .candidate) : ∃ first rest, s.groups ++ [group] = first :: rest ∧
      first.phase = .initial ∧ first.accepted = true ∧ ∀ g ∈ rest, g.phase = .candidate := by
  obtain ⟨first, rest, hgroups, hinitial, haccepted, hrest⟩ := h.phases
  refine ⟨first, rest ++ [group], ?_, hinitial, haccepted, fun g hg => ?_⟩
  · rw [hgroups, List.cons_append]
  · rcases List.mem_append.mp hg with hg | hg
    · exact hrest g hg
    · rwa [List.mem_singleton.mp hg]

/-- Recording a candidate that was not accepted. -/
theorem Searching.append_rejected {s s' : Search σ} {group : Group}
    (h : Searching adapter policy w s) (hledger : Ledger adapter policy w s')
    (hgroups : s'.groups = s.groups ++ [group]) (hphase : group.phase = .candidate)
    (haccepted : group.accepted = false) (hcurrent : s'.current = s.current)
    (hexecutions : (s'.executions : ℤ) + policy.trials ≤ policy.maxExecutions)
    (hattempts : (s'.attempts : ℤ) ≤ policy.maxCandidates)
    (hgranularity : s'.granularity = s.granularity) : Searching adapter policy w s' := by
  have hids : acceptedIds s'.groups = acceptedIds s.groups := by
    simp [acceptedIds, hgroups, haccepted]
  exact { hledger with
    valid := hcurrent ▸ h.valid
    phases := hgroups ▸ h.phases_append hphase
    chain := hids ▸ h.chain
    last := by rw [hids, h.last, hcurrent]
    executions := hexecutions
    attempts := hattempts
    two_le := hgranularity ▸ h.two_le
    granularity_le := hgranularity ▸ h.granularity_le }

/-- Recording a candidate that was accepted, and replaces the current index set. -/
theorem Searching.append_accepted {s s' : Search σ} {group : Group}
    (h : Searching adapter policy w s) (hledger : Ledger adapter policy w s')
    (hgroups : s'.groups = s.groups ++ [group]) (hphase : group.phase = .candidate)
    (haccepted : group.accepted = true) (hcurrent : s'.current = group.ids)
    (hvalid : w.valid group.ids = true) (hnarrows : Narrows s.current group.ids)
    (hexecutions : (s'.executions : ℤ) + policy.trials ≤ policy.maxExecutions)
    (hattempts : (s'.attempts : ℤ) ≤ policy.maxCandidates) (h2 : 2 ≤ s'.granularity)
    (hgranularity : s'.granularity ≤ w.size + 1) : Searching adapter policy w s' := by
  have hids : acceptedIds s'.groups = acceptedIds s.groups ++ [group.ids] := by
    simp [acceptedIds, hgroups, haccepted, hphase]
  refine { hledger with
    valid := hcurrent ▸ hvalid
    phases := hgroups ▸ h.phases_append hphase
    chain := ?_
    last := ?_
    executions := hexecutions
    attempts := hattempts
    two_le := h2
    granularity_le := hgranularity }
  · -- the chain ended at the index set that the candidate narrows
    rw [hids, ← List.cons_append]
    refine h.chain.append (List.isChain_singleton _) fun old hold new hnew => ?_
    rw [h.last, Option.mem_some_iff] at hold
    rw [List.head?_cons, Option.mem_some_iff] at hnew
    rwa [← hold, ← hnew]
  · rw [hids, ← List.cons_append, List.getLast?_append]
    simp [hcurrent]

/-! ## Steps of the search -/

/-- What the loop over the deletions does to the variables that the next round depends on. -/
def Progress (s s' : Search σ) : Sweep → Prop
  | .unchanged => s'.current = s.current ∧ s'.granularity = s.granularity
  | .changed =>
    s'.current.length < s.current.length ∧ s'.granularity = max 2 (s.granularity - 1)
  | .exhausted => True

/-- Recording a candidate that is not executed. -/
theorem Searching.reject {s : Search σ} (h : Searching adapter policy w s) {state : σ}
    {attempts : ℕ} (hattempts : (attempts : ℤ) ≤ policy.maxCandidates) (keep : List ℕ)
    (error : Option String) :
    Searching adapter policy w
      (Dradd.reject keep error { s with attempts, adapter := state }) := by
  refine h.append_rejected (h.toLedger.append (n := 0) rfl (.inr ⟨rfl, rfl, rfl, rfl, rfl⟩)
    (fun _ trial htrial => by cases htrial) rfl ?_ rfl) rfl rfl rfl rfl h.executions hattempts rfl
  simp [Dradd.reject, Policy.seeds]

/-- One deletion. -/
theorem tryOffset_spec (hpolicy : policy.check = .ok ()) {s : Search σ}
    (h : Searching adapter policy w s) {width offset : ℕ} (hwidth : 1 ≤ width)
    (hoffset : offset < s.current.length) : ∃ out s',
      tryOffset adapter policy w width offset s = .ok (out, s') ∧ Searching adapter policy w s' ∧
        out ≠ some .unchanged ∧ Progress s s' (out.getD .unchanged) := by
  have htrials := policy.candidateTrials_bounds hpolicy
  unfold tryOffset
  split_ifs with hattempts
  · exact ⟨some .exhausted, s, rfl, h, by simp, trivial⟩
  -- from here on the candidate counts as an attempt, executed or not
  have hroom : ((s.attempts + 1 : ℕ) : ℤ) ≤ policy.maxCandidates := by omega
  dsimp only
  by_cases hinvalid : w.valid (propose policy w width offset s.current) = false
  · rw [if_pos hinvalid]
    exact ⟨none, _, rfl, h.reject hroom _ _, by simp, rfl, rfl⟩
  rw [if_neg hinvalid]
  have hvalid := (Bool.not_eq_false _).mp hinvalid
  generalize hanswer : validateCandidate adapter w (propose policy w width offset s.current)
    s.adapter = answer
  obtain ⟨verdict, state⟩ := answer
  cases verdict with
  | error text => exact ⟨none, _, rfl, h.reject hroom _ _, by simp, rfl, rfl⟩
  | ok _ =>
    dsimp only
    split_ifs with hbudget
    · exact ⟨some .exhausted, _, rfl, { h with attempts := hroom }, by simp, trivial⟩
    -- the candidate is executed, and the confirmation still fits in the budget
    obtain ⟨group, stats, state', hreplay, hexecuted, hphase, hids, hseeds, htyped⟩ :=
      replay_spec adapter policy hvalid .candidate
        policy.candidateTrials.toNat policy.decisionThreshold
        { s with attempts := s.attempts + 1, adapter := state }
    have hn : 1 ≤ policy.candidateTrials.toNat := by omega
    let after : Search σ := { s with
      adapter := state'
      attempts := s.attempts + 1
      groups := s.groups ++ [group]
      executions := s.executions + policy.candidateTrials.toNat
      calls := s.calls ++ (policy.seeds s.executions policy.candidateTrials.toNat).map
        fun seed => (w.project (propose policy w width offset s.current), seed) }
    have hledger : Ledger adapter policy w after :=
      h.toLedger.append rfl (.inl ⟨_, _, stats, hn, hexecuted⟩) htyped rfl
        (by simp [after, Function.comp_def]) hseeds
    have hexecutions : (after.executions : ℤ) + policy.trials ≤ policy.maxExecutions := by
      simp only [after]
      omega
    rw [hreplay]
    cases haccepted : group.accepted with
    | false =>
      refine ⟨none, after, rfl, ?_, by simp, rfl, rfl⟩
      exact h.append_rejected hledger rfl hphase haccepted rfl hexecutions hroom rfl
    | true =>
      have hnarrows : Narrows s.current group.ids := hids ▸ narrows_propose h.valid hwidth hoffset
      have hgranularity : max 2 (s.granularity - 1) ≤ w.size + 1 := by
        have := h.granularity_le
        have := w.size_pos
        omega
      refine ⟨some .changed, { after with
        current := propose policy w width offset s.current
        granularity := max 2 (s.granularity - 1) }, rfl, ?_, by simp, ?_, rfl⟩
      · exact h.append_accepted { hledger with } rfl hphase haccepted hids.symm hexecuted.valid
          hnarrows hexecutions hroom (le_max_left _ _) hgranularity
      · exact hids ▸ hnarrows.length_lt h.valid hexecuted.valid

/-- All deletions of one round. -/
theorem sweep_spec (hpolicy : policy.check = .ok ()) {width : ℕ} (hwidth : 1 ≤ width)
    {offsets : List ℕ} {s : Search σ} (h : Searching adapter policy w s)
    (hoffsets : ∀ offset ∈ offsets, offset < s.current.length) : ∃ out s',
      sweep adapter policy w width offsets s = .ok (out, s') ∧ Searching adapter policy w s' ∧
        Progress s s' out := by
  induction offsets generalizing s with
  | nil => exact ⟨.unchanged, s, rfl, h, rfl, rfl⟩
  | cons offset rest ih =>
    obtain ⟨out, s', hstep, hs', hout, hprogress⟩ :=
      tryOffset_spec hpolicy h hwidth (hoffsets offset List.mem_cons_self)
    cases out with
    | some out =>
      refine ⟨out, s', ?_, hs', hprogress⟩
      simp only [sweep, hstep, bind, Except.bind]
      rfl
    | none =>
      -- the loop goes on from a search with the same index set and granularity
      obtain ⟨hcurrent, hgranularity⟩ := hprogress
      obtain ⟨out, s'', hrest, hs'', hprogress⟩ := ih hs' fun k hk =>
        hcurrent ▸ hoffsets k (List.mem_cons_of_mem offset hk)
      refine ⟨out, s'', ?_, hs'', ?_⟩
      · simp only [sweep, hstep, bind, Except.bind, hrest]
      · cases out with
        | exhausted => trivial
        | _ => exact ⟨hcurrent ▸ hprogress.1, hgranularity ▸ hprogress.2⟩

/-- The rounds that are still possible: a change drops an operation, and a round without a change
refines the deletions. -/
def variant (w : Workload) (s : Search σ) : ℕ :=
  s.current.length * (w.size + 2) + (w.size + 1 - s.granularity)

/-- One round of the `while` loop. -/
theorem round_spec (hpolicy : policy.check = .ok ()) {s : Search σ}
    (h : Searching adapter policy w s) :
    (∃ s', round adapter policy w s = .inl s' ∧ Searching adapter policy w s' ∧
      variant w s' < variant w s) ∨
    ∃ exhausted s', round adapter policy w s = .inr (.ok (exhausted, s')) ∧
      Searching adapter policy w s' := by
  unfold round
  dsimp only
  split_ifs with hone
  · exact .inr ⟨false, s, rfl, h⟩
  have hsize : s.current.length ≤ w.size := by
    simpa using (w.sublist_ids h.valid).length_le
  have htwelve := w.size_le
  have h2 := h.two_le
  have hgranularity := h.granularity_le
  obtain ⟨k, hk, hk1⟩ : ∃ k, width policy s.current.length s.granularity = .ok k ∧ 1 ≤ k :=
    exists_width (by omega) (by omega) h2 (by omega)
  obtain ⟨out, s', hsweep, hs', hprogress⟩ := sweep_spec hpolicy hk1 h
    fun offset (hoffset : offset ∈ offsets s.current.length k) => lt_of_mem_offsets hoffset
  have hbind : (width policy s.current.length s.granularity >>= fun width =>
      sweep adapter policy w width (offsets s.current.length width) s) = .ok (out, s') := by
    rw [hk]
    exact hsweep
  rw [hbind]
  cases out with
  | exhausted => exact .inr ⟨true, s', rfl, hs'⟩
  | changed =>
    obtain ⟨hlt, hgran⟩ := hprogress
    refine .inl ⟨s', rfl, hs', ?_⟩
    -- an operation less outweighs every granularity
    have := Nat.mul_le_mul_right (w.size + 2) (Nat.succ_le_of_lt hlt)
    rw [Nat.succ_mul] at this
    have := hs'.granularity_le
    simp only [variant]
    omega
  | unchanged =>
    obtain ⟨hcurrent, hgran⟩ := hprogress
    dsimp only
    split_ifs with hdone
    · exact .inr ⟨false, s', rfl, hs'⟩
    · simp only [not_or, not_le] at hdone
      refine .inl ⟨_, rfl, { hs' with two_le := ?_, granularity_le := ?_ }, ?_⟩
      · simp only [le_min_iff]
        omega
      · simp only [min_le_iff]
        omega
      · simp only [variant, hcurrent]
        omega

/-- The search ends, without an error. -/
theorem search_spec (hpolicy : policy.check = .ok ()) {s : Search σ}
    (h : Searching adapter policy w s) {fuel : ℕ} (hfuel : (w.size + 1) * (w.size + 2) ≤ fuel) :
    ∃ exhausted s', Loop.run (round adapter policy w) fuel s = some (.ok (exhausted, s')) ∧
      Searching adapter policy w s' := by
  have hvariant : variant w s < fuel := by
    have hlength : s.current.length ≤ w.size := by
      simpa using (w.sublist_ids h.valid).length_le
    have := Nat.mul_le_mul_right (w.size + 2) hlength
    have := h.two_le
    rw [Nat.succ_mul] at hfuel
    simp only [variant]
    omega
  have hcont (t t' : Search σ) (ht : Searching adapter policy w t)
      (hround : round adapter policy w t = .inl t') :
      Searching adapter policy w t' ∧ variant w t' < variant w t := by
    -- `round_spec` says which way the round went, and it went one way
    rcases round_spec hpolicy ht with ⟨u, hu, hinv, hlt⟩ | ⟨exhausted, u, hu, -⟩
    · obtain rfl : u = t' := Sum.inl.inj (hu.symm.trans hround)
      exact ⟨hinv, hlt⟩
    · exact absurd (hu.symm.trans hround) Sum.inr_ne_inl
  have hexit (t : Search σ) (result : Except String (Bool × Search σ))
      (ht : Searching adapter policy w t) (hround : round adapter policy w t = .inr result) :
      ∃ exhausted t', result = .ok (exhausted, t') ∧ Searching adapter policy w t' := by
    rcases round_spec hpolicy ht with ⟨u, hu, -⟩ | ⟨exhausted, u, hu, hinv⟩
    · exact absurd (hu.symm.trans hround) Sum.inl_ne_inr
    · exact ⟨exhausted, u, (Sum.inr.inj (hu.symm.trans hround)).symm, hinv⟩
  obtain ⟨result, hrun, exhausted, s', rfl, hs'⟩ :=
    Loop.run_of_variant (variant w) hcont hexit h hvariant
  exact ⟨exhausted, s', hrun, hs'⟩

end Lab.Dradd
