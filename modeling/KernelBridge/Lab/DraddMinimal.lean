import KernelBridge.Lab.DraddSound
import KernelBridge.Lib.Deletion

/-!
# Local minimality

What a search of the reducer that has not run out of its budgets amounts to: a search by deletion,
whose test is the verdict of the groups it has recorded (`search_refines`). With an adapter whose
answers depend on the candidate only, the verdict is a property of the candidate, and the operations
that such a search ends with are locally minimal (`reduce_minimal`): none of them can be deleted on
its own.
-/

namespace Lab.Dradd

open Py

variable {σ : Type} {adapter : Adapter σ} {policy : Policy} {w : Workload}

/-! ## Verdicts -/

/-- The group is the record of a candidate, which was not valid, was refused by the adapter, or was
executed. -/
inductive Settled (adapter : Adapter σ) (policy : Policy) (w : Workload) (group : Group) : Prop
  | invalid (hvalid : w.valid group.ids = false) (hrejected : group.Rejected)
  | refused (state : σ) (text : String) (hvalid : w.valid group.ids = true)
      (hvalidate : (adapter.validate state (w.project group.ids)).1 = .error text)
      (hrejected : group.Rejected)
  | executed (state : σ) (stats : Summary) (s s' : Search σ) (hphase : group.phase = .candidate)
      (hvalidate : (adapter.validate state (w.project group.ids)).1 = .ok ())
      (hreplay : replay adapter policy w group.ids .candidate policy.candidateTrials.toNat
        policy.decisionThreshold s = .ok ((group.accepted, stats), s'))
      (hexecuted : group.Executed adapter policy w policy.candidateTrials.toNat
        policy.decisionThreshold stats)

/-- The groups of a sweep are candidates. -/
theorem Settled.phase {group : Group} (h : Settled adapter policy w group) :
    group.phase = .candidate := by
  cases h with
  | invalid _ hrejected => exact hrejected.phase
  | refused _ _ _ _ hrejected => exact hrejected.phase
  | executed _ _ _ _ hphase => exact hphase

/-- How the search goes on after the group of a candidate. -/
def Follows (s s' : Search σ) (group : Group) : Option Sweep → Prop
  | none => group.accepted = false ∧ s'.current = s.current ∧ s'.granularity = s.granularity
  | some .changed => group.accepted = true ∧ s'.current = group.ids ∧
      s'.granularity = max 2 (s.granularity - 1)
  | some _ => False

/-- A deletion within the budgets records one candidate, and its verdict says how the search goes
on. -/
theorem tryOffset_inv {width offset : ℕ} {s s' : Search σ} {out : Option Sweep}
    (h : tryOffset adapter policy w width offset s = .ok (out, s')) :
    out = some .exhausted ∨ ∃ group, s'.groups = s.groups ++ [group] ∧
      group.ids = propose policy w width offset s.current ∧ Settled adapter policy w group ∧
      Follows s s' group out := by
  unfold tryOffset at h
  -- the budgets are tested before the candidate is looked at
  split_ifs at h with hattempts
  · cases h
    exact .inl rfl
  dsimp only at h
  by_cases hinvalid : w.valid (propose policy w width offset s.current) = false
  · -- a candidate that is not valid is recorded without a trial
    rw [if_pos hinvalid] at h
    cases h
    exact .inr ⟨_, rfl, rfl, .invalid hinvalid ⟨rfl, rfl, rfl, rfl, rfl⟩, rfl, rfl, rfl⟩
  rw [if_neg hinvalid] at h
  have hvalid := (Bool.not_eq_false _).mp hinvalid
  rw [validateCandidate, w.candidate_eq_ok hvalid] at h
  dsimp only at h
  cases hvalidate : (adapter.validate s.adapter
      (w.project (propose policy w width offset s.current))).1 with
  | error text =>
    -- so is one that the adapter refuses
    rw [hvalidate] at h
    cases h
    exact .inr ⟨_, rfl, rfl, .refused _ text hvalid hvalidate ⟨rfl, rfl, rfl, rfl, rfl⟩, rfl, rfl,
      rfl⟩
  | ok _ =>
    rw [hvalidate] at h
    dsimp only at h
    split_ifs at h with hbudget
    · cases h
      exact .inl rfl
    -- the candidate is executed, and its group decides
    obtain ⟨before, hbefore⟩ : ∃ before : Search σ, before =
        { s with
          attempts := s.attempts + 1
          adapter := (adapter.validate s.adapter
            (w.project (propose policy w width offset s.current))).2 } := ⟨_, rfl⟩
    obtain ⟨group, stats, state, hreplay, hexecuted, hphase, hids, -, -⟩ :=
      replay_spec adapter policy hvalid .candidate policy.candidateTrials.toNat
        policy.decisionThreshold before
    rw [← hbefore, hreplay] at h
    have hsettled : Settled adapter policy w group :=
      .executed _ stats before _ hphase (hids ▸ hvalidate) (hids ▸ hreplay) hexecuted
    subst hbefore
    cases haccepted : group.accepted with
    | false =>
      rw [haccepted] at h
      cases h
      exact .inr ⟨group, rfl, hids, hsettled, haccepted, rfl, rfl⟩
    | true =>
      rw [haccepted] at h
      cases h
      exact .inr ⟨group, rfl, hids, hsettled, haccepted, hids.symm, rfl⟩

/-! ## The search by deletion -/

/-- The candidates recorded, in order. -/
def candidateIds (groups : List Group) : List (List ℕ) :=
  (groups.filter fun group => group.phase = .candidate).map Group.ids

/-- What a search by deletion keeps of the search. -/
def Search.abstract (s : Search σ) : Deletion.Search ℕ where
  current := s.current
  granularity := s.granularity
  tried := candidateIds s.groups

/-- The strategy as a way to search by deletion, with a test. -/
def method (policy : Policy) (w : Workload) (accepts : List ℕ → Bool) : Deletion.Method ℕ where
  single := decide (policy.strategy = .single)
  propose := propose policy w
  accepts

/-- The verdicts on the candidates are those of the test. -/
def Agrees (accepts : List ℕ → Bool) (groups : List Group) : Prop :=
  ∀ group ∈ groups, group.phase = .candidate → group.accepted = accepts group.ids

/-- Groups agree with a predicate one by one. -/
theorem agrees_append {accepts : List ℕ → Bool} {groups new : List Group} :
    Agrees accepts (groups ++ new) ↔ Agrees accepts groups ∧ Agrees accepts new :=
  List.forall_mem_append

/-- The candidates of more groups of a sweep are appended. -/
theorem candidateIds_append {groups new : List Group}
    (hnew : ∀ group ∈ new, Settled adapter policy w group) :
    candidateIds (groups ++ new) = candidateIds groups ++ new.map Group.ids := by
  have hall : (new.filter fun group => group.phase = .candidate) = new :=
    List.filter_eq_self.mpr fun group hgroup => decide_eq_true (hnew group hgroup).phase
  rw [candidateIds, List.filter_append, hall, List.map_append, candidateIds]

/-- How a round ends, and with what candidate. -/
def Ends (s s' : Search σ) : Sweep → Option (List ℕ) → Prop
  | .unchanged, none => s'.current = s.current ∧ s'.granularity = s.granularity
  | .changed, some keep => s'.current = keep ∧ s'.granularity = max 2 (s.granularity - 1)
  | _, _ => False

/-- A sweep can be seen from any state with the same candidate and granularity. -/
theorem Ends.of_same {s t s' : Search σ} {out : Sweep} {found : Option (List ℕ)}
    (h : Ends t s' out found) (hcurrent : t.current = s.current)
    (hgranularity : t.granularity = s.granularity) : Ends s s' out found := by
  unfold Ends at h ⊢
  rwa [hcurrent, hgranularity] at h

/-- The loop over the deletions is a sweep over their candidates. -/
theorem sweep_inv {width : ℕ} {offsets : List ℕ} {s s' : Search σ} {out : Sweep}
    (h : sweep adapter policy w width offsets s = .ok (out, s')) :
    out = .exhausted ∨ ∃ groups found, s'.groups = s.groups ++ groups ∧
      (∀ group ∈ groups, Settled adapter policy w group) ∧ Ends s s' out found ∧
      ∀ accepts, Agrees accepts groups →
        Deletion.sweep accepts (offsets.map fun offset => propose policy w width offset s.current) =
          (groups.map Group.ids, found) := by
  induction offsets generalizing s with
  | nil =>
    cases h
    exact .inr ⟨[], none, by simp, by simp, ⟨rfl, rfl⟩, fun _ _ => rfl⟩
  | cons offset rest ih =>
    obtain ⟨⟨next, s₁⟩, hstep, h⟩ := bind_eq_ok_iff.mp h
    cases next with
    | some out' =>
      -- the loop is left behind this candidate
      cases h
      rcases tryOffset_inv hstep with hout | ⟨group, hgroups, hids, hsettled, hfollows⟩
      · exact .inl (Option.some.inj hout)
      cases out with
      | changed =>
        obtain ⟨haccepted, hcurrent, hgranularity⟩ := hfollows
        refine .inr ⟨[group], some group.ids, hgroups, ?_, ⟨hcurrent, hgranularity⟩, ?_⟩
        · rintro g hg
          rwa [List.mem_singleton.mp hg]
        · intro accepts hagrees
          have haccepts : accepts group.ids = true :=
            (hagrees group List.mem_cons_self hsettled.phase).symm.trans haccepted
          rw [List.map_cons, ← hids, Deletion.sweep_cons_of_accepted haccepts]
          rfl
      | unchanged => exact hfollows.elim
      | exhausted => exact hfollows.elim
    | none =>
      rcases tryOffset_inv hstep with hout | ⟨group, hgroups, hids, hsettled, hfollows⟩
      · cases hout
      obtain ⟨haccepted, hcurrent, hgranularity⟩ := hfollows
      -- the loop goes on with the same index set
      rcases ih h with hout | ⟨groups, found, hgroups', hsettled', hends, hsweep⟩
      · exact .inl hout
      refine .inr ⟨group :: groups, found, ?_, ?_, ?_, ?_⟩
      · rw [hgroups', hgroups, List.append_assoc, List.singleton_append]
      · rintro g (_ | ⟨_, hg⟩)
        · exact hsettled
        · exact hsettled' g hg
      · exact hends.of_same hcurrent hgranularity
      · intro accepts hagrees
        have hrejects : accepts group.ids = false :=
          (hagrees group List.mem_cons_self hsettled.phase).symm.trans haccepted
        have hrest := hsweep accepts fun g hg => hagrees g (List.mem_cons_of_mem group hg)
        rw [hcurrent] at hrest
        rw [List.map_cons, ← hids, Deletion.sweep_cons_of_not_accepted hrejects, hrest]
        rfl

/-- The number of operations deleted at once, without floats. -/
theorem width_eq (accepts : List ℕ → Bool) {size granularity : ℕ} (hsize : size ≤ 12)
    (h2 : 2 ≤ granularity) (hgranularity : granularity ≤ 13) :
    width policy size granularity = .ok ((method policy w accepts).width size granularity) := by
  unfold width Deletion.Method.width
  by_cases hsingle : policy.strategy = .single
  · simp [method, hsingle]
  · rw [if_neg hsingle, if_neg (by simp [method, hsingle])]
    obtain ⟨quotient, hquotient, hceil⟩ :=
      bind_eq_ok_iff.mp (ceil_trueDiv hsize h2 hgranularity)
    rw [hquotient]
    simp only [bind, Except.bind, hceil]
    rfl

/-- The deletions of a round. Unless a budget ends them, they are those of the search by
deletion. -/
theorem sweep_round (hpolicy : policy.check = .ok ()) {s : Search σ}
    (h : Searching adapter policy w s) (hone : ¬s.current.length ≤ 1) : ∃ out s',
      (width policy s.current.length s.granularity >>= fun width =>
        sweep adapter policy w width (offsets s.current.length width) s) = .ok (out, s') ∧
      (out = .exhausted ∨ ∃ groups found, s'.groups = s.groups ++ groups ∧
        (∀ group ∈ groups, Settled adapter policy w group) ∧ Ends s s' out found ∧
        s'.abstract.tried = s.abstract.tried ++ groups.map Group.ids ∧
        ∀ accepts, Agrees accepts groups →
          Deletion.sweep (method policy w accepts).accepts
            ((method policy w accepts).candidates s.abstract) = (groups.map Group.ids, found)) := by
  have hsize : s.current.length ≤ w.size := by
    simpa using (w.sublist_ids h.valid).length_le
  have htwelve := w.size_le
  have hgranularity := h.granularity_le
  -- the quotient of floats is rounded up like that of integers
  have hwidth (accepts : List ℕ → Bool) : width policy s.current.length s.granularity =
      .ok ((method policy w accepts).width s.current.length s.granularity) :=
    width_eq accepts (by omega) h.two_le (by omega)
  obtain ⟨k, hk, hk1⟩ : ∃ k, width policy s.current.length s.granularity = .ok k ∧ 1 ≤ k :=
    exists_width (by omega) (by omega) h.two_le (by omega)
  have hcandidates (accepts : List ℕ → Bool) : (method policy w accepts).candidates s.abstract =
      (offsets s.current.length k).map fun offset => propose policy w k offset s.current := by
    rw [Except.ok.inj (hk.symm.trans (hwidth accepts))]
    rfl
  obtain ⟨out, s', hsweep, -, -⟩ := sweep_spec hpolicy hk1 h
    fun offset (hoffset : offset ∈ offsets s.current.length k) => lt_of_mem_offsets hoffset
  refine ⟨out, s', by rw [hk]; exact hsweep, ?_⟩
  rcases sweep_inv hsweep with hout | ⟨groups, found, hgroups, hsettled, hends, habstract⟩
  · exact .inl hout
  refine .inr ⟨groups, found, hgroups, hsettled, hends, ?_, fun accepts hagrees => ?_⟩
  · rw [Search.abstract, hgroups]
    exact candidateIds_append hsettled
  · rw [hcandidates]
    exact habstract accepts hagrees

/-- What a round that no budget ends does: it is one of the search by deletion. -/
theorem round_refines (hpolicy : policy.check = .ok ()) {s : Search σ}
    (h : Searching adapter policy w s) :
    (∃ s', round adapter policy w s = .inr (.ok (true, s'))) ∨
    ∃ groups s', s'.groups = s.groups ++ groups ∧
      (∀ group ∈ groups, Settled adapter policy w group) ∧
      (round adapter policy w s = .inl s' ∧ (∀ accepts, Agrees accepts groups →
          (method policy w accepts).round s.abstract = .inl s'.abstract) ∨
        round adapter policy w s = .inr (.ok (false, s')) ∧ ∀ accepts, Agrees accepts groups →
          (method policy w accepts).round s.abstract = .inr s'.abstract) := by
  unfold round
  dsimp only
  by_cases hone : s.current.length ≤ 1
  · rw [if_pos hone]
    refine .inr ⟨[], s, by simp, by simp, .inr ⟨rfl, fun accepts _ => ?_⟩⟩
    exact Deletion.Method.round_of_single hone
  rw [if_neg hone]
  obtain ⟨out, s', hsweep, hcases⟩ := sweep_round hpolicy h hone
  rw [hsweep]
  rcases hcases with rfl | ⟨groups, found, hgroups, hsettled, hends, htried, hround⟩
  · exact .inl ⟨s', rfl⟩
  refine .inr ⟨groups, ?_⟩
  cases out with
  | exhausted => cases found <;> exact hends.elim
  | changed =>
    cases found with
    | none => exact hends.elim
    | some keep =>
      obtain ⟨hcurrent, hgranularity⟩ := hends
      refine ⟨s', hgroups, hsettled, .inl ⟨rfl, fun accepts hagrees => ?_⟩⟩
      have hfound := hround accepts hagrees
      rw [← hcurrent] at hfound
      exact Deletion.Method.round_eq_of_found hone hfound hgranularity htried
  | unchanged =>
    cases found with
    | some keep => exact hends.elim
    | none =>
      obtain ⟨hcurrent, hgranularity⟩ := hends
      dsimp only
      by_cases hfinest : policy.strategy = .single ∨ s.current.length ≤ s'.granularity
      · rw [if_pos hfinest]
        refine ⟨s', hgroups, hsettled, .inr ⟨rfl, fun accepts hagrees => ?_⟩⟩
        have hfinest' : (method policy w accepts).finest s.abstract :=
          hfinest.imp decide_eq_true fun hle => hle.trans_eq hgranularity
        exact Deletion.Method.round_eq_of_finest hone (hround accepts hagrees) hfinest' hcurrent
          hgranularity htried
      · rw [if_neg hfinest]
        refine ⟨{ s' with granularity := min s.current.length (s'.granularity * 2) }, hgroups,
          hsettled, .inl ⟨rfl, fun accepts hagrees => ?_⟩⟩
        have hcoarse : ¬(method policy w accepts).finest s.abstract := fun hyes =>
          hfinest (hyes.imp of_decide_eq_true fun hle => hle.trans_eq hgranularity.symm)
        have hmin : min s.current.length (s'.granularity * 2) =
            min s.current.length (s.granularity * 2) := by rw [hgranularity]
        exact Deletion.Method.round_eq_of_coarse hone (hround accepts hagrees) hcoarse hcurrent
          hmin htried

/-- The search, with the reasons for its verdicts. -/
structure Explained (adapter : Adapter σ) (policy : Policy) (w : Workload) (first : Group)
    (s : Search σ) : Prop extends Searching adapter policy w s where
  head : s.groups.head? = some first
  settled : ∀ group ∈ s.groups, group.phase = .candidate → Settled adapter policy w group

/-- More groups of the same search leave it explained. -/
theorem Explained.append {first : Group} {s s' : Search σ}
    (h : Explained adapter policy w first s)
    (hs' : Searching adapter policy w s') {groups : List Group}
    (hgroups : s'.groups = s.groups ++ groups)
    (hsettled : ∀ group ∈ groups, Settled adapter policy w group) :
    Explained adapter policy w first s' := by
  refine { hs' with head := ?_, settled := fun group hgroup hphase => ?_ }
  · rw [hgroups, List.head?_append, h.head, Option.some_or]
  · rw [hgroups, List.mem_append] at hgroup
    exact hgroup.elim (fun hold => h.settled group hold hphase) (hsettled group)

/-- A round that continues, in the search by deletion. -/
theorem Explained.round_continue (hpolicy : policy.check = .ok ()) {first : Group}
    {s s' : Search σ} (h : Explained adapter policy w first s)
    (hround : round adapter policy w s = .inl s') :
    Explained adapter policy w first s' ∧ ∀ accepts, Agrees accepts s'.groups →
      Agrees accepts s.groups ∧
        (method policy w accepts).round s.abstract = .inl s'.abstract := by
  rcases round_spec hpolicy h.toSearching with ⟨t, ht, hsearching, -⟩ | ⟨_, t, ht, -⟩
  · obtain rfl : t = s' := Sum.inl.inj (ht.symm.trans hround)
    rcases round_refines hpolicy h.toSearching with
      ⟨u, hu⟩ | ⟨groups, u, hgroups, hsettled, ⟨hu, hrefines⟩ | ⟨hu, -⟩⟩
    · exact absurd (hround.symm.trans hu) Sum.inl_ne_inr
    · obtain rfl : u = t := Sum.inl.inj (hu.symm.trans hround)
      refine ⟨h.append hsearching hgroups hsettled, fun accepts hagrees => ?_⟩
      rw [hgroups, agrees_append] at hagrees
      exact ⟨hagrees.1, hrefines accepts hagrees.2⟩
    · exact absurd (hround.symm.trans hu) Sum.inl_ne_inr
  · exact absurd (hround.symm.trans ht) Sum.inl_ne_inr

/-- The last round of a search that no budget ends. -/
theorem Explained.round_exit (hpolicy : policy.check = .ok ()) {first : Group} {s s' : Search σ}
    (h : Explained adapter policy w first s)
    (hround : round adapter policy w s = .inr (.ok (false, s'))) :
    Explained adapter policy w first s' ∧ ∀ accepts, Agrees accepts s'.groups →
      Agrees accepts s.groups ∧
        (method policy w accepts).round s.abstract = .inr s'.abstract := by
  rcases round_spec hpolicy h.toSearching with ⟨t, ht, -⟩ | ⟨exhausted, t, ht, hsearching⟩
  · exact absurd (ht.symm.trans hround) Sum.inl_ne_inr
  · obtain ⟨rfl, rfl⟩ : exhausted = false ∧ t = s' := by
      simpa using ht.symm.trans hround
    rcases round_refines hpolicy h.toSearching with
      ⟨u, hu⟩ | ⟨groups, u, hgroups, hsettled, ⟨hu, -⟩ | ⟨hu, hrefines⟩⟩
    · simpa using hround.symm.trans hu
    · exact absurd (hu.symm.trans hround) Sum.inl_ne_inr
    · obtain rfl : u = t := by
        simpa using hu.symm.trans hround
      refine ⟨h.append hsearching hgroups hsettled, fun accepts hagrees => ?_⟩
      rw [hgroups, agrees_append] at hagrees
      exact ⟨hagrees.1, hrefines accepts hagrees.2⟩

/-- A search that no budget ends is a search by deletion, whose test gives the verdicts of the
groups that were recorded. -/
theorem search_refines (hpolicy : policy.check = .ok ()) {fuel : ℕ} {first : Group}
    {s s' : Search σ} (h : Explained adapter policy w first s)
    (hrun : Loop.run (round adapter policy w) fuel s = some (.ok (false, s'))) :
    Explained adapter policy w first s' ∧ ∀ accepts, Agrees accepts s'.groups →
      Loop.run (method policy w accepts).round fuel s.abstract = some s'.abstract := by
  -- for any test, while the groups recorded so far agree with it
  have hloop (accepts : List ℕ → Bool) := Loop.run_refines (a := Search.abstract)
    (e := fun t => (.ok (false, t) : Except String (Bool × Search σ)))
    (I := Explained adapter policy w first) (K := fun t => Agrees accepts t.groups)
    (fun _ _ ht hround =>
      ⟨(ht.round_continue hpolicy hround).1, (ht.round_continue hpolicy hround).2 accepts⟩)
    (fun _ _ ht hround =>
      ⟨(ht.round_exit hpolicy hround).1, (ht.round_exit hpolicy hround).2 accepts⟩) h hrun
  exact ⟨(hloop fun _ => false).1, fun accepts hagrees => ((hloop accepts).2 hagrees).2⟩

/-! ## Deterministic targets -/

/-- What the adapter answers depends on the candidate only. -/
structure Adapter.Deterministic (adapter : Adapter σ) : Prop where
  validate : ∀ state state' candidate,
    (adapter.validate state candidate).1 = (adapter.validate state' candidate).1
  execute : ∀ state state' candidate seed seed',
    (adapter.execute state candidate seed).1 = (adapter.execute state' candidate seed').1

/-- A summary depends on the classes of the trials only. -/
theorem trialSummary_congr {trials trials' : List Json} {signature : String}
    (h : trials.map (classify signature) = trials'.map (classify signature)) :
    trialSummary trials signature = trialSummary trials' signature := by
  have hcount (key : Class) : count signature key trials = count signature key trials' := by
    have hkey := congrArg (List.countP fun c => decide (c = key)) h
    rw [List.countP_map, List.countP_map] at hkey
    exact hkey
  have hlength : trials.length = trials'.length := by
    simpa using congrArg List.length h
  simp only [trialSummary, hcount, hlength]

/-- The seed recorded with a trial does not matter for its class. -/
theorem classify_set_seed (signature : String) (seed : Json) (answer : Except Exc Json) :
    classify signature (Json.set "trial_seed" seed (resultOf answer)) =
      classify signature (resultOf answer) := by
  obtain ⟨entries, hentries, -⟩ := exists_resultOf answer
  rw [hentries, Json.set, classify, classify]
  simp [Json.get?]

variable (policy) in
/-- All trials of a candidate are in one class. -/
theorem Adapter.Deterministic.classes (h : adapter.Deterministic) (candidate : Json) (n : ℕ)
    (s s₀ : Search σ) : (runTrials adapter policy candidate n s).1.map (classify adapter.signature) =
      List.replicate n (classify adapter.signature
        (resultOf (adapter.execute s₀.adapter candidate 0).1)) := by
  induction n generalizing s with
  | zero => rfl
  | succ n ih =>
    rw [runTrials, List.map_cons, ih, trial, List.replicate_succ, classify_set_seed,
      h.execute _ s₀.adapter candidate _ 0]

/-- The verdict on a candidate is the same at any point of the search. -/
theorem Adapter.Deterministic.replay_eq (h : adapter.Deterministic) {keep : List ℕ}
    {phase : Phase} {n : ℕ} {rate : Py.Float} {s s' t : Search σ} {ok : Bool} {stats : Summary}
    (hreplay : replay adapter policy w keep phase n rate s = .ok ((ok, stats), s')) :
    ∃ t', replay adapter policy w keep phase n rate t = .ok ((ok, stats), t') := by
  unfold replay at hreplay
  obtain ⟨candidate, hcandidate, hreplay⟩ := bind_eq_ok_iff.mp hreplay
  obtain ⟨stats', hstats, hreplay⟩ := bind_eq_ok_iff.mp hreplay
  cases hreplay
  have hsummary := trialSummary_congr ((h.classes policy candidate n t t).trans
    (h.classes policy candidate n s t).symm)
  rw [replay, hcandidate]
  simp only [bind, Except.bind, hsummary, hstats]
  exact ⟨_, rfl⟩

/-- The candidate is accepted, at any point of the search. -/
def Passes (adapter : Adapter σ) (policy : Policy) (w : Workload) (keep : List ℕ) : Prop :=
  w.valid keep = true ∧ (∀ state, (adapter.validate state (w.project keep)).1 = .ok ()) ∧
    ∀ s, ∃ stats s', replay adapter policy w keep .candidate policy.candidateTrials.toNat
      policy.decisionThreshold s = .ok ((true, stats), s')

open scoped Classical in
/-- The recorded verdicts are those of the candidates. -/
theorem Adapter.Deterministic.agrees (h : adapter.Deterministic) {groups : List Group}
    (hsettled : ∀ group ∈ groups, group.phase = .candidate → Settled adapter policy w group) :
    Agrees (fun keep => decide (Passes adapter policy w keep)) groups := by
  intro group hgroup hphase
  rw [Bool.eq_iff_iff, decide_eq_true_eq]
  cases hsettled group hgroup hphase with
  | invalid hvalid hrejected =>
    rw [hrejected.accepted]
    exact ⟨fun hno => absurd hno (by decide), fun hpasses => by simp [hvalid, Passes] at hpasses⟩
  | refused state text hvalid hvalidate hrejected =>
    rw [hrejected.accepted]
    refine ⟨fun hno => absurd hno (by decide), fun hpasses => ?_⟩
    rw [hpasses.2.1 state] at hvalidate
    cases hvalidate
  | executed state stats s s' _ hvalidate hreplay hexecuted =>
    constructor
    · intro haccepted
      rw [haccepted] at hreplay
      refine ⟨hexecuted.valid, fun state' => ?_, fun t => ⟨stats, h.replay_eq hreplay⟩⟩
      rw [h.validate state' state, hvalidate]
    · rintro ⟨-, -, hall⟩
      obtain ⟨stats', t, ht⟩ := hall s
      exact congrArg (fun verdict => verdict.1.1) (Except.ok.inj (hreplay.symm.trans ht))

/-- A candidate that does not pass is not valid, refused by the adapter, or not accepted. -/
theorem Adapter.Deterministic.not_passes (h : adapter.Deterministic) {keep : List ℕ}
    (hnot : ¬Passes adapter policy w keep) : w.valid keep = false ∨
      (∃ text, ∀ state, (adapter.validate state (w.project keep)).1 = .error text) ∨
      ∀ s, ∃ stats s', replay adapter policy w keep .candidate policy.candidateTrials.toNat
        policy.decisionThreshold s = .ok ((false, stats), s') := by
  cases hvalid : w.valid keep with
  | false => exact .inl rfl
  | true =>
    refine .inr (or_iff_not_imp_left.mpr fun hvalidate s => ?_)
    obtain ⟨group, stats, state, hreplay, -⟩ := replay_spec adapter policy hvalid .candidate
      policy.candidateTrials.toNat policy.decisionThreshold s
    cases haccepted : group.accepted with
    | false => exact ⟨stats, _, haccepted ▸ hreplay⟩
    | true =>
      rw [haccepted] at hreplay
      refine absurd ⟨hvalid, fun state => ?_, fun t => ⟨stats, h.replay_eq hreplay⟩⟩ hnot
      cases hanswer : (adapter.validate state (w.project keep)).1 with
      | ok _ => rfl
      | error text =>
        exact absurd ⟨text, fun state' => (h.validate state' state _).trans hanswer⟩ hvalidate

/-! ## The register

`RegisterAdapter` of `lab/research_targets.py`, a target that answers the same to the same candidate,
and a workload for it: `put`, `noop`, `delete` and `get` on one worker, where `get` requires `put`.
-/

/-- The variables of `RegisterAdapter.execute`: the register as it should be and as the faulty
target has it. -/
structure Register where
  expected : Json
  actual : Json
  mismatch : Bool
  history : List Json

/-- The loop body of `RegisterAdapter.execute`. Its `delete` leaves the actual value alone. -/
def Register.apply (r : Register) (op : Json) : Register :=
  let name := (op.get? "op").getD .null
  let r :=
    if name.eq (.str "put") then { r with expected := .int 1, actual := .int 1 }
    else if name.eq (.str "delete") then { r with expected := .null }
    else if name.eq (.str "get") then { r with mismatch := r.mismatch || !r.expected.eq r.actual }
    else r
  { r with
    history := r.history ++
      [.dict [("operation", op), ("expected", r.expected), ("actual", r.actual)]] }

/-- `RegisterAdapter`. -/
def registerAdapter : Adapter Unit where
  signature := "REGISTER:STALE_AFTER_DELETE"
  validate _ workload :=
    (if (ownersOf workload).any (fun owner => !owner.eq (.int 0)) then
        .error "register adapter supports one active worker only"
      else if (operationsOf workload).any (fun op =>
          !(["put", "delete", "get", "noop"].any fun name => op.eq (.dict [("op", .str name)]))) then
        .error "invalid register operation"
      else .ok (), ())
  execute _ workload _ :=
    let r := (operationsOf workload).foldl Register.apply ⟨.null, .null, false, []⟩
    (.ok (.dict [("status", .str (if r.mismatch then "fail" else "pass")),
      ("signature", if r.mismatch then .str "REGISTER:STALE_AFTER_DELETE" else .null),
      ("history", .list r.history), ("operations_executed", .int r.history.length)]), ())

/-- The adapter of the register answers by the operations alone. -/
theorem deterministic_registerAdapter : registerAdapter.Deterministic :=
  ⟨fun _ _ _ => rfl, fun _ _ _ _ _ => rfl⟩

/-- The entries of the scenario. -/
def paddedSource : List (String × Json) :=
  [("workers", .int 1), ("worker_ids", .list [.int 0, .int 0, .int 0, .int 0]),
    ("operations", .list [.dict [("op", .str "put")], .dict [("op", .str "noop")],
      .dict [("op", .str "delete")], .dict [("op", .str "get")]]),
    ("dependencies", .list [.dict [("operation", .int 3), ("requires", .int 0),
      ("kind", .str "CONTRACT_REQUIRED")]])]

/-- The workload with these entries. -/
def paddedWorkload : Workload where
  source := paddedSource
  operations := [.dict [("op", .str "put")], .dict [("op", .str "noop")],
    .dict [("op", .str "delete")], .dict [("op", .str "get")]]
  owners := [0, 0, 0, 0]
  edges := [⟨[("operation", .int 3), ("requires", .int 0), ("kind", .str "CONTRACT_REQUIRED")], 3, 0,
    .contractRequired⟩]
  operations_eq := rfl
  edges_eq := rfl
  ordered := by decide +kernel

/-- A policy with one trial for each candidate. -/
def paddedPolicy : Policy where
  strategy := .dradd
  trials := 1
  maxExecutions := 40
  maxCandidates := 40
  threshold := .ofRat (1 / 2)
  lowerBound := none
  seed := 42

/-- The run has reported a finished search whose first group was accepted. -/
def Finished (run : Except String (Option (Report × σ))) : Prop :=
  ∃ report after, run = .ok (some (report, after)) ∧
    (∃ first, report.groups.head? = some first ∧ first.accepted = true) ∧ report.exhausted = false

/-- Whether a run has finished can be read off its report. -/
theorem finished_iff {run : Except String (Option (Report × σ))} : Finished run ↔
    (run.toOption.join.any fun p =>
      p.1.groups.head?.any Group.accepted && !p.1.exhausted) = true := by
  rcases run with text | _ | ⟨report, after⟩ <;>
    simp [Finished, Except.toOption, Option.any_eq_true]

/-- The search on the register comes to its end. -/
theorem finished_register :
    Finished (reduce registerAdapter paddedPolicy 40 (.dict paddedSource) ()) :=
  finished_iff.mpr (by decide +kernel)

/-! ## Minimality -/

/-- What is left when the strategy deletes one operation. -/
def without (policy : Policy) (w : Workload) (i : ℕ) (keep : List ℕ) : List ℕ :=
  if policy.strategy.guided then w.prune (keep.erase i) else keep.erase i

/-- With width one, the candidate at an index is what is left without it. -/
theorem propose_idxOf {i : ℕ} {keep : List ℕ} :
    propose policy w 1 (keep.idxOf i) keep = without policy w i keep := by
  rw [propose, without, List.erase_eq_eraseIdx_of_idxOf rfl, List.eraseIdx_eq_take_drop_succ]

/-- Nothing is left of a single operation. -/
theorem valid_without_of_length_le {i : ℕ} {keep : List ℕ} (hkeep : keep.length ≤ 1)
    (hi : i ∈ keep) : w.valid (without policy w i keep) = false := by
  obtain ⟨j, rfl⟩ := List.length_eq_one_iff.mp
    (le_antisymm hkeep (List.length_pos_of_mem hi))
  obtain rfl := List.mem_singleton.mp hi
  have hnil : without policy w i [i] = [] := by
    rw [without, List.erase_cons_head]
    split_ifs
    · exact List.eq_nil_of_subset_nil (w.prune_spec []).2.1
    · rfl
  rw [hnil]
  rfl

/-- What the report takes over from the search. -/
theorem report_ok {exhausted confirmed : Bool} {final : Summary} {s : Search σ} {rep : Report}
    (hvalid : w.valid s.current = true)
    (h : report adapter policy w exhausted confirmed final s = .ok rep) :
    rep.exhausted = exhausted ∧ rep.groups = s.groups ∧ rep.reduced = w.project s.current := by
  unfold report at h
  obtain ⟨reduced, hreduced, h⟩ := bind_eq_ok_iff.mp h
  obtain ⟨operations, -, h⟩ := bind_eq_ok_iff.mp h
  obtain ⟨transitions, -, h⟩ := bind_eq_ok_iff.mp h
  obtain rfl := Except.ok.inj ((w.candidate_eq_ok hvalid).symm.trans hreduced)
  cases h
  exact ⟨rfl, rfl, rfl⟩

/-- A run of rounds keeps the search within its bounds. -/
theorem searching_of_run (hpolicy : policy.check = .ok ()) {fuel : ℕ} {s s' : Search σ}
    {exhausted : Bool} (h : Searching adapter policy w s)
    (hrun : Loop.run (round adapter policy w) fuel s = some (.ok (exhausted, s'))) :
    Searching adapter policy w s' := by
  refine Loop.run_invariant (I := Searching adapter policy w)
    (Q := fun result => ∀ out t, result = .ok (out, t) → Searching adapter policy w t)
    ?_ ?_ h hrun exhausted s' rfl
  · intro t t' ht hround
    rcases round_spec hpolicy ht with ⟨u, hu, hinv, -⟩ | ⟨_, u, hu, -⟩
    · exact Sum.inl.inj (hu.symm.trans hround) ▸ hinv
    · exact absurd (hu.symm.trans hround) Sum.inr_ne_inl
  · rintro t result ht hround out t' rfl
    rcases round_spec hpolicy ht with ⟨u, hu, -⟩ | ⟨out', u, hu, hinv⟩
    · exact absurd (hu.symm.trans hround) Sum.inl_ne_inr
    · obtain ⟨-, rfl⟩ := Prod.mk.inj (Except.ok.inj (Sum.inr.inj (hu.symm.trans hround)))
      exact hinv

/-- What the report of a run whose first group was accepted shows of its search. -/
structure Searched (adapter : Adapter σ) (policy : Policy) (w : Workload) (fuel : ℕ) (first : Group)
    (rep : Report) (s s' : Search σ) (last : Group) : Prop where
  start : Explained adapter policy w first s
  abstract : s.abstract = ⟨w.ids, 2, []⟩
  run : Loop.run (round adapter policy w) fuel s = some (.ok (rep.exhausted, s'))
  searching : Searching adapter policy w s'
  executed : ∃ stats, last.Executed adapter policy w policy.trials.toNat policy.threshold stats
  phase : last.phase = .confirmation
  ids : last.ids = s'.current
  report_groups : rep.groups = s'.groups ++ [last]
  reduced : rep.reduced = w.project s'.current

/-- What a run that reports has done: it stops at the first group, or searches and confirms. -/
theorem reduce_inv {source : Json} {state after : σ} {fuel : ℕ} {rep : Report}
    (hnew : Workload.new source = .ok w)
    (hreduce : reduce adapter policy fuel source state = .ok (some (rep, after))) :
    policy.check = .ok () ∧ ∃ first stats, first.phase = .initial ∧ first.ids = w.ids ∧
      first.Executed adapter policy w policy.trials.toNat policy.threshold stats ∧
      (first.accepted = false ∧ rep.groups = [first] ∧ rep.reduced = w.project w.ids ∨
        first.accepted = true ∧ ∃ s s' last, Searched adapter policy w fuel first rep s s' last) := by
  unfold reduce at hreduce
  obtain ⟨⟨w', state'⟩, haccept, hreduce⟩ := bind_eq_ok_iff.mp hreduce
  obtain ⟨hnew', hpolicy⟩ := accept_ok haccept
  obtain rfl : w = w' := Except.ok.inj (hnew.symm.trans hnew')
  obtain ⟨⟨initial, s⟩, hinitial, hreduce⟩ := bind_eq_ok_iff.mp hreduce
  obtain ⟨first, stats, _, hreplay, hexecuted, hphase, hids, -⟩ :=
    replay_spec adapter policy w.valid_ids .initial policy.trials.toNat policy.threshold
      (Search.start w state')
  obtain ⟨first', stats', s', hreplay', -, hsearching, -⟩ :=
    @initial_spec σ adapter policy w hpolicy state'
  obtain ⟨rfl, hs⟩ := Prod.mk.inj (Except.ok.inj (hreplay.symm.trans hinitial))
  obtain ⟨hverdict, hsame⟩ := Prod.mk.inj (Except.ok.inj (hreplay'.symm.trans hinitial))
  refine ⟨hpolicy, first, stats, hphase, hids, hexecuted, ?_⟩
  -- the search behind the initial group
  have hgroups : s.groups = [first] := by
    rw [← hs]
    rfl
  have habstract : s.abstract = ⟨w.ids, 2, []⟩ := by
    rw [← hs]
    simp [Search.abstract, candidateIds, Search.start, hphase]
  dsimp only at hreduce
  cases haccepted : first.accepted with
  | false =>
    rw [haccepted, if_neg (by decide)] at hreduce
    obtain ⟨rep', hreport, hreduce⟩ := bind_eq_ok_iff.mp hreduce
    cases hreduce
    have hcurrent : s.current = w.ids := congrArg Deletion.Search.current habstract
    obtain ⟨-, hrep, hreduced⟩ := report_ok (hcurrent ▸ w.valid_ids) hreport
    exact .inl ⟨rfl, hrep.trans hgroups, hcurrent ▸ hreduced⟩
  | true =>
    rw [haccepted, if_pos rfl] at hreduce
    have hstart : Searching adapter policy w s :=
      hsame ▸ hsearching ((congrArg Prod.fst hverdict).trans haccepted)
    split at hreduce
    · cases hreduce
    next result hrun =>
      -- the search has ended, the candidate was confirmed, and the report was made
      obtain ⟨⟨exhausted, s'⟩, rfl, hrest⟩ := bind_eq_ok_iff.mp hreduce
      have hs' : Searching adapter policy w s' := searching_of_run hpolicy hstart hrun
      obtain ⟨⟨final, s''⟩, hconfirm, hrest⟩ := bind_eq_ok_iff.mp hrest
      obtain ⟨rep', hreport, hrest⟩ := bind_eq_ok_iff.mp hrest
      cases hrest
      obtain ⟨last, stats', _, hlast, hexecuted', hphase', hids', -⟩ :=
        replay_spec adapter policy hs'.valid .confirmation policy.trials.toNat policy.threshold s'
      obtain ⟨rfl, rfl⟩ := Prod.mk.inj (Except.ok.inj (hlast.symm.trans hconfirm))
      obtain ⟨hexhausted, hrep, hreduced⟩ := report_ok (by exact hs'.valid) hreport
      refine .inr ⟨rfl, s, s', last, ?_⟩
      exact
        { start := { hstart with
            head := by rw [hgroups, List.head?_cons]
            settled := fun group hgroup hcandidate => by
              rw [hgroups, List.mem_singleton] at hgroup
              rw [hgroup, hphase] at hcandidate
              cases hcandidate }
          abstract := habstract
          run := hexhausted ▸ hrun
          searching := hs'
          executed := ⟨stats', hexecuted'⟩
          phase := hphase'
          ids := hids'
          report_groups := hrep
          reduced := hreduced }

/-- On a target whose answers depend on the candidate only, a finished search ends with operations
none of which can be deleted on its own: what is left, pruned if the strategy prunes, is not valid,
is refused by the adapter, or is not accepted. -/
theorem reduce_minimal (hadapter : adapter.Deterministic) {source : Json} {state after : σ}
    {fuel : ℕ} {report : Report} (hnew : Workload.new source = .ok w)
    (hreduce : reduce adapter policy fuel source state = .ok (some (report, after)))
    (hinitial : ∃ first, report.groups.head? = some first ∧ first.accepted = true)
    (hfinished : report.exhausted = false) :
    ∃ final, (w.ids :: acceptedIds report.groups).getLast? = some final ∧
      report.reduced = w.project final ∧
      ∀ i ∈ final, w.valid (without policy w i final) = false ∨
        (∃ text, ∀ s, (adapter.validate s (w.project (without policy w i final))).1 = .error text) ∨
        ∀ s, ∃ stats s', replay adapter policy w (without policy w i final) .candidate
          policy.candidateTrials.toNat policy.decisionThreshold s = .ok ((false, stats), s') := by
  classical
  obtain ⟨hpolicy, first, stats, hphase, -, -, ⟨hrejected, hgroups, -⟩ | ⟨-, s, s', last, h⟩⟩ :=
    reduce_inv hnew hreduce
  · -- a search that stops at its first group has not accepted it
    obtain ⟨first', hfirst', haccepted⟩ := hinitial
    rw [hgroups, List.head?_cons, Option.some.injEq] at hfirst'
    rw [← hfirst', hrejected] at haccepted
    cases haccepted
  obtain ⟨hexplained, hrefines⟩ := search_refines hpolicy h.start (hfinished ▸ h.run)
  have hminimal := Deletion.Method.run_minimal (hrefines _ (hadapter.agrees hexplained.settled))
  refine ⟨s'.current, ?_, h.reduced, fun i hi => ?_⟩
  · -- the last accepted candidate is the current one, and the confirmation is no candidate
    have hsame : acceptedIds report.groups = acceptedIds s'.groups := by
      simp [h.report_groups, acceptedIds, h.phase]
    rw [hsame, h.searching.last]
  · rcases hminimal with hone | hall
    · exact .inl (valid_without_of_length_le hone hi)
    · -- deleting the entry at its place is deleting the index
      have hnot := hall (s'.current.idxOf i) (List.idxOf_lt_length_iff.mpr hi)
      have hfails : ¬Passes adapter policy w (without policy w i s'.current) := by
        rw [← propose_idxOf]
        exact of_decide_eq_false hnot
      exact hadapter.not_passes hfails

/-- What is left of the register needs each of its operations. -/
theorem reduce_minimal_register : ∃ report after final,
    reduce registerAdapter paddedPolicy 40 (.dict paddedSource) () = .ok (some (report, after)) ∧
      report.reduced = paddedWorkload.project final ∧
      ∀ i ∈ final, paddedWorkload.valid (without paddedPolicy paddedWorkload i final) = false ∨
        (∃ text, ∀ s, (registerAdapter.validate s
          (paddedWorkload.project (without paddedPolicy paddedWorkload i final))).1 = .error text) ∨
        ∀ s, ∃ stats s', replay registerAdapter paddedPolicy paddedWorkload
          (without paddedPolicy paddedWorkload i final) .candidate paddedPolicy.candidateTrials.toNat
          paddedPolicy.decisionThreshold s = .ok ((false, stats), s') := by
  obtain ⟨report, after, hreduce, hinitial, hfinished⟩ := finished_register
  obtain ⟨final, -, hreduced, hminimal⟩ :=
    reduce_minimal (w := paddedWorkload) deterministic_registerAdapter rfl hreduce hinitial hfinished
  exact ⟨report, after, final, hreduce, hreduced, hminimal⟩

end Lab.Dradd
