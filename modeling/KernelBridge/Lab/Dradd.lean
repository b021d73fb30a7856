import KernelBridge.Lab.Workload
import KernelBridge.Lib.Loop

/-!
# The dependency-guided reducer

`reduce` of `lab/dradd.py`: delete operations from a workload while an adapter, which owns
execution and classification, keeps reporting the target failure.

Every decision rests on what the adapter answers, so the adapter is a parameter with a state of its
own: what it answers to a call may depend on all calls before, on chance or on a schedule, all of
which its state stands for. `reduce` is the code as it runs, with the groups of trials it records
and the budgets it spends. The `while` loop is bounded by `fuel`, and `none` says that it has not
left within that bound.

Elapsed times, the metadata of the adapter and the `checkpoint` callback are left out: nothing that
is modelled reads them.
-/

namespace Lab.Dradd

open Py

/-! ## Statistics -/

/-- The default `z`. -/
def quantile : Py.Float := .ofRat (1959963984540054 / 10 ^ 15)

/-- The Wilson interval. -/
def wilson (successes valid : ℤ) (z : Py.Float) : Except String (Option (Py.Float × Py.Float)) :=
  if ¬(0 ≤ successes ∧ successes ≤ valid) ∨ z.isFinite = false ∨ z.le 0 = true then
    .error "invalid binomial counts or z"
  else if valid = 0 then .ok none
  else do
    let p ← Py.Float.trueDiv successes valid
    let denominator := 1 + (← (z * z).div (.ofRat valid))
    let center ← (p + (← (z * z).div (.ofRat (2 * valid)))).div denominator
    let variance :=
      (← (p * (1 - p)).div (.ofRat valid)) + (← (z * z).div (.ofRat (4 * valid * valid)))
    let radius ← (z * (← variance.sqrt)).div denominator
    return some (Py.Float.max 0 (center - radius), Py.Float.min 1 (center + radius))

/-- The keys under which trials are counted. -/
inductive Class
  | target
  | pass
  | different
  | timeout
  | incomplete
  | environment
  deriving DecidableEq, Repr

/-- The key under which a trial counts. -/
def classify (signature : String) (trial : Json) : Class :=
  match trial.get? "status", trial.get? "signature" with
  | some (.str "fail"), some (.str s) => if s = signature then .target else .different
  | some (.str "pass"), _ => .pass
  | some (.str "timeout"), _ => .timeout
  | some (.str "environment"), _ => .environment
  | _, _ => .incomplete

/-- The trial ran to a verdict. -/
def Class.valid : Class → Bool
  | .target | .pass | .different => true
  | .timeout | .incomplete | .environment => false

/-- `counts[key]`. -/
def count (signature : String) (key : Class) (trials : List Json) : ℕ :=
  trials.countP fun trial => classify signature trial = key

/-- The dict that `trial_summary` returns. -/
structure Summary where
  target : ℕ
  pass : ℕ
  different : ℕ
  timeout : ℕ
  incomplete : ℕ
  environment : ℕ
  valid : ℕ
  attempted : ℕ
  frequency : Option Py.Float
  wilson95 : Option (Py.Float × Py.Float)
  deriving DecidableEq, Repr

/-- `trial_summary(trials, signature)`. -/
def trialSummary (trials : List Json) (signature : String) : Except String Summary := do
  let counts := fun key => count signature key trials
  let valid := counts .target + counts .pass + counts .different
  let frequency ← if valid = 0 then pure none else some <$> Py.Float.trueDiv (counts .target) valid
  let wilson95 ← wilson (counts .target) valid quantile
  return { target := counts .target, pass := counts .pass, different := counts .different,
           timeout := counts .timeout, incomplete := counts .incomplete,
           environment := counts .environment, valid, attempted := trials.length, frequency,
           wilson95 }

/-- `accepted(stats, n, threshold, lower_bound)`. The comparisons come after those of the counts,
so that they never meet a `None`. -/
def accepted (stats : Summary) (n : ℕ) (threshold : Py.Float) (lowerBound : Option Py.Float) :
    Bool :=
  decide (stats.valid = n) && decide (0 < stats.target) &&
    stats.frequency.any (fun frequency => threshold.le frequency) &&
    lowerBound.all fun bound => stats.wilson95.any fun interval => bound.le interval.1

/-- `STATES`. -/
inductive Outcome
  | successReproducer
  | historyOnlyReduction
  | targetFailureNotReproduced
  | invalidCandidate
  | differentFailure
  | incompleteExecution
  | searchBudgetExhausted
  | environmentError
  | inconclusive
  deriving DecidableEq, Repr

/-- `rejection(stats)`. -/
def rejection (stats : Summary) : Outcome :=
  if stats.environment ≠ 0 then .environmentError
  else if stats.timeout ≠ 0 ∨ stats.incomplete ≠ 0 then .incompleteExecution
  else if stats.different ≠ 0 then .differentFailure
  else .targetFailureNotReproduced

/-! ## Policies -/

/-- `STRATEGIES`. -/
inductive Strategy
  | single
  | chunk
  | legacy
  | dependency
  | reproduction
  | dradd
  deriving DecidableEq, Repr

/-- The strategies that prune candidates. -/
def Strategy.guided : Strategy → Bool
  | .dependency | .dradd => true
  | _ => false

/-- The strategies whose candidates must reach the threshold only. -/
def Strategy.repeated : Strategy → Bool
  | .reproduction | .dradd => true
  | _ => false

/-- The arguments of `reduce` that say how to search. -/
structure Policy where
  strategy : Strategy
  trials : ℤ
  maxExecutions : ℤ
  maxCandidates : ℤ
  threshold : Py.Float
  lowerBound : Option Py.Float
  seed : ℤ

namespace Policy

variable (policy : Policy)

/-- The check of the arguments. -/
def check : Except String Unit :=
  if ¬(1 ≤ policy.trials ∧ policy.trials ≤ 20) ∨
      ¬(2 * policy.trials ≤ policy.maxExecutions ∧ policy.maxExecutions ≤ 10000) ∨
      ¬(1 ≤ policy.maxCandidates ∧ policy.maxCandidates ≤ 1000) ∨
      policy.threshold.isFinite = false ∨
      ¬(Py.Float.lt 0 policy.threshold = true ∧ policy.threshold.le 1 = true) ∨
      (policy.lowerBound.any fun bound =>
        !bound.isFinite || !(Py.Float.le 0 bound && bound.le 1)) = true then
    .error "invalid reduction policy/budget"
  else .ok ()

/-- `candidate_trials`. -/
def candidateTrials : ℤ := if policy.strategy = .dependency then 1 else policy.trials

/-- `decision_threshold`. -/
def decisionThreshold : Py.Float := if policy.strategy.repeated then policy.threshold else 1

/-- `lower_bound if repeated else None`. -/
def requiredBound : Option Py.Float :=
  if policy.strategy.repeated then policy.lowerBound else none

end Policy

/-! ## Adapters -/

/-- The target of a reduction, with the state its answers depend on. An error of `validate` is the
text of a `ValueError`; `execute` may raise any `Exception`. -/
structure Adapter (σ : Type) where
  signature : String
  validate : σ → Json → Except String Unit × σ
  execute : σ → Json → ℤ → Except Exc Json × σ

/-- What `execute` documents of the dicts it returns: the optional counts are integers, and an
optional history is a list. -/
def WellTyped (reply : Json) : Prop :=
  (∀ v, reply.get? "history" = some v → ∃ events, v = .list events) ∧
    ∀ key ∈ ["operations_executed", "explored"], ∀ v, reply.get? key = some v → ∃ n, v = .int n

/-- All dicts that the adapter returns are well typed. -/
def Adapter.WellTyped {σ : Type} (adapter : Adapter σ) : Prop :=
  ∀ state candidate seed reply, (adapter.execute state candidate seed).1 = .ok reply →
    Dradd.WellTyped reply

/-! ## Groups of trials -/

/-- The phases of a reduction, in their order. -/
inductive Phase
  | initial
  | candidate
  | confirmation
  deriving DecidableEq, Repr

/-- A recorded group. One that was not executed has no statistics, and an error if it was the
adapter that refused it. -/
structure Group where
  phase : Phase
  ids : List ℕ
  trials : List Json
  statistics : Option Summary
  accepted : Bool
  state : Outcome
  error : Option String

/-- The variables of the search. -/
structure Search (σ : Type) where
  /-- The state of the adapter. -/
  adapter : σ
  current : List ℕ
  granularity : ℕ
  groups : List Group
  attempts : ℕ
  invalid : ℕ
  executions : ℕ
  /-- What `execute` was handed so far: the candidates and the seeds, in order. -/
  calls : List (Json × ℤ)

variable {σ : Type} (adapter : Adapter σ) (policy : Policy) (w : Workload)

/-- The search before the first group. -/
def Search.start (state : σ) : Search σ where
  adapter := state
  current := w.ids
  granularity := 2
  groups := []
  attempts := 0
  invalid := 0
  executions := 0
  calls := []

/-- The dict for a call that raised. -/
def failed (exc : Exc) : Json :=
  .dict [("status", .str "environment"), ("error", .str exc.describe)]

/-- The dict that is recorded for an answer. -/
def resultOf : Except Exc Json → Json
  | .ok (.dict entries) => .dict entries
  | .ok _ => failed ⟨"ValueError", "adapter result must be a dictionary"⟩
  | .error exc => failed exc

/-- One execution, with the next seed of the stream. -/
def trial (candidate : Json) (s : Search σ) : Json × Search σ :=
  let trialSeed := policy.seed + s.executions
  let answer := adapter.execute s.adapter candidate trialSeed
  (Json.set "trial_seed" (.int trialSeed) (resultOf answer.1),
    { s with
      adapter := answer.2
      executions := s.executions + 1
      calls := s.calls ++ [(candidate, trialSeed)] })

/-- The loop of `n` executions. -/
def runTrials (candidate : Json) : ℕ → Search σ → List Json × Search σ
  | 0, s => ([], s)
  | n + 1, s =>
    let first := trial adapter policy candidate s
    let rest := runTrials candidate n first.2
    (first.1 :: rest.1, rest.2)

/-- `replay(keep, phase, n, required_rate)`. -/
def replay (keep : List ℕ) (phase : Phase) (n : ℕ) (requiredRate : Py.Float) (s : Search σ) :
    Except String ((Bool × Summary) × Search σ) := do
  let candidate ← w.candidate keep
  let raw := runTrials adapter policy candidate n s
  let stats ← trialSummary raw.1 adapter.signature
  let ok := accepted stats n requiredRate policy.requiredBound
  let group : Group :=
    { phase, ids := keep, trials := raw.1, statistics := some stats, accepted := ok
      state := if ok then .successReproducer else rejection stats, error := none }
  return ((ok, stats), { raw.2 with groups := s.groups ++ [group] })

/-! ## The search -/

/-- How the loop over the deletions ends. -/
inductive Sweep
  | unchanged
  | changed
  | exhausted
  deriving DecidableEq, Repr

/-- The number of operations deleted at once. -/
def width (size granularity : ℕ) : Except String ℕ :=
  if policy.strategy = .single then .ok 1
  else do
    let width ← Py.Float.ceil (← Py.Float.trueDiv size granularity)
    return width.toNat

/-- `range(0, size, width)`. -/
def offsets (size width : ℕ) : List ℕ :=
  (List.range ((size + width - 1) / width)).map fun k => k * width

/-- The indexes that a deletion leaves. -/
def propose (width offset : ℕ) (current : List ℕ) : List ℕ :=
  let keep := current.take offset ++ current.drop (offset + width)
  if policy.strategy.guided then w.prune keep else keep

/-- Records a candidate that is not executed. -/
def reject (keep : List ℕ) (error : Option String) (s : Search σ) : Search σ :=
  { s with
    invalid := s.invalid + 1
    groups := s.groups ++ [{ phase := .candidate, ids := keep, trials := [], statistics := none,
                             accepted := false, state := .invalidCandidate, error }] }

/-- `adapter.validate(source.candidate(keep))`. -/
def validateCandidate (keep : List ℕ) (state : σ) : Except String Unit × σ :=
  match w.candidate keep with
  | .error text => (.error text, state)
  | .ok candidate => adapter.validate state candidate

/-- One round of the loop over the deletions. Without a way out, the loop goes on. -/
def tryOffset (width offset : ℕ) (s : Search σ) : Except String (Option Sweep × Search σ) :=
  if policy.maxCandidates ≤ s.attempts then .ok (some .exhausted, s)
  else
    let keep := propose policy w width offset s.current
    let s := { s with attempts := s.attempts + 1 }
    if w.valid keep = false then .ok (none, reject keep none s)
    else
      let answer := validateCandidate adapter w keep s.adapter
      let s := { s with adapter := answer.2 }
      match answer.1 with
      | .error text => .ok (none, reject keep (some text) s)
      | .ok () =>
        -- the trials of the confirmation are reserved before a candidate spends any
        if policy.maxExecutions < s.executions + policy.candidateTrials + policy.trials then
          .ok (some .exhausted, s)
        else do
          let (verdict, s) ← replay adapter policy w keep .candidate policy.candidateTrials.toNat
            policy.decisionThreshold s
          if verdict.1 then
            return (some .changed,
              { s with current := keep, granularity := max 2 (s.granularity - 1) })
          else return (none, s)

/-- The loop over the deletions. -/
def sweep (width : ℕ) : List ℕ → Search σ → Except String (Sweep × Search σ)
  | [], s => .ok (.unchanged, s)
  | offset :: rest, s => do
    match ← tryOffset adapter policy w width offset s with
    | (some out, s) => return (out, s)
    | (none, s) => sweep width rest s

/-- One round of the `while` loop. It leaves with the flag `exhausted`. -/
def round (s : Search σ) : Search σ ⊕ Except String (Bool × Search σ) :=
  let size := s.current.length
  if size ≤ 1 then .inr (.ok (false, s))
  else
    match width policy size s.granularity >>= fun width =>
      sweep adapter policy w width (offsets size width) s with
    | .error text => .inr (.error text)
    | .ok (.exhausted, s) => .inr (.ok (true, s))
    | .ok (.changed, s) => .inl s
    | .ok (.unchanged, s) =>
      -- one operation at a time was tried, and none could go
      if policy.strategy = .single ∨ size ≤ s.granularity then .inr (.ok (false, s))
      else .inl { s with granularity := min size (s.granularity * 2) }

/-! ## The report -/

/-- The dict that `reduce` returns. -/
structure Report where
  strategy : Strategy
  outcome : Outcome
  /-- `search_state` is `SEARCH_BUDGET_EXHAUSTED`, and not `FINISHED`. -/
  exhausted : Bool
  signature : String
  originalOperations : ℕ
  reducedOperations : ℕ
  reduced : Json
  confirmed : Bool
  strictlyReduced : Bool
  statistics : Summary
  candidateEvaluations : ℕ
  invalidCandidates : ℕ
  actualExecutions : ℕ
  candidateExecutions : ℕ
  operationsExecuted : ℤ
  searchTransitions : ℤ
  policy : Policy
  groups : List Group
  /-- What `execute` was handed, in order. -/
  calls : List (Json × ℤ)

/-- `t.get(key, default)` as a summand. -/
def countOf (trial : Json) (key : String) (default : ℤ) : Except String ℤ :=
  match trial.get? key with
  | none => .ok default
  | some (.int n) => .ok n
  | some _ => .error "unsupported operand type(s) for +"

/-- `len(t.get("history", []))`. -/
def historyLength (trial : Json) : Except String ℤ :=
  match trial.get? "history" with
  | none => .ok 0
  | some (.list events) => .ok events.length
  | some _ => .error "object has no len()"

/-- The trials of all groups. -/
def allTrials (groups : List Group) : List Json := groups.flatMap Group.trials

/-- The end of `reduce`. -/
def report (exhausted confirmed : Bool) (final : Summary) (s : Search σ) :
    Except String Report := do
  let reduced ← w.candidate s.current
  let operations ← (allTrials s.groups).mapM fun trial => do
    countOf trial "operations_executed" (← historyLength trial)
  let transitions ← (allTrials s.groups).mapM fun trial => countOf trial "explored" 0
  return { strategy := policy.strategy
           outcome := if confirmed then .successReproducer else rejection final
           exhausted
           signature := adapter.signature
           originalOperations := w.ids.length
           reducedOperations := s.current.length
           reduced
           confirmed
           strictlyReduced := decide (s.current.length < w.ids.length)
           statistics := final
           candidateEvaluations := s.attempts
           invalidCandidates := s.invalid
           actualExecutions := s.executions
           candidateExecutions :=
             (allTrials (s.groups.filter fun group => group.phase = .candidate)).length
           operationsExecuted := operations.sum
           searchTransitions := transitions.sum
           policy
           groups := s.groups
           calls := s.calls }

/-! ## Reduction -/

/-- What `reduce` checks before it executes anything. -/
def accept (source : Json) (state : σ) : Except String (Workload × σ) := do
  let w ← Workload.new source
  let whole ← w.candidate w.ids
  let answer := adapter.validate state whole
  answer.1
  policy.check
  return (w, answer.2)

/-- `reduce(workload, adapter, …)`, with the state in which it leaves the adapter. -/
def reduce (fuel : ℕ) (source : Json) (state : σ) : Except String (Option (Report × σ)) := do
  let (w, state) ← accept adapter policy source state
  let n := policy.trials.toNat
  let (initial, s) ← replay adapter policy w w.ids .initial n policy.threshold (.start w state)
  if initial.1 then
    match Loop.run (round adapter policy w) fuel s with
    | none => return none
    | some result =>
      let (exhausted, s) ← result
      -- the confirmation is run whatever ended the search
      let (final, s) ← replay adapter policy w s.current .confirmation n policy.threshold s
      return some (← report adapter policy w exhausted final.1 final.2 s, s.adapter)
  else return some (← report adapter policy w false false initial.2 s, s.adapter)

end Lab.Dradd
