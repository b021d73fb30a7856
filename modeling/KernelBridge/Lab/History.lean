import KernelBridge.Lab.Contract
import KernelBridge.Lib.Backtrack
import Mathlib.Data.List.Sort

/-!
# The history checker

`check_history` of `lab/history.py`. It reads a recorded concurrent history out of JSON, checks
that the recording is complete and consistent, and searches for a sequential order of the
operations that explains it.

The checks are `accept`. A history that passes them is a `History`, whose fields say what was
checked; one whose recording shows a worker that did not finish is reported as inconclusive
instead. The search is an instance of `Backtrack`, over the events in the order of the recording:
a bit mask of the events placed so far, the reference model after them, and their indexes.

What the verdicts mean is in `Lab.Linearizability`.
-/

namespace Lab

open Py

/-- `MAX_HISTORY`. -/
def maxHistory : ℕ := 12

/-- A recorded event, with its operation in the form `α`. Times are in nanoseconds. -/
structure Event (α : Type) where
  index : ℕ
  worker : ℕ
  sequence : ℕ
  started : ℕ
  finished : ℕ
  operation : α
  actual : Json

/-- The answer of `check_history`. -/
inductive Verdict
  | pass (witnessOrder : List ℕ) (explored : ℕ)
  | fail (explored : ℕ)
  | inconclusive (reason : String) (explored : ℕ)
  deriving DecidableEq, Repr

/-! ## Reading events -/

/-- One of the fields that must hold a nonnegative integer. -/
def natField (event : Json) (field : String) : Except String ℕ :=
  match event.get? field with
  | some (.int n) => if 0 ≤ n then .ok n.toNat else .error ("invalid " ++ field)
  | _ => .error ("invalid " ++ field)

/-- Whether a recorded result is a dict with an integral `ret` and `errno`. -/
def resultShaped (actual : Json) : Bool :=
  actual.isDict && ((actual.get? "ret").bind Json.int?).isSome &&
    ((actual.get? "errno").bind Json.int?).isSome

/-- One round of the first loop of `check_history`, after the events `seen`: the event read, or
`none` if its worker did not complete normally. -/
def checkEvent (seen : List (Event Json)) (event : Json) : Except String (Option (Event Json)) :=
  if event.isDict = false then .error "history events must be objects"
  else do
    let index ← natField event "index"
    let worker ← natField event "worker"
    let sequence ← natField event "sequence"
    let started ← natField event "started_ns"
    let finished ← natField event "finished_ns"
    if finished < started then .error "operation completes before invocation"
    else if ∃ e ∈ seen, e.index = index then .error "duplicate operation index"
    else if ∃ e ∈ seen, e.worker = worker ∧ e.sequence = sequence then
      .error "duplicate worker sequence"
    else
      match event.get? "operation" with
      | none => .error "missing operation"
      | some operation =>
        -- an event with an error is no defect of the history, but the worker has stopped there
        if (event.get? "error").isSome then .ok none
        else
          match event.get? "actual" with
          | none => .ok none
          | some actual =>
            if resultShaped actual = false then .error "malformed result"
            else .ok (some { index, worker, sequence, started, finished, operation, actual })

/-- The first loop of `check_history`; `none` as soon as a worker did not complete normally. -/
def checkEvents (seen : List (Event Json)) :
    List Json → Except String (Option (List (Event Json)))
  | [] => .ok (some seen)
  | event :: rest =>
    match checkEvent seen event with
    | .error e => .error e
    | .ok none => .ok none
    | .ok (some e) => checkEvents (seen ++ [e]) rest

/-! ## Order -/

section Order

variable {α : Type}

/-- `same_worker_before`: `other` is earlier in the sequence of the worker of `event`. -/
def Event.sameWorkerBefore (other event : Event α) : Bool :=
  decide (event.worker = other.worker ∧ other.sequence < event.sequence)

/-- `other` must come before `event` in every explanation. -/
def Event.precedes (other event : Event α) : Bool :=
  decide (other.finished < event.started) || other.sameWorkerBefore event

/-- The sequence numbers of the events of a worker, in the order of the recording. -/
def sequencesOf (worker : ℕ) (events : List (Event α)) : List ℕ :=
  (events.filter fun e => e.worker = worker).map Event.sequence

end Order

/-! ## Admission -/

/-- A recorded history that passes the checks of `check_history`. -/
structure History where
  capacity : ℕ
  events : List (Event Op)
  minCapacity_le : minCapacity ≤ capacity
  le_maxCapacity : capacity ≤ maxCapacity
  operations_valid : ∀ e ∈ events, e.operation.Valid
  started_le : ∀ e ∈ events, e.started ≤ e.finished
  index_nodup : (events.map Event.index).Nodup
  index_lt : ∀ e ∈ events, e.index < events.length
  sequences : ∀ e ∈ events, (sequencesOf e.worker events).insertionSort (· ≤ ·) =
    List.range (sequencesOf e.worker events).length
  separate : ∀ e ∈ events, ∀ other ∈ events, other.sameWorkerBefore e = true →
    other.finished ≤ e.started

/-- The event with its operation as validated. -/
def Event.withOperation (e : Event Json) (op : Op) : Event Op := { e with operation := op }

/-- The events with their operations as validated. -/
def withOperations (raws : List (Event Json)) (ops : List Op) : List (Event Op) :=
  List.zipWith Event.withOperation raws ops

/-- The event was read from the dict `j`, which holds no error. -/
structure Event.ReadFrom (e : Event Json) (j : Json) : Prop where
  index : j.get? "index" = some (.int e.index)
  worker : j.get? "worker" = some (.int e.worker)
  sequence : j.get? "sequence" = some (.int e.sequence)
  started : j.get? "started_ns" = some (.int e.started)
  finished : j.get? "finished_ns" = some (.int e.finished)
  operation : j.get? "operation" = some e.operation
  error : j.get? "error" = none
  actual : j.get? "actual" = some e.actual
  shaped : resultShaped e.actual = true

/-- The dict recorded for a call that returned. -/
def Event.toJson (e : Event Json) : Json :=
  .dict [("index", .int e.index), ("worker", .int e.worker), ("sequence", .int e.sequence),
    ("operation", e.operation), ("started_ns", .int e.started), ("actual", e.actual),
    ("finished_ns", .int e.finished)]

/-- An event that is written is read back. -/
theorem Event.readFrom_toJson {e : Event Json} (hshaped : resultShaped e.actual = true) :
    e.ReadFrom e.toJson where
  index := rfl
  worker := rfl
  sequence := rfl
  started := rfl
  finished := rfl
  operation := rfl
  error := rfl
  actual := rfl
  shaped := hshaped

/-- A field is read if it is a count. -/
theorem natField_eq_ok_iff {j : Json} {field : String} {n : ℕ} :
    natField j field = .ok n ↔ j.get? field = some (.int n) := by
  unfold natField
  split
  next m hm =>
    rw [hm]
    split_ifs with hpos
    · simp only [Except.ok.injEq, Option.some.injEq, Json.int.injEq]
      omega
    · simp only [Option.some.injEq, Json.int.injEq, false_iff]
      omega
  next hno => simpa using hno n

/-- What one round of the loop accepts. -/
theorem checkEvent_some_iff {seen : List (Event Json)} {j : Json} {e : Event Json} :
    checkEvent seen j = .ok (some e) ↔ e.ReadFrom j ∧ e.started ≤ e.finished ∧
      (∀ e' ∈ seen, e'.index ≠ e.index) ∧
      ∀ e' ∈ seen, ¬(e'.worker = e.worker ∧ e'.sequence = e.sequence) := by
  constructor
  · intro h
    rw [checkEvent] at h
    by_cases hdict : j.isDict = false
    · rw [if_pos hdict] at h
      cases h
    rw [if_neg hdict] at h
    simp only [bind_eq_ok_iff, natField_eq_ok_iff] at h
    obtain ⟨index, hindex, worker, hworker, sequence, hsequence, started, hstarted, finished,
      hfinished, h⟩ := h
    -- which of the three keys are there decides the branch
    cases hop : j.get? "operation" <;> cases herror : j.get? "error" <;>
      cases hactual : j.get? "actual" <;>
      simp only [hop, herror, hactual, Option.isSome_none, Option.isSome_some, Bool.false_eq_true,
        if_true, if_false] at h <;>
      split_ifs at h with htime hdup hseq <;> cases h
    rename_i hshape
    exact ⟨⟨hindex, hworker, hsequence, hstarted, hfinished, hop, herror, hactual,
      by simpa using hshape⟩, by simpa using htime, fun e' he' heq => hdup ⟨e', he', heq⟩,
      fun e' he' heq => hseq ⟨e', he', heq⟩⟩
  · rintro ⟨hread, htime, hdup, hseq⟩
    have hdict : j.isDict = true := by
      have := hread.index
      cases j <;> simp_all [Json.get?, Json.isDict]
    rw [checkEvent, if_neg (by simp [hdict])]
    simp only [natField_eq_ok_iff.mpr hread.index, natField_eq_ok_iff.mpr hread.worker,
      natField_eq_ok_iff.mpr hread.sequence, natField_eq_ok_iff.mpr hread.started,
      natField_eq_ok_iff.mpr hread.finished, hread.operation, hread.error, hread.actual,
      hread.shaped, bind, Except.bind]
    rw [if_neg (not_lt.mpr htime), if_neg fun ⟨e', he', heq⟩ => hdup e' he' heq,
      if_neg fun ⟨e', he', heq⟩ => hseq e' he' heq]
    rfl

/-- What the loop accepts: the events are read one by one, take no negative time, and share
neither an index nor a place in the sequence of a worker. -/
theorem checkEvents_some_iff {seen es : List (Event Json)} {js : List Json}
    (hindex : (seen.map Event.index).Nodup)
    (hseq : (seen.map fun e => (e.worker, e.sequence)).Nodup) :
    checkEvents seen js = .ok (some es) ↔ ∃ new, es = seen ++ new ∧
      List.Forall₂ Event.ReadFrom new js ∧ (∀ e ∈ new, e.started ≤ e.finished) ∧
      (es.map Event.index).Nodup ∧ (es.map fun e => (e.worker, e.sequence)).Nodup := by
  induction js generalizing seen with
  | nil =>
    simp only [checkEvents, Except.ok.injEq, Option.some.injEq, List.forall₂_nil_right_iff]
    constructor
    · rintro rfl
      exact ⟨[], by simp, rfl, by simp, hindex, hseq⟩
    · rintro ⟨new, rfl, rfl, -⟩
      simp
  | cons j js ih =>
    rw [checkEvents]
    constructor
    · intro h
      split at h
      · cases h
      · cases h
      next e he =>
        obtain ⟨hread, htime, hfresh, hfree⟩ := checkEvent_some_iff.mp he
        have hindex' : ((seen ++ [e]).map Event.index).Nodup := by
          rw [List.map_append, List.nodup_append']
          exact ⟨hindex, by simp, by simpa [List.disjoint_singleton] using hfresh⟩
        have hseq' : ((seen ++ [e]).map fun e => (e.worker, e.sequence)).Nodup := by
          rw [List.map_append, List.nodup_append']
          exact ⟨hseq, by simp, by simpa [List.disjoint_singleton] using hfree⟩
        -- with the new event the ones seen still share nothing, so the rest can be read
        obtain ⟨new, rfl, hnew, htimes, hall⟩ := (ih hindex' hseq').mp h
        refine ⟨e :: new, by simp, .cons hread hnew, ?_, hall⟩
        simpa using ⟨htime, htimes⟩
    · rintro ⟨new, rfl, hreads, htimes, hall⟩
      obtain ⟨e, new, hread, hnew, rfl⟩ := List.forall₂_cons_right_iff.mp hreads
      have hassoc : seen ++ e :: new = (seen ++ [e]) ++ new := by simp
      obtain ⟨hindexes, hsequences⟩ := hall
      rw [hassoc, List.map_append] at hindexes hsequences
      have hindex' := hindexes.of_append_left
      have hseq' := hsequences.of_append_left
      rw [List.map_append] at hindex' hseq'
      -- the event shares nothing with those before it
      have he : checkEvent seen j = .ok (some e) := by
        refine checkEvent_some_iff.mpr ⟨hread, htimes e List.mem_cons_self, ?_, ?_⟩
        · simpa [List.nodup_append', List.disjoint_singleton] using (List.nodup_append'.mp hindex').2.2
        · simpa [List.nodup_append', List.disjoint_singleton] using (List.nodup_append'.mp hseq').2.2
      rw [he]
      refine (ih (by simpa using hindex') (by simpa using hseq')).mpr
        ⟨new, hassoc, hnew, fun e' he' => htimes e' (List.mem_cons_of_mem _ he'), ?_, ?_⟩
      · rw [hassoc, List.map_append]
        exact hindexes
      · rw [hassoc, List.map_append]
        exact hsequences

/-- There is an event for each operation. -/
theorem length_withOperations {raws : List (Event Json)} {ops : List Op}
    (h : ops.length = raws.length) : (withOperations raws ops).length = raws.length := by
  rw [withOperations, List.length_zipWith, h, Nat.min_self]

/-- What does not read the operations is the same before and after validation. -/
theorem map_withOperations {β : Type} {raws : List (Event Json)} {ops : List Op}
    (h : ops.length = raws.length) {f : Event Op → β} {g : Event Json → β}
    (hfg : ∀ e op, f (e.withOperation op) = g e) :
    (withOperations raws ops).map f = raws.map g := by
  induction raws generalizing ops with
  | nil => rfl
  | cons e raws ih =>
    cases ops with
    | nil => cases h
    | cons op ops =>
      simp only [withOperations, List.zipWith_cons_cons, List.map_cons, hfg]
      rw [← withOperations, ih (by simpa using h)]

/-- The operations do not change the sequences of the workers. -/
theorem sequencesOf_withOperations {raws : List (Event Json)} {ops : List Op}
    (h : ops.length = raws.length) (worker : ℕ) :
    sequencesOf worker (withOperations raws ops) = sequencesOf worker raws := by
  induction raws generalizing ops with
  | nil => rfl
  | cons e raws ih =>
    cases ops with
    | nil => cases h
    | cons op ops =>
      have hrest := ih (show ops.length = raws.length by simpa using h)
      simp only [sequencesOf, withOperations] at hrest ⊢
      by_cases hw : e.worker = worker <;> simp [Event.withOperation, hw, hrest]

/-- An event with its operation comes from an event and an operation. -/
theorem mem_withOperations {raws : List (Event Json)} {ops : List Op} {e : Event Op}
    (he : e ∈ withOperations raws ops) :
    ∃ raw ∈ raws, ∃ op ∈ ops, e = raw.withOperation op := by
  obtain ⟨i, hi, rfl⟩ := List.getElem_of_mem he
  rw [withOperations, List.length_zipWith] at hi
  simp only [withOperations, List.getElem_zipWith]
  exact ⟨_, List.getElem_mem (by omega), _, List.getElem_mem (by omega), rfl⟩

/-- What the first loop accepts, from the start. -/
theorem checkEvents_nil_iff {raws : List (Event Json)} {js : List Json} :
    checkEvents [] js = .ok (some raws) ↔
      List.Forall₂ Event.ReadFrom raws js ∧ (∀ e ∈ raws, e.started ≤ e.finished) ∧
        (raws.map Event.index).Nodup ∧ (raws.map fun e => (e.worker, e.sequence)).Nodup := by
  rw [checkEvents_some_iff (by simp) (by simp)]
  simp

/-- The scenario that `check_history` validates. -/
def historyScenario (capacity : Json) (raws : List (Event Json)) : Json :=
  .dict [("version", .int 1), ("capacity", capacity), ("operations", .list (raws.map Event.operation))]

/-- The scenario is accepted if the capacity and the operations are. -/
theorem validate_historyScenario_iff {capacity : Json} {raws : List (Event Json)} {sc : Scenario} :
    validate (historyScenario capacity raws) = .ok sc ↔ capacity = .int sc.capacity ∧
      (raws.map Event.operation).mapM validateOp = .ok sc.operations := by
  rw [validate_ok_iff]
  simp [historyScenario, Json.get?, lookup]

/-- The checks of `check_history` on a history of the expected length, up to the search: the
history, or `none` if a worker did not complete normally. -/
def accept (capacity : Json) (history : List Json) : Except String (Option History) :=
  match hraws : checkEvents [] history with
  | .error e => .error e
  | .ok none => .ok none
  | .ok (some raws) =>
    if hindex : ¬((∀ e ∈ raws, e.index < history.length) ∧
        ∀ i < history.length, ∃ e ∈ raws, e.index = i) then
      .error "operation indexes must cover 0..expected_count-1"
    else if hseq : ∃ e ∈ raws, (sequencesOf e.worker raws).insertionSort (· ≤ ·) ≠
        List.range (sequencesOf e.worker raws).length then
      .error "worker sequences must start at zero without gaps"
    else
      match hvalid : validate (historyScenario capacity raws) with
      | .error e => .error e
      | .ok scenario =>
        have hlen : scenario.operations.length = raws.length := by
          rw [(mapM_validateOp (validate_historyScenario_iff.mp hvalid).2).1, List.length_map]
        let events := withOperations raws scenario.operations
        if hsep : ∃ e ∈ events, ∃ other ∈ events,
            other.sameWorkerBefore e = true ∧ e.started < other.finished then
          .error "overlapping or reversed calls within one worker"
        else .ok (some
          { capacity := scenario.capacity
            events
            minCapacity_le := scenario.minCapacity_le
            le_maxCapacity := scenario.le_maxCapacity
            operations_valid := fun e he => by
              obtain ⟨_, _, op, hop, rfl⟩ := mem_withOperations he
              exact scenario.operations_valid op hop
            started_le := fun e he => by
              obtain ⟨raw, hraw, _, _, rfl⟩ := mem_withOperations he
              exact (checkEvents_nil_iff.mp hraws).2.1 raw hraw
            index_nodup := by
              rw [map_withOperations hlen fun _ _ => rfl]
              exact (checkEvents_nil_iff.mp hraws).2.2.1
            index_lt := fun e he => by
              obtain ⟨raw, hraw, _, _, rfl⟩ := mem_withOperations he
              rw [length_withOperations hlen, (checkEvents_nil_iff.mp hraws).1.length_eq]
              exact (not_not.mp hindex).1 raw hraw
            sequences := fun e he => by
              obtain ⟨raw, hraw, _, _, rfl⟩ := mem_withOperations he
              rw [sequencesOf_withOperations hlen]
              exact not_not.mp fun hne => hseq ⟨raw, hraw, hne⟩
            separate := fun e he other hother hbefore =>
              not_lt.mp fun hlt => hsep ⟨e, he, other, hother, hbefore, hlt⟩ })

/-- What is accepted: events that can be read, whose indexes and sequence numbers leave no gap, on a
valid scenario. That the calls of a worker do not overlap is a field of the history. -/
theorem accept_eq_some_iff {capacity : Json} {history : List Json} {h : History} :
    accept capacity history = .ok (some h) ↔ ∃ raws, ∃ scenario : Scenario,
      checkEvents [] history = .ok (some raws) ∧
      ((∀ e ∈ raws, e.index < history.length) ∧
        ∀ i < history.length, ∃ e ∈ raws, e.index = i) ∧
      (∀ e ∈ raws, (sequencesOf e.worker raws).insertionSort (· ≤ ·) =
        List.range (sequencesOf e.worker raws).length) ∧
      validate (historyScenario capacity raws) = .ok scenario ∧
      h.capacity = scenario.capacity ∧ h.events = withOperations raws scenario.operations := by
  constructor
  · intro haccept
    rw [accept] at haccept
    split at haccept
    · cases haccept
    · cases haccept
    next raws hraws =>
      split_ifs at haccept with hindex hseq
      split at haccept
      · cases haccept
      next scenario hvalid =>
        dsimp only at haccept
        split_ifs at haccept with hsep
        cases haccept
        exact ⟨raws, scenario, hraws, hindex,
          fun e he => not_not.mp fun hne => hseq ⟨e, he, hne⟩, hvalid, rfl, rfl⟩
  · rintro ⟨raws, scenario, hraws, hindex, hseq, hvalid, hcapacity, hevents⟩
    rw [accept]
    split
    next _ hraws' => rw [hraws] at hraws'; cases hraws'
    next hraws' => rw [hraws] at hraws'; cases hraws'
    next raws' hraws' =>
      rw [hraws] at hraws'
      cases hraws'
      rw [dif_neg (not_not.mpr hindex), dif_neg fun ⟨e, he, hne⟩ => hne (hseq e he)]
      split
      next _ hvalid' => rw [hvalid] at hvalid'; cases hvalid'
      next scenario' hvalid' =>
        rw [hvalid] at hvalid'
        cases hvalid'
        -- two histories are the same if their capacities and events are
        obtain ⟨cap, events, _, _, _, _, _, _, _, hsep⟩ := h
        subst hcapacity hevents
        rw [dif_neg fun ⟨e, he, other, hother, hbefore, hlt⟩ =>
          absurd hlt (not_lt.mpr (hsep e he other hother hbefore))]

/-- Every recorded event is kept. -/
theorem length_of_accept {capacity : Json} {history : List Json} {h : History}
    (haccept : accept capacity history = .ok (some h)) : h.events.length = history.length := by
  obtain ⟨raws, scenario, hraws, -, -, hvalid, -, hevents⟩ := accept_eq_some_iff.mp haccept
  have hlen : scenario.operations.length = raws.length := by
    rw [(mapM_validateOp (validate_historyScenario_iff.mp hvalid).2).1, List.length_map]
  rw [hevents, length_withOperations hlen, (checkEvents_nil_iff.mp hraws).1.length_eq]

/-! ## The search -/

/-- A state of the search among `n` events: those placed so far, the model after them, and their
indexes in the order of placement. -/
structure SearchState (n : ℕ) where
  mask : BitVec n
  model : ReferenceModel
  order : List ℕ

namespace History

variable (h : History)

/-- `1 << i`. -/
def bit {n : ℕ} (i : Fin n) : BitVec n := BitVec.twoPow n i

/-- The mask `predecessors[i]`. -/
def predecessors (i : Fin h.events.length) : BitVec h.events.length :=
  (List.finRange h.events.length).foldl
    (fun mask j =>
      if i ≠ j ∧ (h.events.get j).precedes (h.events.get i) = true then mask ||| bit j else mask)
    0

/-- The search of `check_history`. An event is eligible if it is not placed and its predecessors
are; placing it leads on if the model answers what was recorded. -/
def problem : Backtrack.Problem (SearchState h.events.length) (Fin h.events.length) where
  complete s := decide (s.mask = BitVec.allOnes _)
  choices := List.finRange _
  eligible s i := decide (s.mask &&& bit i = 0 ∧ h.predecessors i &&& ~~~s.mask = 0)
  advance s i :=
    let (result, model) := s.model.apply (h.events.get i).operation
    if result.toJson.eq (h.events.get i).actual then
      some { mask := s.mask ||| bit i, model, order := s.order ++ [(h.events.get i).index] }
    else none

/-- Where the search starts. -/
def start : SearchState h.events.length where
  mask := 0
  model := .new h.capacity
  order := []

/-- The verdict on an accepted history. A search among `n` events is at most `n + 1` states
deep. -/
def check (budget : ℕ) : Verdict :=
  match h.problem.search budget (h.events.length + 1) h.start 0 with
  | (.found s, explored) => .pass s.order explored
  | (.none, explored) => .fail explored
  | (.exhausted, explored) => .inconclusive "search budget exhausted" explored

end History

/-- `check_history`. The error is the text of the `ValueError` that is raised. -/
def checkHistory (capacity : Json) (history : List Json) (expectedCount : ℕ) (budget : ℤ) :
    Except String Verdict :=
  if ¬(1 ≤ budget ∧ budget ≤ 100000) then .error "search budget must be 1..100000"
  else if ¬(1 ≤ expectedCount ∧ expectedCount ≤ maxHistory) then
    .error "expected count must be 1..12"
  else if history.length ≠ expectedCount then .ok (.inconclusive "incomplete history" 0)
  else
    match accept capacity history with
    | .error e => .error e
    | .ok none => .ok (.inconclusive "worker did not complete normally" 0)
    | .ok (some h) => .ok (h.check budget.toNat)

/-- An accepted history of the expected length is searched. -/
theorem checkHistory_of_accept {capacity : Json} {history : List Json} {expectedCount : ℕ}
    {budget : ℤ} {h : History} (hbudget : 1 ≤ budget ∧ budget ≤ 100000)
    (hcount : 1 ≤ expectedCount ∧ expectedCount ≤ maxHistory)
    (hcomplete : history.length = expectedCount)
    (haccept : accept capacity history = .ok (some h)) :
    checkHistory capacity history expectedCount budget = .ok (h.check budget.toNat) := by
  rw [checkHistory, if_neg (not_not.mpr hbudget), if_neg (not_not.mpr hcount),
    if_neg (not_not.mpr hcomplete), haccept]

/-- The verdicts come from the search, but for the two on recordings that are not complete. -/
theorem checkHistory_cases {capacity : Json} {history : List Json} {expectedCount : ℕ} {budget : ℤ}
    {verdict : Verdict} (h : checkHistory capacity history expectedCount budget = .ok verdict) :
    (verdict = .inconclusive "incomplete history" 0 ∨
      verdict = .inconclusive "worker did not complete normally" 0) ∨
    (1 ≤ expectedCount ∧ expectedCount ≤ maxHistory) ∧ history.length = expectedCount ∧
      ∃ accepted, accept capacity history = .ok (some accepted) ∧
        verdict = accepted.check budget.toNat := by
  rw [checkHistory] at h
  split_ifs at h with hbudget hcount hcomplete
  · cases h
    exact .inl (.inl rfl)
  · split at h
    · cases h
    · cases h
      exact .inl (.inr rfl)
    next accepted haccept =>
      cases h
      exact .inr ⟨hcount, not_not.mp hcomplete, accepted, haccept, rfl⟩

end Lab
