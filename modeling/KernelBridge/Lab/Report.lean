import KernelBridge.Lab.Evaluate
import Mathlib.Data.List.Perm.Subperm

/-!
# Reading evidence back

`load_run` of `lab/report.py` reads the directory of a run before the report is rendered, and
rejects evidence that does not hang together: a status that two files disagree on, an event that is
not one of the scenario, a passing run with an operation missing.

A `Directory` holds the files as they are, with `none` for text that is no JSON; what the operating
system says of their sizes is a parameter. `loadRun_eq_ok_iff` says exactly which directories are
accepted, and `loadRun_sound` what a reader may conclude: the history records no operation twice,
and that of a passing run each operation of the scenario once. The rendering itself is left out.
-/

namespace Lab

/-- `FileNotFoundError`, with the path from the directory on. -/
def Exc.fileNotFound (name : String) : Exc :=
  ⟨"FileNotFoundError", "[Errno 2] No such file or directory: '" ++ name ++ "'"⟩

/-- What `json.loads` raises, whose text is left out. -/
def Exc.decodeError : Exc := ⟨"JSONDecodeError", ""⟩

namespace Report

open Py

/-! ## Files -/

/-- The files of a run that a report is made from, as far as they are there. The content is `none`
where the text is no JSON. -/
structure Directory where
  manifest : Option (Option Json) := none
  scenario : Option (Option Json) := none
  result : Option (Option Json) := none
  /-- `history.jsonl`, line by line. -/
  history : Option (List (Option Json)) := none
  reduction : Option (Option Json) := none

/-- `if not condition: raise ValueError(text)`. -/
def require (condition : Prop) [Decidable condition] (text : String) : Except Exc Unit :=
  if condition then .ok () else .error (.valueError text)

/-- A condition that is required holds. -/
@[simp]
theorem require_eq_ok_iff {condition : Prop} [Decidable condition] {text : String} {u : Unit} :
    require condition text = .ok u ↔ condition := by
  rw [require]
  split_ifs with h <;> simp [h]

/-- `read_json(directory / name)`, where the file has `size` bytes. -/
def readJson (name : String) (size : ℕ) : Option (Option Json) → Except Exc Json
  | none => .error (.fileNotFound name)
  | some content => do
    require (size ≤ 90000000) ("artifact too large: " ++ name)
    match content with
    | some value => .ok value
    | none => .error .decodeError

/-- `read_json(path) if path.exists() else default`. -/
def readJsonOr (default : Option Json) (name : String) (size : ℕ) :
    Option (Option Json) → Except Exc (Option Json)
  | none => .ok default
  | file => (readJson name size file).map some

/-- A file is read if it is there, JSON and not too large. -/
theorem readJson_eq_ok_iff {name : String} {size : ℕ} {file : Option (Option Json)} {j : Json} :
    readJson name size file = .ok j ↔ file = some (some j) ∧ size ≤ 90000000 := by
  rcases file with _ | _ | value
  · simp [readJson]
  · simp [readJson, bind_eq_ok_iff]
  · simp [readJson, bind_eq_ok_iff, and_comm]

/-- A file whose text is no JSON. -/
theorem readJson_torn {name : String} {size : ℕ} (h : size ≤ 90000000) :
    readJson name size (some none) = .error .decodeError := by
  rw [readJson, require, if_pos h]
  rfl

/-- A default is for a file that is not there, and not for one whose text is no JSON. -/
theorem readJsonOr_torn {default : Option Json} {name : String} {size : ℕ}
    (h : size ≤ 90000000) : readJsonOr default name size (some none) = .error .decodeError := by
  simp [readJsonOr, readJson_torn h, Except.map]

/-- A file that need not be there. -/
theorem readJsonOr_eq_ok_iff {default : Option Json} {name : String} {size : ℕ}
    {file : Option (Option Json)} {j : Option Json} :
    readJsonOr default name size file = .ok j ↔ file = none ∧ default = j ∨
      ∃ value, file = some (some value) ∧ size ≤ 90000000 ∧ j = some value := by
  cases file with
  | none => simp [readJsonOr]
  | some content =>
    have hread : ∀ value, readJson name size (some content) = .ok value ↔
        some content = some (some value) ∧ size ≤ 90000000 := fun _ => readJson_eq_ok_iff
    cases hvalue : readJson name size (some content) with
    | error exc =>
      simp only [hvalue, reduceCtorEq, false_iff] at hread
      simp only [readJsonOr, hvalue, Except.map, reduceCtorEq, false_and, false_or, false_iff]
      rintro ⟨value, hcontent, hsize, -⟩
      exact hread value ⟨hcontent, hsize⟩
    | ok value =>
      obtain ⟨hcontent, hsize⟩ := (hread value).mp hvalue
      cases hcontent
      simp [readJsonOr, hvalue, Except.map, hsize, eq_comm]

/-! ## Events -/

/-- `event.get(field, 0)`, for a field that is a number if it is there. -/
def numberIn (event : Json) (field : String) : ℤ := ((event.get? field).bind Json.int?).getD 0

/-- The check of a field of an event that is a count. -/
def checkCount (event : Json) (field : String) : Except Exc Unit :=
  match event.get? field with
  | none => .ok ()
  | some (.int n) => require (0 ≤ n) ("invalid event " ++ field)
  | some _ => .error (.valueError ("invalid event " ++ field))

/-- The fields of an event that must be counts, where they are there. -/
def countFields : List String := ["elapsed_ns", "started_ns", "finished_ns", "worker"]

/-- The loop body of `load_run`: an event is checked against the scenario and the indexes `seen`
so far. -/
def checkEvent (operations : List Json) (seen : List ℤ) (event : Json) : Except Exc (List ℤ) := do
  require (event.isDict = true) "history entry must be an object"
  match event.get? "index" with
  | some (.int index) =>
    require ((0 ≤ index ∧ index < operations.length) ∧ index ∉ seen ∧
      (getD event "operation").eq (operations.getD index.toNat .null) = true)
      "history does not match scenario"
    countFields.forM (checkCount event)
    require (numberIn event "started_ns" ≤ numberIn event "finished_ns") "reversed interval"
    .ok (index :: seen)
  | _ => .error (.valueError "history does not match scenario")

/-- The loop of `load_run` over the lines of the history. -/
def loadHistory (operations : List Json) (seen : List ℤ) :
    List (Option Json) → Except Exc (List Json)
  | [] => .ok []
  | none :: _ => .error .decodeError
  | some event :: lines => do
    let seen ← checkEvent operations seen event
    let history ← loadHistory operations seen lines
    return event :: history

/-- The event records the operation of the scenario with this index. -/
structure EventFits (operations : List Json) (event : Json) (index : ℕ) : Prop where
  isDict : event.isDict = true
  get?_index : event.get? "index" = some (.int index)
  index_lt : index < operations.length
  operation : (getD event "operation").eq (operations.getD index .null) = true
  counts : ∀ field ∈ countFields, ∀ v, event.get? field = some v → ∃ n : ℕ, v = .int n
  interval : numberIn event "started_ns" ≤ numberIn event "finished_ns"

/-- A count that is there is a natural number. -/
theorem checkCount_eq_ok_iff {event : Json} {field : String} :
    checkCount event field = .ok () ↔ ∀ v, event.get? field = some v → ∃ n : ℕ, v = .int n := by
  unfold checkCount
  split
  next hnone => simp [hnone]
  next n hn =>
    simp only [require_eq_ok_iff, hn, Option.some.injEq, forall_eq', Json.int.injEq]
    exact ⟨Int.eq_ofNat_of_zero_le, fun ⟨m, hm⟩ => by omega⟩
  next v hv hother =>
    simp only [hother, Option.some.injEq, forall_eq', reduceCtorEq, false_iff, not_exists]
    exact fun n => hv n

/-- All counts that are there are natural numbers. -/
theorem forM_checkCount_eq_ok_iff {event : Json} {names : List String} :
    names.forM (checkCount event) = .ok () ↔
      ∀ field ∈ names, ∀ v, event.get? field = some v → ∃ n : ℕ, v = .int n := by
  induction names with
  | nil => simp [pure, Except.pure]
  | cons name names ih =>
    have hcons : (name :: names).forM (checkCount event) =
        checkCount event name >>= fun _ => names.forM (checkCount event) := rfl
    simp only [hcons, bind_eq_ok_iff, ih, List.forall_mem_cons, ← checkCount_eq_ok_iff]
    exact ⟨fun ⟨_, hname, hrest⟩ => ⟨hname, hrest⟩, fun ⟨hname, hrest⟩ => ⟨(), hname, hrest⟩⟩

/-- The loop body accepts an event of the scenario that is about a new operation. -/
theorem checkEvent_eq_ok_iff {operations : List Json} {seen seen' : List ℤ} {event : Json} :
    checkEvent operations seen event = .ok seen' ↔
      ∃ index : ℕ, EventFits operations event index ∧ (index : ℤ) ∉ seen ∧
        seen' = (index : ℤ) :: seen := by
  unfold checkEvent
  constructor
  · intro h
    obtain ⟨_, hdict, h⟩ := bind_eq_ok_iff.mp h
    rw [require_eq_ok_iff] at hdict
    split at h
    next index hindex =>
      simp only [bind_eq_ok_iff, require_eq_ok_iff] at h
      obtain ⟨-, ⟨⟨hzero, hlt⟩, hseen, hoperation⟩, _, hcounts, -, hinterval, h⟩ := h
      obtain ⟨i, rfl⟩ := Int.eq_ofNat_of_zero_le hzero
      cases h
      exact ⟨i, ⟨hdict, hindex, by omega, hoperation, forM_checkCount_eq_ok_iff.mp hcounts,
        hinterval⟩, hseen, rfl⟩
    next => cases h
  · rintro ⟨index, hfits, hseen, rfl⟩
    refine bind_eq_ok_iff.mpr ⟨(), require_eq_ok_iff.mpr hfits.isDict, ?_⟩
    simp only [hfits.get?_index, bind_eq_ok_iff, require_eq_ok_iff]
    have hlt := hfits.index_lt
    exact ⟨(), ⟨⟨by omega, by omega⟩, hseen, hfits.operation⟩, (),
      forM_checkCount_eq_ok_iff.mpr hfits.counts, (), hfits.interval, trivial⟩

/-- The history that the loop reads: every line is an event of the scenario, and no two of the same
operation. -/
theorem loadHistory_eq_ok_iff {operations : List Json} {seen : List ℤ}
    {lines : List (Option Json)} {history : List Json} :
    loadHistory operations seen lines = .ok history ↔ lines = history.map some ∧
      ∃ indexes : List ℕ, List.Forall₂ (EventFits operations) history indexes ∧ indexes.Nodup ∧
        ∀ i ∈ indexes, (i : ℤ) ∉ seen := by
  induction lines generalizing seen history with
  | nil =>
    rw [loadHistory, Except.ok.injEq]
    constructor
    · rintro rfl
      exact ⟨rfl, [], .nil, .nil, nofun⟩
    · rintro ⟨hlines, -⟩
      exact (List.map_eq_nil_iff.mp hlines.symm).symm
  | cons line lines ih =>
    cases line with
    | none =>
      simp only [loadHistory, reduceCtorEq, false_iff]
      rintro ⟨hlines, -⟩
      cases history <;> cases hlines
    | some event =>
      simp only [loadHistory, bind_eq_ok_iff, checkEvent_eq_ok_iff, ih]
      constructor
      · rintro ⟨_, ⟨index, hfits, hindex, rfl⟩, rest, ⟨rfl, indexes, hall, hnodup, hfresh⟩, h⟩
        cases h
        refine ⟨rfl, index :: indexes, .cons hfits hall, ?_, ?_⟩
        · -- later events have an index that was not seen
          refine List.nodup_cons.mpr ⟨fun hmem => ?_, hnodup⟩
          exact hfresh index hmem List.mem_cons_self
        · refine List.forall_mem_cons.mpr ⟨hindex, fun i hi hseen => ?_⟩
          exact hfresh i hi (List.mem_cons_of_mem _ hseen)
      · rintro ⟨hlines, indexes, hall, hnodup, hfresh⟩
        cases hall with
        | nil => cases hlines
        | @cons event' index rest indexes hfits hall =>
          simp only [List.map_cons, List.cons.injEq, Option.some.injEq] at hlines
          obtain ⟨rfl, rfl⟩ := hlines
          obtain ⟨hindex, hfresh⟩ := List.forall_mem_cons.mp hfresh
          obtain ⟨hnot, hnodup⟩ := List.nodup_cons.mp hnodup
          refine ⟨_, ⟨index, hfits, hindex, rfl⟩, rest, ⟨rfl, indexes, hall, hnodup, ?_⟩, rfl⟩
          intro i hi hseen
          rcases List.mem_cons.mp hseen with heq | hseen
          · obtain rfl : i = index := by exact_mod_cast heq
            exact hnot hi
          · exact hfresh i hi hseen

/-- A line that is no JSON, after events that are accepted. -/
theorem loadHistory_torn {operations : List Json} {history : List Json} {indexes : List ℕ}
    {seen : List ℤ} {lines : List (Option Json)}
    (hall : List.Forall₂ (EventFits operations) history indexes) (hnodup : indexes.Nodup)
    (hfresh : ∀ i ∈ indexes, (i : ℤ) ∉ seen) :
    loadHistory operations seen (history.map some ++ none :: lines) = .error .decodeError := by
  induction hall generalizing seen with
  | nil => rfl
  | @cons event index history indexes hfits _ ih =>
    obtain ⟨hnot, hnodup⟩ := List.nodup_cons.mp hnodup
    obtain ⟨hindex, hfresh⟩ := List.forall_mem_cons.mp hfresh
    have hevent : checkEvent operations seen event = .ok ((index : ℤ) :: seen) :=
      checkEvent_eq_ok_iff.mpr ⟨index, hfits, hindex, rfl⟩
    -- the index of this event is now among those seen, and no later event has it
    have hfresh' : ∀ i ∈ indexes, (i : ℤ) ∉ (index : ℤ) :: seen := by
      intro i hi hseen
      rcases List.mem_cons.mp hseen with heq | hseen
      · obtain rfl : i = index := by exact_mod_cast heq
        exact hnot hi
      · exact hfresh i hi hseen
    have hrest := ih hnodup hfresh'
    rw [List.map_cons, List.cons_append, loadHistory, hevent]
    change (loadHistory operations _ _ >>= _) = _
    rw [hrest]
    rfl

/-! ## Runs -/

/-- The statuses that a manifest may give. -/
def statuses : List String := ["running", "pass", "fail", "inconclusive"]

/-- The checks on the manifest, and the status that it gives. -/
def checkManifest (manifest : Json) : Except Exc String := do
  require (manifest.isDict = true ∧ (getD manifest "schema_version").eq (.int 1) = true)
    "unsupported manifest"
  require (∃ backend ∈ ["simulated", "device"], (getD manifest "backend").eq (.str backend) = true)
    "unknown evidence backend"
  match manifest.get? "status" with
  | some (.str status) => do
    require (status ∈ statuses) "invalid manifest status"
    .ok status
  | _ => .error (.valueError "invalid manifest status")

/-- What `load_run` returns; `status` is that of the manifest. -/
structure Loaded where
  manifest : Json
  status : String
  scenario : Json
  result : Json
  history : List Json
  reduction : Option Json

/-- `load_run(directory)`, where `stat` gives the size of each file. -/
def loadRun (stat : String → ℕ) (dir : Directory) : Except Exc Loaded := do
  let manifest ← readJson "manifest.json" (stat "manifest.json") dir.manifest
  let scenario ← readJson "scenario.json" (stat "scenario.json") dir.scenario
  let _ ← (validate scenario).mapError Exc.valueError
  let operations := operationsOf scenario
  let status ← checkManifest manifest
  let result ← readJsonOr (some (.dict [])) "result.json" (stat "result.json") dir.result
  let result := result.getD .null
  require (result.isDict = true) "result must be an object"
  require (status ≠ "running" → (getD result "status").eq (.str status) = true)
    "manifest and result status disagree"
  let lines := dir.history.getD []
  require (dir.history.isSome = true → stat "history.jsonl" ≤ 180000000) "history exceeds 180 MB"
  let history ← loadHistory operations [] lines
  require (status ≠ "running" →
    (getD manifest "operations_observed").eq (.int history.length) = true)
    "manifest operation count disagrees with history"
  require (status = "pass" → history.length = operations.length)
    "passing run has missing operations"
  let reduction ← readJsonOr none "reduction.json" (stat "reduction.json") dir.reduction
  return { manifest, status, scenario, result, history, reduction }

/-- The directory holds evidence that hangs together, and `loaded` is what it says. -/
structure Holds (stat : String → ℕ) (dir : Directory) (loaded : Loaded) : Prop where
  manifest : dir.manifest = some (some loaded.manifest) ∧ stat "manifest.json" ≤ 90000000
  scenario : dir.scenario = some (some loaded.scenario) ∧ stat "scenario.json" ≤ 90000000
  valid : ∃ accepted, validate loaded.scenario = .ok accepted
  status : checkManifest loaded.manifest = .ok loaded.status
  result : dir.result = none ∧ loaded.result = .dict [] ∨
    dir.result = some (some loaded.result) ∧ stat "result.json" ≤ 90000000
  result_isDict : loaded.result.isDict = true
  agree : loaded.status ≠ "running" → (getD loaded.result "status").eq (.str loaded.status) = true
  lines : dir.history.getD [] = loaded.history.map some
  history_size : dir.history.isSome = true → stat "history.jsonl" ≤ 180000000
  events : ∃ indexes : List ℕ,
    List.Forall₂ (EventFits (operationsOf loaded.scenario)) loaded.history indexes ∧ indexes.Nodup
  observed : loaded.status ≠ "running" →
    (getD loaded.manifest "operations_observed").eq (.int loaded.history.length) = true
  complete : loaded.status = "pass" →
    loaded.history.length = (operationsOf loaded.scenario).length
  reduction : dir.reduction = none ∧ loaded.reduction = none ∨ ∃ value,
    dir.reduction = some (some value) ∧ stat "reduction.json" ≤ 90000000 ∧
      loaded.reduction = some value

/-- Renaming the exception does not change what goes through. -/
theorem mapError_eq_ok_iff {ε ε' α : Type} {f : ε → ε'} {x : Except ε α} {a : α} :
    x.mapError f = .ok a ↔ x = .ok a := by
  cases x <;> simp [Except.mapError]

/-- The directories that are accepted, and what is read. -/
theorem loadRun_eq_ok_iff {stat : String → ℕ} {dir : Directory} {loaded : Loaded} :
    loadRun stat dir = .ok loaded ↔ Holds stat dir loaded := by
  simp only [loadRun, bind_eq_ok_iff, readJson_eq_ok_iff, readJsonOr_eq_ok_iff, require_eq_ok_iff,
    mapError_eq_ok_iff, loadHistory_eq_ok_iff]
  constructor
  · rintro ⟨manifest, hmanifest, scenario, hscenario, accepted, hvalid, status, hstatus, result,
      hresult, -, hdict, -, hagree, -, hsize, history, ⟨hlines, indexes, hall, hnodup, -⟩, -,
      hobserved, -, hcomplete, reduction, hreduction, h⟩
    cases h
    refine ⟨hmanifest, hscenario, ⟨accepted, hvalid⟩, hstatus, ?_, hdict, hagree, hlines, hsize,
      ⟨indexes, hall, hnodup⟩, hobserved, hcomplete, ?_⟩
    · rcases hresult with ⟨hnone, rfl⟩ | ⟨value, hvalue, hle, rfl⟩
      · exact .inl ⟨hnone, rfl⟩
      · exact .inr ⟨hvalue, hle⟩
    · rcases hreduction with ⟨hnone, rfl⟩ | ⟨value, hvalue, hle, rfl⟩
      · exact .inl ⟨hnone, rfl⟩
      · exact .inr ⟨value, hvalue, hle, rfl⟩
  · intro h
    obtain ⟨accepted, hvalid⟩ := h.valid
    obtain ⟨indexes, hall, hnodup⟩ := h.events
    refine ⟨_, h.manifest, _, h.scenario, accepted, hvalid, _, h.status, some loaded.result, ?_, (),
      h.result_isDict, (), h.agree, (), h.history_size, loaded.history,
      ⟨h.lines, indexes, hall, hnodup, nofun⟩, (), h.observed, (), h.complete, loaded.reduction, ?_,
      rfl⟩
    · rcases h.result with ⟨hnone, hempty⟩ | ⟨hvalue, hle⟩
      · exact .inl ⟨hnone, by rw [hempty]⟩
      · exact .inr ⟨_, hvalue, hle, rfl⟩
    · rcases h.reduction with ⟨hnone, hempty⟩ | ⟨value, hvalue, hle, heq⟩
      · exact .inl ⟨hnone, hempty.symm⟩
      · exact .inr ⟨value, hvalue, hle, heq⟩

/-- A file, or a line of the history, whose text is no JSON. -/
def Directory.Torn (dir : Directory) : Prop :=
  dir.manifest = some none ∨ dir.scenario = some none ∨ dir.result = some none ∨
    none ∈ dir.history.getD [] ∨ dir.reduction = some none

/-- What is accepted can all be read. -/
theorem not_torn_of_loadRun {stat : String → ℕ} {dir : Directory} {loaded : Loaded}
    (h : loadRun stat dir = .ok loaded) : ¬dir.Torn := by
  have hholds := loadRun_eq_ok_iff.mp h
  rintro (hmanifest | hscenario | hresult | hline | hreduction)
  · have := hholds.manifest.1
    rw [hmanifest] at this
    cases this
  · have := hholds.scenario.1
    rw [hscenario] at this
    cases this
  · rcases hholds.result with ⟨hnone, -⟩ | ⟨hread, -⟩
    · rw [hresult] at hnone
      cases hnone
    · rw [hresult] at hread
      cases hread
  · rw [hholds.lines, List.mem_map] at hline
    obtain ⟨event, -, hnone⟩ := hline
    cases hnone
  · rcases hholds.reduction with ⟨hnone, -⟩ | ⟨value, hread, -⟩
    · rw [hreduction] at hnone
      cases hnone
    · rw [hreduction] at hread
      cases hread

/-- A manifest that breaks off is the first thing that is read. -/
theorem loadRun_torn_manifest {stat : String → ℕ} {dir : Directory}
    (hmanifest : dir.manifest = some none) (hsize : stat "manifest.json" ≤ 90000000) :
    loadRun stat dir = .error .decodeError := by
  rw [loadRun, hmanifest, readJson_torn hsize, error_bind]

/-- Of a run that did not come to its end: the result, the line after the last event that can be
read, or the reduction breaks off. -/
theorem loadRun_torn {stat : String → ℕ} {dir : Directory} {manifest scenario : Json}
    {accepted : Scenario} {history : List Json} {indexes : List ℕ}
    (hmanifest : dir.manifest = some (some manifest)) (hscenario : dir.scenario = some (some scenario))
    (hjson : ∀ name, name ≠ "history.jsonl" → stat name ≤ 90000000)
    (hhistory : stat "history.jsonl" ≤ 180000000) (hvalid : validate scenario = .ok accepted)
    (hstatus : checkManifest manifest = .ok "running")
    (hall : List.Forall₂ (EventFits (operationsOf scenario)) history indexes)
    (hnodup : indexes.Nodup)
    (htorn : dir.result = some none ∨ dir.result = none ∧
      (dir.history.getD [] = history.map some ++ [none] ∨
        dir.history.getD [] = history.map some ∧ dir.reduction = some none)) :
    loadRun stat dir = .error .decodeError := by
  have hread : ∀ {name j}, name ≠ "history.jsonl" →
      readJson name (stat name) (some (some j)) = .ok j := fun hname =>
    readJson_eq_ok_iff.mpr ⟨rfl, hjson _ hname⟩
  have haccepted : (validate scenario).mapError Exc.valueError = .ok accepted := by
    rw [hvalid]
    rfl
  have hfresh : ∀ i ∈ indexes, (i : ℤ) ∉ ([] : List ℤ) := by simp
  rw [loadRun, hmanifest, hscenario, hread (by decide), ok_bind, hread (by decide), ok_bind,
    haccepted, ok_bind, hstatus, ok_bind]
  -- the result is read before the history, and the reduction last
  rcases htorn with hresult | ⟨hresult, hlines⟩
  · rw [hresult, readJsonOr_torn (hjson _ (by decide)), error_bind]
  · -- without a result the report goes on to the history
    have hdefault : ∀ size, readJsonOr (some (.dict [])) "result.json" size none =
        .ok (some (.dict [])) := fun _ => rfl
    simp only [hresult, hdefault, ok_bind, Option.getD_some, require, Json.isDict, if_true, ne_eq,
      not_true_eq_false, false_implies, hhistory, implies_true]
    rcases hlines with hlines | ⟨hlines, hreduction⟩
    · rw [hlines, loadHistory_torn hall hnodup hfresh, error_bind]
    · rw [hlines, loadHistory_eq_ok_iff.mpr ⟨rfl, indexes, hall, hnodup, hfresh⟩, ok_bind]
      simp only [String.reduceEq, false_implies, if_true, ok_bind]
      rw [hreduction, readJsonOr_torn (hjson _ (by decide)), error_bind]

/-- Only a string is equal to a string. -/
theorem eq_str_iff {j : Json} {s : String} : j.eq (.str s) = true ↔ j = .str s := by
  cases j with
  | float x => cases x <;> simp [Json.eq, Json.number]
  | _ => simp [Json.eq, Json.number]

/-- What may be concluded from evidence that is accepted. Every event is about an operation of the
scenario, no two about the same; a status other than `running` is that of the result, and the
manifest counts the events; and a pass has an event for each operation. -/
theorem loadRun_sound {stat : String → ℕ} {dir : Directory} {loaded : Loaded}
    (h : loadRun stat dir = .ok loaded) :
    (∃ accepted, validate loaded.scenario = .ok accepted) ∧ loaded.status ∈ statuses ∧
      ∃ indexes : List ℕ,
        List.Forall₂ (EventFits (operationsOf loaded.scenario)) loaded.history indexes ∧
        indexes.Nodup ∧ indexes.length ≤ (operationsOf loaded.scenario).length ∧
        (loaded.status ≠ "running" → loaded.result.get? "status" = some (.str loaded.status) ∧
          (getD loaded.manifest "operations_observed").eq (.int indexes.length) = true) ∧
        (loaded.status = "pass" →
          indexes.Perm (List.range (operationsOf loaded.scenario).length)) := by
  have hholds := loadRun_eq_ok_iff.mp h
  obtain ⟨indexes, hall, hnodup⟩ := hholds.events
  have hlength := hall.length_eq
  have hsubset : indexes ⊆ List.range (operationsOf loaded.scenario).length := by
    intro i hi
    obtain ⟨k, hk, rfl⟩ := List.getElem_of_mem hi
    exact List.mem_range.mpr (hall.get (hlength ▸ hk) hk).index_lt
  have hsubperm := hnodup.subperm hsubset
  refine ⟨hholds.valid, ?_, indexes, hall, hnodup, ?_, fun hdone => ⟨?_, ?_⟩, fun hpass => ?_⟩
  · have hstatus := hholds.status
    simp only [checkManifest, bind_eq_ok_iff, require_eq_ok_iff] at hstatus
    obtain ⟨-, -, -, -, hstatus⟩ := hstatus
    split at hstatus
    next status _ =>
      obtain ⟨_, hmem, heq⟩ := bind_eq_ok_iff.mp hstatus
      cases heq
      exact require_eq_ok_iff.mp hmem
    next => cases hstatus
  · simpa using hsubperm.length_le
  · have hagree := eq_str_iff.mp (hholds.agree hdone)
    cases hget : loaded.result.get? "status" with
    | none => simp [getD, hget] at hagree
    | some v =>
      rw [getD, hget, Option.getD_some] at hagree
      rw [hagree]
  · exact hlength ▸ hholds.observed hdone
  · refine hsubperm.perm_of_length_le ?_
    rw [List.length_range, ← hlength, hholds.complete hpass]

/-- The files of a passing run with one operation. -/
def passing : Directory where
  manifest := some (some (.dict [("schema_version", .int 1), ("backend", .str "simulated"),
    ("status", .str "pass"), ("operations_observed", .int 1)]))
  scenario := some (some (.dict [("version", .int 1), ("capacity", .int 256),
    ("operations", .list [Op.clear.toJson])]))
  result := some (some (.dict [("status", .str "pass")]))
  history := some [some (.dict [("index", .int 0), ("operation", Op.clear.toJson),
    ("elapsed_ns", .int 250)])]

/-- What the evidence of a passing run with one operation allows to conclude. -/
theorem loadRun_sound_passing : ∃ loaded, loadRun (fun _ => 200) passing = .ok loaded ∧
    ∃ indexes : List ℕ,
      List.Forall₂ (EventFits (operationsOf loaded.scenario)) loaded.history indexes ∧
      (loaded.status = "pass" →
        indexes.Perm (List.range (operationsOf loaded.scenario).length)) := by
  have hload : ∃ loaded, loadRun (fun _ => 200) passing = .ok loaded := ⟨_, rfl⟩
  obtain ⟨loaded, hload⟩ := hload
  obtain ⟨-, -, indexes, hall, -, -, -, hpass⟩ := loadRun_sound hload
  exact ⟨loaded, hload, indexes, hall, hpass⟩

end Report

end Lab
