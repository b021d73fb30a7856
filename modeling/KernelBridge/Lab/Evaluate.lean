import KernelBridge.Lab.Backends
import KernelBridge.Lab.Runner

/-!
# Sequential evaluation

`evaluate` of `lab/runner.py`: every operation of a scenario is applied to the reference model and
to a device, and the first difference between the two result dicts ends the evaluation.

The devices are handed the JSON dict of an operation. `readOp` is how both `ReferenceModel.apply`
and `SimulatedDevice.apply` get at its fields, and where they raise; on a dict that `validate`
lets through it reads what `validate` read.

The clock readings, and the record that is kept of each step, are left out.

Main result: `simulator_agrees`, that the simulated device without a fault and the reference model
cannot be told apart.
-/

namespace Lab

open Py

/-! ## Operations as dicts -/

/-- `KeyError(key)`. -/
def Exc.keyError (key : String) : Exc := ⟨"KeyError", "'" ++ key ++ "'"⟩

/-- A `TypeError`, whose text is left out. -/
def Exc.typeError : Exc := ⟨"TypeError", ""⟩

/-- `ValueError(text)`. -/
def Exc.valueError (text : String) : Exc := ⟨"ValueError", text⟩

/-- `op[key]`. -/
def item (op : Json) (key : String) : Except Exc Json :=
  match op with
  | .dict entries =>
    match lookup key entries with
    | some value => .ok value
    | none => .error (.keyError key)
  | _ => .error .typeError

/-- `bytes.fromhex(data)`. -/
def fromHexItem : Json → Except Exc (List UInt8)
  | .str data =>
    match fromHex data with
    | some payload => .ok payload
    | none => .error (.valueError "non-hexadecimal number found in fromhex() arg")
  | _ => .error .typeError

/-- A number used as a count or a capacity. What else than a natural number a dict may hold there
`validate` refuses; it counts as a `TypeError` here. -/
def countItem : Json → Except Exc ℕ
  | .int n => if 0 ≤ n then .ok n.toNat else .error .typeError
  | _ => .error .typeError

/-- The operation in a dict, as both devices take it apart. -/
def readOp (op : Json) : Except Exc Op := do
  let kind ← item op "op"
  if kind.eq (.str "write") then
    let payload ← fromHexItem (← item op "data")
    return .write payload
  else if kind.eq (.str "read") then
    let count ← countItem (← item op "count")
    return .read count
  else if kind.eq (.str "resize") then
    let capacity ← countItem (← item op "capacity")
    return .resize capacity
  else if kind.eq (.str "clear") then return .clear
  else if kind.eq (.str "capacity") then return .capacity
  else throw (.valueError "unknown operation")

/-- `ReferenceModel.apply`, on a dict. -/
def ReferenceModel.applyJson (model : ReferenceModel) (op : Json) :
    Except Exc (Json × ReferenceModel) :=
  (readOp op).map fun op => ((model.apply op).1.toJson, (model.apply op).2)

/-- `SimulatedDevice.apply`, on a dict. -/
def SimulatedDevice.applyJson (device : SimulatedDevice) (op : Json) :
    Except Exc (Json × SimulatedDevice) :=
  (readOp op).map fun op => ((device.apply op).1.toJson, (device.apply op).2)

/-- What `validate` accepts can be taken apart, into what `validate` has read. -/
theorem readOp_of_validateOp {j : Json} {op : Op} (h : validateOp j = .ok op) :
    readOp j = .ok op := by
  unfold validateOp at h
  split at h <;> try cases h
  split at h <;> try cases h
  next entries kind hkind =>
  split_ifs at h with hfields hread hresize hwrite hclear
  · subst hread
    split at h <;> try cases h
    next count hcount =>
    split_ifs at h with hrange
    cases h
    simp [readOp, item, hkind, hcount, countItem, hrange, bind, Except.bind, pure, Except.pure]
  · subst hresize
    split at h <;> try cases h
    next capacity hcapacity =>
    split_ifs at h with hrange
    cases h
    simp [readOp, item, hkind, hcapacity, countItem, hrange, bind, Except.bind, pure, Except.pure]
  · subst hwrite
    split at h <;> try cases h
    next data hdata =>
    split_ifs at h with hlen
    split at h <;> try cases h
    next decoded hdecoded =>
    split_ifs at h
    cases h
    simp [readOp, item, hkind, hdata, fromHexItem, hdecoded, bind, Except.bind, pure, Except.pure]
  · subst hclear
    cases h
    simp [readOp, item, hkind, bind, Except.bind, pure, Except.pure]
  · -- `validate` knows five kinds of operations, and four are dealt with
    obtain rfl : kind = "capacity" := by
      unfold fields at hfields
      split at hfields <;> simp_all
    cases h
    simp [readOp, item, hkind, bind, Except.bind, pure, Except.pure]

/-- On an operation that is accepted, `apply` of the model. -/
theorem ReferenceModel.applyJson_eq {j : Json} {op : Op} (h : validateOp j = .ok op)
    (model : ReferenceModel) :
    model.applyJson j = .ok ((model.apply op).1.toJson, (model.apply op).2) := by
  rw [applyJson, readOp_of_validateOp h, Except.map]

/-- On an operation that is accepted, the simulator without a fault does what the model does. -/
theorem SimulatedDevice.applyJson_eq {j : Json} {op : Op} (h : validateOp j = .ok op)
    (model : ReferenceModel) : (SimulatedDevice.ofModel model).applyJson j =
      .ok ((model.apply op).1.toJson, .ofModel (model.apply op).2) := by
  rw [applyJson, readOp_of_validateOp h, Except.map, apply_eq]

/-! ## Runs -/

/-- The answers to the operations of a list, each with the device after it. -/
def answers {σ : Type*} (apply : σ → Json → Except Exc (Json × σ)) (s : σ) :
    List Json → Except Exc (List (Json × σ))
  | [] => .ok []
  | op :: ops => do
    let (result, s) ← apply s op
    let rest ← answers apply s ops
    return (result, s) :: rest

/-- The answers of the model to operations that `validate` has read. -/
def ReferenceModel.answers (model : ReferenceModel) : List Op → List (Json × ReferenceModel)
  | [] => []
  | op :: ops => ((model.apply op).1.toJson, (model.apply op).2) :: (model.apply op).2.answers ops

variable {elems : List Json} {ops : List Op}

/-- The model never raises on operations that `validate` accepts. -/
theorem answers_referenceModel (h : elems.mapM validateOp = .ok ops) (model : ReferenceModel) :
    answers ReferenceModel.applyJson model elems = .ok (model.answers ops) := by
  rw [mapM_eq_ok_iff] at h
  induction h generalizing model with
  | nil => rfl
  | cons hop _ ih =>
    rw [answers, ReferenceModel.applyJson_eq hop]
    simp only [bind, Except.bind, ih, pure, Except.pure]
    rfl

/-- The simulated device without a fault never raises either, and answers as the model does. -/
theorem answers_simulatedDevice (h : elems.mapM validateOp = .ok ops) (model : ReferenceModel) :
    answers SimulatedDevice.applyJson (.ofModel model) elems =
      .ok ((model.answers ops).map fun x => (x.1, .ofModel x.2)) := by
  rw [mapM_eq_ok_iff] at h
  induction h generalizing model with
  | nil => rfl
  | cons hop _ ih =>
    rw [answers, SimulatedDevice.applyJson_eq hop]
    simp only [bind, Except.bind, ih, pure, Except.pure]
    rfl

/-! ## Evaluation -/

namespace Sequential

/-- A device as `evaluate` uses it: the factory with `__enter__`, `apply` and `__exit__`. -/
structure Device (σ : Type*) where
  enter : ℕ → Except Exc σ
  apply : σ → Json → Except Exc (Json × σ)
  exit : σ → Except Exc Unit

/-- The device factory `SimulatedDevice`, for a fault. -/
def simulated (fault : Fault) : Device SimulatedDevice where
  enter capacity := .ok (.new capacity fault)
  apply := SimulatedDevice.applyJson
  exit _ := .ok ()

/-- A step of the history. -/
structure Entry where
  index : ℕ
  operation : Json
  expected : Json
  actual : Json

/-- The signature of a failure. -/
structure Signature where
  operation : Json
  fields : List String
  expectedErrno : Json
  actualErrno : Json

/-- How the loop over the operations ends. -/
inductive Stop
  | done
  | mismatch (index : ℕ) (signature : Signature)
  | raised (exc : Exc)

/-- What `evaluate` returns. -/
inductive Evaluation
  | pass (history : List Entry)
  | fail (history : List Entry) (index : ℕ) (signature : Signature)
  | inconclusive (history : List Entry) (error : String)

/-- `d.keys()`. -/
def keys : Json → Except Exc (List String)
  | .dict entries => .ok (entries.map Prod.fst)
  | value => .error ⟨"AttributeError", value.noAttribute "keys"⟩

/-- The keys at which two result dicts differ, in order. -/
def differing (expected actual : Json) : Except Exc (List String) := do
  let names := (← keys expected) ++ (← keys actual)
  return (names.dedup.filter fun key => !(getD expected key).eq (getD actual key)).mergeSort
    fun a b => decide (a ≤ b)

/-- The signature of a difference. -/
def signatureOf (op expected actual : Json) (fields : List String) : Except Exc Signature := do
  return { operation := ← item op "op", fields, expectedErrno := ← item expected "errno"
           actualErrno := ← item actual "errno" }

/-- The loop over the operations: the history, how it ended, and the device. -/
def loop {σ : Type*} (device : Device σ) (index : ℕ) (model : ReferenceModel) (s : σ)
    (history : List Entry) : List Json → List Entry × Stop × σ
  | [] => (history, .done, s)
  | op :: ops =>
    match model.applyJson op with
    | .error exc => (history, .raised exc, s)
    | .ok (expected, model) =>
      match device.apply s op with
      | .error exc => (history, .raised exc, s)
      | .ok (actual, s) =>
        match differing expected actual with
        | .error exc => (history, .raised exc, s)
        | .ok fields =>
          let history := history ++ [{ index, operation := op, expected, actual }]
          -- the first difference ends the run
          if fields = [] then loop device (index + 1) model s history ops
          else
            match signatureOf op expected actual fields with
            | .error exc => (history, .raised exc, s)
            | .ok signature => (history, .mismatch index signature, s)

/-- `evaluate(scenario, factory)`. An exception inside the `with` block, or on the way in or out
of it, makes the result inconclusive if `caught` says that it is one of those that are caught. -/
def evaluate {σ : Type*} (device : Device σ) (caught : Exc → Bool) (scenario : Json) :
    Except Exc Evaluation :=
  match validate scenario with
  | .error text => .error (.valueError text)
  | .ok accepted =>
    let operations :=
      match scenario.get? "operations" with
      | some (.list elems) => elems
      | _ => []
    let fallback (history : List Entry) (exc : Exc) : Except Exc Evaluation :=
      if caught exc then .ok (.inconclusive history exc.describe) else .error exc
    match device.enter accepted.capacity with
    | .error exc => fallback [] exc
    | .ok s =>
      let (history, stop, s) := loop device 0 (.new accepted.capacity) s [] operations
      match device.exit s with
      | .error exc => fallback history exc
      | .ok () =>
        match stop with
        | .raised exc => fallback history exc
        | .mismatch index signature => .ok (.fail history index signature)
        | .done => .ok (.pass history)

/-- A result differs nowhere from itself. -/
theorem differing_self (r : Result) : differing r.toJson r.toJson = .ok [] := by
  -- a result holds integers, a string or `None`, and each of these equals itself
  have hself : ∀ key, (getD r.toJson key).eq (getD r.toJson key) = true := by
    intro key
    obtain ⟨ret, errno, data⟩ := r
    rcases data with _ | data
    all_goals
      simp only [getD, Result.toJson, Json.get?, List.cons_append, List.nil_append, lookup]
      split_ifs <;> simp [Json.eq]
  obtain ⟨entries, hentries⟩ : ∃ entries, r.toJson = .dict entries := ⟨_, rfl⟩
  rw [differing, hentries, keys]
  rw [hentries] at hself
  simp [bind, Except.bind, pure, Except.pure, hself]

/-- The loop runs through on the simulated device without a fault: no step differs. -/
theorem loop_simulated {elems : List Json} {ops : List Op} (h : elems.mapM validateOp = .ok ops)
    (index : ℕ) (model : ReferenceModel) (history : List Entry) :
    ∃ history' s, loop (simulated .none) index model (.ofModel model) history elems =
      (history', .done, s) := by
  rw [mapM_eq_ok_iff] at h
  induction h generalizing index model history with
  | nil => exact ⟨history, _, rfl⟩
  | cons hop _ ih =>
    have hdevice : (simulated .none).apply (.ofModel model) _ = _ :=
      SimulatedDevice.applyJson_eq hop model
    -- both sides have read the same operation, and the device holds what the model does
    simp only [loop, ReferenceModel.applyJson_eq hop, hdevice, differing_self, if_true]
    exact ih _ _ _

end Sequential

/-- The simulator and the reference model are observationally equal. From every initial capacity,
on every list of operations that `validate` lets through, neither raises, they give equal result
dicts at every step, and neither ever stores more than its capacity. So every valid scenario passes
on the simulator. -/
theorem simulator_agrees (capacity : ℕ) {elems : List Json} {ops : List Op}
    (hops : elems.mapM validateOp = .ok ops) :
    (∃ expected actual,
      answers ReferenceModel.applyJson (.new capacity) elems = .ok expected ∧
      answers SimulatedDevice.applyJson (.new capacity .none) elems = .ok actual ∧
      expected.map Prod.fst = actual.map Prod.fst ∧
      (∀ x ∈ expected, x.2.data.length ≤ x.2.capacity) ∧
      ∀ x ∈ actual, x.2.queue.length ≤ x.2.capacity) ∧
    ∀ (caught : Exc → Bool) (scenario : Json) (accepted : Scenario),
      validate scenario = .ok accepted → ∃ history,
        Sequential.evaluate (Sequential.simulated .none) caught scenario =
          .ok (.pass history) := by
  constructor
  · refine ⟨_, _, answers_referenceModel hops _,
      answers_simulatedDevice hops (.new capacity), ?_, ?_, ?_⟩
    · rw [List.map_map]
      rfl
    · exact fun x _ => x.2.fits
    · intro x hx
      -- the states of the simulator are those of the model
      obtain ⟨y, -, rfl⟩ := List.mem_map.mp hx
      exact y.2.fits
  · intro caught scenario accepted hvalid
    obtain ⟨-, -, elems, helems, hread⟩ := validate_ok_iff.mp hvalid
    obtain ⟨history, s, hloop⟩ := Sequential.loop_simulated hread 0 (.new accepted.capacity) []
    refine ⟨history, ?_⟩
    have henter : (Sequential.simulated .none).enter accepted.capacity =
        .ok (.ofModel (.new accepted.capacity)) := rfl
    have hexit : (Sequential.simulated .none).exit s = .ok () := rfl
    simp only [Sequential.evaluate, hvalid, helems, henter, hloop, hexit]

/-- The two on a write that is cut short, a resize out of range and one that is too small. -/
theorem simulator_agrees_small : ∃ expected actual,
    answers ReferenceModel.applyJson (.new 256) ([Op.write (List.replicate 300 7), .resize 255,
      .read 10, .resize 256, .write [], .capacity].map Op.toJson) = .ok expected ∧
    answers SimulatedDevice.applyJson (.new 256 .none) ([Op.write (List.replicate 300 7),
      .resize 255, .read 10, .resize 256, .write [], .capacity].map Op.toJson) = .ok actual ∧
    expected.map Prod.fst = actual.map Prod.fst ∧
    (∀ x ∈ expected, x.2.data.length ≤ x.2.capacity) ∧
    ∀ x ∈ actual, x.2.queue.length ≤ x.2.capacity :=
  (simulator_agrees 256 (mapM_validateOp_toJson (by simp [Op.Valid, maxTransfer, -List.reduceReplicate]))).1

end Lab
