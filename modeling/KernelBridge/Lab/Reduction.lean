import KernelBridge.Lab.Evaluate
import KernelBridge.Lab.Replay

/-!
# The sequential reducer

`reduce_scenario` of `lab/runner.py`: delete operations from a failing scenario for as long as what
is left still fails with the same signature.

The device is any state machine, so what it does depends on the operations applied so far and on
nothing else, and a candidate may fail earlier, later or in another way than the scenario did.
`reduceScenario_minimal` says what the reducer promises all the same: a part of the scenario that
fails with its signature, within the budget, and unless the budget is spent no operation of it can
be left out.

The `while` loop is bounded by `fuel`, and `none` says that it has not left within that bound.
-/

namespace Lab.Sequential

open Py

/-! ## The reducer -/

/-- A signature as the dict it is. -/
def Signature.toJson (signature : Signature) : Json :=
  .dict [("operation", signature.operation), ("fields", .list (signature.fields.map .str)),
    ("expected_errno", signature.expectedErrno), ("actual_errno", signature.actualErrno)]

/-- `observed["status"] == "fail" and observed["signature"] == original["signature"]`. -/
def Evaluation.failsWith (signature : Signature) : Evaluation → Bool
  | .fail _ _ observed => observed.toJson.eq signature.toJson
  | _ => false

/-- The variables of the search. -/
structure Reducing where
  operations : List Json
  granularity : ℕ
  attempts : ℕ

/-- The report that `reduce_scenario` returns with the scenario. -/
structure Reduction where
  attempts : ℕ
  budget : ℤ
  originalOperations : ℕ
  reducedOperations : ℕ
  confirmed : Bool
  confirmation : Evaluation

/-- `{**scenario, "operations": operations}`. -/
def withOperations (scenario : Json) (operations : List Json) : Json :=
  Json.set "operations" (.list operations) scenario

section Reducer

variable {σ : Type*} (device : Device σ) (caught : Exc → Bool) (scenario : Json)
  (signature : Signature) (budget : ℤ)

/-- The loop over the deletions. The flag is `changed`. -/
def sweep (chunk : ℕ) : List ℕ → Reducing → Except Exc (Bool × Reducing)
  | [], s => .ok (false, s)
  | start :: rest, s =>
    let candidate := s.operations.take start ++ s.operations.drop (start + chunk)
    if candidate.isEmpty then sweep chunk rest s
    else do
      let s := { s with attempts := s.attempts + 1 }
      let observed ← evaluate device caught (withOperations scenario candidate)
      if observed.failsWith signature then
        return (true, { s with operations := candidate, granularity := max 2 (s.granularity - 1) })
      else if budget ≤ s.attempts then return (false, s)
      else sweep chunk rest s

/-- One round of the `while` loop. -/
def round (s : Reducing) : Reducing ⊕ Except Exc Reducing :=
  let size := s.operations.length
  if ¬(1 < size ∧ s.attempts < budget) then .inr (.ok s)
  else
    let chunk := (size + s.granularity - 1) / s.granularity
    match sweep device caught scenario signature budget chunk (Deletion.offsets size chunk) s with
    | .error exc => .inr (.error exc)
    | .ok (true, s) => .inl s
    | .ok (false, s) =>
      if s.operations.length ≤ s.granularity then .inr (.ok s)
      else .inl { s with granularity := min s.operations.length (s.granularity * 2) }

/-- `reduce_scenario(scenario, factory, budget)`. -/
def reduceScenario (fuel : ℕ) : Except Exc (Option (Json × Reduction)) := do
  match ← evaluate device caught scenario with
  | .fail _ index signature =>
    let operations := (operationsOf scenario).take (index + 1)
    match Loop.run (round device caught scenario signature budget) fuel
        { operations, granularity := 2, attempts := 0 } with
    | none => return none
    | some result =>
      let s ← result
      let reduced := withOperations scenario s.operations
      let confirmation ← evaluate device caught reduced
      return some (reduced,
        { attempts := s.attempts
          budget
          originalOperations := (operationsOf scenario).length
          reducedOperations := s.operations.length
          confirmed := confirmation.failsWith signature
          confirmation })
  | _ => throw (.valueError "reduction requires a reproducible contract failure")

end Reducer

/-! ## Evaluating a part -/

section Evaluate

variable {σ : Type*} {device : Device σ} {caught : Exc → Bool} {scenario : Json}

/-- Where there is a mismatch, the first operation has it, or the loop goes on behind it. Neither
depends on the operations that follow. -/
theorem loop_cons {op : Json} {ops : List Json} {index k : ℕ} {model : ReferenceModel} {s s' : σ}
    {history history' : List Entry} {signature : Signature}
    (h : loop device index model s history (op :: ops) = (history', .mismatch k signature, s')) :
    (k = index ∧ ∀ rest, loop device index model s history (op :: rest) =
      (history', .mismatch k signature, s')) ∨
    ∃ model' t history'', ∀ rest, loop device index model s history (op :: rest) =
      loop device (index + 1) model' t history'' rest := by
  simp only [loop] at h ⊢
  cases hmodel : model.applyJson op with
  | error exc =>
    rw [hmodel] at h
    cases h
  | ok result =>
    obtain ⟨expected, model'⟩ := result
    simp only [hmodel] at h ⊢
    cases hdevice : device.apply s op with
    | error exc =>
      rw [hdevice] at h
      cases h
    | ok result =>
      obtain ⟨actual, t⟩ := result
      simp only [hdevice] at h ⊢
      cases hfields : differing expected actual with
      | error exc =>
        rw [hfields] at h
        cases h
      | ok fields =>
        simp only [hfields] at h ⊢
        by_cases hnil : fields = []
        · simp only [if_pos hnil]
          exact .inr ⟨model', t, _, fun _ => rfl⟩
        · simp only [if_neg hnil] at h ⊢
          cases hsignature : signatureOf op expected actual fields with
          | error exc =>
            rw [hsignature] at h
            cases h
          | ok found =>
            rw [hsignature] at h
            cases h
            exact .inl ⟨rfl, fun _ => rfl⟩

/-- The mismatch is at one of the operations. -/
theorem loop_bounds {ops : List Json} {index k : ℕ} {model : ReferenceModel} {s s' : σ}
    {history history' : List Entry} {signature : Signature}
    (h : loop device index model s history ops = (history', .mismatch k signature, s')) :
    index ≤ k ∧ k < index + ops.length := by
  induction ops generalizing index model s history with
  | nil => cases h
  | cons op ops ih =>
    rw [List.length_cons]
    rcases loop_cons h with ⟨rfl, -⟩ | ⟨model', t, history'', hnext⟩
    · omega
    · have := ih ((hnext ops).symm.trans h)
      omega

/-- The loop does not look behind a mismatch. -/
theorem loop_take {ops : List Json} {index k : ℕ} {model : ReferenceModel} {s s' : σ}
    {history history' : List Entry} {signature : Signature}
    (h : loop device index model s history ops = (history', .mismatch k signature, s')) {n : ℕ}
    (hn : k < index + n) :
    loop device index model s history (ops.take n) = (history', .mismatch k signature, s') := by
  induction ops generalizing index n model s history with
  | nil => cases h
  | cons op ops ih =>
    cases n with
    | zero =>
      have := (loop_bounds h).1
      omega
    | succ n =>
      rw [List.take_succ_cons]
      rcases loop_cons h with ⟨-, hlast⟩ | ⟨model', t, history'', hnext⟩
      · exact hlast (ops.take n)
      · rw [hnext]
        exact ih ((hnext ops).symm.trans h) (by omega)

/-- What `evaluate` does with the operations of a valid scenario. -/
def execute (device : Device σ) (caught : Exc → Bool) (capacity : ℕ) (operations : List Json) :
    Except Exc Evaluation :=
  let fallback (history : List Entry) (exc : Exc) : Except Exc Evaluation :=
    if caught exc then .ok (.inconclusive history exc.describe) else .error exc
  match device.enter capacity with
  | .error exc => fallback [] exc
  | .ok s =>
    let (history, stop, s) := loop device 0 (.new capacity) s [] operations
    match device.exit s with
    | .error exc => fallback history exc
    | .ok () =>
      match stop with
      | .raised exc => fallback history exc
      | .mismatch index signature => .ok (.fail history index signature)
      | .done => .ok (.pass history)

/-- `evaluate` on an accepted scenario, as a function of its operations. -/
theorem evaluate_eq_execute {accepted : Scenario} (h : validate scenario = .ok accepted) :
    evaluate device caught scenario =
      execute device caught accepted.capacity (operationsOf scenario) := by
  unfold evaluate
  rw [h]
  rfl

/-- The operations that were put into the scenario. -/
theorem operationsOf_withOperations {accepted : Scenario} (h : validate scenario = .ok accepted)
    (operations : List Json) : operationsOf (withOperations scenario operations) = operations := by
  obtain ⟨⟨v, hv, -⟩, -⟩ := validate_ok_iff.mp h
  cases scenario with
  | dict entries => simp [operationsOf, withOperations, Json.get?_set]
  | _ => cases hv

/-- Some of the operations, if there are any, are a valid scenario with the same capacity. -/
theorem validate_withOperations {accepted : Scenario} (h : validate scenario = .ok accepted)
    {operations : List Json} (hsub : operations.Sublist (operationsOf scenario))
    (hne : operations ≠ []) : ∃ accepted', validate (withOperations scenario operations) =
      .ok accepted' ∧ accepted'.capacity = accepted.capacity := by
  obtain ⟨⟨v, hv, -⟩, hcapacity, -⟩ := validate_ok_iff.mp h
  cases scenario with
  | dict entries =>
    have hget (key : String) : (withOperations (.dict entries) operations).get? key =
        if key = "operations" then some (.list operations) else (Json.dict entries).get? key :=
      Json.get?_set _ _ _ _
    obtain ⟨accepted', haccepted'⟩ := Replay.exists_validate h (hget "version") (hget "capacity")
      (hget "operations") hsub hne
    refine ⟨accepted', haccepted', ?_⟩
    have hsame := (validate_ok_iff.mp haccepted').2.1.symm.trans ((hget "capacity").trans hcapacity)
    exact_mod_cast Json.int.inj (Option.some.inj hsame)
  | _ => cases hv

/-- The evaluation is interrupted by what the device or the loop raises, or the device is left in
the regular way and the end of the loop is the result. -/
theorem execute_cases (device : Device σ) (caught : Exc → Bool) (capacity : ℕ)
    (operations : List Json) :
    (∃ history exc, execute device caught capacity operations =
        (if caught exc then .ok (.inconclusive history exc.describe) else .error exc) ∧
      (device.enter capacity = .error exc ∨ ∃ s, device.enter capacity = .ok s ∧
        (device.exit (loop device 0 (.new capacity) s [] operations).2.2 = .error exc ∨
          (loop device 0 (.new capacity) s [] operations).2.1 = .raised exc))) ∨
    ∃ s history stop s', device.enter capacity = .ok s ∧
      loop device 0 (.new capacity) s [] operations = (history, stop, s') ∧
      device.exit s' = .ok () ∧
      (stop = .done ∧ execute device caught capacity operations = .ok (.pass history) ∨
        ∃ index signature, stop = .mismatch index signature ∧
          execute device caught capacity operations = .ok (.fail history index signature)) := by
  unfold execute
  dsimp only
  cases henter : device.enter capacity with
  | error exc => exact .inl ⟨[], exc, rfl, .inl rfl⟩
  | ok s =>
    dsimp only
    rcases hloop : loop device 0 (.new capacity) s [] operations with ⟨history, stop, s'⟩
    dsimp only
    cases hexit : device.exit s' with
    | error exc => exact .inl ⟨history, exc, rfl, .inr ⟨s, rfl, .inl (by rw [hloop]; exact hexit)⟩⟩
    | ok =>
      cases stop with
      | done => exact .inr ⟨s, history, _, s', rfl, hloop, hexit, .inl ⟨rfl, rfl⟩⟩
      | mismatch index signature =>
        exact .inr ⟨s, history, _, s', rfl, hloop, hexit, .inr ⟨index, signature, rfl, rfl⟩⟩
      | raised exc => exact .inl ⟨history, exc, rfl, .inr ⟨s, rfl, .inr (by rw [hloop])⟩⟩

/-- A failure is found by the loop over the operations, and is left in the same way by the device. -/
theorem execute_eq_fail_iff {capacity : ℕ} {operations : List Json} {history : List Entry}
    {index : ℕ} {signature : Signature} :
    execute device caught capacity operations = .ok (.fail history index signature) ↔
      ∃ s s', device.enter capacity = .ok s ∧
        loop device 0 (.new capacity) s [] operations =
          (history, .mismatch index signature, s') ∧ device.exit s' = .ok () := by
  constructor
  · intro h
    rcases execute_cases device caught capacity operations with
      ⟨before, exc, heq, -⟩ | ⟨s, passed, stop, s', henter, hloop, hexit, hstop⟩
    · rw [heq] at h
      split_ifs at h
      cases h
    · rcases hstop with ⟨-, heq⟩ | ⟨k, found, rfl, heq⟩
      · rw [heq] at h
        cases h
      · rw [heq] at h
        cases h
        exact ⟨s, s', henter, hloop, hexit⟩
  · rintro ⟨s, s', henter, hloop, hexit⟩
    unfold execute
    simp only [henter, hloop, hexit]

/-- An evaluation that fails does so without the operations behind the failure. -/
theorem execute_take {capacity : ℕ} {operations : List Json} {history : List Entry} {index : ℕ}
    {signature : Signature}
    (h : execute device caught capacity operations = .ok (.fail history index signature)) :
    index < operations.length ∧ ∀ n, index < n →
      execute device caught capacity (operations.take n) =
        .ok (.fail history index signature) := by
  obtain ⟨s, s', henter, hloop, hexit⟩ := execute_eq_fail_iff.mp h
  refine ⟨by simpa using (loop_bounds hloop).2, fun n hn => ?_⟩
  exact execute_eq_fail_iff.mpr ⟨s, s', henter, loop_take hloop (by omega), hexit⟩

/-- The evaluation of a scenario with some of the operations. -/
theorem evaluate_withOperations {accepted : Scenario} (h : validate scenario = .ok accepted)
    {operations : List Json} (hsub : operations.Sublist (operationsOf scenario))
    (hne : operations ≠ []) : evaluate device caught (withOperations scenario operations) =
      execute device caught accepted.capacity operations := by
  obtain ⟨accepted', haccepted', hcapacity⟩ := validate_withOperations h hsub hne
  rw [evaluate_eq_execute haccepted', hcapacity, operationsOf_withOperations h]

/-- The device answers valid operations with result dicts, and what it raises is caught. -/
structure Device.Responds (device : Device σ) (caught : Exc → Bool) : Prop where
  enter : ∀ capacity exc, device.enter capacity = .error exc → caught exc = true
  apply : ∀ s op op' exc, validateOp op = .ok op' → device.apply s op = .error exc →
    caught exc = true
  answer : ∀ s op op' actual s', validateOp op = .ok op' → device.apply s op = .ok (actual, s') →
    actual.isDict = true
  exit : ∀ s exc, device.exit s = .error exc → caught exc = true

/-- A result can be compared with any dict. -/
theorem exists_differing (r : Result) {actual : Json} (h : actual.isDict = true) :
    ∃ fields, differing r.toJson actual = .ok fields := by
  obtain ⟨entries, rfl⟩ := Replay.exists_of_isDict h
  exact ⟨_, rfl⟩

/-- A signature lacks nothing but the error number of the answer. -/
theorem signatureOf_error {op actual : Json} {op' : Op} (hop : validateOp op = .ok op')
    (r : Result) (h : actual.isDict = true) {fields : List String} {exc : Exc}
    (herror : signatureOf op r.toJson actual fields = .error exc) : exc = .keyError "errno" := by
  obtain ⟨entries, rfl⟩ := Replay.exists_of_isDict h
  obtain ⟨kind, hkind, -⟩ := bind_eq_ok_iff.mp (readOp_of_validateOp hop)
  have herrno : item r.toJson "errno" = .ok (.int r.errno) := rfl
  rw [signatureOf, hkind, herrno] at herror
  simp only [item, bind, Except.bind] at herror
  cases hactual : lookup "errno" entries with
  | none =>
    rw [hactual] at herror
    cases herror
    rfl
  | some value =>
    rw [hactual] at herror
    cases herror

/-- What ends the loop over valid operations is caught. -/
theorem loop_caught (hresponds : device.Responds caught)
    (hkey : ∀ key, caught (.keyError key) = true) {elems : List Json} {ops : List Op}
    (h : elems.mapM validateOp = .ok ops) {index : ℕ} {model : ReferenceModel} {s s' : σ}
    {history history' : List Entry} {exc : Exc}
    (hloop : loop device index model s history elems = (history', .raised exc, s')) :
    caught exc = true := by
  rw [mapM_eq_ok_iff] at h
  induction h generalizing index model s history with
  | nil => cases hloop
  | @cons op op' _ _ hop _ ih =>
    simp only [loop, ReferenceModel.applyJson_eq hop] at hloop
    cases hdevice : device.apply s op with
    | error raised =>
      rw [hdevice] at hloop
      cases hloop
      exact hresponds.apply _ _ _ _ hop hdevice
    | ok result =>
      obtain ⟨actual, t⟩ := result
      have hdict := hresponds.answer s op op' actual t hop hdevice
      obtain ⟨fields, hfields⟩ := exists_differing (model.apply op').1 hdict
      simp only [hdevice, hfields] at hloop
      by_cases hnil : fields = []
      · rw [if_pos hnil] at hloop
        exact ih hloop
      rw [if_neg hnil] at hloop
      cases hsignature : signatureOf op (model.apply op').1.toJson actual fields with
      | error raised =>
        rw [hsignature] at hloop
        cases hloop
        exact signatureOf_error hop _ hdict hsignature ▸ hkey _
      | ok found =>
        rw [hsignature] at hloop
        cases hloop

/-- So `evaluate` returns. -/
theorem exists_evaluate (hresponds : device.Responds caught)
    (hkey : ∀ key, caught (.keyError key) = true) {accepted : Scenario}
    (h : validate scenario = .ok accepted) :
    ∃ result, evaluate device caught scenario = .ok result := by
  obtain ⟨-, -, elems, helems, hops⟩ := validate_ok_iff.mp h
  rw [evaluate_eq_execute h, operationsOf, helems]
  rcases execute_cases device caught accepted.capacity elems with
    ⟨history, exc, heq, hraised⟩ | ⟨s, history, stop, s', -, -, -, hstop⟩
  · have hcaught : caught exc = true := by
      rcases hraised with henter | ⟨s, -, hexit | hloop⟩
      · exact hresponds.enter _ exc henter
      · exact hresponds.exit _ exc hexit
      · exact loop_caught hresponds hkey hops (Prod.ext rfl (Prod.ext hloop rfl))
    exact ⟨_, heq.trans (if_pos hcaught)⟩
  · rcases hstop with ⟨-, heq⟩ | ⟨index, signature, -, heq⟩
    · exact ⟨_, heq⟩
    · exact ⟨_, heq⟩

end Evaluate

/-! ## The search -/

section Search

variable {σ : Type*} {device : Device σ} {caught : Exc → Bool} {scenario : Json}
  {signature : Signature} {budget : ℤ} {whole : List Json}

/-- The evaluation of the scenario fails with this signature. -/
def StillFails (device : Device σ) (caught : Exc → Bool) (signature : Signature)
    (scenario : Json) : Prop :=
  ∃ observed, evaluate device caught scenario = .ok observed ∧
    observed.failsWith signature = true

/-- The state of the search between two evaluations: a part of `whole` that fails with the
signature. -/
structure Keeps (device : Device σ) (caught : Exc → Bool) (scenario : Json)
    (signature : Signature) (budget : ℤ) (whole : List Json) (s : Reducing) : Prop where
  sublist : s.operations.Sublist whole
  ne_nil : s.operations ≠ []
  stillFails : StillFails device caught signature (withOperations scenario s.operations)
  two_le : 2 ≤ s.granularity
  attempts_le : (s.attempts : ℤ) ≤ budget

/-- The loop over the deletions. If it changes nothing and leaves some of the budget, every deletion
has been tried in vain. -/
theorem sweep_keeps {chunk : ℕ} {starts : List ℕ} {s s' : Reducing} {changed : Bool}
    (h : Keeps device caught scenario signature budget whole s) (hbudget : s.attempts < budget)
    (hchunk : chunk < s.operations.length)
    (hsweep : sweep device caught scenario signature budget chunk starts s = .ok (changed, s')) :
    Keeps device caught scenario signature budget whole s' ∧ s.attempts ≤ s'.attempts ∧
      (starts ≠ [] → s.attempts < s'.attempts) ∧
      (changed = false → s'.operations = s.operations ∧ s'.granularity = s.granularity ∧
        (s'.attempts < budget → ∀ start ∈ starts, ¬StillFails device caught signature
          (withOperations scenario (Deletion.delete chunk start s.operations)))) := by
  induction starts generalizing s with
  | nil =>
    cases hsweep
    exact ⟨h, le_rfl, fun hne => absurd rfl hne, fun _ => ⟨rfl, rfl, fun _ => by simp⟩⟩
  | cons start rest ih =>
    -- fewer operations are deleted than there are, so no candidate is skipped
    have hne : Deletion.delete chunk start s.operations ≠ [] := Deletion.delete_ne_nil hchunk
    rw [sweep] at hsweep
    change (if (Deletion.delete chunk start s.operations).isEmpty then _ else _) = _ at hsweep
    rw [if_neg (by simpa using hne)] at hsweep
    obtain ⟨observed, hobserved, hsweep⟩ := bind_eq_ok_iff.mp hsweep
    change evaluate device caught (withOperations scenario
      (Deletion.delete chunk start s.operations)) = _ at hobserved
    have hspent : ((s.attempts + 1 : ℕ) : ℤ) ≤ budget := by omega
    by_cases hfails : observed.failsWith signature = true
    · rw [if_pos hfails] at hsweep
      cases hsweep
      refine ⟨⟨(Deletion.delete_sublist _ _ _).trans h.sublist, hne, ⟨observed, hobserved, hfails⟩,
        le_max_left _ _, hspent⟩, Nat.le_succ _, fun _ => Nat.lt_succ_self _, nofun⟩
    · have hnot : ¬StillFails device caught signature
          (withOperations scenario (Deletion.delete chunk start s.operations)) := by
        rintro ⟨observed', hobserved', hfails'⟩
        obtain rfl : observed = observed' := Except.ok.inj (hobserved.symm.trans hobserved')
        exact hfails hfails'
      rw [if_neg hfails] at hsweep
      by_cases hlast : budget ≤ ((s.attempts + 1 : ℕ) : ℤ)
      · rw [if_pos hlast] at hsweep
        cases hsweep
        exact ⟨{ h with attempts_le := hspent }, Nat.le_succ _, fun _ => Nat.lt_succ_self _,
          fun _ => ⟨rfl, rfl, fun hlt => absurd hlast (not_le.mpr hlt)⟩⟩
      · rw [if_neg hlast] at hsweep
        obtain ⟨hkeeps, hle, -, hrest⟩ := ih (s := { s with attempts := s.attempts + 1 })
          { h with attempts_le := hspent } (not_le.mp hlast) hchunk hsweep
        refine ⟨hkeeps, (Nat.le_succ _).trans hle, fun _ => hle, fun hno => ?_⟩
        obtain ⟨hoperations, hgranularity, hnone⟩ := hrest hno
        refine ⟨hoperations, hgranularity, fun hlt => ?_⟩
        rw [List.forall_mem_cons]
        exact ⟨hnot, hnone hlt⟩

/-- The deletions of a round: there are some, of some but not all operations. -/
theorem Keeps.chunk {s : Reducing} (h : Keeps device caught scenario signature budget whole s)
    (hsize : 1 < s.operations.length) :
    0 < (s.operations.length + s.granularity - 1) / s.granularity ∧
      (s.operations.length + s.granularity - 1) / s.granularity < s.operations.length ∧
      Deletion.offsets s.operations.length
        ((s.operations.length + s.granularity - 1) / s.granularity) ≠ [] := by
  have htwo := h.two_le
  have hpos : 0 < (s.operations.length + s.granularity - 1) / s.granularity :=
    Nat.div_pos (by omega) (by omega)
  refine ⟨hpos, ?_, List.ne_nil_of_mem (List.mem_map.mpr
    ⟨0, List.mem_range.mpr (Nat.div_pos (by omega) hpos), rfl⟩)⟩
  exact Deletion.Method.width_lt (m := ⟨false, Deletion.delete, fun _ : List Json => false⟩) hsize
    htwo

/-- No single operation can be left out. -/
def Minimal (device : Device σ) (caught : Exc → Bool) (scenario : Json) (signature : Signature)
    (operations : List Json) : Prop :=
  1 < operations.length → ∀ i < operations.length,
    ¬StillFails device caught signature (withOperations scenario (Deletion.delete 1 i operations))

/-- A round of the search. One that goes on has tried a candidate, and the last one has tried to
leave out each operation, unless it has spent the budget. -/
theorem round_keeps {s : Reducing} (h : Keeps device caught scenario signature budget whole s) :
    (∀ s', round device caught scenario signature budget s = .inl s' →
      Keeps device caught scenario signature budget whole s' ∧ s.attempts < s'.attempts) ∧
    ∀ s', round device caught scenario signature budget s = .inr (.ok s') →
      Keeps device caught scenario signature budget whole s' ∧
        (s'.attempts < budget → Minimal device caught scenario signature s'.operations) := by
  unfold round
  dsimp only
  by_cases hgo : ¬(1 < s.operations.length ∧ s.attempts < budget)
  · rw [if_pos hgo]
    refine ⟨nofun, fun s' hs' => ?_⟩
    cases hs'
    exact ⟨h, fun hlt hsize => absurd ⟨hsize, hlt⟩ hgo⟩
  rw [if_neg hgo]
  obtain ⟨hsize, hbudget⟩ := not_not.mp hgo
  obtain ⟨hpos, hchunk, hne⟩ := h.chunk hsize
  cases hsweep : sweep device caught scenario signature budget
      ((s.operations.length + s.granularity - 1) / s.granularity)
      (Deletion.offsets s.operations.length
        ((s.operations.length + s.granularity - 1) / s.granularity)) s with
  | error exc => exact ⟨nofun, nofun⟩
  | ok result =>
    obtain ⟨changed, t⟩ := result
    obtain ⟨ht, -, hlt, hsame⟩ := sweep_keeps h hbudget hchunk hsweep
    cases changed with
    | true =>
      refine ⟨fun s' hs' => ?_, nofun⟩
      cases hs'
      exact ⟨ht, hlt hne⟩
    | false =>
      obtain ⟨hoperations, hgranularity, hnone⟩ := hsame rfl
      dsimp only
      by_cases hfinest : t.operations.length ≤ t.granularity
      · rw [if_pos hfinest]
        refine ⟨nofun, fun s' hs' => ?_⟩
        cases hs'
        refine ⟨ht, fun hleft _ i hi => ?_⟩
        -- the operations were left out one at a time
        rw [hoperations, hgranularity] at hfinest
        rw [hoperations] at hi ⊢
        have hone : (s.operations.length + s.granularity - 1) / s.granularity = 1 :=
          Nat.div_eq_of_lt_le (by omega) (by omega)
        have hall := hnone hleft i
        rw [hone, Deletion.offsets_one] at hall
        exact hall (List.mem_range.mpr hi)
      · rw [if_neg hfinest]
        refine ⟨fun s' hs' => ?_, nofun⟩
        cases hs'
        have htwo : 2 ≤ min t.operations.length (t.granularity * 2) := by
          have := ht.two_le
          rw [hoperations, le_min_iff]
          omega
        exact ⟨{ ht with two_le := htwo }, hlt hne⟩

/-- A search that has ended. -/
theorem search_keeps {fuel : ℕ} {s s' : Reducing}
    (h : Keeps device caught scenario signature budget whole s)
    (hrun : Loop.run (round device caught scenario signature budget) fuel s = some (.ok s')) :
    Keeps device caught scenario signature budget whole s' ∧
      (s'.attempts < budget → Minimal device caught scenario signature s'.operations) :=
  Loop.run_invariant (I := Keeps device caught scenario signature budget whole)
    (Q := fun result => ∀ t, result = .ok t →
      Keeps device caught scenario signature budget whole t ∧
        (t.attempts < budget → Minimal device caught scenario signature t.operations))
    (fun _ _ ht hround => ((round_keeps ht).1 _ hround).1)
    (fun _ _ ht hround t hresult => (round_keeps ht).2 t (hresult ▸ hround)) h hrun s' rfl

section Responds

variable (hresponds : device.Responds caught) (hkey : ∀ key, caught (.keyError key) = true)
  {accepted : Scenario} (hvalid : validate scenario = .ok accepted)

include hresponds hkey hvalid

/-- A part of an accepted scenario can be evaluated. -/
theorem exists_evaluate_withOperations {operations : List Json}
    (hsub : operations.Sublist (operationsOf scenario)) (hne : operations ≠ []) :
    ∃ result, evaluate device caught (withOperations scenario operations) = .ok result := by
  obtain ⟨accepted', haccepted', -⟩ := validate_withOperations hvalid hsub hne
  exact exists_evaluate hresponds hkey haccepted'

/-- No candidate makes the search raise. -/
theorem exists_sweep {chunk : ℕ} (starts : List ℕ) {s : Reducing}
    (hsub : s.operations.Sublist (operationsOf scenario)) (hchunk : chunk < s.operations.length) :
    ∃ result, sweep device caught scenario signature budget chunk starts s = .ok result := by
  induction starts generalizing s with
  | nil => exact ⟨_, rfl⟩
  | cons start rest ih =>
    have hne : Deletion.delete chunk start s.operations ≠ [] := Deletion.delete_ne_nil hchunk
    obtain ⟨observed, hobserved⟩ := exists_evaluate_withOperations hresponds hkey hvalid
      ((Deletion.delete_sublist chunk start _).trans hsub) hne
    obtain ⟨result, hrest⟩ := ih (s := { s with attempts := s.attempts + 1 }) hsub hchunk
    rw [sweep]
    change ∃ result, (if (Deletion.delete chunk start s.operations).isEmpty then _ else
      (evaluate device caught (withOperations scenario
        (Deletion.delete chunk start s.operations))).bind _) = _
    rw [if_neg (by simpa using hne), hobserved]
    simp only [Except.bind]
    split_ifs
    · exact ⟨_, rfl⟩
    · exact ⟨_, rfl⟩
    · exact ⟨result, hrest⟩

/-- So the search is not left with an error. -/
theorem exists_of_round {s : Reducing} (hsub : whole.Sublist (operationsOf scenario))
    (h : Keeps device caught scenario signature budget whole s) {result : Except Exc Reducing}
    (hround : round device caught scenario signature budget s = .inr result) :
    ∃ s', result = .ok s' := by
  unfold round at hround
  dsimp only at hround
  by_cases hgo : ¬(1 < s.operations.length ∧ s.attempts < budget)
  · rw [if_pos hgo] at hround
    exact ⟨s, (Sum.inr.inj hround).symm⟩
  rw [if_neg hgo] at hround
  obtain ⟨-, hchunk, -⟩ := h.chunk (not_not.mp hgo).1
  obtain ⟨⟨changed, t⟩, hsweep⟩ : ∃ result, sweep device caught scenario signature budget
      ((s.operations.length + s.granularity - 1) / s.granularity)
      (Deletion.offsets s.operations.length
        ((s.operations.length + s.granularity - 1) / s.granularity)) s = .ok result :=
    exists_sweep hresponds hkey hvalid _ (h.sublist.trans hsub) hchunk
  rw [hsweep] at hround
  cases changed with
  | true => cases hround
  | false =>
    dsimp only at hround
    split_ifs at hround
    exact ⟨t, (Sum.inr.inj hround).symm⟩

/-- The attempts that are left bound the rounds, so the search ends. -/
theorem exists_search {fuel : ℕ} {s : Reducing} (hsub : whole.Sublist (operationsOf scenario))
    (h : Keeps device caught scenario signature budget whole s) (hfuel : budget.toNat < fuel) :
    ∃ s', Loop.run (round device caught scenario signature budget) fuel s = some (.ok s') := by
  obtain ⟨result, hrun, s', rfl⟩ := Loop.run_of_variant
    (I := Keeps device caught scenario signature budget whole)
    (Q := fun result => ∃ s', result = Except.ok s')
    (fun t => budget.toNat - t.attempts)
    (fun t t' ht hround => by
      obtain ⟨ht', hlt⟩ := (round_keeps ht).1 t' hround
      have := ht'.attempts_le
      exact ⟨ht', by omega⟩)
    (fun t result ht hround => exists_of_round hresponds hkey hvalid hsub ht hround)
    h (show budget.toNat - s.attempts < fuel by omega)
  exact ⟨s', hrun⟩

end Responds

end Search

/-! ## Runs -/

section Runs

variable {σ : Type*} {device : Device σ} {caught : Exc → Bool} {scenario : Json}
  {signature : Signature} {budget : ℤ}

/-- What the reducer promises of the scenario and the report that it returns. -/
structure Preserved (device : Device σ) (caught : Exc → Bool) (scenario : Json)
    (signature : Signature) (budget : ℤ) (reduced : Json) (report : Reduction) : Prop where
  eq_withOperations : reduced = withOperations scenario (operationsOf reduced)
  sublist : (operationsOf reduced).Sublist (operationsOf scenario)
  ne_nil : operationsOf reduced ≠ []
  stillFails : StillFails device caught signature reduced
  confirmed : report.confirmed = true
  attempts_le : (report.attempts : ℤ) ≤ budget
  minimal : report.attempts < budget → 1 < (operationsOf reduced).length →
    ∀ i < (operationsOf reduced).length, ¬StillFails device caught signature
      (withOperations scenario ((operationsOf reduced).eraseIdx i))
  last : report.attempts < budget → ∀ history index observed,
    evaluate device caught reduced = .ok (.fail history index observed) →
      index + 1 = (operationsOf reduced).length

/-- The search starts with the operations up to the failure. -/
theorem keeps_truncated {accepted : Scenario} (hvalid : validate scenario = .ok accepted)
    {history : List Entry} {index : ℕ}
    (hfails : evaluate device caught scenario = .ok (.fail history index signature))
    (hbudget : 0 ≤ budget) :
    Keeps device caught scenario signature budget ((operationsOf scenario).take (index + 1))
      { operations := (operationsOf scenario).take (index + 1), granularity := 2, attempts := 0 } := by
  rw [evaluate_eq_execute hvalid] at hfails
  obtain ⟨hindex, htake⟩ := execute_take hfails
  have hne : (operationsOf scenario).take (index + 1) ≠ [] :=
    List.ne_nil_of_length_pos (by rw [List.length_take]; omega)
  refine ⟨List.Sublist.refl _, hne, ⟨.fail history index signature, ?_, Json.eq_self _ rfl⟩,
    le_rfl, hbudget⟩
  rw [evaluate_withOperations hvalid (List.take_sublist _ _) hne]
  exact htake (index + 1) (Nat.lt_succ_self index)

/-- Deleting one element at a time is erasing it. -/
theorem delete_one {α : Type*} (l : List α) (i : ℕ) : Deletion.delete 1 i l = l.eraseIdx i :=
  (List.eraseIdx_eq_take_drop_succ l i).symm

/-- Where no single operation can be left out, the last one fails: behind the failure nothing is
needed. -/
theorem Minimal.last {accepted : Scenario} (hvalid : validate scenario = .ok accepted)
    {operations : List Json} (hsub : operations.Sublist (operationsOf scenario))
    (hne : operations ≠ []) (h : Minimal device caught scenario signature operations)
    (hfails : StillFails device caught signature (withOperations scenario operations))
    {history : List Entry} {index : ℕ} {found : Signature}
    (hfound : evaluate device caught (withOperations scenario operations) =
      .ok (.fail history index found)) : index + 1 = operations.length := by
  obtain ⟨observed, hobserved, hsame⟩ := hfails
  obtain rfl : .fail history index found = observed := Except.ok.inj (hfound.symm.trans hobserved)
  rw [evaluate_withOperations hvalid hsub hne] at hfound
  obtain ⟨hindex, htake⟩ := execute_take hfound
  by_contra hnot
  refine h (by omega) (operations.length - 1) (by omega) ⟨_, ?_, hsame⟩
  have hdelete : Deletion.delete 1 (operations.length - 1) operations =
      operations.take (operations.length - 1) := by
    rw [Deletion.delete, List.drop_eq_nil_of_le (by omega), List.append_nil]
  rw [hdelete, evaluate_withOperations hvalid ((List.take_sublist _ _).trans hsub)
    (List.ne_nil_of_length_pos (by rw [List.length_take]; omega))]
  exact htake _ (by omega)

/-- Reduction preserves the symptom and is locally minimal. -/
theorem reduceScenario_minimal {history : List Entry} {index : ℕ}
    (hfails : evaluate device caught scenario = .ok (.fail history index signature))
    (hbudget : 0 ≤ budget) :
    (device.Responds caught → (∀ key, caught (.keyError key) = true) →
      ∀ fuel, budget.toNat < fuel → ∃ reduced report,
        reduceScenario device caught scenario budget fuel = .ok (some (reduced, report))) ∧
    ∀ fuel reduced report,
      reduceScenario device caught scenario budget fuel = .ok (some (reduced, report)) →
        Preserved device caught scenario signature budget reduced report := by
  obtain ⟨accepted, hvalid⟩ : ∃ accepted, validate scenario = .ok accepted := by
    cases hvalid : validate scenario with
    | error text => rw [evaluate, hvalid] at hfails; cases hfails
    | ok accepted => exact ⟨accepted, rfl⟩
  have hstart := keeps_truncated hvalid hfails hbudget
  have hsub := List.take_sublist (index + 1) (operationsOf scenario)
  unfold reduceScenario
  rw [hfails]
  refine ⟨fun hresponds hkey fuel hfuel => ?_, fun fuel reduced report h => ?_⟩
  · obtain ⟨s, hrun⟩ := exists_search hresponds hkey hvalid hsub hstart hfuel
    obtain ⟨hs, -⟩ := search_keeps hstart hrun
    obtain ⟨observed, hobserved, -⟩ := hs.stillFails
    simp only [bind, Except.bind, hrun, hobserved]
    exact ⟨_, _, rfl⟩
  · obtain ⟨_, ⟨⟩, h⟩ := bind_eq_ok_iff.mp h
    dsimp only at h
    cases hrun : Loop.run (round device caught scenario signature budget) fuel
        { operations := (operationsOf scenario).take (index + 1), granularity := 2, attempts := 0 } with
    | none =>
      rw [hrun] at h
      cases h
    | some result =>
      rw [hrun] at h
      obtain ⟨s, hresult, hrest⟩ := bind_eq_ok_iff.mp h
      obtain ⟨confirmation, hconfirmation, hrest⟩ := bind_eq_ok_iff.mp hrest
      cases hrest
      obtain ⟨hs, hminimal⟩ := search_keeps hstart (hresult ▸ hrun)
      have hoperations := operationsOf_withOperations hvalid s.operations
      have hpart := hs.sublist.trans hsub
      refine ⟨?_, ?_, ?_, hs.stillFails, ?_, hs.attempts_le, ?_, ?_⟩
      · rw [hoperations]
      · rwa [hoperations]
      · rw [hoperations]
        exact hs.ne_nil
      · obtain ⟨observed, hobserved, hsame⟩ := hs.stillFails
        obtain rfl : confirmation = observed := Except.ok.inj (hconfirmation.symm.trans hobserved)
        exact hsame
      · rw [hoperations]
        intro hleft hsize i hi
        rw [← delete_one]
        exact hminimal hleft hsize i hi
      · rw [hoperations]
        exact fun hleft _ _ _ hfound => (hminimal hleft).last hvalid hpart hs.ne_nil hs.stillFails
          hfound

/-- Six operations on a device that reverses what it reads, of which two are needed. -/
def reversedScenario : Json :=
  .dict [("version", .int 1), ("capacity", .int 256), ("operations", .list ([Op.capacity, .clear,
    .write [1, 2, 3], .capacity, .read 3, .clear].map Op.toJson))]

/-- The exception classes that `evaluate` names. -/
def named (exc : Exc) : Bool :=
  decide (exc.type ∈ ["OSError", "RuntimeError", "ValueError", "KeyError", "SubprocessError"])

/-- The simulated device raises nothing on a valid operation. -/
theorem responds_simulated (fault : Fault) (caught : Exc → Bool) :
    (simulated fault).Responds caught := by
  have happly (s : SimulatedDevice) {op : Json} {op' : Op} (hop : validateOp op = .ok op') :
      (simulated fault).apply s op = .ok ((s.apply op').1.toJson, (s.apply op').2) := by
    change (readOp op).map _ = _
    rw [readOp_of_validateOp hop, Except.map]
  refine ⟨nofun, fun s op op' exc hop h => ?_, fun s op op' actual s' hop h => ?_, nofun⟩
  · rw [happly s hop] at h
    cases h
  · rw [happly s hop] at h
    cases h
    rfl

/-- The reduction of a scenario that shows `reverse-read`. -/
theorem reduceScenario_minimal_reversed : ∃ reduced report history index signature,
    evaluate (simulated .reverseRead) named reversedScenario =
      .ok (.fail history index signature) ∧
    reduceScenario (simulated .reverseRead) named reversedScenario 100 101 =
      .ok (some (reduced, report)) ∧
    Preserved (simulated .reverseRead) named reversedScenario signature 100 reduced report := by
  obtain ⟨history, index, signature, hfails⟩ : ∃ history index signature,
      evaluate (simulated .reverseRead) named reversedScenario =
        .ok (.fail history index signature) := by
    have hfail : (evaluate (simulated .reverseRead) named reversedScenario).toOption.any
        (fun | .fail _ _ _ => true | _ => false) = true := by decide +kernel
    cases heval : evaluate (simulated .reverseRead) named reversedScenario with
    | error exc =>
      rw [heval] at hfail
      cases hfail
    | ok result =>
      rw [heval] at hfail
      cases result with
      | fail history index signature => exact ⟨history, index, signature, rfl⟩
      | _ => cases hfail
  obtain ⟨hreturns, hpreserved⟩ := reduceScenario_minimal hfails (show (0 : ℤ) ≤ 100 by decide)
  obtain ⟨reduced, report, hreduce⟩ := hreturns
    (responds_simulated .reverseRead named) (fun _ => rfl) 101 (by decide)
  exact ⟨reduced, report, history, index, signature, hfails, hreduce,
    hpreserved 101 reduced report hreduce⟩

end Runs

end Lab.Sequential
