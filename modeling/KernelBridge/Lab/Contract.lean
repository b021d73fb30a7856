import KernelBridge.Lib.BoundedQueue
import KernelBridge.Lib.Python

/-!
# The byte-stream contract

`lab/contract.py`: the operations of a scenario, their validation, and the reference model that
says what a sequential, nonblocking byte-stream device answers.

`validate` reads a scenario out of JSON. What it accepts is a `Scenario`, whose fields say what
was checked, and the operations in it are typed; the code indexes the JSON dict again instead. The
model is a bounded queue of bytes (`ReferenceModel.queue`), and its operations are those of the
queue.

The random generator of scenarios is left out.
-/

namespace Lab

open Py

/-- `MIN_CAPACITY`. -/
def minCapacity : ℕ := 256

/-- `MAX_CAPACITY`. -/
def maxCapacity : ℕ := 65536

/-- The capacity of the examples is not too small. -/
theorem minCapacity_le_256 : minCapacity ≤ 256 := by decide

/-- The capacity of the examples is not too large. -/
theorem le_maxCapacity_256 : 256 ≤ maxCapacity := by decide

/-- `MAX_OPERATIONS`. -/
def maxOperations : ℕ := 10000

/-- `MAX_TRANSFER`. -/
def maxTransfer : ℕ := 4096

/-- `errno.EAGAIN`. -/
def EAGAIN : ℕ := 11

/-- `errno.EINVAL`. -/
def EINVAL : ℕ := 22

/-- `errno.EMSGSIZE`. -/
def EMSGSIZE : ℕ := 90

/-! ## Results -/

/-- The dict that an operation answers with; `data` is present for a successful read only. -/
structure Result where
  ret : ℤ
  errno : ℕ
  data : Option String := none
  deriving DecidableEq, Repr

/-- `success(count, data)`. -/
def success (count : ℕ) (data : Option (List UInt8)) : Result where
  ret := count
  errno := 0
  data := data.map hex

/-- `failure(code)`. -/
def failure (code : ℕ) : Result where
  ret := -1
  errno := code

/-- A result as the dict it is. -/
def Result.toJson (r : Result) : Json :=
  .dict ([("ret", .int r.ret), ("errno", .int r.errno)] ++
    match r.data with
    | some data => [("data", .str data)]
    | none => [])

/-- Results are equal as dicts when they are equal. -/
theorem Result.eq_toJson_iff (r r' : Result) : r.toJson.eq r'.toJson = true ↔ r = r' := by
  obtain ⟨ret, errno, data⟩ := r
  obtain ⟨ret', errno', data'⟩ := r'
  cases data <;> cases data' <;>
    simp [toJson, Json.eq_dict, Json.eqEntries, lookup]

/-! ## Operations -/

/-- An operation on the device. -/
inductive Op
  | read (count : ℕ)
  | write (payload : List UInt8)
  | resize (capacity : ℕ)
  | clear
  | capacity
  deriving DecidableEq, Repr

/-- The bounds that `validate` puts on the arguments of an operation. -/
def Op.Valid : Op → Prop
  | .read count => count ≤ maxTransfer
  | .write payload => payload.length ≤ maxTransfer
  | .resize requested => requested < 2 ^ 64
  | _ => True

/-- The conditions on an operation are comparisons of numbers. -/
instance : DecidablePred Op.Valid
  | .read count => inferInstanceAs (Decidable (count ≤ maxTransfer))
  | .write payload => inferInstanceAs (Decidable (payload.length ≤ maxTransfer))
  | .resize requested => inferInstanceAs (Decidable (requested < 2 ^ 64))
  | .clear => inferInstanceAs (Decidable True)
  | .capacity => inferInstanceAs (Decidable True)

/-- The key set that `validate` asks of an operation of each kind. -/
def fields : String → Option (List String)
  | "read" => some ["op", "count"]
  | "write" => some ["op", "data"]
  | "resize" => some ["op", "capacity"]
  | "clear" => some ["op"]
  | "capacity" => some ["op"]
  | _ => none

/-- `set(entries) == set(names)`. -/
def sameKeys (entries : List (String × Json)) (names : List String) : Bool :=
  (entries.all fun e => names.contains e.1) && names.all fun name => (lookup name entries).isSome

/-- The loop body of `validate`: one operation. -/
def validateOp : Json → Except String Op
  | .dict entries =>
    match lookup "op" entries with
    | some (.str kind) =>
      if !(fields kind).any (sameKeys entries) then
        .error "unknown operation or unexpected fields"
      else if kind = "read" then
        match lookup "count" entries with
        | some (.int count) =>
          if 0 ≤ count ∧ count ≤ maxTransfer then .ok (.read count.toNat)
          else .error "read count must be 0..4096"
        | _ => .error "read count must be 0..4096"
      else if kind = "resize" then
        match lookup "capacity" entries with
        | some (.int capacity) =>
          if 0 ≤ capacity ∧ capacity < 2 ^ 64 then .ok (.resize capacity.toNat)
          else .error "resize capacity must fit unsigned 64 bits"
        | _ => .error "resize capacity must fit unsigned 64 bits"
      else if kind = "write" then
        match lookup "data" entries with
        | some (.str data) =>
          if data.length > maxTransfer * 2 then
            .error "write data must be hex encoding at most 4096 bytes"
          else
            match fromHex data with
            | none => .error "invalid write hex data"
            | some decoded =>
              if hex decoded ≠ data then .error "write data must use canonical lowercase hex"
              else .ok (.write decoded)
        | _ => .error "write data must be hex encoding at most 4096 bytes"
      else if kind = "clear" then .ok .clear
      else .ok .capacity
    | _ => .error "unknown operation or unexpected fields"
  | _ => .error "operation must be an object"

/-- What `validateOp` accepts is within bounds. -/
theorem validateOp_valid {j : Json} {op : Op} (h : validateOp j = .ok op) : op.Valid := by
  unfold validateOp at h
  split at h <;> try cases h
  split at h <;> try cases h
  split_ifs at h
  · -- read
    split at h <;> try cases h
    split_ifs at h with hcount
    cases h
    simp only [Op.Valid]
    omega
  · -- resize
    split at h <;> try cases h
    split_ifs at h with hcapacity
    cases h
    simp only [Op.Valid]
    omega
  · -- write: the text is as long as twice the bytes
    split at h <;> try cases h
    split_ifs at h with hlen
    split at h <;> try cases h
    split_ifs at h with hcanonical
    cases h
    rw [not_ne_iff] at hcanonical
    rw [← hcanonical, length_hex] at hlen
    simp only [Op.Valid]
    omega
  · cases h; trivial
  · cases h; trivial

/-- A valid operation is a dict, and so equal to itself. -/
theorem eq_self_of_validateOp {j : Json} {op : Op} (h : validateOp j = .ok op) : j.eq j = true := by
  unfold validateOp at h
  split at h
  · exact Json.eq_self _ rfl
  · cases h

/-- An operation as the dict it is. -/
def Op.toJson : Op → Json
  | .read count => .dict [("op", .str "read"), ("count", .int count)]
  | .write payload => .dict [("op", .str "write"), ("data", .str (hex payload))]
  | .resize requested => .dict [("op", .str "resize"), ("capacity", .int requested)]
  | .clear => .dict [("op", .str "clear")]
  | .capacity => .dict [("op", .str "capacity")]

/-- Every operation within bounds is accepted, and read back as it is. -/
theorem validateOp_toJson {op : Op} (h : op.Valid) : validateOp op.toJson = .ok op := by
  cases op with
  | read count =>
    simp only [Op.Valid] at h
    simp [validateOp, Op.toJson, lookup, fields, sameKeys, h]
  | write payload =>
    simp only [Op.Valid] at h
    have hlen : ¬maxTransfer * 2 < 2 * payload.length := by omega
    simp [validateOp, Op.toJson, lookup, fields, sameKeys, length_hex, fromHex_hex, hlen]
  | resize requested =>
    simp only [Op.Valid] at h
    have hlt : (requested : ℤ) < 2 ^ 64 := by omega
    simp [validateOp, Op.toJson, lookup, fields, sameKeys]
    omega
  | clear => rfl
  | capacity => rfl

/-- Every list of operations within bounds is accepted. -/
theorem mapM_validateOp_toJson {ops : List Op} (h : ∀ op ∈ ops, op.Valid) :
    (ops.map Op.toJson).mapM validateOp = .ok ops := by
  rw [mapM_eq_ok_iff, List.forall₂_map_left_iff, List.forall₂_same]
  exact fun op hop => validateOp_toJson (h op hop)

/-! ## Scenarios -/

/-- A scenario that `validate` accepts: what later code reads of it. -/
structure Scenario where
  capacity : ℕ
  operations : List Op
  minCapacity_le : minCapacity ≤ capacity
  le_maxCapacity : capacity ≤ maxCapacity
  operations_valid : ∀ op ∈ operations, op.Valid
  operations_pos : 0 < operations.length
  operations_le : operations.length ≤ maxOperations

/-- What is read from a list of operations is valid, one for one. -/
theorem mapM_validateOp {elems : List Json} {ops : List Op} (h : elems.mapM validateOp = .ok ops) :
    ops.length = elems.length ∧ ∀ op ∈ ops, op.Valid := by
  have hall := mapM_eq_ok_iff.mp h
  refine ⟨hall.length_eq.symm, fun op hop => ?_⟩
  obtain ⟨i, hi, rfl⟩ := List.getElem_of_mem hop
  exact validateOp_valid (hall.get (by rw [hall.length_eq]; exact hi) hi)

section Bounds

variable {capacity : ℤ} {elems : List Json} {operations : List Op}
  (hcap : (minCapacity : ℤ) ≤ capacity ∧ capacity ≤ maxCapacity)
  (hlen : 1 ≤ elems.length ∧ elems.length ≤ maxOperations)
  (h : elems.mapM validateOp = .ok operations)

include hcap in
/-- An accepted capacity is not too small. -/
theorem minCapacity_le_toNat : minCapacity ≤ capacity.toNat := by omega

include hcap in
/-- An accepted capacity is not too large. -/
theorem toNat_le_maxCapacity : capacity.toNat ≤ maxCapacity := by omega

include hlen h

/-- An accepted scenario has an operation. -/
theorem length_pos_of_mapM : 0 < operations.length := by
  rw [(mapM_validateOp h).1]
  omega

/-- An accepted scenario has no more operations than are allowed. -/
theorem length_le_of_mapM : operations.length ≤ maxOperations := by
  rw [(mapM_validateOp h).1]
  omega

end Bounds

/-- `validate`. -/
def validate (scenario : Json) : Except String Scenario :=
  if !(scenario.get? "version").any (·.eq (.int 1)) then .error "scenario version must be 1"
  else
    match scenario.get? "capacity" with
    | some (.int capacity) =>
      if hcap : (minCapacity : ℤ) ≤ capacity ∧ capacity ≤ maxCapacity then
        match scenario.get? "operations" with
        | some (.list elems) =>
          if hlen : 1 ≤ elems.length ∧ elems.length ≤ maxOperations then
            match h : elems.mapM validateOp with
            | .error e => .error e
            | .ok operations => .ok
              { capacity := capacity.toNat
                operations
                minCapacity_le := minCapacity_le_toNat hcap
                le_maxCapacity := toNat_le_maxCapacity hcap
                operations_valid := (mapM_validateOp h).2
                operations_pos := length_pos_of_mapM hlen h
                operations_le := length_le_of_mapM hlen h }
          else .error "scenario must contain 1..10000 operations"
        | _ => .error "scenario must contain 1..10000 operations"
      else .error "initial capacity must be 256..65536"
    | _ => .error "initial capacity must be 256..65536"

/-- What an accepted scenario looks like. -/
theorem validate_ok_iff {j : Json} {sc : Scenario} :
    validate j = .ok sc ↔ (∃ v, j.get? "version" = some v ∧ v.eq (.int 1) = true) ∧
      j.get? "capacity" = some (.int sc.capacity) ∧
      ∃ elems, j.get? "operations" = some (.list elems) ∧
        elems.mapM validateOp = .ok sc.operations := by
  constructor
  · intro h
    unfold validate at h
    split_ifs at h with hversion
    split at h <;> try cases h
    next capacity hcapacity =>
    split_ifs at h with hcap
    split at h <;> try cases h
    next elems helems =>
    split_ifs at h with hlen
    split at h <;> try cases h
    next operations hops =>
    refine ⟨?_, ?_, elems, helems, hops⟩
    · simpa [Option.any_eq_true] using hversion
    · rw [hcapacity, Int.toNat_of_nonneg (by omega)]
  · rintro ⟨⟨v, hv, hone⟩, hcapacity, elems, helems, hops⟩
    have hlen := (mapM_validateOp hops).1
    -- the fields of a scenario are the checks it has passed
    have hmin := sc.minCapacity_le
    have hmax := sc.le_maxCapacity
    have hpos := sc.operations_pos
    have hle := sc.operations_le
    unfold validate
    rw [if_neg (by simp [hv, hone])]
    split
    next capacity hcapacity' =>
      obtain rfl : (sc.capacity : ℤ) = capacity := by simpa [hcapacity] using hcapacity'
      rw [dif_pos (by omega)]
      split
      next elems' helems' =>
        obtain rfl : elems = elems' := by simpa [helems] using helems'
        rw [dif_pos (by omega)]
        split
        next e he => rw [hops] at he; cases he
        next operations hops' =>
          obtain rfl : sc.operations = operations := by simpa [hops] using hops'
          rfl
      next hno => exact absurd helems (hno elems)
    next hno => exact absurd hcapacity (hno _)

/-! ## The reference model -/

/-- `ReferenceModel`. Its bytes always fit, since `apply` rejects a capacity below their number
and truncates a write to the space left. -/
@[ext]
structure ReferenceModel where
  capacity : ℕ
  data : List UInt8
  fits : data.length ≤ capacity

namespace ReferenceModel

/-- `ReferenceModel(capacity)`. -/
def new (capacity : ℕ) : ReferenceModel := ⟨capacity, [], Nat.zero_le _⟩

/-- `ReferenceModel.apply`. -/
def apply (model : ReferenceModel) : Op → Result × ReferenceModel
  | .write payload =>
    let count := min payload.length (model.capacity - model.data.length)
    if payload ≠ [] ∧ count = 0 then (failure EAGAIN, model)
    else
      (success count none,
        { model with
          data := model.data ++ payload.take count
          fits := by
            have := model.fits
            simp only [List.length_append, List.length_take, count]
            omega })
  | .read requested =>
    let count := min requested model.data.length
    if requested ≠ 0 ∧ count = 0 then (failure EAGAIN, model)
    else
      (success count (some (model.data.take count)),
        { model with
          data := model.data.drop count
          fits := by
            have := model.fits
            simp only [List.length_drop]
            omega })
  | .resize capacity =>
    if ¬(minCapacity ≤ capacity ∧ capacity ≤ maxCapacity) then (failure EINVAL, model)
    else if h : capacity < model.data.length then (failure EMSGSIZE, model)
    else (success 0 none, { model with capacity, fits := Nat.le_of_not_lt h })
  | .clear => (success 0 none, { model with data := [], fits := Nat.zero_le _ })
  | .capacity => (success model.capacity none, model)

/-- The results of a list of operations, one after the other, and the model after them. -/
def run (model : ReferenceModel) : List Op → List Result × ReferenceModel
  | [] => ([], model)
  | op :: ops =>
    let (result, model) := model.apply op
    let (results, model) := model.run ops
    (result :: results, model)

/-- The run of one more operation. -/
theorem run_concat (model : ReferenceModel) (ops : List Op) (op : Op) : model.run (ops ++ [op]) =
    ((model.run ops).1 ++ [((model.run ops).2.apply op).1], ((model.run ops).2.apply op).2) := by
  induction ops generalizing model with
  | nil => rfl
  | cons op' ops ih => simp only [List.cons_append, run, ih]

/-- The bounded queue that the model is. -/
def queue (model : ReferenceModel) : BoundedQueue UInt8 :=
  ⟨model.capacity, model.data, model.fits⟩

end ReferenceModel

end Lab
