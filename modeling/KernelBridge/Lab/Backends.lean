import KernelBridge.Driver.Sequential
import KernelBridge.Lab.Contract

/-!
# The devices of the lab

`lab/backends.py`: the simulated device, and the adapter that applies operations to the driver
through system calls.

Both do what the reference model does. `SimulatedDevice.apply_eq` is an equation, for a device
without a fault. For the driver, `Simulates` relates a device to the model of its contents, every
operation keeps the two related and answers as the model does
(`LinuxDevice.apply_simulates`), and so does every sequence of operations
(`LinuxDevice.run_eq`).

The adapter is taken to have an open descriptor here, and its operations to be calls into the
driver.
-/

namespace Lab

open Py
open RingbufChar (Dev Env Alloc Reply UserArg)

/-! ## The simulated device -/

/-- The faults that can be built into a `SimulatedDevice`. -/
inductive Fault
  | none
  | falseEof
  | reverseRead
  | resizeLoss
  deriving DecidableEq, Repr

/-- `SimulatedDevice`. -/
structure SimulatedDevice where
  capacity : ℕ
  queue : List UInt8
  fault : Fault
  deriving DecidableEq, Repr

namespace SimulatedDevice

/-- `SimulatedDevice(capacity, fault)`. -/
def new (capacity : ℕ) (fault : Fault) : SimulatedDevice := ⟨capacity, [], fault⟩

/-- The loop of a write: the queue after it, and the number of bytes transferred. -/
def putLoop (capacity : ℕ) : List UInt8 → List UInt8 → ℕ → List UInt8 × ℕ
  | [], queue, transferred => (queue, transferred)
  | value :: payload, queue, transferred =>
    if queue.length = capacity then (queue, transferred)
    else putLoop capacity payload (queue ++ [value]) (transferred + 1)

/-- The loop of a read: the values taken, and the queue after it. -/
def takeLoop : ℕ → List UInt8 → List UInt8 → List UInt8 × List UInt8
  | 0, queue, values => (values, queue)
  | _ + 1, [], values => (values, [])
  | count + 1, value :: queue, values => takeLoop count queue (values ++ [value])

/-- `SimulatedDevice._apply_locked`. -/
def apply (device : SimulatedDevice) : Op → Result × SimulatedDevice
  | .write payload =>
    if payload ≠ [] ∧ device.queue.length = device.capacity then (failure EAGAIN, device)
    else
      let (queue, transferred) := putLoop device.capacity payload device.queue 0
      (success transferred none, { device with queue })
  | .read count =>
    if count ≠ 0 ∧ device.queue = [] then
      if device.fault = .falseEof then (success 0 (some []), device)
      else (failure EAGAIN, device)
    else
      let (values, queue) := takeLoop count device.queue []
      let values := if device.fault = .reverseRead then values.reverse else values
      (success values.length (some values), { device with queue })
  | .resize requested =>
    if requested < 256 ∨ requested > 65536 then (failure EINVAL, device)
    else if requested < device.queue.length then (failure EMSGSIZE, device)
    else
      (success 0 none,
        { device with
          capacity := requested
          queue := if device.fault = .resizeLoss then [] else device.queue })
  | .clear => (success 0 none, { device with queue := [] })
  | .capacity => (success device.capacity none, device)

/-- No operation changes the fault. -/
@[simp] theorem fault_apply (device : SimulatedDevice) (op : Op) :
    (device.apply op).2.fault = device.fault := by
  cases op <;> simp only [apply] <;> split_ifs <;> rfl

/-- The loop of a write queues what there is room for. -/
theorem putLoop_eq {capacity : ℕ} (payload queue : List UInt8) (transferred : ℕ)
    (h : queue.length ≤ capacity) :
    putLoop capacity payload queue transferred =
      (queue ++ payload.take (capacity - queue.length),
        transferred + min payload.length (capacity - queue.length)) := by
  induction payload generalizing queue transferred with
  | nil => simp [putLoop]
  | cons value payload ih =>
    rw [putLoop]
    split_ifs with hfull
    · simp [hfull]
    · -- one byte goes into the queue, and there is room for one less
      obtain ⟨k, hk⟩ : ∃ k, capacity - queue.length = k + 1 :=
        ⟨capacity - queue.length - 1, by omega⟩
      have hk' : capacity - (queue ++ [value]).length = k := by
        simp only [List.length_append, List.length_singleton]; omega
      rw [ih _ _ (by simp only [List.length_append, List.length_singleton]; omega), hk, hk']
      simp only [List.append_assoc, List.singleton_append, List.take_succ_cons, List.length_cons,
        Prod.mk.injEq, true_and]
      omega

/-- The loop of a read takes what there is, up to the count. -/
theorem takeLoop_eq (count : ℕ) (queue values : List UInt8) :
    takeLoop count queue values = (values ++ queue.take count, queue.drop count) := by
  induction count generalizing queue values with
  | zero => simp [takeLoop]
  | succ count ih =>
    cases queue with
    | nil => simp [takeLoop]
    | cons value queue => simp [takeLoop, ih]

/-- The device without a fault that holds what the model holds. -/
def ofModel (model : ReferenceModel) : SimulatedDevice := ⟨model.capacity, model.data, .none⟩

@[simp] theorem capacity_ofModel (model : ReferenceModel) :
    (ofModel model).capacity = model.capacity := rfl

@[simp] theorem queue_ofModel (model : ReferenceModel) : (ofModel model).queue = model.data := rfl

@[simp] theorem fault_ofModel (model : ReferenceModel) : (ofModel model).fault = .none := rfl

/-- A device without a fault does what the model does. -/
theorem apply_eq (model : ReferenceModel) (op : Op) :
    (ofModel model).apply op = ((model.apply op).1, ofModel (model.apply op).2) := by
  have hfits := model.fits
  cases op with
  | read count =>
    -- both refuse a nonempty read of an empty queue
    have hguard : (count ≠ 0 ∧ min count model.data.length = 0) ↔
        (count ≠ 0 ∧ model.data = []) := by
      rw [← List.length_eq_zero_iff]
      omega
    simp only [apply, ReferenceModel.apply, hguard, queue_ofModel, fault_ofModel, reduceCtorEq,
      if_false, takeLoop_eq, List.nil_append, List.length_take]
    split_ifs with hempty
    · rfl
    · simp [ofModel, ← List.take_eq_take_min, ← List.drop_eq_drop_min]
  | write payload =>
    -- both refuse a nonempty write to a full queue
    have hguard : (payload ≠ [] ∧ min payload.length (model.capacity - model.data.length) = 0) ↔
        (payload ≠ [] ∧ model.data.length = model.capacity) := by
      refine and_congr_right fun hne => ?_
      have hpos := List.length_pos_of_ne_nil hne
      omega
    simp only [apply, ReferenceModel.apply, hguard, queue_ofModel, capacity_ofModel,
      putLoop_eq _ _ _ hfits, Nat.zero_add]
    split_ifs with hfull
    · rfl
    · simp [ofModel, List.take_eq_take_iff, Nat.min_comm]
  | resize requested =>
    have hguard : ¬(minCapacity ≤ requested ∧ requested ≤ maxCapacity) ↔
        (requested < 256 ∨ requested > 65536) := by
      simp only [minCapacity, maxCapacity]
      omega
    simp only [apply, ReferenceModel.apply, hguard, queue_ofModel, fault_ofModel, reduceCtorEq,
      if_false]
    split_ifs <;> rfl
  | clear => rfl
  | capacity => rfl

end SimulatedDevice

/-! ## The driver behind system calls -/

namespace LinuxDevice

/-- The `errno` of the `OSError` that a failed system call raises; a call that is interrupted and
not restarted shows `EINTR`. -/
def osErrno : RingbufChar.Errno → ℕ
  | .ERESTARTSYS => 4
  | e => e.code

/-- `errno.ENOMEM`, `errno.EINTR`, `errno.ENODEV` and `errno.EIO`, which `apply` raises again. -/
def reraised : List ℕ := [12, 4, 19, 5]

/-- The system call that `apply` makes for an operation, on a descriptor opened with
`O_NONBLOCK`. -/
def syscall : Op → RingbufChar.Call
  | .read count => .transfer (.read true count)
  | .write payload => .transfer (.write true payload)
  | .clear => .ioctl RingbufChar.iocClear ⟨none, none, false⟩
  | .resize requested =>
    .ioctl RingbufChar.iocSetCapacity
      ⟨some (BitVec.ofNat 64 requested), some (BitVec.ofNat 32 requested), true⟩
  | .capacity => .ioctl RingbufChar.iocGetCapacity ⟨some 0, some 0, true⟩

/-- What `apply` makes of the outcome of the system call: a result, or the `errno` of the
`OSError` it raises. -/
def normalise (op : Op) (reply : Reply) : Except ℕ Result :=
  match reply.value with
  | .error e =>
    if reraised.contains (osErrno e) then .error (osErrno e) else .ok (failure (osErrno e))
  | .ok count =>
    match op, reply.output with
    | .read _, .bytes data => .ok (success data.length (some data))
    | .write _, _ => .ok (success count none)
    | .capacity, .capacity capacity => .ok (success capacity none)
    | _, _ => .ok (success 0 none)

/-- `LinuxDevice.apply`, with the device after it; `none` if the system call does not return. -/
def apply (env : Env) (dev : Dev) (op : Op) : Option (Except ℕ Result × Dev) :=
  (RingbufChar.call env dev (syscall op)).map fun (reply, dev') => (normalise op reply, dev')

/-- The outcomes of a list of operations, one after the other, the `i`-th in the environment
`envs i`, and the device after them. -/
def run (envs : ℕ → Env) (dev : Dev) : List Op → Option (List (Except ℕ Result) × Dev)
  | [] => some ([], dev)
  | op :: ops =>
    match apply (envs 0) dev op with
    | none => none
    | some (outcome, dev) =>
      (run (fun i => envs (i + 1)) dev ops).map fun (outcomes, dev) => (outcome :: outcomes, dev)

/-- The device is up and its buffer implements the queue of the model. -/
structure Simulates (dev : Dev) (model : ReferenceModel) : Prop where
  represents : dev.buffer.Represents model.queue
  up : dev.shuttingDown = false

variable {dev : Dev} {env : Env} {model : ReferenceModel}

/-- The driver holds as many bytes as the model. -/
theorem Simulates.len_eq (h : Simulates dev model) : dev.buffer.len = model.data.length :=
  h.represents.len_eq

/-- The driver has the capacity of the model. -/
theorem Simulates.capacity_eq (h : Simulates dev model) :
    dev.buffer.capacity = model.capacity :=
  h.represents.capacity_eq

/-- The driver holds the bytes of the model. -/
theorem Simulates.fifo_eq (h : Simulates dev model) : dev.buffer.fifo = model.data :=
  h.represents.fifo_eq

/-- A freshly initialised device simulates a new model. -/
theorem simulates_init {capacity : ℕ} {alloc : Alloc} (hinit : Dev.init capacity alloc = .ok dev) :
    Simulates dev (.new capacity) := by
  unfold Dev.init at hinit
  split_ifs at hinit
  cases hb : RingbufChar.Buffer.init capacity alloc with
  | error e => rw [hb] at hinit; cases hinit
  | ok buffer =>
    rw [hb] at hinit
    cases hinit
    obtain ⟨hwf, hcap, hempty⟩ := RingbufChar.Buffer.wellFormed_init hb
    exact ⟨⟨hwf, hcap, hempty⟩, rfl⟩

/-- A `read` answers as the model does. -/
theorem apply_read (h : Simulates dev model) (henv : env.Quiet) (count : ℕ) :
    ∃ dev', apply env dev (.read count) = some (.ok (model.apply (.read count)).1, dev') ∧
      Simulates dev' (model.apply (.read count)).2 := by
  have hwf := h.represents.wellFormed
  have hlen := h.len_eq
  rcases Nat.eq_zero_or_pos count with rfl | hcount
  · have hcall := RingbufChar.call_of_size_eq_zero env dev (.read true 0) rfl
    refine ⟨_, by rw [apply, syscall, hcall]; rfl, ?_⟩
    simpa [ReferenceModel.apply] using ⟨h.represents, h.up⟩
  -- the call is refused if nothing is stored, and takes what is stored otherwise
  rcases Nat.eq_zero_or_pos dev.buffer.len with hempty | hstored
  · obtain ⟨dev', hcall, hbuf, hup⟩ := RingbufChar.call_read_of_empty hwf h.up henv hcount hempty
    have hmodel : model.apply (.read count) = (failure EAGAIN, model) := by
      rw [ReferenceModel.apply, if_pos ⟨hcount.ne', by omega⟩]
    rw [hmodel, apply, syscall, hcall]
    exact ⟨dev', rfl, hbuf ▸ h.represents, hup⟩
  · obtain ⟨dev', hcall, hbuf, hup⟩ := RingbufChar.call_read_of_stored hwf h.up henv hcount hstored
    rw [hlen, h.fifo_eq] at hcall
    rw [hlen] at hbuf
    have hguard : ¬(count ≠ 0 ∧ min count model.data.length = 0) := by omega
    rw [ReferenceModel.apply, if_neg hguard, apply, syscall, hcall]
    refine ⟨dev', ?_, hbuf ▸ h.represents.consume _, hup⟩
    simp [normalise]

/-- A `write` answers as the model does. -/
theorem apply_write (h : Simulates dev model) (henv : env.Quiet) (payload : List UInt8) :
    ∃ dev', apply env dev (.write payload) = some (.ok (model.apply (.write payload)).1, dev') ∧
      Simulates dev' (model.apply (.write payload)).2 := by
  have hwf := h.represents.wellFormed
  have hlen := h.len_eq
  have hcap := h.capacity_eq
  rcases List.eq_nil_or_concat payload with rfl | hne
  · have hcall := RingbufChar.call_of_size_eq_zero env dev (.write true []) rfl
    refine ⟨_, by rw [apply, syscall, hcall]; rfl, ?_⟩
    simpa [ReferenceModel.apply] using ⟨h.represents, h.up⟩
  have hpos : 0 < payload.length := by
    obtain ⟨init, last, rfl⟩ := hne
    simp
  -- the call is refused if the buffer is full, and stores what fits otherwise
  rcases eq_or_lt_of_le hwf.len_le with hfull | hspace
  · obtain ⟨dev', hcall, hbuf, hup⟩ := RingbufChar.call_write_of_full hwf h.up henv hpos hfull
    have hmodel : model.apply (.write payload) = (failure EAGAIN, model) := by
      rw [ReferenceModel.apply, if_pos ⟨List.ne_nil_of_length_pos hpos, by omega⟩]
    rw [hmodel, apply, syscall, hcall]
    exact ⟨dev', rfl, hbuf ▸ h.represents, hup⟩
  · obtain ⟨dev', hcall, hinv, hup⟩ :=
      RingbufChar.call_write_of_space hwf h.up henv hpos hspace
    rw [hlen, hcap] at hcall hinv
    have hguard : ¬(payload ≠ [] ∧
        min payload.length (model.capacity - model.data.length) = 0) := by omega
    rw [ReferenceModel.apply, if_neg hguard, apply, syscall, hcall]
    refine ⟨dev', rfl, ⟨hinv.wellFormed, hinv.capacity_eq.trans hcap, ?_⟩, hup⟩
    rw [hinv.fifo_eq, h.fifo_eq]
    rfl

/-- `SET_CAPACITY` answers as the model does. -/
theorem apply_resize (h : Simulates dev model) (henv : env.Quiet) {requested : ℕ}
    (hrequested : requested < 2 ^ 64) :
    ∃ dev', apply env dev (.resize requested) =
        some (.ok (model.apply (.resize requested)).1, dev') ∧
      Simulates dev' (model.apply (.resize requested)).2 := by
  have hlen := h.len_eq
  have hvalid_iff : RingbufChar.capacityValid requested = true ↔
      minCapacity ≤ requested ∧ requested ≤ maxCapacity := by
    rw [RingbufChar.capacityValid, Bool.and_eq_true, decide_eq_true_eq, decide_eq_true_eq]
    rfl
  cases hvalid : RingbufChar.capacityValid requested with
  | false =>
    obtain ⟨dev', hcall, hbuf, hup⟩ :=
      RingbufChar.call_setCapacity_of_invalid env dev hrequested
        (show (⟨some (BitVec.ofNat 64 requested), some (BitVec.ofNat 32 requested), true⟩ :
          UserArg).u64 = _ from rfl) hvalid
    rw [ReferenceModel.apply, if_pos (by rw [← hvalid_iff, hvalid]; simp), apply, syscall, hcall]
    exact ⟨dev', rfl, hbuf ▸ h.represents, hup.trans h.up⟩
  | true =>
    obtain ⟨dev', hcall, hbuf, hup⟩ :=
      RingbufChar.call_setCapacity env dev hrequested
        (show (⟨some (BitVec.ofNat 64 requested), some (BitVec.ofNat 32 requested), true⟩ :
          UserArg).u64 = _ from rfl) hvalid
    rw [ReferenceModel.apply, if_neg (not_not.mpr (hvalid_iff.mp hvalid)), apply, syscall, hcall]
    cases hr : dev.buffer.resize requested env.alloc with
    | ok buffer =>
      rw [hr] at hcall hbuf
      obtain ⟨q, hq, hrep⟩ := h.represents.resize hr
      unfold BoundedQueue.resize at hq
      split_ifs at hq with hfits
      cases hq
      rw [dif_neg (show ¬requested < model.data.length from not_lt.mpr hfits)]
      exact ⟨dev', rfl, hbuf ▸ hrep, hup.trans h.up⟩
    | error e =>
      rw [hr] at hcall hbuf
      -- the capacity is in range and no allocation fails, so too much is stored
      rcases RingbufChar.Buffer.resize_error_iff.mp hr with ⟨hbad, -⟩ | ⟨-, hsmall, rfl⟩ |
        ⟨-, -, hfail, -⟩
      · rw [hvalid] at hbad; cases hbad
      · rw [dif_pos (by omega)]
        exact ⟨dev', rfl, hbuf ▸ h.represents, hup.trans h.up⟩
      · have := henv.alloc requested
        rw [hfail] at this
        cases this

/-- Every operation on the driver answers as it does on the model. -/
theorem apply_simulates (h : Simulates dev model) (henv : env.Quiet) {op : Op} (hop : op.Valid) :
    ∃ dev', apply env dev op = some (.ok (model.apply op).1, dev') ∧
      Simulates dev' (model.apply op).2 := by
  cases op with
  | read count => exact apply_read h henv count
  | write payload => exact apply_write h henv payload
  | resize requested => exact apply_resize h henv hop
  | clear =>
    obtain ⟨dev', hcall, hbuf, hup⟩ := RingbufChar.call_clear env dev ⟨none, none, false⟩
    refine ⟨dev', by rw [apply, syscall, hcall]; rfl, ?_, hup.trans h.up⟩
    rw [hbuf]
    exact h.represents.clear
  | capacity =>
    obtain ⟨dev', hcall, hbuf, hup⟩ :=
      RingbufChar.call_getCapacity env dev ⟨some 0, some 0, true⟩ rfl
    refine ⟨dev', ?_, hbuf ▸ h.represents, hup.trans h.up⟩
    rw [apply, syscall, hcall, h.capacity_eq]
    rfl

/-- Every sequence of operations on the driver answers as it does on the model. -/
theorem run_simulates (h : Simulates dev model) {envs : ℕ → Env} (henvs : ∀ i, (envs i).Quiet)
    {ops : List Op} (hops : ∀ op ∈ ops, op.Valid) :
    ∃ dev', run envs dev ops = some ((model.run ops).1.map .ok, dev') ∧
      Simulates dev' (model.run ops).2 := by
  induction ops generalizing dev model envs with
  | nil => exact ⟨dev, rfl, h⟩
  | cons op ops ih =>
    obtain ⟨dev₁, happly, h₁⟩ := apply_simulates h (henvs 0) (hops op List.mem_cons_self)
    obtain ⟨dev₂, hrun, h₂⟩ := ih h₁ (fun i => henvs (i + 1)) fun o ho =>
      hops o (List.mem_cons_of_mem _ ho)
    exact ⟨dev₂, by rw [run, happly]; simp only [hrun]; rfl, h₂⟩

/-- The driver agrees with the contract: on a freshly initialised device, every sequence of
accepted operations answers as the reference model does. -/
theorem run_eq {capacity : ℕ} (hmin : 256 ≤ capacity) (hmax : capacity ≤ 65536) {alloc : Alloc}
    (halloc : (alloc capacity).isSome = true) {envs : ℕ → Env} (henvs : ∀ i, (envs i).Quiet)
    {elems : List Json} {ops : List Op} (hops : elems.mapM validateOp = .ok ops) :
    ∃ dev dev', Dev.init capacity alloc = .ok dev ∧
      run envs dev ops = some (((ReferenceModel.new capacity).run ops).1.map .ok, dev') := by
  obtain ⟨dev, hinit⟩ : ∃ dev, Dev.init capacity alloc = .ok dev := by
    have hvalid : RingbufChar.capacityValid capacity = true := by
      simp [RingbufChar.capacityValid, RingbufChar.minCapacity, RingbufChar.maxCapacity, hmin, hmax]
    obtain ⟨block, hblock⟩ := Option.isSome_iff_exists.mp halloc
    simp [Dev.init, RingbufChar.Buffer.init, hvalid, hblock, Except.map]
  obtain ⟨dev', hrun, -⟩ := run_simulates (simulates_init hinit) henvs (mapM_validateOp hops).2
  exact ⟨dev, dev', hinit, hrun⟩

/-- A run on the smallest device. -/
theorem run_eq_small :
    ∃ dev dev', Dev.init 256 .zeroed = .ok dev ∧
      run (fun _ => .quiet) dev [.write [1, 2, 3], .read 2, .resize 255, .capacity, .clear, .read 1] =
        some ([success 3 none, success 2 (some [1, 2]), failure 22, success 256 none,
          success 0 none, failure 11].map .ok, dev') :=
  run_eq (by decide) (by decide) (show (Alloc.zeroed 256).isSome = true from rfl)
    (fun _ => RingbufChar.Env.quiet_quiet) (mapM_validateOp_toJson (by decide))

end LinuxDevice

end Lab
