import KernelBridge.Lab.Lifecycle

/-!
# The adapter on the driver

A system of which the adapter sees the driver (`driver`): each of its system calls is a call into
the driver that runs alone. There the adapter does what the reference model does: an operation is
one system call (`applyOp_eq`), the one that `LinuxDevice.syscall` names, and what it makes of the
result is what the model answers.

Main results: `apply_driver`, and `mapM_apply_driver` for a list of operations.
-/

namespace Lab.Lifecycle

open Py Raising
open RingbufChar (Dev)

variable {σ : Type} {os : OS σ} {device : LinuxDevice} {fd : ℕ} {s s' : Session σ}

/-! ## Arguments -/

/-- A capacity that the driver accepts fits into the argument of the `ioctl`. -/
theorem lt_of_capacityValid {capacity : ℕ} (hvalid : RingbufChar.capacityValid capacity = true) :
    capacity < 2 ^ 64 := by
  rw [RingbufChar.capacityValid, Bool.and_eq_true, decide_eq_true_eq, decide_eq_true_eq] at hvalid
  exact hvalid.2.trans_lt (by decide)

/-- The driver accepts the capacity that its buffer has. -/
theorem capacityValid_of_wellFormed {buffer : RingbufChar.Buffer} (h : buffer.WellFormed) :
    RingbufChar.capacityValid buffer.capacity = true := by
  rw [RingbufChar.capacityValid, decide_eq_true h.min_le, decide_eq_true h.le_max]
  rfl

/-- Such a capacity is packed as it is. -/
theorem mapM_pack {capacity : ℕ} (h : capacity < 2 ^ 64) :
    (some (capacity : ℤ)).mapM pack = .ok (some (BitVec.ofNat 64 capacity)) := by
  have hrange : 0 ≤ (capacity : ℤ) ∧ (capacity : ℤ) < 2 ^ 64 := ⟨by omega, by exact_mod_cast h⟩
  rw [Option.mapM_some, pack, if_pos hrange, BitVec.ofInt_natCast]
  rfl

/-- An `ioctl` of the adapter is a system call with the packed value. -/
theorem ioctl_eq_syscall {key : String} {value : Option ℤ} {request : Json}
    {arg : Option (BitVec 64)} (hfd : s.fd = some fd) (hkey : item device.abi key = .ok request)
    (hpack : value.mapM pack = .ok arg) :
    ioctl os device key value s = syscall os (.ioctl fd request arg) s := by
  rw [ioctl, hkey, hpack]
  exact (bind_of_ok rfl).trans ((bind_of_ok rfl).trans (bind_of_ok (descriptor_of_some hfd)))

/-! ## The driver as a system -/

/-- The argument of an `ioctl`, as the driver finds it. -/
def userArg : Option (BitVec 64) → RingbufChar.UserArg
  | some number => ⟨some number, some (number.setWidth 32), true⟩
  | none => ⟨none, none, false⟩

/-- The dict that `abi_dump` prints. -/
def abi : Json :=
  .dict [("abi_version", .int 1), ("clear", .int RingbufChar.iocClear.toNat),
    ("set_capacity", .int RingbufChar.iocSetCapacity.toNat),
    ("get_capacity", .int RingbufChar.iocGetCapacity.toNat),
    ("min_capacity", .int RingbufChar.minCapacity), ("max_capacity", .int RingbufChar.maxCapacity)]

/-- The `OSError` for an error of the driver. -/
def Raised.ofErrno (e : RingbufChar.Errno) : Raised where
  type := "OSError"
  text := ""
  osError := true
  errno := some (LinuxDevice.osErrno e)

/-- A system call that is a call into the driver, with what it hands back of a reply. The calls of
the adapter return within the steps of `RingbufChar.call`; what stands for others is arbitrary. -/
def reach {α : Type} (env : RingbufChar.Env) (c : RingbufChar.Call)
    (result : ℕ → RingbufChar.Output → α) (dev : Dev) :
    Except Raised α × Dev :=
  match RingbufChar.call env dev c with
  | some (⟨.ok n, output⟩, dev') => (.ok (result n output), dev')
  | some (⟨.error e, _⟩, dev') => (.error (.ofErrno e), dev')
  | none => (.error { Exc.typeError with }, dev)

/-- What the block of an `ioctl` holds after the call. -/
def block (arg : Option (BitVec 64)) (_ : ℕ) : RingbufChar.Output → BitVec 64
  | .capacity capacity => BitVec.ofNat 64 capacity
  | _ => arg.getD 0

/-- What a `read` has read. -/
def received (_ : ℕ) : RingbufChar.Output → List UInt8
  | .bytes data => data
  | _ => []

/-- The character device of the driver, opened with `O_NONBLOCK` as descriptor `fd`. -/
def driver (env : RingbufChar.Env) (fd : ℕ) : OS Dev
  | .open, dev => reach env .open (fun _ _ => fd) dev
  | .fstat _, dev => (.ok 0o020666, dev)
  | .ioctl _ (.int cmd) arg, dev =>
    reach env (.ioctl (BitVec.ofInt 32 cmd) (userArg arg)) (block arg) dev
  | .ioctl _ _ _, dev => (.error { Exc.typeError with }, dev)
  | .read _ count, dev => reach env (.transfer (.read true count)) received dev
  | .write _ payload, dev => reach env (.transfer (.write true payload)) (fun n _ => n) dev
  | .close _, dev => reach env .release (fun _ _ => ()) dev

/-- The driver hands an `ioctl` to `ringbuf_char_ioctl`. -/
theorem driver_ioctl (env : RingbufChar.Env) (fd fd' : ℕ) (cmd : BitVec 32)
    (arg : Option (BitVec 64)) (dev : Dev) :
    driver env fd (.ioctl fd' (.int cmd.toNat) arg) dev =
      reach env (.ioctl cmd (userArg arg)) (block arg) dev := by
  rw [driver, BitVec.ofInt_natCast, BitVec.ofNat_toNat, BitVec.setWidth_eq]

/-! ## Operations -/

/-- The system call that an operation makes. -/
def callOf (fd : ℕ) : Op → SysCall
  | .read count => .read fd count
  | .write payload => .write fd payload
  | .clear => .ioctl fd (.int RingbufChar.iocClear.toNat) none
  | .resize capacity =>
    .ioctl fd (.int RingbufChar.iocSetCapacity.toNat) (some (BitVec.ofNat 64 capacity))
  | .capacity => .ioctl fd (.int RingbufChar.iocGetCapacity.toNat) (some (BitVec.ofNat 64 0))

/-- What is made of the result of the system call. -/
def resultOf {fd : ℕ} : (op : Op) → (callOf fd op).Result → Result
  | .read _, data => success (List.length data) (some data)
  | .write _, count => success count none
  | .clear, _ => success 0 none
  | .resize _, _ => success 0 none
  | .capacity, capacity => success (BitVec.toNat capacity) none

/-- An operation is one system call. -/
theorem applyOp_eq {op : Op} (hfd : s.fd = some fd) (habi : device.abi = abi) (hop : op.Valid) :
    applyOp os device op s =
      (syscall os (callOf fd op) >>= fun result => pure (resultOf op result)) s := by
  have hioctl (cmd : BitVec 32) {key : String} {value : Option ℤ} {arg : Option (BitVec 64)}
      (hkey : item abi key = .ok (.int cmd.toNat)) (hpack : value.mapM pack = .ok arg) :
      ioctl os device key value s = syscall os (.ioctl fd (.int cmd.toNat) arg) s :=
    ioctl_eq_syscall hfd (habi ▸ hkey) hpack
  have hzero : (0 : ℕ) < 2 ^ 64 := by omega
  cases op with
  | read count => exact bind_of_ok (descriptor_of_some hfd)
  | write payload => exact bind_of_ok (descriptor_of_some hfd)
  | clear =>
    have hclear : ioctl os device "clear" none s = _ := hioctl RingbufChar.iocClear rfl rfl
    exact bind_of_eq hclear
  | resize capacity =>
    have hset : ioctl os device "set_capacity" (some capacity) s = _ :=
      hioctl RingbufChar.iocSetCapacity rfl (mapM_pack hop)
    exact bind_of_eq hset
  | capacity =>
    have hget : ioctl os device "get_capacity" (some 0) s = _ :=
      hioctl RingbufChar.iocGetCapacity rfl (mapM_pack hzero)
    exact bind_of_eq hget

section Apply

variable {j : Json} {op : Op} (hread : readOp j = .ok op)

include hread

/-- What `apply` returns where its system call went through. -/
theorem apply_of_ok {result : Result} (h : applyOp os device op s = .ok result s') :
    apply os device j s = .ok result.toJson s' := by
  rw [apply, hread]
  exact tryCatch_of_ok ((bind_of_ok rfl).trans (bind_of_ok h))

/-- Most errors of the system are results. -/
theorem apply_of_osError {exc : Raised} {errno : ℕ}
    (h : applyOp os device op s = .error exc s') (hos : exc.osError = true)
    (herrno : exc.errno = some errno) (hkept : LinuxDevice.reraised.contains errno = false) :
    apply os device j s = .ok (failure errno).toJson s' := by
  have hraised : (do
      let result ← applyOp os device (← eval (readOp j))
      return result.toJson : Io σ Json) s = .error exc s' := by
    rw [hread]
    exact (bind_of_ok rfl).trans (bind_of_error h)
  have hcaught : ¬(exc.osError = false ∨
      exc.errno.any (fun e => LinuxDevice.reraised.contains e) = true) := by
    rw [hos, herrno, Option.any_some, hkept]
    simp
  rw [apply, tryCatch_of_error hraised, if_neg hcaught, herrno]
  rfl

end Apply

section Driver

variable {env : RingbufChar.Env} {s : Session Dev} {dev' : Dev} {model : ReferenceModel}

/-- A system call whose call in the driver returns a value. -/
theorem syscall_reach_of_ok {call : SysCall} {c : RingbufChar.Call}
    {result : ℕ → RingbufChar.Output → call.Result} {n : ℕ} {output : RingbufChar.Output}
    (hreach : driver env fd call s.os = reach env c result s.os)
    (hcall : RingbufChar.call env s.os c = some (⟨.ok n, output⟩, dev')) :
    ∃ s', syscall (driver env fd) call s = .ok (result n output) s' ∧ s'.fd = s.fd ∧
      s'.os = dev' := by
  have hos : driver env fd call s.os = (.ok (result n output), dev') := by
    rw [hreach, reach, hcall]
  exact ⟨s.after (driver env fd) call, by rw [syscall, hos], rfl, congrArg Prod.snd hos⟩

/-- A system call whose call in the driver fails. -/
theorem syscall_reach_of_error {call : SysCall} {c : RingbufChar.Call}
    {result : ℕ → RingbufChar.Output → call.Result} {e : RingbufChar.Errno}
    {output : RingbufChar.Output}
    (hreach : driver env fd call s.os = reach env c result s.os)
    (hcall : RingbufChar.call env s.os c = some (⟨.error e, output⟩, dev')) :
    ∃ s', syscall (driver env fd) call s = .error (.ofErrno e) s' ∧ s'.fd = s.fd ∧
      s'.os = dev' := by
  have hos : driver env fd call s.os = (.error (.ofErrno e), dev') := by
    rw [hreach, reach, hcall]
  exact ⟨s.after (driver env fd) call, by rw [syscall, hos], rfl, congrArg Prod.snd hos⟩

/-- On the driver, it is the call that `LinuxDevice.syscall` names. -/
theorem exists_reach (env : RingbufChar.Env) (fd : ℕ) {op : Op} (hop : op.Valid) (dev : Dev) :
    ∃ result : ℕ → RingbufChar.Output → (callOf fd op).Result,
      driver env fd (callOf fd op) dev = reach env (LinuxDevice.syscall op) result dev ∧
      ∀ (n : ℕ) (output : RingbufChar.Output) (model : ReferenceModel),
        0 < model.capacity ∧ model.capacity < 2 ^ 64 →
        LinuxDevice.normalise op ⟨.ok n, output⟩ = .ok (model.apply op).1 →
        resultOf op (result n output) = (model.apply op).1 := by
  cases op with
  | read count =>
    refine ⟨received, rfl, fun n output model _ hnorm => ?_⟩
    rw [ReferenceModel.apply] at hnorm ⊢
    cases output with
    | bytes data => exact Except.ok.inj hnorm
    | _ =>
      -- a read does not succeed without data
      split_ifs at hnorm <;> simp [LinuxDevice.normalise, success, failure] at hnorm
  | write payload => exact ⟨fun n _ => n, rfl, fun n output model _ hnorm => Except.ok.inj hnorm⟩
  | clear =>
    exact ⟨block none, driver_ioctl env fd fd RingbufChar.iocClear none dev,
      fun n output model _ hnorm => Except.ok.inj hnorm⟩
  | resize capacity =>
    have harg : userArg (some (BitVec.ofNat 64 capacity)) =
        ⟨some (BitVec.ofNat 64 capacity), some (BitVec.ofNat 32 capacity), true⟩ := by
      simp [userArg]
    refine ⟨block (some (BitVec.ofNat 64 capacity)), ?_,
      fun n output model _ hnorm => Except.ok.inj hnorm⟩
    rw [LinuxDevice.syscall, ← harg]
    exact driver_ioctl env fd fd RingbufChar.iocSetCapacity _ dev
  | capacity =>
    refine ⟨block (some (BitVec.ofNat 64 0)),
      driver_ioctl env fd fd RingbufChar.iocGetCapacity _ dev,
      fun n output model hcapacity hnorm => ?_⟩
    obtain ⟨hpos, hlt⟩ := hcapacity
    cases output with
    | capacity capacity =>
      obtain rfl : capacity = model.capacity := by
        simpa [success, ReferenceModel.apply] using Except.ok.inj hnorm
      show success (BitVec.ofNat 64 model.capacity).toNat none = success model.capacity none
      rw [BitVec.toNat_ofNat, Nat.mod_eq_of_lt hlt]
    | _ =>
      -- no capacity is zero
      have hzero : (0 : ℤ) = model.capacity := by
        simpa [success, ReferenceModel.apply] using Except.ok.inj hnorm
      omega

/-- On the driver, an operation answers as it does on the model. -/
theorem apply_driver {op : Op} (hfd : s.fd = some fd) (habi : device.abi = abi)
    (h : LinuxDevice.Simulates s.os model) (henv : env.Quiet) (hop : op.Valid) :
    ∃ s', apply (driver env fd) device op.toJson s = .ok (model.apply op).1.toJson s' ∧
      s'.fd = some fd ∧ LinuxDevice.Simulates s'.os (model.apply op).2 := by
  have hread : readOp op.toJson = .ok op := readOp_of_validateOp (validateOp_toJson hop)
  have happly : applyOp (driver env fd) device op s = _ := applyOp_eq hfd habi hop
  obtain ⟨dev', hdevice, hsim⟩ := LinuxDevice.apply_simulates h henv hop
  rw [LinuxDevice.apply, Option.map_eq_some_iff] at hdevice
  obtain ⟨⟨⟨value, output⟩, dev''⟩, hcall, heq⟩ := hdevice
  obtain ⟨hnorm, rfl⟩ := Prod.mk.inj heq
  obtain ⟨result, hreach, hanswer⟩ := exists_reach env fd hop s.os
  cases value with
  | ok n =>
    obtain ⟨s', hsyscall, hfd', rfl⟩ := syscall_reach_of_ok hreach hcall
    have hwf := h.represents.wellFormed
    have hcapacity : 0 < model.capacity ∧ model.capacity < 2 ^ 64 := by
      rw [← h.capacity_eq]
      exact ⟨hwf.capacity_pos, lt_of_capacityValid (capacityValid_of_wellFormed hwf)⟩
    refine ⟨s', ?_, hfd'.trans hfd, hsim⟩
    rw [← hanswer n output model hcapacity hnorm]
    exact apply_of_ok hread (happly.trans (bind_of_ok hsyscall))
  | error e =>
    obtain ⟨s', hsyscall, hfd', rfl⟩ := syscall_reach_of_error hreach hcall
    refine ⟨s', ?_, hfd'.trans hfd, hsim⟩
    dsimp only [LinuxDevice.normalise] at hnorm
    split_ifs at hnorm with hreraised
    rw [← Except.ok.inj hnorm]
    exact apply_of_osError hread (happly.trans (bind_of_error hsyscall)) rfl rfl
      (by simpa using hreraised)

/-- So does a list of operations. -/
theorem mapM_apply_driver {ops : List Op} (hfd : s.fd = some fd) (habi : device.abi = abi)
    (h : LinuxDevice.Simulates s.os model) (henv : env.Quiet) (hops : ∀ op ∈ ops, op.Valid) :
    ∃ s', ops.mapM (fun op => apply (driver env fd) device op.toJson) s =
        .ok ((model.run ops).1.map Result.toJson) s' ∧
      LinuxDevice.Simulates s'.os (model.run ops).2 := by
  induction ops generalizing s model with
  | nil => exact ⟨s, rfl, h⟩
  | cons op ops ih =>
    obtain ⟨s₁, happly, hfd₁, h₁⟩ := apply_driver hfd habi h henv (hops op List.mem_cons_self)
    obtain ⟨s₂, hrest, h₂⟩ := ih hfd₁ h₁ fun o ho => hops o (List.mem_cons_of_mem _ ho)
    refine ⟨s₂, ?_, h₂⟩
    rw [List.mapM_cons, bind_of_ok happly, bind_of_ok hrest]
    rfl

end Driver

end Lab.Lifecycle
