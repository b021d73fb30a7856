import KernelBridge.Driver.Conservation
import Mathlib.Algebra.Group.Nat.Defs

/-!
# Calls one at a time

A call that runs alone takes the steps of its thread until it returns: this is what a
single-threaded client of the driver sees. Such a call is a run of the system
(`run_of_call`), so whatever holds of every run holds of it. In a quiet environment, where no
signal arrives, user memory is accessible and allocations succeed, a nonblocking call always
returns, and the specifications below say what.
-/

namespace RingbufChar

open Buffer

/-- One step of a thread that runs alone: it goes on, returns, or is stuck asleep. -/
def soloStep (env : Env) : Dev × Pc → (Dev × Pc) ⊕ Option (Reply × Dev)
  | (dev, .ret r) => .inr (some (r, dev))
  | (dev, pc) =>
    match stepThread env dev pc with
    | some eff => .inl (eff.dev, eff.pc)
    | none => .inr none

/-- The reply to a call that runs alone, and the device it leaves; `none` if it does not return
within sixteen steps. -/
def call (env : Env) (dev : Dev) (c : Call) : Option (Reply × Dev) :=
  (Loop.run (soloStep env) 16 (dev, .entry c)).join

variable {env : Env} {dev dev' : Dev} {pc : Pc} {eff : Effect} {c : Call} {r : Reply}

/-- A step of a call that has not returned. -/
theorem soloStep_of_some (hret : ∀ r, pc ≠ .ret r) (hs : stepThread env dev pc = some eff) :
    soloStep env (dev, pc) = .inl (eff.dev, eff.pc) := by
  cases pc with
  | ret r => exact absurd rfl (hret r)
  | _ => simp [soloStep, hs]

/-- A call with no step to take stops. -/
theorem soloStep_of_none (hs : stepThread env dev pc = none) :
    soloStep env (dev, pc) = .inr none := by
  cases pc with
  | ret r => cases hs
  | _ => simp [soloStep, hs]

/-- A thread that wakes a queue does not go to sleep by the same step. -/
theorem stepThread_wake {q : WaitQueue} (hs : stepThread env dev pc = some eff)
    (hwake : eff.wake = some q) : eff.pc.wake q = eff.pc := by
  cases pc with
  | wakePeer rw bytes => cases hs; rfl
  | wakeRead => cases hs; rfl
  | wakeWrite => cases hs; rfl
  | idle => cases hs
  | entry c => cases hs; cases c <;> cases hwake
  | lock rw =>
    rcases Transfer.lockStep_eq_some hs with rfl | ⟨out, dev', -, rfl⟩ <;> cases hwake
  | wait rw seen phase =>
    rcases Transfer.waitStep_eq_some hs with rfl | ⟨next, rfl⟩ | rfl <;> cases hwake
  | control ctl => cases hs; cases ctl <;> cases hwake
  | resetStats rest => cases rest <;> cases hs <;> cases hwake
  | _ => cases hs; cases hwake

/-- After its own step, a thread stands where the step leaves it. -/
theorem Sys.pc_apply_self {ι : Type*} [DecidableEq ι] {s : Sys ι} {t : ι}
    (hs : stepThread env s.dev (s.pc t) = some eff) : (s.apply t eff).pc t = eff.pc := by
  rw [Sys.pc_apply, Function.update_self]
  split
  · rfl
  next q hwake => exact stepThread_wake hs hwake

/-- A thread that runs alone until it returns takes the system through a run. -/
theorem run_of_solo {ι : Type*} [DecidableEq ι] {fuel : ℕ} {s : Sys ι} {t : ι}
    (h : Loop.run (soloStep env) fuel (s.dev, s.pc t) = some (some (r, dev'))) :
    ∃ tr s', Lts.Run Step s (tr ++ [(t, .ret r)]) s' ∧ s'.dev = dev' ∧ s'.pc t = .idle := by
  induction fuel generalizing s with
  | zero => cases h
  | succ fuel ih =>
    -- the last step of the thread is its return; every other one continues the loop
    by_cases hret : ∃ r', s.pc t = .ret r'
    · obtain ⟨r', hpc⟩ := hret
      rw [Loop.run_succ, hpc] at h
      cases h
      exact ⟨[], s.apply t { dev := s.dev, pc := .idle, event := .ret r },
        .cons (.run t env _ (by rw [hpc]; rfl)) .nil, rfl, by simp [Sys.apply]⟩
    · cases hs : stepThread env s.dev (s.pc t) with
      | none =>
        rw [Loop.run_of_exit (soloStep_of_none hs)] at h
        cases h
      | some eff =>
        rw [Loop.run_of_continue (soloStep_of_some (fun r hr => hret ⟨r, hr⟩) hs)] at h
        rw [← Sys.pc_apply_self hs] at h
        -- no other thread moves in between, so the loop runs on the state the step has left
        obtain ⟨tr, s', hrun, hdev, hidle⟩ := ih (s := s.apply t eff) h
        exact ⟨(t, eff.event) :: tr, s', .cons (.run t env eff hs) hrun, hdev, hidle⟩

/-- A call that runs alone is a run of the system, from its invocation to its return. -/
theorem run_of_call {ι : Type*} [DecidableEq ι] {s : Sys ι} {t : ι} (hidle : s.pc t = .idle)
    (h : call env s.dev c = some (r, dev')) :
    ∃ tr s', Lts.Run Step s ((t, .invoke c) :: tr ++ [(t, .ret r)]) s' ∧ s'.dev = dev' ∧
      s'.pc t = .idle := by
  have hsolo := Option.join_eq_some_iff.mp h
  obtain ⟨tr, s', hrun, hdev, hidle'⟩ :=
    run_of_solo (s := { s with pc := Function.update s.pc t (.entry c) }) (t := t)
      (by simpa using hsolo)
  exact ⟨tr, s', .cons (.invoke t c hidle) hrun, hdev, hidle'⟩

/-! ## Nonblocking calls in a quiet environment -/

/-- No signal interrupts, no user copy fails, and every allocation succeeds. A signal can interrupt
only a wait, or a contended `mutex_lock_interruptible`; the mutex of a call that runs alone is
free. -/
structure Env.Quiet (env : Env) : Prop where
  no_signal : env.signal = false
  faultless : env.copy.Faultless
  alloc : ∀ size, (env.alloc size).isSome = true

/-- The quiet environment is quiet. -/
theorem Env.quiet_quiet : Env.quiet.Quiet := ⟨rfl, UserCopy.accessible_faultless, fun _ => rfl⟩

/-- A transfer of no bytes returns at once. -/
theorem call_of_size_eq_zero (env : Env) (dev : Dev) (rw : Transfer) (hsize : rw.size = 0) :
    call env dev (.transfer rw) =
      some ({ value := .ok 0, output := rw.output [] }, dev.inc rw.calls) := by
  have henter : stepThread env dev (.entry (.transfer rw)) = some
      { dev := dev.inc rw.calls, pc := .ret { value := .ok 0, output := rw.output [] } } := by
    simp [stepThread, Call.enter, hsize]
  rw [call, Loop.run_of_continue (soloStep_of_some (by simp) henter)]
  rfl

/-- A transfer that no signal interrupts counts the call and enters its mutex section. -/
theorem call_of_critical (rw : Transfer) (hsignal : env.signal = false) (hsize : 0 < rw.size)
    {out : Outcome} (hcrit : rw.critical env.copy (dev.inc rw.calls) = some (out, dev')) :
    call env dev (.transfer rw) = (Loop.run (soloStep env) 14 (dev', rw.after out)).join := by
  have henter : stepThread env dev (.entry (.transfer rw)) =
      some { dev := dev.inc rw.calls, pc := .lock rw } := by
    simp [stepThread, Call.enter, hsize.ne']
  have hlock : stepThread env (dev.inc rw.calls) (.lock rw) = some
      { dev := dev', pc := rw.after out
        event := .critical (dev.inc rw.calls) (rw.movedBy out) } := by
    simp [stepThread, Transfer.lockStep, hsignal, hcrit]
  rw [call, Loop.run_of_continue (soloStep_of_some (by simp) henter),
    Loop.run_of_continue (soloStep_of_some (by simp) hlock)]

/-- A failed transfer notes the failure and returns the error. -/
theorem solo_fail (env : Env) (dev : Dev) (rw : Transfer) (e : Errno) :
    (Loop.run (soloStep env) 14 (dev, rw.after (.fail e))).join =
      some ({ value := .error e }, dev.noteFailure) := rfl

/-- A transfer that has moved bytes adds them to the total, wakes its peers and returns. -/
theorem solo_moved (env : Env) (dev : Dev) (rw : Transfer) {bytes : List UInt8}
    (hpos : 0 < bytes.length) :
    (Loop.run (soloStep env) 14 (dev, rw.after (.moved bytes))).join =
      some ({ value := .ok bytes.length, output := rw.output bytes },
        dev.add rw.total (BitVec.ofNat 64 bytes.length)) := by
  rw [Transfer.after, if_pos hpos]
  rfl

variable {count : ℕ} {data : List UInt8}

/-- A nonblocking `read` of an empty buffer returns `EAGAIN`. -/
theorem call_read_of_empty (hwf : dev.buffer.WellFormed) (hup : dev.shuttingDown = false)
    (henv : env.Quiet) (hcount : 0 < count) (hempty : dev.buffer.len = 0) :
    ∃ dev', call env dev (.transfer (.read true count)) =
        some ({ value := .error .EAGAIN }, dev') ∧
      dev'.buffer = dev.buffer ∧ dev'.shuttingDown = false := by
  obtain ⟨out, dev', hcrit, hout⟩ :=
    Dev.readSection_spec (show (dev.inc .readCalls).buffer.WellFormed from hwf) hcount true env.copy
  have hcall := call_of_critical (.read true count) henv.no_signal hcount hcrit
  cases hout with
  | eof hdown => exact absurd hdown (by simp [hup])
  | again => exact ⟨_, hcall.trans (solo_fail env _ _ _), rfl, hup⟩
  -- a nonblocking call does not wait
  | wait _ _ hnb => simp [Dev.nonblocking] at hnb
  | fault hstored => exact absurd hempty hstored.ne'
  | moved k _ hpos hle => simp only [Dev.buffer_inc] at hle; omega

/-- A nonblocking `read` returns what is stored, as far as it was asked for. -/
theorem call_read_of_stored (hwf : dev.buffer.WellFormed) (hup : dev.shuttingDown = false)
    (henv : env.Quiet) (hcount : 0 < count) (hstored : 0 < dev.buffer.len) :
    ∃ dev', call env dev (.transfer (.read true count)) =
        some ({ value := .ok (min count dev.buffer.len)
                output := .bytes (dev.buffer.fifo.take (min count dev.buffer.len)) }, dev') ∧
      dev'.buffer = dev.buffer.consume (min count dev.buffer.len) ∧
      dev'.shuttingDown = false := by
  obtain ⟨out, dev', hcrit, hout⟩ :=
    Dev.readSection_spec (show (dev.inc .readCalls).buffer.WellFormed from hwf) hcount true env.copy
  have hcall := call_of_critical (.read true count) henv.no_signal hcount hcrit
  cases hout with
  | eof _ hempty => exact absurd hempty hstored.ne'
  | again _ hempty => exact absurd hempty hstored.ne'
  | wait _ hempty => exact absurd hempty hstored.ne'
  -- no copy fails in a quiet environment, so all that could be moved has been
  | fault _ hbad => exact absurd henv.faultless hbad
  | moved k faulted hpos hle hall hbad =>
    cases faulted with
    | true => exact absurd henv.faultless (hbad rfl)
    | false =>
      obtain rfl := hall rfl
      have hlen : (dev.buffer.fifo.take (min count dev.buffer.len)).length =
          min count dev.buffer.len := by
        rw [List.length_take, hwf.length_fifo]; omega
      simp only [Dev.buffer_inc] at hcall hpos
      have hreply := hcall.trans (solo_moved env _ _ (by omega))
      rw [hlen] at hreply
      exact ⟨_, hreply, rfl, hup⟩

/-- A nonblocking `write` to a full buffer returns `EAGAIN`. -/
theorem call_write_of_full (hwf : dev.buffer.WellFormed) (hup : dev.shuttingDown = false)
    (henv : env.Quiet) (hdata : 0 < data.length) (hfull : dev.buffer.len = dev.buffer.capacity) :
    ∃ dev', call env dev (.transfer (.write true data)) =
        some ({ value := .error .EAGAIN }, dev') ∧
      dev'.buffer = dev.buffer ∧ dev'.shuttingDown = false := by
  obtain ⟨out, dev', hcrit, hout⟩ :=
    Dev.writeSection_spec (show (dev.inc .writeCalls).buffer.WellFormed from hwf) hdata true env.copy
  have hcall := call_of_critical (.write true data) henv.no_signal hdata hcrit
  cases hout with
  | down hdown => exact absurd hdown (by simp [hup])
  | again => exact ⟨_, hcall.trans (solo_fail env _ _ _), rfl, hup⟩
  | wait _ _ hnb => simp [Dev.nonblocking] at hnb
  | fault _ hspace => exact absurd hfull hspace.ne
  | moved _ k _ _ _ hpos hle => simp only [Dev.buffer_inc] at hle; omega

/-- A nonblocking `write` stores the bytes that fit. -/
theorem call_write_of_space (hwf : dev.buffer.WellFormed) (hup : dev.shuttingDown = false)
    (henv : env.Quiet) (hdata : 0 < data.length) (hspace : dev.buffer.len < dev.buffer.capacity) :
    ∃ dev', call env dev (.transfer (.write true data)) =
        some ({ value := .ok (min data.length (dev.buffer.capacity - dev.buffer.len)) }, dev') ∧
      WriteInv dev.buffer data (min data.length (dev.buffer.capacity - dev.buffer.len))
        dev'.buffer ∧
      dev'.shuttingDown = false := by
  obtain ⟨out, dev', hcrit, hout⟩ :=
    Dev.writeSection_spec (show (dev.inc .writeCalls).buffer.WellFormed from hwf) hdata true env.copy
  have hcall := call_of_critical (.write true data) henv.no_signal hdata hcrit
  cases hout with
  | down hdown => exact absurd hdown (by simp [hup])
  | again _ hfull => exact absurd hfull hspace.ne
  | wait _ hfull => exact absurd hfull hspace.ne
  | fault _ _ _ _ hbad => exact absurd henv.faultless hbad
  | moved _ k faulted c hinv hpos hle hall hbad =>
    cases faulted with
    | true => exact absurd henv.faultless (hbad rfl)
    | false =>
      obtain rfl := hall rfl
      simp only [Dev.buffer_inc] at hcall hpos hinv
      have hlen : (data.take (min data.length (dev.buffer.capacity - dev.buffer.len))).length =
          min data.length (dev.buffer.capacity - dev.buffer.len) := by
        rw [List.length_take]; omega
      have hreply := hcall.trans (solo_moved env _ _ (by omega))
      rw [hlen] at hreply
      exact ⟨_, hreply, hinv, hup⟩

/-- An ioctl counts the call and looks at its command. -/
theorem call_ioctl (env : Env) (dev : Dev) (cmd : BitVec 32) (arg : UserArg) :
    call env dev (.ioctl cmd arg) =
      (Loop.run (soloStep env) 14 (dev.inc .ioctlCalls, dispatch cmd arg)).join := rfl

/-- `CLEAR` empties the buffer. -/
theorem call_clear (env : Env) (dev : Dev) (arg : UserArg) :
    ∃ dev', call env dev (.ioctl iocClear arg) = some ({ value := .ok 0 }, dev') ∧
      dev'.buffer = dev.buffer.clear ∧ dev'.shuttingDown = dev.shuttingDown :=
  ⟨_, rfl, rfl, rfl⟩

/-- `GET_CAPACITY` returns the capacity through the pointer. -/
theorem call_getCapacity (env : Env) (dev : Dev) (arg : UserArg) (hwritable : arg.writable = true) :
    ∃ dev', call env dev (.ioctl iocGetCapacity arg) =
        some ({ value := .ok 0, output := .capacity dev.buffer.capacity }, dev') ∧
      dev'.buffer = dev.buffer ∧ dev'.shuttingDown = dev.shuttingDown := by
  obtain ⟨u64, u32, writable⟩ := arg
  obtain rfl : writable = true := hwritable
  exact ⟨_, rfl, rfl, rfl⟩

/-- The checks of `SET_CAPACITY` before its mutex section. -/
theorem dispatch_setCapacity {requested : ℕ} (hrequested : requested < 2 ^ 64) {arg : UserArg}
    (harg : arg.u64 = some (BitVec.ofNat 64 requested)) :
    dispatch iocSetCapacity arg =
      if capacityValid requested then .control (.setCapacity (BitVec.ofNat 64 requested))
      else .noteFailure .EINVAL := by
  have hnat : (BitVec.ofNat 64 requested).toNat = requested := by
    rw [BitVec.toNat_ofNat, Nat.mod_eq_of_lt hrequested]
  unfold dispatch
  rw [if_neg (by decide), if_neg (by decide), if_neg (by decide), if_pos rfl, harg]
  simp only [hnat]
  cases capacityValid requested <;> rfl

/-- `SET_CAPACITY` refuses a capacity out of range. -/
theorem call_setCapacity_of_invalid (env : Env) (dev : Dev) {requested : ℕ}
    (hrequested : requested < 2 ^ 64) {arg : UserArg}
    (harg : arg.u64 = some (BitVec.ofNat 64 requested))
    (hinvalid : capacityValid requested = false) :
    ∃ dev', call env dev (.ioctl iocSetCapacity arg) =
        some ({ value := .error .EINVAL }, dev') ∧
      dev'.buffer = dev.buffer ∧ dev'.shuttingDown = dev.shuttingDown := by
  rw [call_ioctl, dispatch_setCapacity hrequested harg, hinvalid]
  exact ⟨_, rfl, rfl, rfl⟩

/-- `SET_CAPACITY` to a valid capacity does what the resize does. -/
theorem call_setCapacity (env : Env) (dev : Dev) {requested : ℕ}
    (hrequested : requested < 2 ^ 64) {arg : UserArg}
    (harg : arg.u64 = some (BitVec.ofNat 64 requested))
    (hvalid : capacityValid requested = true) :
    ∃ dev', call env dev (.ioctl iocSetCapacity arg) =
        some ({ value := (dev.buffer.resize requested env.alloc).map fun _ => 0 }, dev') ∧
      dev'.buffer = (dev.buffer.resize requested env.alloc).toOption.getD dev.buffer ∧
      dev'.shuttingDown = dev.shuttingDown := by
  have hnat : (BitVec.ofNat 64 requested).toNat = requested := by
    rw [BitVec.toNat_ofNat, Nat.mod_eq_of_lt hrequested]
  rw [call_ioctl, dispatch_setCapacity hrequested harg, if_pos hvalid,
    Loop.run_of_continue (soloStep_of_some (by simp) rfl)]
  simp only [Control.step, Dev.setCapacitySection, hnat, Dev.buffer_inc]
  cases hr : dev.buffer.resize requested env.alloc with
  | ok buffer => exact ⟨_, rfl, rfl, rfl⟩
  | error e => exact ⟨_, rfl, rfl, rfl⟩

end RingbufChar
