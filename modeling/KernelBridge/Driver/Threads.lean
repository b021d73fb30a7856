import KernelBridge.Driver.Sections
import KernelBridge.Lib.Lts

/-!
# Threads in the driver

Any number of threads call into the driver. `Pc` is where a thread stands in
`kernel/ringbuf_char.c`, and `stepThread` is its next atomic step: a mutex section, an access to
one atomic counter, one evaluation of a wait condition, entering a wait queue, going to sleep, or
one `wake_up_interruptible`. A mutex section is one step because every access to the fields it
guards, the wait conditions apart, is made under the mutex.

The kernel's wait API is modelled by its contract. `wait_event_interruptible` evaluates its
condition, and if that is false enqueues the thread before evaluating it again and sleeping; a
wake-up makes every thread then on the queue evaluate the condition once more, whether it is
asleep yet or not. `wake_up_interruptible` and `wake_up_interruptible_all` agree on the queues of
this driver, whose waiters are not exclusive.

The counters of a statistics snapshot are read in one step, with the buffer fields.

`Event` is what a step shows of itself, for the statements about whole runs: the calls and their
returns, the interruptions, and the mutex sections with the device they started from and the
bytes they moved.
-/

namespace RingbufChar

/-- A `read` or `write` call: whether the descriptor has `O_NONBLOCK`, and the count asked for or
the caller's data. -/
inductive Transfer
  | read (nonblock : Bool) (count : ℕ)
  | write (nonblock : Bool) (data : List UInt8)
  deriving DecidableEq, Repr

/-- The wait queues of the device. -/
inductive WaitQueue
  | read
  | write
  deriving DecidableEq, Repr

/-- What the user memory at the argument of an ioctl yields: the `u64` and the `u32` that
`copy_from_user` reads there, if it is readable, and whether `copy_to_user` can write to it. -/
structure UserArg where
  u64 : Option (BitVec 64)
  u32 : Option (BitVec 32)
  writable : Bool
  deriving DecidableEq, Repr

/-- A call into the driver. `exit` is module exit, up to its two wake-ups: the teardown after
them runs only when no call is in flight. -/
inductive Call
  | open
  | release
  | transfer (rw : Transfer)
  | ioctl (cmd : BitVec 32) (arg : UserArg)
  | poll
  | exit
  deriving DecidableEq, Repr

/-- What a call hands back besides its return value. -/
inductive Output
  | none
  | bytes (bytes : List UInt8)
  | capacity (capacity : ℕ)
  | stats (stats : Stats)
  | ready (readable writable : Bool)

/-- The return of a call: a nonnegative value or an error, and what was handed back. -/
structure Reply where
  value : Except Errno ℕ
  output : Output := .none

/-- The bytes that a mutex section put into the buffer or took out of it. -/
inductive Moved
  | none
  | wrote (bytes : List UInt8)
  | delivered (bytes : List UInt8)
  | discarded (bytes : List UInt8)
  deriving DecidableEq, Repr

/-- What a step shows of itself. -/
inductive Event
  | invoke (c : Call)
  | tau
  /-- A signal ended the wait for the mutex or for readiness. -/
  | interrupted
  /-- A mutex section, with the device it found. -/
  | critical (found : Dev) (moved : Moved)
  | ret (r : Reply)

/-- The progress of `wait_event_interruptible`. -/
inductive WaitPhase
  /-- The first evaluation of the condition, before enqueueing. -/
  | enter
  /-- About to enqueue. -/
  | enqueue
  /-- About to evaluate the condition: enqueued, unless a signal was pending. -/
  | check (pending woken : Bool)
  /-- The condition was false: about to sleep, unless woken meanwhile. -/
  | park (woken : Bool)
  | parked (woken : Bool)
  deriving DecidableEq, Repr

/-- The mutex sections outside `read` and `write`. -/
inductive Control
  | clear
  | getStats (writable : Bool)
  | setCapacity (requested : BitVec 64)
  | getCapacity (writable : Bool)
  | setMode (mode : BitVec 32)
  | poll
  | exit
  deriving DecidableEq, Repr

/-- Where a thread stands. -/
inductive Pc
  | idle
  | entry (c : Call)
  /-- In `ringbuf_char_open`, about to count the handle. -/
  | openHandle
  /-- At `mutex_lock_interruptible`, the top of the retry loop. -/
  | lock (rw : Transfer)
  /-- In `wait_event_interruptible`, having saved the generation `seen`. -/
  | wait (rw : Transfer) (seen : BitVec 64) (phase : WaitPhase)
  /-- After the mutex section: about to add to the total of bytes. -/
  | account (rw : Transfer) (bytes : List UInt8)
  /-- About to wake the other side. -/
  | wakePeer (rw : Transfer) (bytes : List UInt8)
  /-- In `ringbuf_char_ioctl`, before the command is looked at. -/
  | dispatch (cmd : BitVec 32) (arg : UserArg)
  | control (c : Control)
  /-- About to wake both queues, the read queue first. -/
  | wakeRead
  | wakeWrite
  /-- About to copy a result to the user. -/
  | copyOut (out : Output) (writable : Bool)
  /-- In `ringbuf_char_reset_stats`, with these counters still to be zeroed. -/
  | resetStats (rest : List Counter)
  /-- About to note the failure and return the error. -/
  | noteFailure (e : Errno)
  | ret (r : Reply)

/-- The choices of the environment at one step: whether a signal is pending, what the user copies
do, and what the allocator returns. -/
structure Env where
  signal : Bool
  copy : UserCopy
  alloc : Alloc

/-- No signal, accessible user memory and successful allocations. -/
def Env.quiet : Env := { signal := false, copy := .accessible, alloc := .zeroed }

/-- One atomic step of a thread: the device and the place after it, what it shows, and the queue
it wakes. -/
structure Effect where
  dev : Dev
  pc : Pc
  event : Event := .tau
  wake : Option WaitQueue := none

/-! ## `read` and `write` -/

namespace Transfer

/-- The number of bytes asked for. -/
def size : Transfer → ℕ
  | .read _ count => count
  | .write _ data => data.length

/-- The queue the call waits on. -/
def waitsOn : Transfer → WaitQueue
  | .read .. => .read
  | .write .. => .write

/-- The queue the call wakes once it has moved bytes. -/
def wakes : Transfer → WaitQueue
  | .read .. => .write
  | .write .. => .read

/-- The counter of calls, bumped on entry. -/
def calls : Transfer → Counter
  | .read .. => .readCalls
  | .write .. => .writeCalls

/-- The counter of bytes, added to after the mutex section. -/
def total : Transfer → Counter
  | .read .. => .totalBytesRead
  | .write .. => .totalBytesWritten

/-- The wait condition of the call. -/
def condition (rw : Transfer) (dev : Dev) (seen : BitVec 64) : Bool :=
  match rw with
  | .read .. => dev.readCondition seen
  | .write .. => dev.writeCondition seen

/-- The mutex section of the call. -/
def critical (rw : Transfer) (uc : UserCopy) (dev : Dev) : Option (Outcome × Dev) :=
  match rw with
  | .read nonblock count => dev.readSection nonblock count uc
  | .write nonblock data => dev.writeSection nonblock data uc

/-- The bytes of the call, as the mutex section moved them. -/
def moved (rw : Transfer) (bytes : List UInt8) : Moved :=
  match rw with
  | .read .. => .delivered bytes
  | .write .. => .wrote bytes

/-- What the call hands back after moving `bytes`. -/
def output (rw : Transfer) (bytes : List UInt8) : Output :=
  match rw with
  | .read .. => .bytes bytes
  | .write .. => .none

/-- The bytes moved by a mutex section of the call that ended with `out`. -/
def movedBy (rw : Transfer) : Outcome → Moved
  | .moved bytes => rw.moved bytes
  | _ => .none

/-- Where the call continues after a mutex section that ended with `out`. -/
def after (rw : Transfer) : Outcome → Pc
  | .wait seen => .wait rw seen .enter
  | .fail e => .noteFailure e
  | .fault => .ret { value := .error .EFAULT }
  | .eof => .ret { value := .ok 0 }
  | .moved bytes =>
    if bytes.length > 0 then .account rw bytes
    else .ret { value := .ok 0, output := rw.output bytes }

/-- The lock of the retry loop, which a signal can interrupt, and the mutex section. -/
def lockStep (rw : Transfer) (env : Env) (dev : Dev) : Option Effect :=
  if env.signal then some { dev, pc := .noteFailure .ERESTARTSYS, event := .interrupted }
  else
    (rw.critical env.copy dev).map fun (out, dev') =>
      { dev := dev', pc := rw.after out, event := .critical dev (rw.movedBy out) }

/-- One step of `wait_event_interruptible`. A thread asleep and not woken has no step. -/
def waitStep (rw : Transfer) (seen : BitVec 64) (env : Env) (dev : Dev) :
    WaitPhase → Option Effect
  | .enter =>
    some { dev, pc := if rw.condition dev seen then .lock rw else .wait rw seen .enqueue }
  | .enqueue => some { dev, pc := .wait rw seen (.check env.signal false) }
  | .check pending woken =>
    if rw.condition dev seen then some { dev, pc := .lock rw }
    else if pending then some { dev, pc := .noteFailure .ERESTARTSYS, event := .interrupted }
    else some { dev, pc := .wait rw seen (.park woken) }
  | .park woken =>
    some { dev, pc := .wait rw seen (if woken then .enqueue else .parked false) }
  | .parked woken =>
    if woken ∨ env.signal then some { dev, pc := .wait rw seen .enqueue } else none

/-- A step at the lock: a signal ends the call, or the mutex section is run. -/
theorem lockStep_eq_some {rw : Transfer} {env : Env} {dev : Dev} {eff : Effect}
    (hs : rw.lockStep env dev = some eff) :
    eff = { dev, pc := .noteFailure .ERESTARTSYS, event := .interrupted } ∨
      ∃ out dev', rw.critical env.copy dev = some (out, dev') ∧
        eff = { dev := dev', pc := rw.after out, event := .critical dev (rw.movedBy out) } := by
  unfold lockStep at hs
  split_ifs at hs with hsignal
  · exact .inl (Option.some.inj hs).symm
  · obtain ⟨⟨out, dev'⟩, hcrit, rfl⟩ := Option.map_eq_some_iff.mp hs
    exact .inr ⟨out, dev', hcrit, rfl⟩

/-- A step of a waiting thread leaves the device alone: the thread goes back to the lock, goes on
waiting, or is interrupted. -/
theorem waitStep_eq_some {rw : Transfer} {seen : BitVec 64} {env : Env} {dev : Dev}
    {phase : WaitPhase} {eff : Effect} (hs : rw.waitStep seen env dev phase = some eff) :
    eff = { dev, pc := .lock rw } ∨ (∃ next, eff = { dev, pc := .wait rw seen next }) ∨
      eff = { dev, pc := .noteFailure .ERESTARTSYS, event := .interrupted } := by
  unfold waitStep at hs
  split at hs
  · obtain rfl := Option.some.inj hs
    split_ifs with hcond
    · exact .inl rfl
    · exact .inr (.inl ⟨.enqueue, rfl⟩)
  · exact .inr (.inl ⟨_, (Option.some.inj hs).symm⟩)
  · split_ifs at hs with hcond hpending
    · exact .inl (Option.some.inj hs).symm
    · exact .inr (.inr (Option.some.inj hs).symm)
    · exact .inr (.inl ⟨_, (Option.some.inj hs).symm⟩)
  · exact .inr (.inl ⟨_, (Option.some.inj hs).symm⟩)
  · split_ifs at hs with hwoken
    exact .inr (.inl ⟨_, (Option.some.inj hs).symm⟩)

end Transfer

/-! ## `ioctl`, `poll` and module exit -/

/-- `_IOC(dir, RINGBUF_CHAR_IOC_MAGIC, nr, size)`. -/
def ioc (dir nr size : ℕ) : BitVec 32 :=
  BitVec.ofNat 32 (dir <<< 30 ||| size <<< 16 ||| 0x52 <<< 8 ||| nr)

/-- `RINGBUF_CHAR_IOC_CLEAR`. -/
def iocClear : BitVec 32 := ioc 0 0 0

/-- `RINGBUF_CHAR_IOC_GET_STATS`; the statistics take 136 bytes. -/
def iocGetStats : BitVec 32 := ioc 2 1 136

/-- `RINGBUF_CHAR_IOC_SET_CAPACITY`. -/
def iocSetCapacity : BitVec 32 := ioc 1 2 8

/-- `RINGBUF_CHAR_IOC_GET_CAPACITY`. -/
def iocGetCapacity : BitVec 32 := ioc 2 3 8

/-- `RINGBUF_CHAR_IOC_SET_MODE`. -/
def iocSetMode : BitVec 32 := ioc 1 4 4

/-- `RINGBUF_CHAR_IOC_RESET_STATS`. -/
def iocResetStats : BitVec 32 := ioc 0 5 0

/-- `ringbuf_char_ioctl` up to the mutex section of the command: the checks of the command and of
its argument. -/
def dispatch (cmd : BitVec 32) (arg : UserArg) : Pc :=
  -- the magic and the number are checked before the command as a whole
  if (cmd >>> 8) &&& 0xff ≠ 0x52 ∨ cmd &&& 0xff > 5 then .noteFailure .ENOTTY
  else if cmd = iocClear then .control .clear
  else if cmd = iocGetStats then .control (.getStats arg.writable)
  else if cmd = iocSetCapacity then
    match arg.u64 with
    | none => .noteFailure .EFAULT
    | some requested =>
      if !capacityValid requested.toNat then .noteFailure .EINVAL
      else .control (.setCapacity requested)
  else if cmd = iocGetCapacity then .control (.getCapacity arg.writable)
  else if cmd = iocSetMode then
    match arg.u32 with
    | none => .noteFailure .EFAULT
    | some mode =>
      if mode &&& ~~~modeNonblock ≠ 0 then .noteFailure .EINVAL else .control (.setMode mode)
  else if cmd = iocResetStats then .resetStats Counter.all
  else .noteFailure .ENOTTY

/-- Where the checks of a command lead: to an error, to the mutex section of the command, or, for
`RESET_STATS`, to the counters. -/
theorem dispatch_cases (cmd : BitVec 32) (arg : UserArg) :
    (∃ e, dispatch cmd arg = .noteFailure e) ∨
      (cmd = iocClear ∧ dispatch cmd arg = .control .clear) ∨
      (∃ ctl, ctl ≠ .clear ∧ dispatch cmd arg = .control ctl) ∨
      (cmd = iocResetStats ∧ dispatch cmd arg = .resetStats Counter.all) := by
  have hcontrol {ctl : Control} (hne : ctl ≠ .clear) :
      ∃ ctl', ctl' ≠ .clear ∧ Pc.control ctl = .control ctl' := ⟨ctl, hne, rfl⟩
  rw [dispatch]
  by_cases htype : (cmd >>> 8) &&& 0xff ≠ 0x52 ∨ cmd &&& 0xff > 5
  · rw [if_pos htype]
    exact .inl ⟨_, rfl⟩
  rw [if_neg htype]
  by_cases hclear : cmd = iocClear
  · rw [if_pos hclear]
    exact .inr (.inl ⟨hclear, rfl⟩)
  rw [if_neg hclear]
  by_cases hstats : cmd = iocGetStats
  · rw [if_pos hstats]
    exact .inr (.inr (.inl (hcontrol (by simp))))
  rw [if_neg hstats]
  by_cases hset : cmd = iocSetCapacity
  · -- the argument is read and its range checked
    rw [if_pos hset]
    rcases arg.u64 with _ | requested
    · exact .inl ⟨_, rfl⟩
    · dsimp only
      split
      · exact .inl ⟨_, rfl⟩
      · exact .inr (.inr (.inl (hcontrol (by simp))))
  rw [if_neg hset]
  by_cases hget : cmd = iocGetCapacity
  · rw [if_pos hget]
    exact .inr (.inr (.inl (hcontrol (by simp))))
  rw [if_neg hget]
  by_cases hmode : cmd = iocSetMode
  · -- the argument is read and its bits checked
    rw [if_pos hmode]
    rcases arg.u32 with _ | mode
    · exact .inl ⟨_, rfl⟩
    · dsimp only
      split
      · exact .inl ⟨_, rfl⟩
      · exact .inr (.inr (.inl (hcontrol (by simp))))
  rw [if_neg hmode]
  by_cases hreset : cmd = iocResetStats
  · rw [if_pos hreset]
    exact .inr (.inr (.inr ⟨hreset, rfl⟩))
  · rw [if_neg hreset]
    exact .inl ⟨_, rfl⟩

/-- A mutex section outside `read` and `write`. -/
def Control.step (c : Control) (env : Env) (dev : Dev) : Effect :=
  match c with
  | .clear =>
    { dev := dev.clearSection, pc := .wakeRead
      event := .critical dev (.discarded dev.buffer.fifo) }
  | .getStats writable =>
    { dev, pc := .copyOut (.stats dev.fillStats) writable, event := .critical dev .none }
  | .setCapacity requested =>
    -- the waiters of both sides are woken only if the capacity has changed
    let (ret, dev') := dev.setCapacitySection requested.toNat env.alloc
    { dev := dev'
      pc := match ret with
        | .ok () => .wakeRead
        | .error e => .noteFailure e
      event := .critical dev .none }
  | .getCapacity writable =>
    { dev, pc := .copyOut (.capacity dev.buffer.capacity) writable, event := .critical dev .none }
  | .setMode mode =>
    { dev := dev.setModeSection mode, pc := .wakeRead, event := .critical dev .none }
  | .poll =>
    let readable := decide (dev.buffer.stored > 0)
    let writable := decide (dev.buffer.available > 0)
    { dev, event := .critical dev .none
      pc := .ret { value := .ok 0, output := .ready readable writable } }
  | .exit => { dev := dev.exitSection, pc := .wakeRead, event := .critical dev .none }

/-! ## The whole driver -/

/-- The entry of a call, up to its first step that can fail or block. -/
def Call.enter (dev : Dev) : Call → Effect
  | .open => { dev := dev.inc .openCalls, pc := .openHandle }
  | .release =>
    { dev := { dev with openHandles := dev.openHandles - 1 }, pc := .ret { value := .ok 0 } }
  | .transfer rw =>
    { dev := dev.inc rw.calls
      -- a call for no bytes returns before the lock
      pc := if rw.size = 0 then .ret { value := .ok 0, output := rw.output [] } else .lock rw }
  | .ioctl cmd arg => { dev := dev.inc .ioctlCalls, pc := .dispatch cmd arg }
  | .poll => { dev, pc := .control .poll }
  | .exit => { dev, pc := .control .exit }

/-- The next atomic step of a thread; `none` for a thread outside the driver, and for one asleep
with nothing to wake it. -/
def stepThread (env : Env) (dev : Dev) : Pc → Option Effect
  | .idle => none
  | .entry c => some (c.enter dev)
  | .openHandle =>
    some { dev := { dev with openHandles := dev.openHandles + 1 }, pc := .ret { value := .ok 0 } }
  | .lock rw => rw.lockStep env dev
  | .wait rw seen phase => rw.waitStep seen env dev phase
  | .account rw bytes =>
    some { dev := dev.add rw.total (BitVec.ofNat 64 bytes.length), pc := .wakePeer rw bytes }
  | .wakePeer rw bytes =>
    some { dev, wake := some rw.wakes
           pc := .ret { value := .ok bytes.length, output := rw.output bytes } }
  | .dispatch cmd arg => some { dev, pc := dispatch cmd arg }
  | .control c => some (c.step env dev)
  | .wakeRead => some { dev, pc := .wakeWrite, wake := some .read }
  | .wakeWrite => some { dev, pc := .ret { value := .ok 0 }, wake := some .write }
  | .copyOut out writable =>
    some { dev, pc := if writable then .ret { value := .ok 0, output := out }
                      else .noteFailure .EFAULT }
  | .resetStats [] => some { dev, pc := .ret { value := .ok 0 } }
  | .resetStats (c :: rest) =>
    some { dev := { dev with counters := Function.update dev.counters c 0 }
           pc := .resetStats rest }
  | .noteFailure e => some { dev := dev.noteFailure, pc := .ret { value := .error e } }
  | .ret r => some { dev, pc := .idle, event := .ret r }

/-- The effect of a wake-up of the queue `q` on a thread: on the queue, it will evaluate its
condition again. -/
def Pc.wake (q : WaitQueue) : Pc → Pc
  | .wait rw seen (.check false woken) =>
    .wait rw seen (.check false (woken || decide (rw.waitsOn = q)))
  | .wait rw seen (.park woken) => .wait rw seen (.park (woken || decide (rw.waitsOn = q)))
  | .wait rw seen (.parked woken) => .wait rw seen (.parked (woken || decide (rw.waitsOn = q)))
  | pc => pc

/-- The device and the threads in the driver. -/
structure Sys (ι : Type*) where
  dev : Dev
  pc : ι → Pc

variable {ι : Type*} [DecidableEq ι]

/-- The system after the thread `t` has taken a step with this effect. -/
def Sys.apply (s : Sys ι) (t : ι) (eff : Effect) : Sys ι where
  dev := eff.dev
  pc u :=
    -- the wake-up comes after the step of the thread itself
    let pc := Function.update s.pc t eff.pc u
    match eff.wake with
    | none => pc
    | some q => pc.wake q

/-- A step of the system: a thread outside the driver calls into it, or a thread inside takes its
next step. -/
inductive Step (s : Sys ι) : ι × Event → Sys ι → Prop
  | invoke (t : ι) (c : Call) (h : s.pc t = .idle) :
      Step s (t, .invoke c) { s with pc := Function.update s.pc t (.entry c) }
  | run (t : ι) (env : Env) (eff : Effect) (h : stepThread env s.dev (s.pc t) = some eff) :
      Step s (t, eff.event) (s.apply t eff)

/-- The system after the module is loaded. -/
def Sys.initial (ι : Type*) (dev : Dev) : Sys ι where
  dev := dev
  pc _ := .idle

/-! ## Schedules -/

/-- A scheduling decision for a thread: it calls into the driver, or takes its next step in this
environment. -/
inductive Choice
  | call (c : Call)
  | run (env : Env)

/-- The trace and the state that a schedule leads to, if every decision in it can be taken. -/
def Sys.schedule (s : Sys ι) : List (ι × Choice) → Option (List (ι × Event) × Sys ι)
  | [] => some ([], s)
  | (t, .call c) :: rest =>
    match s.pc t with
    | .idle =>
      (Sys.schedule { s with pc := Function.update s.pc t (.entry c) } rest).map fun (tr, s') =>
        ((t, .invoke c) :: tr, s')
    | _ => none
  | (t, .run env) :: rest =>
    match stepThread env s.dev (s.pc t) with
    | some eff =>
      ((s.apply t eff).schedule rest).map fun (tr, s') => ((t, eff.event) :: tr, s')
    | none => none

/-- A schedule describes a run. -/
theorem Sys.run_of_schedule {choices : List (ι × Choice)} {s s' : Sys ι}
    {tr : List (ι × Event)} (h : s.schedule choices = some (tr, s')) : Lts.Run Step s tr s' := by
  induction choices generalizing s tr with
  | nil =>
    cases h
    exact .nil
  | cons choice rest ih =>
    obtain ⟨t, choice⟩ := choice
    cases choice with
    | call c =>
      rw [Sys.schedule] at h
      split at h
      · -- the first choice is a step, and the rest of the schedule runs from where it leads
        obtain ⟨⟨tr', _⟩, hrest, heq⟩ := Option.map_eq_some_iff.mp h
        cases heq
        exact .cons (.invoke t c ‹_›) (ih hrest)
      · cases h
    | run env =>
      rw [Sys.schedule] at h
      split at h
      · obtain ⟨⟨tr', _⟩, hrest, heq⟩ := Option.map_eq_some_iff.mp h
        cases heq
        exact .cons (.run t env _ ‹_›) (ih hrest)
      · cases h

end RingbufChar
