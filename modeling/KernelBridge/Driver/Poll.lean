import KernelBridge.Driver.Calls
import KernelBridge.Driver.Sequential

/-!
# Readiness

`ringbuf_char_poll` tells a client which of its nonblocking calls would go through. It has a test of
its own for this, apart from those at the top of the retry loops of `ringbuf_char_read` and
`ringbuf_char_write`.

`Transfer.Ready` is what the loops wait for. A nonblocking transfer that runs alone is refused with
`EAGAIN` exactly if it is not ready and no signal ends it first (`returned_eq_again_iff`).

Main result: `poll_agrees`, that in every reachable state of a device that is not going away
`poll` reports the ready sides, and that there is always one.
-/

namespace RingbufChar

open Buffer

/-- The side of the buffer that the transfer needs: bytes to read, or space to write to. -/
def Transfer.Ready (dev : Dev) : Transfer → Prop
  | .read .. => 0 < dev.buffer.len
  | .write .. => dev.buffer.len < dev.buffer.capacity

/-- The transfer does not block: its descriptor has `O_NONBLOCK`, or the device is in the
nonblocking mode. -/
def Transfer.Nonblocking (dev : Dev) : Transfer → Prop
  | .read nonblock _ => dev.nonblocking nonblock = true
  | .write nonblock _ => dev.nonblocking nonblock = true

/-- The value that the transfer returns if it is executed next, with no other call in between. -/
def returned (env : Env) (dev : Dev) (rw : Transfer) : Option (Except Errno ℕ) :=
  (call env dev (.transfer rw)).map fun reply => reply.1.value

variable {env : Env} {dev : Dev} {rw : Transfer}

/-- A transfer that a signal interrupts at the lock. -/
theorem returned_of_signal (hsize : 0 < rw.size) (hsignal : env.signal = true) :
    returned env dev rw = some (.error .ERESTARTSYS) := by
  -- the call is counted, and then waits for the lock, where the signal finds it
  have henter : stepThread env dev (.entry (.transfer rw)) =
      some { dev := dev.inc rw.calls, pc := .lock rw } := by
    simp [stepThread, Call.enter, hsize.ne']
  have hlock : stepThread env (dev.inc rw.calls) (.lock rw) = some
      { dev := dev.inc rw.calls, pc := .noteFailure .ERESTARTSYS, event := .interrupted } := by
    simp [stepThread, Transfer.lockStep, hsignal]
  rw [returned, call, Loop.run_of_continue (soloStep_of_some (by simp) henter),
    Loop.run_of_continue (soloStep_of_some (by simp) hlock)]
  rfl

/-- What a transfer that runs alone returns after its mutex section. -/
theorem returned_of_critical (hsize : 0 < rw.size) (hsignal : env.signal = false) {out : Outcome}
    {dev' : Dev} (hcrit : rw.critical env.copy (dev.inc rw.calls) = some (out, dev')) :
    returned env dev rw = ((Loop.run (soloStep env) 14 (dev', rw.after out)).join).map
      fun reply => reply.1.value := by
  rw [returned, call_of_critical rw hsignal hsize hcrit]

/-- A nonblocking transfer that no signal interrupts returns. It is refused exactly if it is not
ready, whatever becomes of its user copies. -/
theorem returned_of_quiet (hwf : dev.buffer.WellFormed) (hup : dev.shuttingDown = false)
    (hsize : 0 < rw.size) (hnonblocking : rw.Nonblocking dev) (hsignal : env.signal = false) :
    ∃ value, returned env dev rw = some value ∧ (value = .error .EAGAIN ↔ ¬rw.Ready dev) := by
  obtain ⟨out, dev', hcrit, hends⟩ :=
    Transfer.critical_spec (show (dev.inc rw.calls).buffer.WellFormed from hwf) hsize env.copy
  have hreturned := returned_of_critical hsize hsignal hcrit
  -- bytes that have moved are counted, and their number is returned
  have hmoved {bytes : List UInt8} (hpos : 0 < bytes.length) :
      ((Loop.run (soloStep env) 14 (dev', rw.after (.moved bytes))).join).map
        (fun reply => reply.1.value) = some (.ok bytes.length) := by
    rw [solo_moved env dev' rw hpos]
    rfl
  cases rw with
  | read nonblock count =>
    cases hends with
    | eof hdown => exact absurd hdown (by simp [hup])
    | again _ hempty =>
      exact ⟨_, hreturned, iff_of_true rfl (not_lt.mpr (Nat.le_zero.mpr hempty))⟩
    | wait _ _ hblocking =>
      -- only a blocking call waits
      exact absurd (hblocking.symm.trans hnonblocking) (by simp)
    | fault hstored => exact ⟨_, hreturned, iff_of_false (by simp) (not_not.mpr hstored)⟩
    | moved k _ hpos hle =>
      -- the bytes taken were stored before
      simp only [Dev.buffer_inc] at hle hreturned hmoved
      have hlen : (dev.buffer.fifo.take k).length = k := by
        rw [List.length_take, hwf.length_fifo]
        omega
      refine ⟨_, hreturned.trans (hmoved (by omega)), iff_of_false (by simp) (not_not.mpr ?_)⟩
      exact show 0 < dev.buffer.len by omega
  | write nonblock data =>
    cases hends with
    | down hdown => exact absurd hdown (by simp [hup])
    | again _ hfull => exact ⟨_, hreturned, iff_of_true rfl (not_lt.mpr hfull.ge)⟩
    | wait _ _ hblocking =>
      exact absurd (hblocking.symm.trans hnonblocking) (by simp)
    | fault _ hspace => exact ⟨_, hreturned, iff_of_false (by simp) (not_not.mpr hspace)⟩
    | moved _ k _ _ _ hpos hle =>
      -- the bytes put in fit, so there was space
      simp only [Dev.buffer_inc] at hle
      have hlen : (data.take k).length = k := by
        rw [List.length_take]
        omega
      refine ⟨_, hreturned.trans (hmoved (by omega)), iff_of_false (by simp) (not_not.mpr ?_)⟩
      exact show dev.buffer.len < dev.buffer.capacity by omega

/-- A nonblocking transfer is refused with `EAGAIN` exactly if it is not ready and no signal ends it
first. -/
theorem returned_eq_again_iff (hwf : dev.buffer.WellFormed) (hup : dev.shuttingDown = false)
    (hsize : 0 < rw.size) (hnonblocking : rw.Nonblocking dev) (env : Env) :
    ∃ value, returned env dev rw = some value ∧
      (value = .error .EAGAIN ↔ ¬rw.Ready dev ∧ env.signal = false) := by
  cases hsignal : env.signal with
  | true => exact ⟨_, returned_of_signal hsize hsignal, by simp⟩
  | false =>
    obtain ⟨value, hreturned, hvalue⟩ := returned_of_quiet hwf hup hsize hnonblocking hsignal
    exact ⟨value, hreturned, by simpa using hvalue⟩

/-- What `poll` reports of one side agrees with a transfer that is executed next. It returns; with
no signal pending it is refused exactly if the side is not reported ready; and so the side is
reported ready exactly if the transfer is never refused, whatever the environment does. -/
structure ReadinessAgrees (dev : Dev) (ready : Bool) (rw : Transfer) : Prop where
  returns : ∀ env, (returned env dev rw).isSome = true
  quiet : ∀ env, env.signal = false →
    (ready = true ↔ returned env dev rw ≠ some (.error .EAGAIN))
  always : ready = true ↔ ∀ env, returned env dev rw ≠ some (.error .EAGAIN)

/-- A flag that says that the transfer is ready agrees with the call. -/
theorem agrees_of_ready (hwf : dev.buffer.WellFormed) (hup : dev.shuttingDown = false)
    (hsize : 0 < rw.size) (hnonblocking : rw.Nonblocking dev) {ready : Bool}
    (hready : ready = true ↔ rw.Ready dev) : ReadinessAgrees dev ready rw := by
  have hvalue := returned_eq_again_iff hwf hup hsize hnonblocking
  have hquiet (env : Env) (hsignal : env.signal = false) :
      ready = true ↔ returned env dev rw ≠ some (.error .EAGAIN) := by
    obtain ⟨value, hreturned, hiff⟩ := hvalue env
    rw [hreturned, ne_eq, Option.some.injEq, hiff, hready]
    simp [hsignal]
  refine ⟨fun env => ?_, hquiet, fun h env => ?_, fun h => (hquiet .quiet rfl).mpr (h .quiet)⟩
  · obtain ⟨value, hreturned, -⟩ := hvalue env
    rw [hreturned]
    rfl
  · obtain ⟨value, hreturned, hiff⟩ := hvalue env
    rw [hreturned, ne_eq, Option.some.injEq, hiff]
    exact fun hrefused => hrefused.1 (hready.mp h)

/-- `poll` leaves the device alone and reports the two sides of the buffer. -/
theorem call_poll (env : Env) (dev : Dev) : call env dev .poll =
    some ({ value := .ok 0
            output := .ready (decide (dev.buffer.stored > 0)) (decide (dev.buffer.available > 0)) },
      dev) := rfl

variable {ι : Type*} [DecidableEq ι]

/-- Readiness agrees with the calls it is for: in every reachable state of a device that is not
going away, `poll` reports readable iff a nonblocking read for any count executed next would not be
refused, writable iff a nonblocking write would not be, and always at least one of the two. -/
theorem poll_agrees {capacity : ℕ} {alloc : Alloc} {dev : Dev}
    (hinit : Dev.init capacity alloc = .ok dev) {tr : List (ι × Event)} {s : Sys ι}
    (hrun : Lts.Run Step (Sys.initial ι dev) tr s) (hup : s.dev.shuttingDown = false) :
    ∃ readable writable,
      (∀ env, call env s.dev .poll =
        some ({ value := .ok 0, output := .ready readable writable }, s.dev)) ∧
      (∀ nonblock count, 0 < count → s.dev.nonblocking nonblock = true →
        ReadinessAgrees s.dev readable (.read nonblock count)) ∧
      (∀ nonblock data, 0 < data.length → s.dev.nonblocking nonblock = true →
        ReadinessAgrees s.dev writable (.write nonblock data)) ∧
      (readable = true ∨ writable = true) := by
  have hwf := (sound_of_run (Sys.initial_sound ι hinit).1 hrun).wellFormed
  have hreadable : decide (s.dev.buffer.stored > 0) = true ↔ 0 < s.dev.buffer.len := by
    simp [Buffer.stored]
  have hwritable : decide (s.dev.buffer.available > 0) = true ↔
      s.dev.buffer.len < s.dev.buffer.capacity := by
    rw [hwf.available_eq, decide_eq_true_eq]
    omega
  refine ⟨_, _, fun env => call_poll env s.dev, ?_, ?_, ?_⟩
  · exact fun nonblock count hcount hnb =>
      agrees_of_ready hwf hup (show 0 < (Transfer.read nonblock count).size from hcount) hnb
        hreadable
  · exact fun nonblock data hdata hnb =>
      agrees_of_ready hwf hup (show 0 < (Transfer.write nonblock data).size from hdata) hnb
        hwritable
  · -- a buffer that is empty has space, since its capacity is never zero
    rw [hreadable, hwritable]
    have := hwf.capacity_pos
    omega

/-- After the handover one byte is left to read, in a buffer with space. -/
theorem poll_agrees_handover : ∃ readable writable,
    (∀ env, call env handoverRun.2.dev .poll =
      some ({ value := .ok 0, output := .ready readable writable }, handoverRun.2.dev)) ∧
    ReadinessAgrees handoverRun.2.dev readable (.read true 1) ∧
    ReadinessAgrees handoverRun.2.dev writable (.write true [7]) ∧
    (readable = true ∨ writable = true) := by
  obtain ⟨readable, writable, hpoll, hread, hwrite, hready⟩ :=
    poll_agrees (show Dev.init 256 .zeroed = .ok .small from rfl) run_handover rfl
  exact ⟨readable, writable, hpoll, hread true 1 (by decide) rfl, hwrite true [7] (by decide) rfl,
    hready⟩

end RingbufChar
