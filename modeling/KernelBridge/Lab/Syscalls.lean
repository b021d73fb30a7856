import KernelBridge.Lab.Backends

/-!
# When a system call takes effect

The call that `LinuxDevice.apply` makes for an operation is in the driver for several atomic steps,
between which other threads take theirs. It takes effect in one of them, for most operations the
mutex section. `Serves` lists the places where the call can stand before, and `settled` is what it
is going to return, at the places behind.

A step before the effect leaves what the device stores as it is, and the step of the effect answers
as the reference model does (`Serves.step`), whatever happened in between. A call that a signal
ends, or for which there is no memory, has no effect.
-/

namespace Lab.LinuxDevice

open RingbufChar (Dev Effect Reply WaitQueue capacityValid stepThread)

/-- Where the call of an operation can stand before it has taken effect. -/
inductive Serves : Op → RingbufChar.Pc → Prop
  | entry (op : Op) : Serves op (.entry (syscall op))
  | lock {op : Op} {rw : RingbufChar.Transfer} (hcall : syscall op = .transfer rw)
      (hsize : 0 < rw.size) : Serves op (.lock rw)
  | dispatch {op : Op} {cmd : BitVec 32} {arg : RingbufChar.UserArg}
      (hcall : syscall op = .ioctl cmd arg) : Serves op (.dispatch cmd arg)
  | clear : Serves .clear (.control .clear)
  | resize {requested : ℕ} (hvalid : capacityValid requested = true) :
      Serves (.resize requested) (.control (.setCapacity (BitVec.ofNat 64 requested)))
  | capacity : Serves .capacity (.control (.getCapacity true))

/-- What a call that has taken effect is going to return. -/
def settled : RingbufChar.Pc → Option Reply
  | .account rw bytes | .wakePeer rw bytes =>
    some { value := .ok bytes.length, output := rw.output bytes }
  | .wakeRead | .wakeWrite => some { value := .ok 0 }
  | .copyOut out true => some { value := .ok 0, output := out }
  | .noteFailure e => some { value := .error e }
  | .ret reply => some reply
  | _ => none

variable {op : Op} {pc : RingbufChar.Pc} {reply : Reply} {dev : Dev} {env : RingbufChar.Env}
  {eff : Effect} {model : ReferenceModel}

/-- Who serves an operation is in the driver. -/
theorem Serves.ne_idle (h : Serves op pc) : pc ≠ .idle := by
  rintro rfl
  cases h

/-- A call that is yet to take effect is not about to return. -/
theorem Serves.ne_ret (h : Serves op pc) : pc ≠ .ret reply := by
  rintro rfl
  cases h

/-! ## Wake-ups -/

/-- A call that is yet to take effect is not asleep. -/
theorem Serves.wake (h : Serves op pc) (q : WaitQueue) : pc.wake q = pc := by
  cases h <;> rfl

/-- Who has a reply does not sleep. -/
theorem wake_of_settled (h : settled pc = some reply) (q : WaitQueue) : pc.wake q = pc := by
  cases pc with
  | wait => cases h
  | _ => rfl

/-! ## Steps -/

/-- A call that has taken effect changes no more of what the device stores, and stands by what it is
going to return. -/
theorem stepThread_settled (h : settled pc = some reply) (hret : ∀ r, pc ≠ .ret r)
    (hs : stepThread env dev pc = some eff) :
    settled eff.pc = some reply ∧ eff.dev.buffer = dev.buffer ∧
      eff.dev.shuttingDown = dev.shuttingDown := by
  cases pc with
  | ret r => exact absurd rfl (hret r)
  | copyOut out writable =>
    cases writable with
    | false => cases h
    | true =>
      cases h
      cases hs
      exact ⟨rfl, rfl, rfl⟩
  | account | wakePeer | wakeRead | wakeWrite | noteFailure =>
    cases h
    cases hs
    exact ⟨rfl, rfl, rfl⟩
  | _ => cases h

/-- What a step of a call that is yet to take effect does. -/
inductive Advance (op : Op) (env : RingbufChar.Env) (model : ReferenceModel) (eff : Effect) : Prop
  | serves (hserves : Serves op eff.pc) (hsim : Simulates eff.dev model)
  /-- The call takes effect, and the device answers as the model does. -/
  | effected {reply : Reply} (hsettled : settled eff.pc = some reply)
      (hresult : normalise op reply = .ok (model.apply op).1)
      (hsim : Simulates eff.dev (model.apply op).2)
  /-- The call ends without an effect. -/
  | failed {reply : Reply} {errno : ℕ} (hsettled : settled eff.pc = some reply)
      (hresult : normalise op reply = .error errno) (hsim : Simulates eff.dev model)
      (hloud : ¬env.Quiet)

/-- The mutex section of a nonblocking read answers as the model does. -/
theorem advance_read {count : ℕ} {out : RingbufChar.Outcome} {dev' : Dev}
    (h : Simulates dev model) (hcopy : env.copy.Faultless) (hcount : 0 < count)
    (hends : dev.ReadOutcome true count env.copy out dev') {event : RingbufChar.Event} :
    Advance (.read count) env model
      { dev := dev', pc := (RingbufChar.Transfer.read true count).after out, event } := by
  have hwf := h.represents.wellFormed
  have hlen := h.len_eq
  cases hends with
  | eof hdown => exact absurd hdown (by simp [h.up])
  | wait _ _ hnb => simp [Dev.nonblocking] at hnb
  | fault _ hbad => exact absurd hcopy hbad
  | again _ hempty =>
    have hmodel : model.apply (.read count) = (failure EAGAIN, model) := by
      rw [ReferenceModel.apply, if_pos ⟨hcount.ne', by omega⟩]
    exact .effected rfl (by rw [hmodel]; rfl) (by rw [hmodel]; exact h)
  | moved k faulted hpos hle hall hbad =>
    cases faulted with
    | true => exact absurd hcopy (hbad rfl)
    | false =>
      obtain rfl := hall rfl
      rw [hlen] at hpos ⊢
      rw [h.fifo_eq]
      have hlength : (model.data.take (min count model.data.length)).length =
          min count model.data.length := by
        rw [List.length_take]
        omega
      have hguard : ¬(count ≠ 0 ∧ min count model.data.length = 0) := by omega
      rw [RingbufChar.Transfer.after, if_pos (by omega)]
      refine .effected rfl ?_ ?_
      · rw [ReferenceModel.apply, if_neg hguard]
        simp only [normalise, RingbufChar.Transfer.output, hlength]
      · rw [ReferenceModel.apply, if_neg hguard]
        exact ⟨h.represents.consume _, h.up⟩

/-- The mutex section of a nonblocking write answers as the model does. -/
theorem advance_write {payload : List UInt8} {out : RingbufChar.Outcome} {dev' : Dev}
    (h : Simulates dev model) (hcopy : env.copy.Faultless) (hpayload : 0 < payload.length)
    (hends : dev.WriteOutcome true payload env.copy out dev') {event : RingbufChar.Event} :
    Advance (.write payload) env model
      { dev := dev', pc := (RingbufChar.Transfer.write true payload).after out, event } := by
  have hlen := h.len_eq
  have hcap := h.capacity_eq
  cases hends with
  | down hdown => exact absurd hdown (by simp [h.up])
  | wait _ _ hnb => simp [Dev.nonblocking] at hnb
  | fault _ _ _ _ hbad => exact absurd hcopy hbad
  | again _ hfull =>
    have hmodel : model.apply (.write payload) = (failure EAGAIN, model) := by
      rw [ReferenceModel.apply, if_pos ⟨List.ne_nil_of_length_pos hpayload, by omega⟩]
    exact .effected rfl (by rw [hmodel]; rfl) (by rw [hmodel]; exact h)
  | moved _ k faulted c hinv hpos hle hall hbad =>
    cases faulted with
    | true => exact absurd hcopy (hbad rfl)
    | false =>
      obtain rfl := hall rfl
      rw [hlen, hcap] at hinv hpos ⊢
      have hlength : (payload.take (min payload.length (model.capacity - model.data.length))).length =
          min payload.length (model.capacity - model.data.length) := by
        rw [List.length_take]
        omega
      have hguard : ¬(payload ≠ [] ∧
          min payload.length (model.capacity - model.data.length) = 0) := by omega
      rw [RingbufChar.Transfer.after, if_pos (by omega)]
      refine .effected rfl ?_ ?_
      · rw [ReferenceModel.apply, if_neg hguard]
        simp only [normalise, hlength]
      · rw [ReferenceModel.apply, if_neg hguard]
        refine ⟨⟨hinv.wellFormed, hinv.capacity_eq.trans hcap, ?_⟩, h.up⟩
        exact hinv.fifo_eq.trans (congrArg (· ++ payload.take _) h.fifo_eq)

/-- The capacities that the driver accepts. -/
theorem capacityValid_iff {requested : ℕ} :
    capacityValid requested = true ↔ minCapacity ≤ requested ∧ requested ≤ maxCapacity := by
  rw [capacityValid, Bool.and_eq_true, decide_eq_true_eq, decide_eq_true_eq]
  rfl

/-- The mutex section of a resize answers as the model does, if there is memory. -/
theorem advance_resize {requested : ℕ} (h : Simulates dev model) (hrequested : requested < 2 ^ 64)
    (hvalid : capacityValid requested = true) :
    Advance (.resize requested) env model
      (RingbufChar.Control.step (.setCapacity (BitVec.ofNat 64 requested)) env dev) := by
  have hlen := h.len_eq
  have hnat : (BitVec.ofNat 64 requested).toNat = requested := by
    rw [BitVec.toNat_ofNat, Nat.mod_eq_of_lt hrequested]
  have hrange := capacityValid_iff.mp hvalid
  simp only [RingbufChar.Control.step, Dev.setCapacitySection, hnat]
  cases hr : dev.buffer.resize requested env.alloc with
  | ok buffer =>
    obtain ⟨q, hq, hrep⟩ := h.represents.resize hr
    unfold BoundedQueue.resize at hq
    split_ifs at hq with hfits
    cases hq
    have hmodel : ¬requested < model.data.length := not_lt.mpr hfits
    refine .effected rfl ?_ ?_
    · rw [ReferenceModel.apply, if_neg (not_not.mpr hrange), dif_neg hmodel]
      rfl
    · rw [ReferenceModel.apply, if_neg (not_not.mpr hrange), dif_neg hmodel]
      exact ⟨hrep, h.up⟩
  | error e =>
    rcases RingbufChar.Buffer.resize_error_iff.mp hr with ⟨hbad, -⟩ | ⟨-, hsmall, rfl⟩ |
      ⟨-, -, hfail, rfl⟩
    · rw [hvalid] at hbad
      cases hbad
    · have hmodel : model.apply (.resize requested) = (failure EMSGSIZE, model) := by
        rw [ReferenceModel.apply, if_neg (not_not.mpr hrange), dif_pos (by omega)]
      exact .effected rfl (by rw [hmodel]; rfl) (by rw [hmodel]; exact h)
    · refine .failed rfl rfl h fun hquiet => ?_
      have := hquiet.alloc requested
      rw [hfail] at this
      cases this

/-- A step of a call that is yet to take effect takes it further, or gives it its effect. -/
theorem Serves.step (hserves : Serves op pc) (h : Simulates dev model) (hop : op.Valid)
    (hcopy : env.copy.Faultless) (hs : stepThread env dev pc = some eff) :
    Advance op env model eff := by
  cases hserves with
  | entry =>
    cases hs
    cases op with
    | read count =>
      rcases Nat.eq_zero_or_pos count with rfl | hcount
      · exact .effected rfl rfl (by simpa [ReferenceModel.apply] using ⟨h.represents, h.up⟩)
      · refine .serves ?_ ⟨h.represents, h.up⟩
        simp only [RingbufChar.Call.enter, syscall, if_neg (show ¬(RingbufChar.Transfer.read true
          count).size = 0 from hcount.ne')]
        exact .lock rfl hcount
    | write payload =>
      rcases Nat.eq_zero_or_pos payload.length with hnil | hpos
      · obtain rfl := List.eq_nil_of_length_eq_zero hnil
        exact .effected rfl rfl (by simpa [ReferenceModel.apply] using ⟨h.represents, h.up⟩)
      · refine .serves ?_ ⟨h.represents, h.up⟩
        simp only [RingbufChar.Call.enter, syscall, if_neg (show ¬(RingbufChar.Transfer.write true
          payload).size = 0 from hpos.ne')]
        exact .lock rfl hpos
    | resize | clear | capacity => exact .serves (.dispatch rfl) ⟨h.represents, h.up⟩
  | @lock _ rw hcall hsize =>
    have hlock : rw.lockStep env dev = some eff := hs
    cases hsignal : env.signal with
    | true =>
      rw [RingbufChar.Transfer.lockStep, if_pos hsignal] at hlock
      cases hlock
      refine .failed rfl rfl h fun hquiet => ?_
      rw [hquiet.no_signal] at hsignal
      cases hsignal
    | false =>
      obtain ⟨out, dev', hcrit, hends⟩ :=
        RingbufChar.Transfer.critical_spec h.represents.wellFormed hsize env.copy
      rw [RingbufChar.Transfer.lockStep, if_neg (by simp [hsignal]), hcrit] at hlock
      cases hlock
      cases op with
      | read count =>
        cases hcall
        exact advance_read h hcopy hsize hends
      | write payload =>
        cases hcall
        exact advance_write h hcopy hsize hends
      | _ => cases hcall
  | dispatch hcall =>
    cases op with
    | read | write => cases hcall
    | clear =>
      cases hcall
      cases hs
      exact .serves .clear h
    | capacity =>
      cases hcall
      cases hs
      exact .serves .capacity h
    | resize requested =>
      cases hcall
      cases hs
      have hdispatch := RingbufChar.dispatch_setCapacity hop
        (show (⟨some (BitVec.ofNat 64 requested), some (BitVec.ofNat 32 requested), true⟩ :
          RingbufChar.UserArg).u64 = _ from rfl)
      cases hvalid : capacityValid requested with
      | true =>
        rw [hvalid, if_pos rfl] at hdispatch
        rw [hdispatch]
        exact .serves (.resize hvalid) h
      | false =>
        rw [hvalid, if_neg (by simp)] at hdispatch
        rw [hdispatch]
        have hrange : ¬(minCapacity ≤ requested ∧ requested ≤ maxCapacity) := by
          rw [← capacityValid_iff, hvalid]
          simp
        have hmodel : model.apply (.resize requested) = (failure EINVAL, model) := by
          rw [ReferenceModel.apply, if_pos hrange]
        exact .effected rfl (by rw [hmodel]; rfl) (by rw [hmodel]; exact h)
  | clear =>
    cases hs
    exact .effected rfl rfl ⟨h.represents.clear, h.up⟩
  | resize hvalid =>
    cases hs
    exact advance_resize h hop hvalid
  | capacity =>
    cases hs
    refine .effected rfl ?_ h
    simp only [normalise, h.capacity_eq]
    rfl

/-! ## Returning -/

/-- How many steps the call has to its return, at most. A call that can go to sleep, which those of
`LinuxDevice` do not, is not counted further. -/
def rest : RingbufChar.Pc → ℕ
  | .idle => 6
  | .entry _ => 5
  | .dispatch .. => 4
  | .lock _ | .control _ => 3
  | .account .. | .wakeRead | .copyOut .. => 2
  | .wakePeer .. | .wakeWrite | .noteFailure _ => 1
  | _ => 0

/-- Who serves an operation has a step to take. -/
theorem Serves.rest_pos (h : Serves op pc) : 0 < rest pc := by
  cases h <;> simp [rest]

/-- Who has a reply but has not returned has a step to take. -/
theorem rest_pos_of_settled (h : settled pc = some reply) (hret : ∀ r, pc ≠ .ret r) :
    0 < rest pc := by
  cases pc with
  | ret r => exact absurd rfl (hret r)
  | account | wakePeer | wakeRead | wakeWrite | copyOut | noteFailure => simp [rest]
  | _ => cases h

/-- An `ioctl` has three steps at the most. -/
theorem rest_dispatch (cmd : BitVec 32) (arg : RingbufChar.UserArg) :
    rest (RingbufChar.dispatch cmd arg) ≤ 3 := by
  unfold RingbufChar.dispatch
  split_ifs <;> (try split) <;> (try split_ifs) <;> simp [rest]

/-- After a transfer there are two steps at the most. -/
theorem rest_after (rw : RingbufChar.Transfer) (out : RingbufChar.Outcome) :
    rest (rw.after out) ≤ 2 := by
  cases out with
  | moved bytes =>
    rw [RingbufChar.Transfer.after]
    split_ifs <;> simp [rest]
  | _ => simp [RingbufChar.Transfer.after, rest]

/-- A step takes the call closer to its return. -/
theorem rest_lt (h : 0 < rest pc) (hs : stepThread env dev pc = some eff) :
    rest eff.pc < rest pc := by
  cases pc with
  | idle => cases hs
  | entry c =>
    cases hs
    cases c with
    | transfer rw =>
      simp only [RingbufChar.Call.enter]
      split_ifs <;> simp [rest]
    | _ => simp [RingbufChar.Call.enter, rest]
  | lock rw =>
    rcases RingbufChar.Transfer.lockStep_eq_some hs with rfl | ⟨out, dev', -, rfl⟩
    · simp [rest]
    · exact Nat.lt_succ_of_le (rest_after rw out)
  | dispatch cmd arg =>
    cases hs
    exact Nat.lt_succ_of_le (rest_dispatch cmd arg)
  | control c =>
    cases hs
    cases c with
    | setCapacity requested =>
      simp only [RingbufChar.Control.step]
      split <;> simp [rest]
    | _ => simp [RingbufChar.Control.step, rest]
  | copyOut out writable =>
    cases hs
    cases writable <;> simp [rest]
  | account | wakePeer | wakeRead | wakeWrite | noteFailure =>
    cases hs
    simp [rest]
  | _ => simp [rest] at h

/-- A call that is yet to take effect can go on. -/
theorem Serves.exists_step (hserves : Serves op pc) (h : Simulates dev model)
    (env : RingbufChar.Env) : ∃ eff, stepThread env dev pc = some eff := by
  cases hserves with
  | entry | dispatch | clear | resize | capacity => exact ⟨_, rfl⟩
  | @lock _ rw hcall hsize =>
    obtain ⟨out, dev', hcrit, -⟩ :=
      RingbufChar.Transfer.critical_spec h.represents.wellFormed hsize env.copy
    rw [stepThread, RingbufChar.Transfer.lockStep]
    split_ifs
    · exact ⟨_, rfl⟩
    · exact ⟨_, by rw [hcrit]; rfl⟩

/-- Who has a reply can return. -/
theorem exists_step_of_settled (h : settled pc = some reply) (env : RingbufChar.Env) (dev : Dev) :
    ∃ eff, stepThread env dev pc = some eff := by
  cases pc with
  | account | wakePeer | wakeRead | wakeWrite | copyOut | noteFailure | ret => exact ⟨_, rfl⟩
  | _ => cases h

end Lab.LinuxDevice
