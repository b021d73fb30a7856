import KernelBridge.Driver.Accounting
import Mathlib.Data.List.ReduceOption

/-!
# The command-line client

`write_retry` and `write_all` of `userspace/client.c`, on top of the driver. The thread `t` of the
client runs them; all other threads do what they like, and every signal and every fault of a user
copy is a choice of the environment.

A signal makes the driver return `-ERESTARTSYS`, which the client never sees: the kernel restarts
the call, or hands `EINTR` to the client, which issues it again itself (`Delivers`). Both are safe
because the driver gives this value only for a call that has committed nothing.

What a step puts into the queue is read off the queue itself (`Taken.committed`), not off what the
step shows.

Main result: `write_all_exact`. When `write_all` returns, its calls have committed the first
`*bytes_written` bytes of the data, each once and in order.
-/

namespace Client

open RingbufChar

/-- The values of `errno` that the client meets. -/
inductive ClientErrno
  | EINTR
  /-- A call that wrote nothing. -/
  | EIO
  | driver (e : Errno)
  deriving DecidableEq, Repr

/-- What the client sees of the value that the driver returns. The kernel may restart an interrupted
call instead of returning from it. -/
inductive Delivers : Except Errno ℕ → Option (Except ClientErrno ℕ) → Prop
  | count (n : ℕ) : Delivers (.ok n) (some (.ok n))
  | error (e : Errno) (h : e ≠ .ERESTARTSYS) : Delivers (.error e) (some (.error (.driver e)))
  | interrupted : Delivers (.error .ERESTARTSYS) (some (.error .EINTR))
  | restarted : Delivers (.error .ERESTARTSYS) none

/-- The return value of `write_all`, with `*bytes_written` and `*error_out`. -/
structure Result where
  ret : ℤ
  bytesWritten : ℕ
  error : Option ClientErrno
  deriving DecidableEq, Repr

/-- Where the client stands. -/
inductive Pc
  /-- At the condition of the loop of `write_all`. -/
  | test (offset : ℕ)
  /-- In `write_retry`, about to call `write`. -/
  | write (offset : ℕ)
  /-- In the system call. -/
  | inside (offset : ℕ)
  /-- Behind `write_retry`. -/
  | returned (offset : ℕ) (ret : Except ClientErrno ℕ)
  | done (result : Result)
  deriving DecidableEq

/-- The loop of `write_retry`, after a call that returned. -/
def writeRetry (offset : ℕ) : Except ClientErrno ℕ → Pc
  | .error .EINTR => .write offset
  | ret => .returned offset ret

/-- The end of the system call, which is restarted if nothing is delivered. -/
def afterCall (offset : ℕ) : Option (Except ClientErrno ℕ) → Pc
  | none => .write offset
  | some ret => writeRetry offset ret

/-- The steps of `write_all` outside `write_retry`. -/
def writeAllStep (len : ℕ) : Pc → Option Pc
  | .test offset =>
    if offset < len then some (.write offset)
    else some (.done { ret := 0, bytesWritten := offset, error := none })
  | .returned offset (.error e) =>
    some (.done { ret := -1, bytesWritten := offset, error := some e })
  | .returned offset (.ok 0) =>
    some (.done { ret := -1, bytesWritten := offset, error := some ClientErrno.EIO })
  | .returned offset (.ok ret) => some (.test (offset + ret))
  | .write _ | .inside _ | .done _ => none

/-- The driver, and the client that uses it. -/
structure Sys (ι : Type*) where
  driver : RingbufChar.Sys ι
  pc : Pc

variable {ι : Type*} [DecidableEq ι]

/-- A step of another thread, of the client outside the driver, or of the client inside it. Those in
the driver are recorded. -/
inductive Step (t : ι) (nonblock : Bool) (data : List UInt8) (s : Sys ι) :
    Option (Taken ι) → Sys ι → Prop
  | other {x : Taken ι} {driver : RingbufChar.Sys ι} (h : Traced s.driver x driver)
      (hother : x.thread ≠ t) : Step t nonblock data s (some x) { s with driver }
  | client {pc : Pc} (h : writeAllStep data.length s.pc = some pc) :
      Step t nonblock data s none { s with pc }
  | call {offset : ℕ} {x : Taken ι} {driver : RingbufChar.Sys ι} (hpc : s.pc = .write offset)
      (h : Traced s.driver x driver) (hown : x.thread = t)
      (hx : x.event = .invoke (.transfer (.write nonblock (data.drop offset)))) :
      Step t nonblock data s (some x) { driver, pc := .inside offset }
  | inside {offset : ℕ} {x : Taken ι} {driver : RingbufChar.Sys ι} (hpc : s.pc = .inside offset)
      (h : Traced s.driver x driver) (hown : x.thread = t) (hcall : ∀ c, x.event ≠ .invoke c)
      (hret : ∀ r, x.event ≠ .ret r) :
      Step t nonblock data s (some x) { driver, pc := .inside offset }
  | ret {offset : ℕ} {x : Taken ι} {driver : RingbufChar.Sys ι} {r : Reply}
      {seen : Option (Except ClientErrno ℕ)} (hpc : s.pc = .inside offset)
      (h : Traced s.driver x driver) (hown : x.thread = t) (hx : x.event = .ret r)
      (hseen : Delivers r.value seen) :
      Step t nonblock data s (some x) { driver, pc := afterCall offset seen }

/-- `write_all` is called. -/
def Sys.start (driver : RingbufChar.Sys ι) : Sys ι where
  driver := driver
  pc := .test 0

omit [DecidableEq ι] in
/-- The bytes that a step has put at the end of the queue. -/
def Taken.committed (x : Taken ι) : List UInt8 :=
  x.after.buffer.fifo.drop x.before.buffer.fifo.length

/-- What the thread `t` has committed along a run, in the order of its commits. -/
def committedBy (t : ι) (tr : List (Option (Taken ι))) : List UInt8 :=
  (own t tr.reduceOption).flatMap Taken.committed

/-! ## One call of the driver -/

/-- The bytes that a call has put into the queue. -/
def written (v : View) : List UInt8 := v.moves.flatMap Moved.written

variable {nonblock : Bool} {data : List UInt8} {v : View}

/-- A step of a `write` appends to the queue what the call shows of it, and removes nothing. -/
theorem stepThread_write {env : Env} {dev : Dev} {pc : RingbufChar.Pc} {eff : Effect}
    (hwf : dev.buffer.WellFormed) (hsized : pc.Sized) (hs : stepThread env dev pc = some eff)
    (h : pc.Agrees (.transfer (.write nonblock data)) v) :
    eff.pc.Agrees (.transfer (.write nonblock data)) (v.record eff.event) ∧
      eff.dev.buffer.fifo = dev.buffer.fifo ++ eff.event.written ∧
      written (v.record eff.event) = written v ++ eff.event.written := by
  have hagrees := stepThread_agrees hwf hsized hs h
  obtain ⟨-, -, hbalance⟩ := stepThread_balance hwf hsized hs
  refine ⟨hagrees, ?_⟩
  cases hevent : eff.event with
  | critical found m =>
    rw [hevent] at hagrees hbalance
    by_cases hm : m = .none
    · subst hm
      exact ⟨by simpa [Event.written, Event.removed, Moved.written, Moved.removed]
        using hbalance.symm, by simp [written, Event.written, Moved.written]⟩
    · -- the one section that moves bytes writes them
      have hmoves := View.moves_record v found hm
      rcases hagrees.fits with hnone | ⟨m', hone, hfits⟩
      · rw [hmoves] at hnone
        simp at hnone
      · rw [hmoves] at hone
        obtain ⟨hbefore, hlast⟩ := List.append_inj' (hone.trans (List.nil_append [m']).symm) rfl
        obtain rfl : m = m' := by simpa using hlast
        cases m with
        | wrote bytes =>
          refine ⟨by simpa [Event.written, Event.removed, Moved.written, Moved.removed]
            using hbalance.symm, ?_⟩
          rw [written, hmoves, List.flatMap_append, List.flatMap_singleton]
          rfl
        | _ => exact hfits.elim
  | _ =>
    rw [hevent] at hbalance
    exact ⟨by simpa [Event.written, Event.removed] using hbalance.symm,
      (List.append_nil _).symm⟩

/-- What a `write` of data that is not empty has put into the queue when it returns. -/
theorem WriteReturn.written {value : Except Errno ℕ} (h : WriteReturn nonblock data v value)
    (hdata : 0 < data.length) :
    (∃ n, value = .ok n ∧ 0 < n ∧ n ≤ data.length ∧ Client.written v = data.take n) ∨
      (∃ e, value = .error e) ∧ Client.written v = [] := by
  cases h with
  | nothing hnone => omega
  | moved found n hfinal hmoves hup hpos hle =>
    refine .inl ⟨n, rfl, hpos, by omega, ?_⟩
    rw [Client.written, hmoves, List.flatMap_singleton]
    rfl
  | again found hfinal hmoves => exact .inr ⟨⟨_, rfl⟩, by rw [Client.written, hmoves]; rfl⟩
  | down found hfinal hmoves => exact .inr ⟨⟨_, rfl⟩, by rw [Client.written, hmoves]; rfl⟩
  | fault found hfinal hmoves => exact .inr ⟨⟨_, rfl⟩, by rw [Client.written, hmoves]; rfl⟩
  | interrupted hint hmoves => exact .inr ⟨⟨_, rfl⟩, by rw [Client.written, hmoves]; rfl⟩

/-! ## The whole of `write_all` -/

/-- What a return value of `write_retry` says was written. -/
def counted : Except ClientErrno ℕ → ℕ
  | .ok n => n
  | .error _ => 0

/-- Where the client stands, `committed` of its data has been committed. Inside a call, `pc` is the
place of its thread in the driver. -/
def Pc.Committed (nonblock : Bool) (data committed : List UInt8) (pc : RingbufChar.Pc) : Pc → Prop
  | .test offset => offset ≤ data.length ∧ committed = data.take offset
  | .write offset => offset < data.length ∧ committed = data.take offset
  | .inside offset => offset < data.length ∧ ∃ v,
      pc.Agrees (.transfer (.write nonblock (data.drop offset))) v ∧
        committed = data.take offset ++ written v
  | .returned offset ret => offset < data.length ∧ offset + counted ret ≤ data.length ∧
      committed = data.take (offset + counted ret)
  | .done result => result.bytesWritten ≤ data.length ∧
      committed = data.take result.bytesWritten ∧
        (result.ret = 0 ↔ result.bytesWritten = data.length)

/-- What holds of the driver and the client along a run. -/
structure Inv (t : ι) (nonblock : Bool) (data : List UInt8) (tr : List (Option (Taken ι)))
    (s : Sys ι) : Prop where
  sound : s.driver.Sound
  appends : ∀ x ∈ own t tr.reduceOption, x.before.buffer.fifo <+: x.after.buffer.fifo
  committed : s.pc.Committed nonblock data (committedBy t tr) (s.driver.pc t)

variable {t : ι} {tr : List (Option (Taken ι))} {x : Taken ι}

/-- A step outside the driver is none of the steps of a call. -/
theorem own_concat_none (t : ι) (tr : List (Option (Taken ι))) :
    own t (tr ++ [none]).reduceOption = own t tr.reduceOption := by
  rw [List.reduceOption_append, List.reduceOption_singleton, Option.toList_none, List.append_nil]

/-- A step in the driver belongs to its thread. -/
theorem own_concat_some (t : ι) (tr : List (Option (Taken ι))) (x : Taken ι) :
    own t (tr ++ [some x]).reduceOption =
      own t tr.reduceOption ++ if x.thread = t then [x] else [] := by
  rw [List.reduceOption_append, List.reduceOption_singleton, Option.toList_some, own, own,
    List.filter_append]
  by_cases hown : x.thread = t <;> simp [hown]

/-- A step outside the driver commits nothing. -/
theorem committedBy_concat_none (t : ι) (tr : List (Option (Taken ι))) :
    committedBy t (tr ++ [none]) = committedBy t tr := by
  rw [committedBy, own_concat_none, committedBy]

/-- A step of another thread commits nothing of this one. -/
theorem committedBy_concat_of_ne (tr : List (Option (Taken ι))) (h : x.thread ≠ t) :
    committedBy t (tr ++ [some x]) = committedBy t tr := by
  rw [committedBy, own_concat_some, if_neg h, List.append_nil, committedBy]

/-- A step of the thread commits its bytes. -/
theorem committedBy_concat_self (tr : List (Option (Taken ι))) (h : x.thread = t) :
    committedBy t (tr ++ [some x]) = committedBy t tr ++ Taken.committed x := by
  rw [committedBy, own_concat_some, if_pos h, List.flatMap_append, List.flatMap_singleton,
    committedBy]

omit [DecidableEq ι] in
/-- What a step has appended to the queue it has committed. -/
theorem committed_of_append {bytes : List UInt8}
    (h : x.after.buffer.fifo = x.before.buffer.fifo ++ bytes) : Taken.committed x = bytes := by
  rw [Taken.committed, h, List.drop_left]

/-- A recorded step of the client's own thread, which appends `bytes` to the queue. -/
theorem Inv.own {s s' : Sys ι} (h : Inv t nonblock data tr s) (hstep : Traced s.driver x s'.driver)
    (hown : x.thread = t) (bytes : List UInt8)
    (hbytes : x.after.buffer.fifo = x.before.buffer.fifo ++ bytes)
    (hcommitted : s'.pc.Committed nonblock data (committedBy t tr ++ bytes) (s'.driver.pc t)) :
    Inv t nonblock data (tr ++ [some x]) s' where
  sound := (hstep.step.balance h.sound).1
  appends := by
    intro y hy
    rw [own_concat_some, if_pos hown, List.mem_append, List.mem_singleton] at hy
    rcases hy with hy | rfl
    · exact h.appends y hy
    · rw [hbytes]
      exact List.prefix_append _ _
  committed := by
    rw [committedBy_concat_self tr hown, committed_of_append hbytes]
    exact hcommitted

/-- Another thread steps: the client stays where it is. -/
theorem Inv.other {s : Sys ι} (h : Inv t nonblock data tr s) {driver : RingbufChar.Sys ι}
    (hstep : Traced s.driver x driver) (hother : x.thread ≠ t) :
    Inv t nonblock data (tr ++ [some x]) { s with driver } where
  sound := (hstep.step.balance h.sound).1
  appends := by
    rw [own_concat_some, if_neg hother, List.append_nil]
    exact h.appends
  committed := by
    rw [committedBy_concat_of_ne tr hother]
    have hcommitted := h.committed
    revert hcommitted
    generalize s.pc = pc
    intro hcommitted
    cases pc with
    | inside offset =>
      -- the place of the client's thread in the driver is as it was
      obtain ⟨hlt, v, hagrees, heq⟩ := hcommitted
      exact ⟨hlt, v, (hstep.step.agrees_of_ne hother.symm).mpr hagrees, heq⟩
    | _ => exact hcommitted

/-- The client steps outside the driver. -/
theorem Inv.client {s : Sys ι} (h : Inv t nonblock data tr s) {pc : Pc}
    (hstep : writeAllStep data.length s.pc = some pc) :
    Inv t nonblock data (tr ++ [none]) { s with pc } where
  sound := h.sound
  appends := by
    rw [own_concat_none]
    exact h.appends
  committed := by
    rw [committedBy_concat_none]
    have hcommitted := h.committed
    revert hstep hcommitted
    generalize s.pc = before
    intro hstep hcommitted
    cases before with
    | test offset =>
      obtain ⟨hle, heq⟩ := hcommitted
      rw [writeAllStep] at hstep
      split_ifs at hstep with hmore
      · cases hstep
        exact ⟨hmore, heq⟩
      · -- the loop ends when everything is written
        cases hstep
        have hfull : offset = data.length := by omega
        exact ⟨hle, heq, iff_of_true rfl hfull⟩
    | returned offset ret =>
      obtain ⟨hlt, hle, heq⟩ := hcommitted
      -- `write_all` has stopped short of the end
      have hshort : ¬offset = data.length := hlt.ne
      rcases ret with e | _ | n
      · cases hstep
        exact ⟨hlt.le, heq, iff_of_false (by simp) hshort⟩
      · cases hstep
        exact ⟨hlt.le, heq, iff_of_false (by simp) hshort⟩
      · cases hstep
        exact ⟨hle, heq⟩
    | _ => cases hstep

/-- The client issues a call. -/
theorem Inv.call {s : Sys ι} (h : Inv t nonblock data tr s) {offset : ℕ}
    (hpc : s.pc = .write offset) {driver : RingbufChar.Sys ι} (hstep : Traced s.driver x driver)
    (hown : x.thread = t)
    (hx : x.event = .invoke (.transfer (.write nonblock (data.drop offset)))) :
    Inv t nonblock data (tr ++ [some x]) { driver, pc := .inside offset } := by
  have hcommitted := h.committed
  rw [hpc] at hcommitted
  obtain ⟨hlt, heq⟩ := hcommitted
  rcases hstep.cases with ⟨c, hc, hafter, rfl⟩ | ⟨env, eff, hs, hx', -⟩
  · -- the call has shown nothing yet
    obtain rfl : c = .transfer (.write nonblock (data.drop offset)) := by
      simpa [hx, eq_comm] using hc
    refine h.own hstep hown [] (by rw [hafter, List.append_nil]) ⟨hlt, {}, ?_, ?_⟩
    · subst hown
      simp [RingbufChar.Pc.Agrees, View.moves]
    · simp [heq, written, View.moves]
  · rw [hx'] at hx
    exact absurd hx ((stepThread_event hs).1 _)

/-- A step of the call, short of its return. -/
theorem Inv.inside {s : Sys ι} (h : Inv t nonblock data tr s) {offset : ℕ}
    (hpc : s.pc = .inside offset) {driver : RingbufChar.Sys ι} (hstep : Traced s.driver x driver)
    (hown : x.thread = t) (hcall : ∀ c, x.event ≠ .invoke c) :
    Inv t nonblock data (tr ++ [some x]) { driver, pc := .inside offset } := by
  have hcommitted := h.committed
  rw [hpc] at hcommitted
  obtain ⟨hlt, v, hagrees, heq⟩ := hcommitted
  rcases hstep.cases with ⟨c, hc, -⟩ | ⟨env, eff, hs, hx, rfl⟩
  · exact absurd hc (hcall c)
  · rw [hown] at hs hx
    obtain ⟨hnext, hfifo, hwritten⟩ :=
      stepThread_write h.sound.wellFormed (h.sound.sized t) hs hagrees
    refine h.own hstep hown eff.event.written (by rw [hx]; exact hfifo)
      ⟨hlt, v.record eff.event, ?_, ?_⟩
    · rw [hown, Sys.pc_apply_self hs]
      exact hnext
    · rw [heq, hwritten, List.append_assoc]

/-- The call returns. What the client counts is what the call has committed, and a call that is
issued again has committed nothing. -/
theorem Inv.ret {s : Sys ι} (h : Inv t nonblock data tr s) {offset : ℕ}
    (hpc : s.pc = .inside offset) {driver : RingbufChar.Sys ι} (hstep : Traced s.driver x driver)
    (hown : x.thread = t) {r : Reply} (hx : x.event = .ret r)
    {seen : Option (Except ClientErrno ℕ)} (hseen : Delivers r.value seen) :
    Inv t nonblock data (tr ++ [some x]) { driver, pc := afterCall offset seen } := by
  have hcommitted := h.committed
  rw [hpc] at hcommitted
  obtain ⟨hlt, v, hagrees, heq⟩ := hcommitted
  rcases hstep.cases with ⟨c, hc, -⟩ | ⟨env, eff, hs, hx', -⟩
  · rw [hx] at hc
    cases hc
  have hevent : eff.event = .ret r := by rw [← hx, hx']
  have hplace := (stepThread_event hs).2 r hevent
  rw [hplace] at hs
  rw [hown] at hplace
  rw [hplace] at hagrees
  -- the return leaves the device alone
  have hquiet : x.after = x.before := by
    rw [hx']
    cases hs
    rfl
  refine h.own hstep hown [] (by rw [hquiet, List.append_nil]) ?_
  rw [List.append_nil, heq]
  have hdata : 0 < (data.drop offset).length := by rw [List.length_drop]; omega
  have hreturn : WriteReturn nonblock (data.drop offset) v r.value := hagrees
  rcases WriteReturn.written hreturn hdata with ⟨n, hn, hpos, hle, hwritten⟩ | ⟨⟨e, he⟩, hnone⟩
  · -- a count is seen as it is, and so many bytes were committed
    rw [List.length_drop] at hle
    rw [hn] at hseen
    cases hseen
    refine ⟨hlt, show offset + n ≤ data.length by omega, ?_⟩
    rw [hwritten]
    exact List.take_add.symm
  · -- after an error nothing was committed, whether the call is issued again or not
    rw [he] at hseen
    rw [hnone, List.append_nil]
    cases hseen with
    | error _ hother => exact ⟨hlt, hlt.le, rfl⟩
    | interrupted => exact ⟨hlt, rfl⟩
    | restarted => exact ⟨hlt, rfl⟩

/-- Every step keeps the invariant. -/
theorem Inv.step {s s' : Sys ι} {e : Option (Taken ι)} (h : Inv t nonblock data tr s)
    (hstep : Step t nonblock data s e s') : Inv t nonblock data (tr ++ [e]) s' := by
  cases hstep with
  | other hstep hother => exact h.other hstep hother
  | client hstep => exact h.client hstep
  | call hpc hstep hown hx => exact h.call hpc hstep hown hx
  | inside hpc hstep hown hcall hret => exact h.inside hpc hstep hown hcall
  | ret hpc hstep hown hx hseen => exact h.ret hpc hstep hown hx hseen

/-- Retrying never duplicates or drops a byte. In every reachable state of the driver, whatever the
other threads, the signals and the user copies do, a `write_all` that has returned has put into the
queue, in the order of its commits, exactly the first `*bytes_written` bytes of the data; it has
taken nothing out; and it returns zero iff these are all the bytes. -/
theorem write_all_exact {capacity : ℕ} {alloc : Alloc} {dev : Dev}
    (hinit : Dev.init capacity alloc = .ok dev) {before : List (ι × Event)}
    {driver : RingbufChar.Sys ι}
    (hreached : Lts.Run RingbufChar.Step (RingbufChar.Sys.initial ι dev) before driver) {s : Sys ι}
    (hrun : Lts.Run (Step t nonblock data) (.start driver) tr s) {result : Result}
    (hdone : s.pc = .done result) :
    (∀ x ∈ own t tr.reduceOption,
      x.after.buffer.fifo = x.before.buffer.fifo ++ Taken.committed x) ∧
      committedBy t tr = data.take result.bytesWritten ∧ result.bytesWritten ≤ data.length ∧
      (result.ret = 0 ↔ result.bytesWritten = data.length) := by
  have hstart : Inv t nonblock data [] (.start driver) :=
    ⟨sound_of_run (RingbufChar.Sys.initial_sound ι hinit).1 hreached,
      by simp [own], Nat.zero_le _, by simp [committedBy, own]⟩
  have hinv : Inv t nonblock data tr s :=
    hrun.invariant hstart fun _ _ _ _ _ h hstep => h.step hstep
  have hcommitted := hinv.committed
  rw [hdone] at hcommitted
  obtain ⟨hle, heq, hret⟩ := hcommitted
  refine ⟨fun x hx => ?_, heq, hle, hret⟩
  -- what a step commits is the difference of the queues, and the queue has only grown
  obtain ⟨bytes, hbytes⟩ := hinv.appends x hx
  rw [committed_of_append hbytes.symm, hbytes]

/-- A signal at the lock, and otherwise a quiet environment. -/
def interrupting : Env := { Env.quiet with signal := true }

/-- The first call is interrupted, and the client issues it again: the three bytes are in the queue
once. -/
theorem write_all_exact_interrupted : ∃ tr s,
    Lts.Run (Step () true [1, 2, 3]) (.start (RingbufChar.Sys.initial Unit .small)) tr s ∧
      s.pc = .done { ret := 0, bytesWritten := 3, error := none } ∧
      committedBy () tr = [1, 2, 3] := by
  obtain ⟨tr, s, hrun, hdone⟩ : ∃ tr s,
      Lts.Run (Step () true [1, 2, 3]) (.start (RingbufChar.Sys.initial Unit .small)) tr s ∧
        s.pc = .done { ret := 0, bytesWritten := 3, error := none } := by
    -- the loop is entered, the first call is interrupted at the lock, the second one writes
    refine ⟨_, _, .cons (.client rfl) <| .cons (.call rfl (.invoke () _ rfl) rfl rfl) <|
      .cons (.inside rfl (.run () .quiet _ rfl) rfl (by simp [Call.enter]) (by simp [Call.enter])) <|
      .cons (.inside rfl (.run () interrupting _ rfl) rfl (by simp) (by simp)) <|
      .cons (.inside rfl (.run () .quiet _ rfl) rfl (by simp) (by simp)) <|
      .cons (.ret rfl (.run () .quiet _ rfl) rfl rfl .interrupted) <|
      .cons (.call rfl (.invoke () _ rfl) rfl rfl) <|
      .cons (.inside rfl (.run () .quiet _ rfl) rfl (by simp [Call.enter]) (by simp [Call.enter])) <|
      .cons (.inside rfl (.run () .quiet _ rfl) rfl (by simp) (by simp)) <|
      .cons (.inside rfl (.run () .quiet _ rfl) rfl (by simp) (by simp)) <|
      .cons (.inside rfl (.run () .quiet _ rfl) rfl (by simp) (by simp)) <|
      .cons (.ret rfl (.run () .quiet _ rfl) rfl rfl (.count 3)) <|
      .cons (.client rfl) <| .cons (.client rfl) .nil, rfl⟩
  obtain ⟨-, hcommitted, -⟩ :=
    write_all_exact (show Dev.init 256 .zeroed = .ok .small from rfl) .nil hrun hdone
  exact ⟨tr, s, hrun, hdone, hcommitted⟩

end Client
