import KernelBridge.Lab.Evaluate
import KernelBridge.Lib.Raising

/-!
# The life cycle of the device adapter

`LinuxDevice` of `lab/backends.py`, from `__enter__` to `__exit__`, over an operating system that
does whatever it likes: each system call may succeed or raise an exception (`OS`). The adapter is a
context manager, so what it does between is up to a workload, which applies operations and may stop
with an exception of its own (`Workload`).

Everything between `os.open` and `os.close` leaves the descriptor alone (`Using`), and `_close`
forgets it before it closes it. So it is closed once, and not used after. Cleaning up, an exception
that is under way is raised again with what the cleanup has raised as its cause.

Main results: `closes_withDevice` and `afterwards_of_none`, about the descriptor, and
`enter_of_setup_error` and `withDevice_of_run_error`, about what surfaces.
-/

namespace Lab.Lifecycle

open Py Raising

/-! ## Exceptions and system calls -/

/-- An exception that is raised: whether it is an `OSError`, its `errno` then, and the chain of its
causes. The implicit contexts are left out. -/
structure Raised extends Exc where
  osError : Bool := false
  errno : Option ℕ := none
  causes : List Exc := []

/-- `raise original from cleanup`. -/
def Raised.raiseFrom (original cleanup : Raised) : Raised :=
  { original with causes := cleanup.toExc :: cleanup.causes }

/-- The system calls of the adapter. The argument of an `ioctl` is a block that holds a 64-bit number
in native byte order, if there is one. -/
inductive SysCall
  | open
  | fstat (fd : ℕ)
  | ioctl (fd : ℕ) (request : Json) (arg : Option (BitVec 64))
  | read (fd count : ℕ)
  | write (fd : ℕ) (payload : List UInt8)
  | close (fd : ℕ)

/-- What a system call hands back: a descriptor, the mode of a file, what the block holds after the
call, bytes, or their number. -/
abbrev SysCall.Result : SysCall → Type
  | .open => ℕ
  | .fstat _ => ℕ
  | .ioctl _ _ _ => BitVec 64
  | .read _ _ => List UInt8
  | .write _ _ => ℕ
  | .close _ => Unit

/-- An operating system with states `σ`: how a call ends, and the state after it. -/
abbrev OS (σ : Type) := (call : SysCall) → σ → Except Raised call.Result × σ

/-- The adapter while it is in use: the state of the system, the calls made so far, and the
attributes that change. `original_capacity` is not there before it is set. -/
structure Session (σ : Type) where
  os : σ
  trace : List SysCall
  fd : Option ℕ
  originalCapacity : Option (BitVec 64)

/-- The attributes of a `LinuxDevice` that do not change; the path is left out. -/
structure LinuxDevice where
  capacity : ℤ
  abi : Json

/-- What the methods of the adapter are. -/
abbrev Io (σ : Type) := EStateM Raised (Session σ)

variable {σ α : Type} (os : OS σ) (device : LinuxDevice)

/-- The adapter after a system call. -/
def Session.after (call : SysCall) (s : Session σ) : Session σ :=
  { s with os := (os call s.os).2, trace := s.trace ++ [call] }

/-- A system call is made. -/
def syscall (call : SysCall) : Io σ call.Result := fun s =>
  match (os call s.os).1 with
  | .ok result => .ok result (s.after os call)
  | .error exc => .error exc (s.after os call)

/-- An expression that may raise. -/
def eval (x : Except Exc α) : Io σ α :=
  match x with
  | .ok a => pure a
  | .error exc => throw { exc with }

/-- `struct.pack("=Q", value)`. -/
def pack (value : ℤ) : Except Exc (BitVec 64) :=
  if 0 ≤ value ∧ value < 2 ^ 64 then .ok (BitVec.ofInt 64 value) else .error ⟨"error", ""⟩

/-- `self.fd` as an argument of a system call, which is not made with `None`. -/
def descriptor : Io σ ℕ := do
  match (← get).fd with
  | some fd => return fd
  | none => throw { Exc.typeError with }

/-- `self.fcntl.ioctl(self.fd, self.abi[key], ...)`, with a number to pack if there is one. -/
def ioctl (key : String) (value : Option ℤ) : Io σ (BitVec 64) := do
  let request ← eval (item device.abi key)
  let arg ← eval (value.mapM pack)
  let fd ← descriptor
  syscall os (.ioctl fd request arg)

/-- `stat.S_ISCHR(mode)`. -/
def isChr (mode : ℕ) : Bool := mode &&& 0o170000 == 0o020000

/-! ## The methods -/

/-- `get_capacity`. -/
def getCapacity : Io σ (BitVec 64) := ioctl os device "get_capacity" (some 0)

/-- `_close`. The descriptor is forgotten first. -/
def close : Io σ Unit := do
  let s ← get
  set { s with fd := none }
  match s.fd with
  | some fd => syscall os (.close fd)
  | none => return

/-- The first statement of `__enter__`. -/
def openPath : Io σ Unit := do
  let fd ← syscall os .open
  modify fun s => { s with fd := some fd }

/-- The body of the `try` statement of `__enter__`. -/
def setup : Io σ Unit := do
  let fd ← descriptor
  let mode ← syscall os (.fstat fd)
  if isChr mode = false then
    throw { Exc.valueError "device path must be a character device" with }
  else
    let capacity ← getCapacity os device
    modify fun s => { s with originalCapacity := some capacity }
    let _ ← ioctl os device "clear" none
    let _ ← ioctl os device "set_capacity" (some device.capacity)
    return

/-- `__enter__`. -/
def enter : Io σ Unit := do
  openPath os
  try setup os device
  catch original =>
    try close os
    catch cleanup => throw (original.raiseFrom cleanup)
    throw original

/-- The `ioctl`s of `__exit__`. -/
def restore : Io σ Unit := do
  let _ ← ioctl os device "clear" none
  match (← get).originalCapacity with
  | some original =>
    let _ ← ioctl os device "set_capacity" (some original.toNat)
    return
  | none => throw { type := "AttributeError", text := "original_capacity" }

/-- `__exit__`, with the exception that ended the body of the `with` statement. It returns `False`,
so an exception is not swallowed. -/
def exit (excValue : Option Raised) : Io σ Unit := do
  if (← get).fd = none then return
  try
    try restore os device
    finally close os
  catch cleanup =>
    match excValue with
    | some original => throw (original.raiseFrom cleanup)
    | none => throw cleanup

/-- `failure(exc.errno)`, as the dict it is. -/
def failureOf : Option ℕ → Json
  | some errno => (failure errno).toJson
  | none => .dict [("ret", .int (-1)), ("errno", .null)]

/-- The body of the `try` statement of `apply`. -/
def applyOp : Op → Io σ Result
  | .read count => do
    let fd ← descriptor
    let data : List UInt8 ← syscall os (.read fd count)
    return success data.length (some data)
  | .write payload => do
    let fd ← descriptor
    let count : ℕ ← syscall os (.write fd payload)
    return success count none
  | .clear => do
    let _ ← ioctl os device "clear" none
    return success 0 none
  | .resize capacity => do
    let _ ← ioctl os device "set_capacity" (some capacity)
    return success 0 none
  | .capacity => do
    let capacity ← getCapacity os device
    return success capacity.toNat none

/-- `apply`, on the dict of an operation. -/
def apply (op : Json) : Io σ Json :=
  tryCatch
    (do
      let result ← applyOp os device (← eval (readOp op))
      return result.toJson)
    fun exc =>
      if exc.osError = false ∨ exc.errno.any (fun e => LinuxDevice.reraised.contains e) = true then
        throw exc
      else return failureOf exc.errno

/-! ## Using the adapter -/

/-- What is done with the adapter in the body of a `with` statement: an operation is applied, and
what comes next depends on how it ends, or there is an end, perhaps with an exception. -/
inductive Workload
  | done
  | raise (exc : Raised)
  | apply (op : Json) (next : Except Raised Json → Workload)

/-- The body of the `with` statement. -/
def Workload.run : Workload → Io σ Unit
  | .done => return
  | .raise exc => throw exc
  | .apply op next => do
    let outcome ← tryCatch
      (do
        let result ← Lifecycle.apply os device op
        return .ok result)
      fun exc => return .error exc
    (next outcome).run

/-- The `with` statement. -/
def withDevice (w : Workload) : Io σ Unit := do
  enter os device
  try w.run os device
  catch exc =>
    exit os device (some exc)
    throw exc
  exit os device none

/-- What can still be called after the `with` statement. -/
inductive Action
  | exit (excValue : Option Raised)
  | apply (op : Json)

/-- The state after further calls, whichever way they end. -/
def afterwards : List Action → Session σ → Session σ
  | [], s => s
  | .exit excValue :: rest, s => afterwards rest (stateOf (exit os device excValue s))
  | .apply op :: rest, s => afterwards rest (stateOf (Lifecycle.apply os device op s))

/-- Before `__enter__`. -/
def Session.start (s : σ) : Session σ where
  os := s
  trace := []
  fd := none
  originalCapacity := none

/-! ## While the descriptor is open -/

/-- The call is made on the descriptor, and does not close it. -/
def SysCall.On (fd : ℕ) : SysCall → Prop
  | .fstat fd' => fd' = fd
  | .ioctl fd' _ _ => fd' = fd
  | .read fd' _ => fd' = fd
  | .write fd' _ => fd' = fd
  | .open => False
  | .close _ => False

/-- The system gets from one state to another by calls on the descriptor. -/
inductive Performs (os : OS σ) (fd : ℕ) : σ → List SysCall → σ → Prop
  | nil (state : σ) : Performs os fd state [] state
  | cons {call : SysCall} {calls : List SysCall} {state state' : σ} (hon : call.On fd)
      (hrest : Performs os fd (os call state).2 calls state') :
      Performs os fd state (call :: calls) state'

variable {os : OS σ} {device : LinuxDevice} {fd : ℕ} {s s' s'' : Session σ}

namespace Performs

variable {state state' state'' : σ} {calls calls' : List SysCall}

/-- Calls that follow one another. -/
theorem append (h : Performs os fd state calls state') (h' : Performs os fd state' calls' state'') :
    Performs os fd state (calls ++ calls') state'' := by
  induction h with
  | nil => exact h'
  | cons hon _ ih => exact .cons hon (ih h')

/-- All calls are on the descriptor. -/
theorem on (h : Performs os fd state calls state') : ∀ call ∈ calls, call.On fd := by
  induction h with
  | nil => simp
  | cons hon _ ih => exact List.forall_mem_cons.mpr ⟨hon, ih⟩

/-- What calls on the descriptor preserve holds as long as only these are made. -/
theorem invariant {live : σ → Prop} (h : Performs os fd state calls state')
    (hstep : ∀ call state, call.On fd → live state → live (os call state).2)
    (hlive : live state) : live state' := by
  induction h with
  | nil => exact hlive
  | cons hon _ ih => exact ih (hstep _ _ hon hlive)

end Performs

/-- The descriptor is kept, and only calls on it are made. -/
structure Uses (os : OS σ) (fd : ℕ) (s s' : Session σ) : Prop where
  fd_eq : s'.fd = s.fd
  performs : ∃ calls, Performs os fd s.os calls s'.os ∧ s'.trace = s.trace ++ calls

/-- No call is a use of the descriptor. -/
theorem Uses.refl (os : OS σ) (fd : ℕ) (s : Session σ) : Uses os fd s s :=
  ⟨rfl, [], .nil _, (List.append_nil _).symm⟩

/-- Two uses in a row are one. -/
theorem Uses.trans (h : Uses os fd s s') (h' : Uses os fd s' s'') : Uses os fd s s'' := by
  obtain ⟨hfd, calls, hcalls, htrace⟩ := h
  obtain ⟨hfd', calls', hcalls', htrace'⟩ := h'
  exact ⟨hfd'.trans hfd, calls ++ calls', hcalls.append hcalls',
    by rw [htrace', htrace, List.append_assoc]⟩

/-- What an adapter with a descriptor keeps to. -/
def Using (os : OS σ) (fd : ℕ) (s s' : Session σ) : Prop := s.fd = some fd → Uses os fd s s'

/-- What it keeps to once it has the capacity that it is to restore. -/
def Holding (os : OS σ) (fd : ℕ) (s s' : Session σ) : Prop :=
  s.fd = some fd → Uses os fd s s' ∧ s'.originalCapacity = s.originalCapacity

/-- An adapter without a descriptor does nothing. -/
def Idle (s s' : Session σ) : Prop := s.fd = none → s' = s

/-- Using the descriptor is a preorder on sessions. -/
instance : IsPreorder (Session σ) (Using os fd) where
  refl s _ := .refl os fd s
  trans _ _ _ h h' hs := (h hs).trans (h' ((h hs).fd_eq.trans hs))

/-- So is using it without closing it. -/
instance : IsPreorder (Session σ) (Holding os fd) where
  refl s _ := ⟨.refl os fd s, rfl⟩
  trans _ _ _ h h' hs := by
    obtain ⟨huses, hcapacity⟩ := h hs
    obtain ⟨huses', hcapacity'⟩ := h' (huses.fd_eq.trans hs)
    exact ⟨huses.trans huses', hcapacity'.trans hcapacity⟩

/-- So is doing nothing to the system. -/
instance : IsPreorder (Session σ) Idle where
  refl _ _ := rfl
  trans s s' _ h h' hs := by
    obtain rfl := h hs
    exact h' hs

/-- An open session has its descriptor. -/
theorem descriptor_of_some (h : s.fd = some fd) : descriptor s = .ok fd s := by
  rw [descriptor, bind_of_ok (show (get : Io σ _) s = .ok s s from rfl), h]
  rfl

/-- Without a descriptor, Python raises a `TypeError`. -/
theorem descriptor_of_none (h : s.fd = none) :
    descriptor s = .error { Exc.typeError with } s := by
  rw [descriptor, bind_of_ok (show (get : Io σ _) s = .ok s s from rfl), h]
  rfl

/-- A call that went through has moved the session on. -/
theorem syscall_eq_ok {call : SysCall} {result : call.Result}
    (h : syscall os call s = .ok result s') : s' = s.after os call := by
  rw [syscall] at h
  split at h <;> cases h
  rfl

/-- A call on the descriptor holds it. -/
theorem holding_syscall (call : SysCall) (hon : call.On fd) :
    Keeps (Holding os fd) (syscall os call) := by
  intro s _
  have hperforms : Performs os fd s.os [call] (os call s.os).2 := .cons hon (.nil _)
  rw [syscall]
  cases (os call s.os).1 <;> exact ⟨⟨rfl, [call], hperforms, rfl⟩, rfl⟩

/-- The relation is kept by whatever gets the descriptor and keeps to what an adapter with it does. -/
def Respected (os : OS σ) (r : Session σ → Session σ → Prop) : Prop :=
  ∀ {α : Type} (f : ℕ → Io σ α), (∀ fd, Keeps (Holding os fd) (f fd)) → Keeps r (descriptor >>= f)

/-- Holding the descriptor is respected by all that the adapter does with it. -/
theorem respected_holding : Respected os (Holding os fd) := by
  intro α f hf s hs
  rw [bind_of_ok (descriptor_of_some hs)]
  exact hf fd s hs

/-- Without a descriptor, nothing is done to the system. -/
theorem respected_idle : Respected os Idle := by
  intro α f _ s hs
  rw [bind_of_error (descriptor_of_none hs)]
  rfl

section Respected

variable {r : Session σ → Session σ → Prop} [IsPreorder (Session σ) r] (hr : Respected os r)

/-- An expression does nothing to the session. -/
theorem keeps_eval (x : Except Exc α) : Keeps r (eval x : Io σ α) := by
  cases x with
  | ok a => exact keeps_pure a
  | error exc => exact keeps_throw _

include hr

/-- An `ioctl` keeps what is respected. -/
theorem keeps_ioctl (key : String) (value : Option ℤ) : Keeps r (ioctl os device key value) :=
  (keeps_eval _).bind fun _ => (keeps_eval _).bind fun _ =>
    hr _ fun fd => holding_syscall (.ioctl fd _ _) rfl

/-- So does restoring the device. -/
theorem keeps_restore : Keeps r (restore os device) := by
  refine (keeps_ioctl hr _ _).bind fun _ => keeps_get.bind fun s => ?_
  cases s.originalCapacity with
  | none => exact keeps_throw _
  | some original => exact (keeps_ioctl hr _ _).bind fun _ => keeps_pure _

/-- So does an operation. -/
theorem keeps_applyOp (op : Op) : Keeps r (applyOp os device op) := by
  cases op with
  | read count =>
    exact hr _ fun fd => (holding_syscall (.read fd count) rfl).bind fun _ => keeps_pure _
  | write payload =>
    exact hr _ fun fd => (holding_syscall (.write fd payload) rfl).bind fun _ => keeps_pure _
  | clear => exact (keeps_ioctl hr _ _).bind fun _ => keeps_pure _
  | resize capacity => exact (keeps_ioctl hr _ _).bind fun _ => keeps_pure _
  | capacity => exact (keeps_ioctl hr _ _).bind fun _ => keeps_pure _

/-- So does `apply`, which catches exceptions. -/
theorem keeps_apply (op : Json) : Keeps r (apply os device op) := by
  refine Keeps.tryCatch ?_ fun exc => ?_
  · exact (keeps_eval _).bind fun _ => (keeps_applyOp hr _).bind fun _ => keeps_pure _
  · split
    · exact keeps_throw _
    · exact keeps_pure _

/-- So does a whole workload. -/
theorem keeps_run (w : Workload) : Keeps r (w.run os device) := by
  induction w with
  | done => exact keeps_pure _
  | raise exc => exact keeps_throw _
  | apply op next ih =>
    refine Keeps.bind (Keeps.tryCatch ?_ fun exc => keeps_pure _) ih
    exact (keeps_apply hr op).bind fun _ => keeps_pure _

end Respected

/-- What holds the descriptor uses it. -/
theorem using_of_holding {m : Io σ α} (h : Keeps (Holding os fd) m) : Keeps (Using os fd) m :=
  h.mono fun _ _ hholding hs => (hholding hs).1

/-- Setting up uses the descriptor. -/
theorem using_setup : Keeps (Using os fd) (setup os device) := by
  intro s hs
  have hioctl (key : String) (value : Option ℤ) : Keeps (Using os fd) (ioctl os device key value) :=
    using_of_holding (keeps_ioctl respected_holding key value)
  -- setting the capacity to restore changes neither the descriptor nor the calls
  have hmodify (capacity : BitVec 64) : Keeps (Using os fd) (modify fun s : Session σ =>
      { s with originalCapacity := some capacity } : Io σ PUnit) :=
    fun s _ => ⟨rfl, [], .nil _, (List.append_nil _).symm⟩
  rw [setup, bind_of_ok (descriptor_of_some hs)]
  refine Keeps.bind (using_of_holding (holding_syscall (.fstat fd) rfl)) (fun mode => ?_) s hs
  split
  · exact keeps_throw _
  · exact (hioctl _ _).bind fun capacity => (hmodify capacity).bind fun _ =>
      (hioctl _ _).bind fun _ => (hioctl _ _).bind fun _ => keeps_pure _

/-! ## Closing -/

/-- Calls on the descriptor are made, and then it is closed and forgotten. -/
structure Closes (os : OS σ) (fd : ℕ) (s s' : Session σ) : Prop where
  fd_eq : s'.fd = none
  performs : ∃ calls state, Performs os fd s.os calls state ∧ s'.os = (os (.close fd) state).2 ∧
    s'.trace = s.trace ++ calls ++ [.close fd]

/-- A use and then a closing is a closing. -/
theorem Uses.closes (h : Uses os fd s s') (h' : Closes os fd s' s'') : Closes os fd s s'' := by
  obtain ⟨-, calls, hcalls, htrace⟩ := h
  obtain ⟨hfd, calls', state, hcalls', hos, htrace'⟩ := h'
  exact ⟨hfd, calls ++ calls', state, hcalls.append hcalls', hos, by rw [htrace', htrace]; simp⟩

/-- Closing, whether or not it raises. -/
theorem stateOf_close (hs : s.fd = some fd) :
    stateOf (close os s) = Session.after os (.close fd) { s with fd := none } := by
  have hclose : close os s = syscall os (.close fd) { s with fd := none } := by
    rw [close, bind_of_ok (show (get : Io σ _) s = .ok s s from rfl), hs]
    rfl
  rw [hclose, syscall]
  cases (os (.close fd) s.os).1 <;> rfl

/-- `close` closes the descriptor. -/
theorem closes_close (hs : s.fd = some fd) : Closes os fd s (stateOf (close os s)) := by
  rw [stateOf_close hs]
  exact ⟨rfl, [], s.os, .nil _, rfl, by simp [Session.after]⟩

/-- The exception is raised as it was, or with another cause. -/
def Raised.SurfacesAs (original raised : Raised) : Prop :=
  raised = original ∨ ∃ cleanup, raised = original.raiseFrom cleanup

/-- Leaving with the descriptor: the capacity is restored, the descriptor is closed, and what is
raised on the way becomes a cause, if there is something that it can be the cause of. -/
theorem exit_of_some (excValue : Option Raised) (hs : s.fd = some fd) :
    exit os device excValue s = tryCatch (tryFinally (restore os device) (close os)) (fun cleanup =>
      throw (excValue.elim cleanup fun original => original.raiseFrom cleanup)) s := by
  rw [exit, bind_of_ok (show (get : Io σ _) s = .ok s s from rfl), if_neg (by simp [hs])]
  cases excValue <;> rfl

/-- Leaving restores the device and then closes it, whatever is raised. -/
theorem stateOf_exit (excValue : Option Raised) (hs : s.fd = some fd) :
    stateOf (exit os device excValue s) = stateOf (close os (stateOf (restore os device s))) := by
  rw [exit_of_some excValue hs, ← stateOf_tryFinally]
  cases h : tryFinally (restore os device) (close os) s with
  | ok _ s' => rw [tryCatch_of_ok h]
  | error cleanup s' =>
    rw [tryCatch_of_error h]
    rfl

/-- With an exception under way, nothing else surfaces. -/
theorem exit_surfaces {original exc : Raised} (hs : s.fd = some fd)
    (h : exit os device (some original) s = .error exc s') : original.SurfacesAs exc := by
  rw [exit_of_some _ hs] at h
  cases hfinally : tryFinally (restore os device) (close os) s with
  | ok _ t =>
    rw [tryCatch_of_ok hfinally] at h
    cases h
  | error cleanup t =>
    rw [tryCatch_of_error hfinally] at h
    cases h
    exact .inr ⟨cleanup, rfl⟩

/-- Leaving does not hide that the capacity was not restored. -/
theorem restore_of_exit_ok {excValue : Option Raised} (hs : s.fd = some fd)
    (h : exit os device excValue s = .ok ⟨⟩ s') : ∃ s₁, restore os device s = .ok ⟨⟩ s₁ := by
  cases hrestore : restore os device s with
  | ok _ s₁ => exact ⟨s₁, rfl⟩
  | error exc s₁ =>
    -- what is raised instead is raised by `_close`
    obtain ⟨exc', s₂, hfinally⟩ : ∃ exc' s₂,
        tryFinally (restore os device) (close os) s = .error exc' s₂ := by
      rw [tryFinally_of_error hrestore]
      cases close os s₁ with
      | ok _ s₂ => exact ⟨exc, s₂, rfl⟩
      | error exc' s₂ => exact ⟨exc', s₂, rfl⟩
    rw [exit_of_some _ hs, tryCatch_of_error hfinally] at h
    cases h

/-- Leaving closes the descriptor. -/
theorem closes_exit (excValue : Option Raised) (hs : s.fd = some fd) :
    Closes os fd s (stateOf (exit os device excValue s)) := by
  have huses : Uses os fd s (stateOf (restore os device s)) :=
    (keeps_restore respected_holding s hs).1
  rw [stateOf_exit excValue hs]
  exact huses.closes (closes_close (huses.fd_eq.trans hs))

/-- Leaving a second time does nothing. -/
theorem exit_of_none (excValue : Option Raised) (hs : s.fd = none) :
    exit os device excValue s = .ok () s := by
  rw [exit, bind_of_ok (show (get : Io σ _) s = .ok s s from rfl), if_pos hs]
  rfl

/-- Nothing happens after the descriptor is gone. -/
theorem afterwards_of_none (actions : List Action) (hs : s.fd = none) :
    afterwards os device actions s = s := by
  induction actions with
  | nil => rfl
  | cons action rest ih =>
    cases action with
    | exit excValue =>
      rw [afterwards, exit_of_none excValue hs]
      exact ih
    | apply op =>
      rw [afterwards, show stateOf (Lifecycle.apply os device op s) = s from
        keeps_apply respected_idle op s hs]
      exact ih

/-! ## Entering -/

/-- The adapter once the descriptor is open. -/
def Session.opened (os : OS σ) (fd : ℕ) (s : Session σ) : Session σ :=
  { s.after os .open with fd := some fd }

/-- Opening goes through if the system opens the path. -/
theorem openPath_of_ok (h : (os .open s.os).1 = .ok fd) :
    openPath os s = .ok ⟨⟩ (s.opened os fd) := by
  have hcall : syscall os .open s = .ok fd (s.after os .open) := by
    rw [syscall, h]
  rw [openPath, bind_of_ok hcall]
  rfl

/-- Opening raises what the system does. -/
theorem openPath_of_error {exc : Raised} (h : (os .open s.os).1 = .error exc) :
    openPath os s = .error exc (s.after os .open) := by
  have hcall : syscall os .open s = .error exc (s.after os .open) := by
    rw [syscall, h]
  rw [openPath, bind_of_error hcall]

/-- Entering goes through if opening and setting up do. -/
theorem enter_of_setup_ok (hopen : openPath os s = .ok ⟨⟩ s')
    (hsetup : setup os device s' = .ok ⟨⟩ s'') : enter os device s = .ok ⟨⟩ s'' := by
  rw [enter, bind_of_ok hopen, tryCatch_of_ok hsetup]

/-- If the setup fails, the descriptor is closed, and nothing else surfaces. -/
theorem enter_of_setup_error {original : Raised} (hopen : openPath os s = .ok ⟨⟩ s')
    (hsetup : setup os device s' = .error original s'') :
    ∃ exc, enter os device s = .error exc (stateOf (close os s'')) ∧ original.SurfacesAs exc := by
  rw [enter, bind_of_ok hopen, tryCatch_of_error hsetup]
  cases hclose : close os s'' with
  | ok _ t =>
    rw [bind_of_ok (tryCatch_of_ok hclose)]
    exact ⟨original, rfl, .inl rfl⟩
  | error cleanup t =>
    have hraised : tryCatch (close os) (fun cleanup => throw (original.raiseFrom cleanup)) s'' =
        .error (original.raiseFrom cleanup) t := tryCatch_of_error hclose
    exact ⟨original.raiseFrom cleanup, bind_of_error hraised, .inr ⟨cleanup, rfl⟩⟩

/-- What an adapter that was entered has gone through. -/
theorem enter_eq_ok (h : enter os device s = .ok ⟨⟩ s') : ∃ fd, (os .open s.os).1 = .ok fd ∧
    setup os device (s.opened os fd) = .ok ⟨⟩ s' ∧ s'.fd = some fd := by
  cases hopen : (os .open s.os).1 with
  | error exc =>
    rw [enter, bind_of_error (openPath_of_error hopen)] at h
    cases h
  | ok fd =>
    have huses : Uses os fd _ (stateOf (setup os device (s.opened os fd))) := using_setup _ rfl
    cases hsetup : setup os device (s.opened os fd) with
    | ok _ s₁ =>
      rw [enter_of_setup_ok (openPath_of_ok hopen) hsetup] at h
      cases h
      rw [hsetup] at huses
      exact ⟨fd, rfl, hsetup, huses.fd_eq⟩
    | error original s₁ =>
      obtain ⟨exc, henter, -⟩ := enter_of_setup_error (openPath_of_ok hopen) hsetup
      rw [henter] at h
      cases h

/-! ## The `with` statement -/

section With

variable {w : Workload} {original : Raised}

/-- What entering raises is raised. -/
theorem withDevice_of_enter_error (henter : enter os device s = .error original s') :
    withDevice os device w s = .error original s' := by
  rw [withDevice, bind_of_error henter]

/-- After a workload that went through, the device is left. -/
theorem withDevice_of_run_ok (henter : enter os device s = .ok ⟨⟩ s')
    (hrun : w.run os device s' = .ok ⟨⟩ s'') :
    withDevice os device w s = exit os device none s'' := by
  rw [withDevice, bind_of_ok henter, bind_of_ok (tryCatch_of_ok hrun)]

/-- If the workload raises, the adapter is left, and nothing else surfaces. -/
theorem withDevice_of_run_error (henter : enter os device s = .ok ⟨⟩ s')
    (hrun : w.run os device s' = .error original s'') (hfd : s''.fd = some fd) :
    ∃ exc, withDevice os device w s = .error exc (stateOf (exit os device (some original) s'')) ∧
      original.SurfacesAs exc := by
  cases hexit : exit os device (some original) s'' with
  | ok _ t =>
    have hbody : tryCatch (w.run os device)
        (fun exc => do
          exit os device (some exc)
          throw exc) s' = .error original t := (tryCatch_of_error hrun).trans (bind_of_ok hexit)
    refine ⟨original, ?_, .inl rfl⟩
    rw [withDevice, bind_of_ok henter, bind_of_error hbody]
    rfl
  | error exc t =>
    have hbody : tryCatch (w.run os device)
        (fun exc => do
          exit os device (some exc)
          throw exc) s' = .error exc t := (tryCatch_of_error hrun).trans (bind_of_error hexit)
    refine ⟨exc, ?_, exit_surfaces hfd hexit⟩
    rw [withDevice, bind_of_ok henter, bind_of_error hbody]
    rfl

/-- A descriptor that was opened is closed at the end of the `with` statement, once and last. -/
theorem closes_withDevice (w : Workload) (hopen : (os .open s.os).1 = .ok fd) :
    Closes os fd (s.opened os fd) (stateOf (withDevice os device w s)) := by
  have huses : Uses os fd _ (stateOf (setup os device (s.opened os fd))) := using_setup _ rfl
  cases hsetup : setup os device (s.opened os fd) with
  | error original s₁ =>
    rw [hsetup] at huses
    obtain ⟨exc, henter, -⟩ := enter_of_setup_error (openPath_of_ok hopen) hsetup
    rw [withDevice_of_enter_error henter]
    exact huses.closes (closes_close huses.fd_eq)
  | ok _ s₁ =>
    rw [hsetup] at huses
    have henter := enter_of_setup_ok (openPath_of_ok hopen) hsetup
    have hfd : s₁.fd = some fd := huses.fd_eq
    have hworkload : Uses os fd s₁ (stateOf (w.run os device s₁)) :=
      (keeps_run respected_holding w s₁ hfd).1
    cases hrun : w.run os device s₁ with
    | ok _ s₂ =>
      rw [hrun] at hworkload
      rw [withDevice_of_run_ok henter hrun]
      exact huses.closes (hworkload.closes (closes_exit none (hworkload.fd_eq.trans hfd)))
    | error original s₂ =>
      rw [hrun] at hworkload
      have hfd₂ := hworkload.fd_eq.trans hfd
      obtain ⟨exc, hwith, -⟩ := withDevice_of_run_error henter hrun hfd₂
      rw [hwith]
      exact huses.closes (hworkload.closes (closes_exit (some original) hfd₂))

end With

end Lab.Lifecycle
