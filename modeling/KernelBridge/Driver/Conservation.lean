import KernelBridge.Driver.Threads

/-!
# Conservation of bytes

Every step of every thread keeps the buffer well formed, and balances: the queue before the step
followed by what the step wrote is what it removed followed by the queue after it
(`stepThread_balance`). Along a run the balances add up to the conservation law of
`run_balance`: the bytes written so far, in the order of the mutex sections that committed them,
are the bytes delivered or discarded so far, followed by the queue.

A mutex section is reached only with a nonzero count (`Pc.Sized`), which the specifications of
the sections ask for.
-/

namespace RingbufChar

open Buffer

/-! ## What the sections of a transfer do -/

/-- The bytes that a section put into the queue. -/
def Moved.written : Moved → List UInt8
  | .wrote bytes => bytes
  | _ => []

/-- The bytes that a section took out of the queue. -/
def Moved.removed : Moved → List UInt8
  | .delivered bytes => bytes
  | .discarded bytes => bytes
  | _ => []

namespace Event

/-- The bytes written to the queue by a step. -/
def written : Event → List UInt8
  | .critical _ moved => moved.written
  | _ => []

/-- The bytes removed from the queue by a step. -/
def removed : Event → List UInt8
  | .critical _ moved => moved.removed
  | _ => []

end Event

/-- How the mutex section of a transfer can end. -/
def Transfer.Ends (rw : Transfer) (uc : UserCopy) (dev : Dev) (out : Outcome) (dev' : Dev) : Prop :=
  match rw with
  | .read nonblock count => dev.ReadOutcome nonblock count uc out dev'
  | .write nonblock data => dev.WriteOutcome nonblock data uc out dev'

variable {rw : Transfer} {uc : UserCopy} {env : Env} {dev dev' : Dev} {out : Outcome}

/-- The mutex section of a transfer always ends, as specified. -/
theorem Transfer.critical_spec (h : dev.buffer.WellFormed) (hsize : 0 < rw.size) (uc : UserCopy) :
    ∃ out dev', rw.critical uc dev = some (out, dev') ∧ rw.Ends uc dev out dev' := by
  cases rw with
  | read nonblock count => exact Dev.readSection_spec h hsize nonblock uc
  | write nonblock data => exact Dev.writeSection_spec h hsize nonblock uc

/-- A step at the lock: a signal, or the mutex section. -/
theorem Transfer.lockStep_cases (h : dev.buffer.WellFormed) (hsize : 0 < rw.size) {eff : Effect}
    (hs : rw.lockStep env dev = some eff) :
    eff = { dev, pc := .noteFailure .ERESTARTSYS, event := .interrupted } ∨
      ∃ out dev', rw.Ends env.copy dev out dev' ∧
        eff = { dev := dev', pc := rw.after out, event := .critical dev (rw.movedBy out) } := by
  obtain ⟨out, dev', hcrit, hends⟩ := critical_spec h hsize env.copy
  rcases lockStep_eq_some hs with hsignal | ⟨out', dev'', hcrit', heff⟩
  · exact .inl hsignal
  · obtain ⟨rfl, rfl⟩ := Prod.mk.inj (Option.some.inj (hcrit.symm.trans hcrit'))
    exact .inr ⟨out, dev', hends, heff⟩

/-- The section of a transfer keeps the invariant and balances. -/
theorem Transfer.Ends.balance (h : rw.Ends uc dev out dev') (hwf : dev.buffer.WellFormed) :
    dev'.buffer.WellFormed ∧
      dev.buffer.fifo ++ (rw.movedBy out).written =
        (rw.movedBy out).removed ++ dev'.buffer.fifo := by
  cases rw with
  | read nonblock count =>
    cases h with
    | moved k faulted =>
      rw [Dev.buffer_noteIf]
      refine ⟨wellFormed_consume hwf k, ?_⟩
      -- what is delivered comes off the front of the queue
      change dev.buffer.fifo ++ [] = dev.buffer.fifo.take k ++ (dev.buffer.consume k).fifo
      rw [fifo_consume hwf, List.take_append_drop, List.append_nil]
    | _ => exact ⟨hwf, List.append_nil _⟩
  | write nonblock data =>
    cases h with
    | moved hup k faulted c hinv =>
      rw [Dev.buffer_noteIf]
      -- what is written goes to its end
      exact ⟨hinv.wellFormed, hinv.fifo_eq.symm⟩
    | fault hup hspace c hinv =>
      refine ⟨hinv.wellFormed, ?_⟩
      -- a write without progress may have changed free slots, but not the queue
      change dev.buffer.fifo ++ [] = c.fifo
      rw [hinv.fifo_eq, List.take_zero]
    | _ => exact ⟨hwf, List.append_nil _⟩

/-! ## Every step -/

/-- The retry loop of a transfer is entered with a nonzero count only. -/
def Pc.Sized : Pc → Prop
  | .lock rw => 0 < rw.size
  | .wait rw _ _ => 0 < rw.size
  | _ => True

/-- A wakeup does not change the sizes of a call. -/
theorem Pc.Sized.wake {pc : Pc} (h : pc.Sized) (q : WaitQueue) : (pc.wake q).Sized := by
  unfold Pc.wake
  split <;> exact h

/-- What follows a transfer is as large as the transfer. -/
theorem Transfer.sized_after (hsize : 0 < rw.size) (out : Outcome) : (rw.after out).Sized := by
  cases out with
  | wait => exact hsize
  | moved bytes =>
    rw [Transfer.after]
    split <;> trivial
  | _ => trivial

/-- An `ioctl` transfers nothing. -/
theorem sized_dispatch (cmd : BitVec 32) (arg : UserArg) : (dispatch cmd arg).Sized := by
  rcases dispatch_cases cmd arg with ⟨e, h⟩ | ⟨-, h⟩ | ⟨ctl, -, h⟩ | ⟨-, h⟩ <;> rw [h] <;>
    trivial

/-- A control call transfers nothing. -/
theorem Control.sized_step (c : Control) (env : Env) (dev : Dev) : (c.step env dev).pc.Sized := by
  cases c with
  | setCapacity requested =>
    simp only [Control.step]
    split <;> trivial
  | _ => trivial

/-- The control sections keep the invariant and balance. -/
theorem Control.balance (hwf : dev.buffer.WellFormed) (c : Control) (env : Env) :
    (c.step env dev).dev.buffer.WellFormed ∧
      dev.buffer.fifo ++ (c.step env dev).event.written =
        (c.step env dev).event.removed ++ (c.step env dev).dev.buffer.fifo := by
  cases c with
  | clear =>
    refine ⟨wellFormed_clear hwf, ?_⟩
    change dev.buffer.fifo ++ [] = dev.buffer.fifo ++ dev.buffer.clear.fifo
    rw [fifo_clear]
  | setCapacity requested =>
    simp only [Control.step, Dev.setCapacitySection]
    cases hr : dev.buffer.resize requested.toNat env.alloc with
    | ok buffer =>
      obtain ⟨hwf', hfifo, -⟩ := resize_ok hwf hr
      refine ⟨hwf', ?_⟩
      -- a resize copies the queue to the new block, in order
      change dev.buffer.fifo ++ [] = buffer.fifo
      rw [hfifo, List.append_nil]
    | error e => exact ⟨hwf, List.append_nil _⟩
  | _ => exact ⟨hwf, List.append_nil _⟩

/-- Every step of a thread keeps the invariant, stays within nonzero counts, and balances. -/
theorem stepThread_balance (hwf : dev.buffer.WellFormed) {pc : Pc} (hpc : pc.Sized) {eff : Effect}
    (hs : stepThread env dev pc = some eff) :
    eff.dev.buffer.WellFormed ∧ eff.pc.Sized ∧
      dev.buffer.fifo ++ eff.event.written = eff.event.removed ++ eff.dev.buffer.fifo := by
  -- a step that leaves the buffer alone and is no mutex section
  have hquiet : ∀ {eff : Effect}, eff.dev.buffer = dev.buffer → eff.event.written = [] →
      eff.event.removed = [] → eff.pc.Sized → eff.dev.buffer.WellFormed ∧ eff.pc.Sized ∧
        dev.buffer.fifo ++ eff.event.written = eff.event.removed ++ eff.dev.buffer.fifo := by
    intro eff hbuf hw hr hsized
    rw [hbuf, hw, hr]
    exact ⟨hwf, hsized, List.append_nil _⟩
  cases pc with
  | idle => cases hs
  | entry c =>
    cases hs
    cases c with
    | transfer rw =>
      refine hquiet rfl rfl rfl ?_
      simp only [Call.enter]
      split_ifs with hzero
      · trivial
      · exact Nat.pos_of_ne_zero hzero
    | _ => exact hquiet rfl rfl rfl trivial
  | lock rw =>
    rcases Transfer.lockStep_cases hwf hpc hs with rfl | ⟨out, dev', hends, rfl⟩
    · exact hquiet rfl rfl rfl trivial
    · obtain ⟨hwf', hbal⟩ := hends.balance hwf
      exact ⟨hwf', Transfer.sized_after hpc out, hbal⟩
  | wait rw seen phase =>
    rcases Transfer.waitStep_eq_some hs with rfl | ⟨next, rfl⟩ | rfl
    · exact hquiet rfl rfl rfl hpc
    · exact hquiet rfl rfl rfl hpc
    · exact hquiet rfl rfl rfl trivial
  | dispatch cmd arg => cases hs; exact hquiet rfl rfl rfl (sized_dispatch cmd arg)
  | control c =>
    cases hs
    obtain ⟨hwf', hbal⟩ := Control.balance hwf c env
    exact ⟨hwf', c.sized_step env dev, hbal⟩
  | copyOut o writable =>
    cases hs
    refine hquiet rfl rfl rfl ?_
    simp only
    split_ifs <;> trivial
  | resetStats rest => cases rest <;> cases hs <;> exact hquiet rfl rfl rfl trivial
  | _ => cases hs; exact hquiet rfl rfl rfl trivial

/-! ## Every run -/

/-- The bytes written along a trace, in the order of the mutex sections that committed them. -/
def written {ι : Type*} (tr : List (ι × Event)) : List UInt8 := tr.flatMap fun e => e.2.written

/-- The bytes delivered or discarded along a trace, in the order of the mutex sections that took
them out. -/
def removed {ι : Type*} (tr : List (ι × Event)) : List UInt8 := tr.flatMap fun e => e.2.removed

@[simp] theorem written_append {ι : Type*} (tr tr' : List (ι × Event)) :
    written (tr ++ tr') = written tr ++ written tr' := List.flatMap_append

@[simp] theorem removed_append {ι : Type*} (tr tr' : List (ι × Event)) :
    removed (tr ++ tr') = removed tr ++ removed tr' := List.flatMap_append

@[simp] theorem written_cons {ι : Type*} (e : ι × Event) (tr : List (ι × Event)) :
    written (e :: tr) = e.2.written ++ written tr := List.flatMap_cons

@[simp] theorem removed_cons {ι : Type*} (e : ι × Event) (tr : List (ι × Event)) :
    removed (e :: tr) = e.2.removed ++ removed tr := List.flatMap_cons

/-- What every reachable state of the system satisfies. -/
structure Sys.Sound {ι : Type*} (s : Sys ι) : Prop where
  wellFormed : s.dev.buffer.WellFormed
  sized : ∀ t, (s.pc t).Sized

variable {ι : Type*} [DecidableEq ι] {s s' : Sys ι} {t u : ι} {e : ι × Event}

/-- Where the thread `u` stands after a step of `t`. -/
theorem Sys.pc_apply (t u : ι) (eff : Effect) :
    (s.apply t eff).pc u =
      match eff.wake with
      | none => Function.update s.pc t eff.pc u
      | some q => (Function.update s.pc t eff.pc u).wake q := rfl

/-- A step of the system keeps `Sound` and balances. -/
theorem Step.balance (h : Step s e s') (hs : s.Sound) :
    s'.Sound ∧ s.dev.buffer.fifo ++ e.2.written = e.2.removed ++ s'.dev.buffer.fifo := by
  cases h with
  | invoke t c hidle =>
    refine ⟨⟨hs.wellFormed, fun u => ?_⟩, List.append_nil _⟩
    rcases eq_or_ne u t with rfl | hne
    · simp [Pc.Sized]
    · simpa [hne] using hs.sized u
  | run t env eff hstep =>
    obtain ⟨hwf, hsized, hbal⟩ := stepThread_balance hs.wellFormed (hs.sized t) hstep
    refine ⟨⟨hwf, fun u => ?_⟩, hbal⟩
    -- a wake-up of others comes on top of the step of `t`
    have hu : (Function.update s.pc t eff.pc u).Sized := by
      rcases eq_or_ne u t with rfl | hne
      · simpa using hsized
      · simpa [hne] using hs.sized u
    rw [Sys.pc_apply]
    split
    · exact hu
    · exact hu.wake _

/-- A freshly initialised device is sound, and its buffer is empty. -/
theorem Sys.initial_sound (ι : Type*) {capacity : ℕ} {alloc : Alloc} {dev : Dev}
    (hinit : Dev.init capacity alloc = .ok dev) :
    (Sys.initial ι dev).Sound ∧ dev.buffer.fifo = [] := by
  unfold Dev.init at hinit
  split_ifs at hinit
  cases hb : Buffer.init capacity alloc with
  | error e => rw [hb] at hinit; cases hinit
  | ok buffer =>
    rw [hb] at hinit
    cases hinit
    obtain ⟨hwf, -, hempty⟩ := wellFormed_init hb
    exact ⟨⟨hwf, fun _ => trivial⟩, hempty⟩

/-- Every state reached from a sound one is sound. -/
theorem sound_of_run {s₀ : Sys ι} (h₀ : s₀.Sound) {tr : List (ι × Event)}
    (h : Lts.Run Step s₀ tr s) : s.Sound :=
  h.inductive h₀ fun _ _ _ ih hstep => (hstep.balance ih).1

/-- The conservation law: what has been written is what has been removed, followed by what is
stored. -/
theorem run_balance {s₀ : Sys ι} (h₀ : s₀.Sound) (hempty : s₀.dev.buffer.fifo = [])
    {tr : List (ι × Event)} (h : Lts.Run Step s₀ tr s) :
    written tr = removed tr ++ s.dev.buffer.fifo := by
  refine h.invariant (I := fun tr s => written tr = removed tr ++ s.dev.buffer.fifo) ?_ ?_
  · simpa [written, removed] using hempty
  · intro tr s e s' hrun ih hstep
    have hbal := (hstep.balance (sound_of_run h₀ hrun)).2
    simp only [written_append, removed_append, written_cons, removed_cons]
    rw [ih, List.append_assoc, ← List.append_assoc s.dev.buffer.fifo, hbal]
    simp [written, removed]

end RingbufChar
