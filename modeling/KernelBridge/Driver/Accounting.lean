import KernelBridge.Driver.Calls
import KernelBridge.Driver.Copying
import Mathlib.Algebra.BigOperators.Group.List.Basic
import Mathlib.Data.BitVec

/-!
# What a call does to the device by its own steps

While a call is in flight other threads step in between, so what the call itself has done to the
device is told by its own steps only. A `Taken` step records the device before and after it, and
`Traced` is the step relation of the driver with these records for labels. The rule
`Traced.call_invariant` proves a property of the own steps of a call, together with the place where
its thread stands, from one thread step at a time.

Main results:

* `failed_call_atomic`: the own steps of a call that fails change nothing but counters;
* `failures_counted`: a call adds to `failed_operations` exactly what its outcome says.
-/

namespace RingbufChar

open Buffer

/-! ## Recorded steps -/

/-- A step as it was taken: by which thread, what it showed, the choices of the environment (none
at an invocation), and the device before and after it. -/
structure Taken (ι : Type*) where
  thread : ι
  event : Event
  env : Option Env
  before : Dev
  after : Dev

variable {ι : Type*}

/-- The label of the step without the record. -/
def Taken.label (x : Taken ι) : ι × Event := (x.thread, x.event)

/-- The steps among `tr` that the thread `t` has taken. -/
def own [DecidableEq ι] (t : ι) (tr : List (Taken ι)) : List (Taken ι) :=
  tr.filter fun x => decide (x.thread = t)

variable [DecidableEq ι]

/-- A step of the system, recorded. -/
inductive Traced (s : Sys ι) : Taken ι → Sys ι → Prop
  | invoke (t : ι) (c : Call) (h : s.pc t = .idle) :
      Traced s ⟨t, .invoke c, none, s.dev, s.dev⟩
        { s with pc := Function.update s.pc t (.entry c) }
  | run (t : ι) (env : Env) (eff : Effect) (h : stepThread env s.dev (s.pc t) = some eff) :
      Traced s ⟨t, eff.event, some env, s.dev, eff.dev⟩ (s.apply t eff)

variable {s s' : Sys ι} {x : Taken ι} {t u : ι}

/-- A traced step is a step. -/
theorem Traced.step (h : Traced s x s') : Step s x.label s' := by
  cases h with
  | invoke t c hidle => exact .invoke t c hidle
  | run t env eff hs => exact .run t env eff hs

/-- Every step can be recorded. -/
theorem Step.traced {e : ι × Event} (h : Step s e s') : ∃ x, Taken.label x = e ∧ Traced s x s' := by
  cases h with
  | invoke t c hidle => exact ⟨_, rfl, .invoke t c hidle⟩
  | run t env eff hs => exact ⟨_, rfl, .run t env eff hs⟩

/-- The runs of the driver are the recorded ones, up to the records. -/
theorem run_iff_traced {s₀ : Sys ι} {tr : List (ι × Event)} :
    Lts.Run Step s₀ tr s ↔ ∃ xs, xs.map Taken.label = tr ∧ Lts.Run Traced s₀ xs s := by
  constructor
  · intro h
    exact h.lift fun _ _ _ hstep => hstep.traced
  · rintro ⟨xs, rfl, hrun⟩
    exact hrun.map fun _ _ _ hstep => hstep.step

/-- A recorded step is an invocation or a step of a thread inside the driver. -/
theorem Traced.cases (h : Traced s x s') :
    (∃ c, x.event = .invoke c ∧ x.after = x.before ∧
      s' = { s with pc := Function.update s.pc x.thread (.entry c) }) ∨
    ∃ env eff, stepThread env s.dev (s.pc x.thread) = some eff ∧
      x = ⟨x.thread, eff.event, some env, s.dev, eff.dev⟩ ∧ s' = s.apply x.thread eff := by
  cases h with
  | invoke t c hidle => exact .inl ⟨c, rfl, rfl, rfl⟩
  | run t env eff hs => exact .inr ⟨env, eff, hs, rfl, rfl⟩

/-- A step of the thread is the last of its own. -/
theorem own_concat_self (tr : List (Taken ι)) (x : Taken ι) :
    own x.thread (tr ++ [x]) = own x.thread tr ++ [x] := by
  simp [own]

/-- A step of another thread is none of its own. -/
theorem own_concat_of_ne (h : x.thread ≠ t) (tr : List (Taken ι)) :
    own t (tr ++ [x]) = own t tr := by
  simp [own, h]

/-- The recorded steps and the state that a schedule leads to, if every decision in it can be
taken. -/
def Sys.trace (s : Sys ι) : List (ι × Choice) → Option (List (Taken ι) × Sys ι)
  | [] => some ([], s)
  | (t, .call c) :: rest =>
    match s.pc t with
    | .idle =>
      (Sys.trace { s with pc := Function.update s.pc t (.entry c) } rest).map fun (tr, s') =>
        (⟨t, .invoke c, none, s.dev, s.dev⟩ :: tr, s')
    | _ => none
  | (t, .run env) :: rest =>
    match stepThread env s.dev (s.pc t) with
    | some eff =>
      ((s.apply t eff).trace rest).map fun (tr, s') =>
        (⟨t, eff.event, some env, s.dev, eff.dev⟩ :: tr, s')
    | none => none

/-- A schedule describes a recorded run. -/
theorem Sys.run_of_trace {choices : List (ι × Choice)} {s s' : Sys ι} {tr : List (Taken ι)}
    (h : s.trace choices = some (tr, s')) : Lts.Run Traced s tr s' := by
  induction choices generalizing s tr with
  | nil =>
    cases h
    exact .nil
  | cons choice rest ih =>
    obtain ⟨t, c | env⟩ := choice
    · rw [Sys.trace] at h
      split at h
      · obtain ⟨⟨tr', _⟩, hrest, heq⟩ := Option.map_eq_some_iff.mp h
        cases heq
        exact .cons (.invoke t c ‹_›) (ih hrest)
      · cases h
    · rw [Sys.trace] at h
      split at h
      · obtain ⟨⟨tr', _⟩, hrest, heq⟩ := Option.map_eq_some_iff.mp h
        cases heq
        exact .cons (.run t env _ ‹_›) (ih hrest)
      · cases h

/-- A property `P` of the own steps of a call and of the place where its thread stands holds all
along the call, if it holds at the invocation and every step of the thread keeps it, from every
device with a well-formed buffer. -/
theorem Traced.call_invariant {P : List (Taken ι) → Pc → Prop} {s₀ : Sys ι} (h₀ : s₀.Sound)
    {c : Call} (hstart : x.event = .invoke c → x.after = x.before → P [x] (.entry c))
    (hstep : ∀ {xs pc env dev eff}, dev.buffer.WellFormed → pc.Sized → P xs pc →
      stepThread env dev pc = some eff →
      P (xs ++ [⟨x.thread, eff.event, some env, dev, eff.dev⟩]) eff.pc)
    (hwake : ∀ {xs pc} q, P xs pc → P xs (pc.wake q))
    {tr pre mid : List (Taken ι)} (hrun : Lts.Run Traced s₀ tr s) (htr : tr = pre ++ x :: mid)
    (hx : x.event = .invoke c)
    (hmid : ∀ z ∈ mid, z.thread = x.thread → ∀ c', z.event ≠ .invoke c') :
    P (own x.thread (x :: mid)) (s.pc x.thread) := by
  refine hrun.invariant (I := fun tr s => ∀ pre mid, tr = pre ++ x :: mid →
    (∀ z ∈ mid, z.thread = x.thread → ∀ c', z.event ≠ .invoke c') →
    P (own x.thread (x :: mid)) (s.pc x.thread)) ?_ ?_ pre mid htr hmid
  · intro pre mid hnil
    simp at hnil
  · clear htr hmid pre mid
    intro tr s y s' hrun ih hlast pre mid htr hmid
    rcases List.eq_nil_or_concat mid with rfl | ⟨init, last, rfl⟩
    · -- the step is the invocation itself
      obtain ⟨-, hy⟩ := List.append_inj' htr rfl
      obtain rfl : y = x := by simpa using hy
      rcases hlast.cases with ⟨c', hc, hafter, rfl⟩ | ⟨env, eff, hs, hy, -⟩
      · obtain rfl : c = c' := by simpa [hx] using hc
        simpa [own] using hstart hx hafter
      · rw [hy] at hx
        exact absurd hx ((stepThread_event hs).1 c)
    · -- a later step, of this thread or of another
      rw [List.concat_eq_append, ← List.cons_append, ← List.append_assoc] at htr
      obtain ⟨hinit, hy⟩ := List.append_inj' htr rfl
      obtain rfl : y = last := by simpa using hy
      rw [List.concat_eq_append] at hmid ⊢
      have hprev := ih pre init hinit fun z hz => hmid z (List.mem_append_left _ hz)
      have hmem : y ∈ init ++ [y] := List.mem_append_right _ (List.mem_singleton_self y)
      rw [← List.cons_append]
      by_cases hself : y.thread = x.thread
      · rcases hlast.cases with ⟨c', hc, -⟩ | ⟨env, eff, hs, hy, rfl⟩
        · exact absurd hc (hmid y hmem hself c')
        · have hsound := sound_of_run h₀ (run_iff_traced.mpr ⟨tr, rfl, hrun⟩)
          rw [hself] at hs hy
          have hnext := hstep hsound.wellFormed (hsound.sized x.thread) hprev hs
          rw [← hy] at hnext
          rw [hself, Sys.pc_apply_self hs, ← hself, own_concat_self, hself]
          exact hnext
      · rw [own_concat_of_ne hself]
        rcases hlast.cases with ⟨c', -, -, rfl⟩ | ⟨env, eff, -, -, rfl⟩
        · simpa [Function.update_of_ne (Ne.symm hself)] using hprev
        · rw [Sys.pc_apply, Function.update_of_ne (Ne.symm hself)]
          split
          · exact hprev
          · exact hwake _ hprev

/-- What a call invariant says at the return of the call, which is itself a step that leaves the
device alone. -/
theorem Traced.call_returned {P : List (Taken ι) → Pc → Prop} {s₀ : Sys ι} (h₀ : s₀.Sound)
    {c : Call} (hstart : x.event = .invoke c → x.after = x.before → P [x] (.entry c))
    (hstep : ∀ {xs pc env dev eff}, dev.buffer.WellFormed → pc.Sized → P xs pc →
      stepThread env dev pc = some eff →
      P (xs ++ [⟨x.thread, eff.event, some env, dev, eff.dev⟩]) eff.pc)
    (hwake : ∀ {xs pc} q, P xs pc → P xs (pc.wake q))
    {tr pre mid post : List (Taken ι)} (hrun : Lts.Run Traced s₀ tr s) {y : Taken ι}
    (htr : tr = pre ++ x :: mid ++ y :: post) (hx : x.event = .invoke c)
    (hmid : ∀ z ∈ mid, z.thread = x.thread → ∀ c', z.event ≠ .invoke c')
    {r : Reply} (hthread : y.thread = x.thread) (hy : y.event = .ret r) :
    P (own x.thread (x :: mid)) (.ret r) ∧
      own x.thread (x :: mid ++ [y]) = own x.thread (x :: mid) ++ [y] ∧
      y.after = y.before := by
  have hcut : tr = (pre ++ x :: mid ++ [y]) ++ post := by
    rw [htr, List.append_assoc _ [_] post, List.singleton_append]
  obtain ⟨s₂, hret, -⟩ := hrun.split hcut
  obtain ⟨s₁, hcall, hlast⟩ := hret.last
  have hP := Traced.call_invariant h₀ hstart hstep hwake hcall rfl hx hmid
  have hown := own_concat_self (x :: mid) y
  rw [hthread] at hown
  -- the last step is taken at the place of the return
  rcases hlast.cases with ⟨c', hc, -⟩ | ⟨env, eff, hs, hy', -⟩
  · rw [hy] at hc
    cases hc
  · have hreturn : eff.event = .ret r := by
      rw [← hy, hy']
    have hpc := (stepThread_event hs).2 r hreturn
    rw [hpc] at hs
    rw [hthread] at hpc
    rw [hpc] at hP
    refine ⟨hP, hown, ?_⟩
    rw [hy']
    cases hs
    rfl

/-! ## Failed calls -/

/-- The counters that a failing call may bump: those of the calls, of the failures and of the
waits. -/
def Counter.ofAttempts : List Counter :=
  [.readCalls, .writeCalls, .ioctlCalls, .failedOperations, .blockedReads, .blockedWrites]

/-- Every transfer counts its calls. -/
theorem Transfer.calls_mem (rw : Transfer) : rw.calls ∈ Counter.ofAttempts := by
  cases rw <;> simp [Transfer.calls, Counter.ofAttempts]

/-- The devices agree on the stored bytes and the indices, the capacity, the mode, the generation,
and on every counter that does not count attempts. -/
structure Dev.SameState (dev dev' : Dev) : Prop where
  fifo : dev'.buffer.fifo = dev.buffer.fifo
  capacity : dev'.buffer.capacity = dev.buffer.capacity
  readPos : dev'.buffer.readPos = dev.buffer.readPos
  writePos : dev'.buffer.writePos = dev.buffer.writePos
  len : dev'.buffer.len = dev.buffer.len
  mode : dev'.mode = dev.mode
  stateGeneration : dev'.stateGeneration = dev.stateGeneration
  openHandles : dev'.openHandles = dev.openHandles
  shuttingDown : dev'.shuttingDown = dev.shuttingDown
  counters : ∀ c ∉ Counter.ofAttempts, dev'.counters c = dev.counters c

variable {dev dev' : Dev} {env : Env} {pc : Pc} {eff : Effect} {c : Call}

/-- Nothing has changed. -/
theorem Dev.SameState.refl (dev : Dev) : dev.SameState dev :=
  ⟨rfl, rfl, rfl, rfl, rfl, rfl, rfl, rfl, rfl, fun _ _ => rfl⟩

/-- Counting an attempt leaves the state alone. -/
theorem Dev.SameState.inc (h : dev.SameState dev') {counter : Counter}
    (hcounter : counter ∈ Counter.ofAttempts) : dev.SameState (dev'.inc counter) where
  fifo := h.fifo
  capacity := h.capacity
  readPos := h.readPos
  writePos := h.writePos
  len := h.len
  mode := h.mode
  stateGeneration := h.stateGeneration
  openHandles := h.openHandles
  shuttingDown := h.shuttingDown
  counters other hother := by
    have hne : other ≠ counter := fun heq => hother (heq ▸ hcounter)
    exact (Function.update_of_ne hne _ _).trans (h.counters other hother)

/-- A write that has committed nothing leaves the state alone, whatever a failed copy has left in
the free slots. -/
theorem Dev.SameState.of_writeInv (hwf : dev.buffer.WellFormed) {data : List UInt8} {b : Buffer}
    (h : WriteInv dev.buffer data 0 b) : dev.SameState { dev with buffer := b } where
  fifo := by
    rw [show ({ dev with buffer := b } : Dev).buffer = b from rfl, h.fifo_eq, List.take_zero,
      List.append_nil]
  capacity := h.capacity_eq
  readPos := h.readPos_eq
  writePos := by
    have hlen : b.len = dev.buffer.len := h.len_eq
    exact h.wellFormed.writePos_eq.trans
      (by rw [h.readPos_eq, hlen, h.capacity_eq, hwf.writePos_eq])
  len := h.len_eq
  mode := rfl
  stateGeneration := rfl
  openHandles := rfl
  shuttingDown := rfl
  counters _ _ := rfl

/-- The call can still fail from this place, or is about to return an error. -/
def Pc.MayFail : Pc → Prop
  | .idle | .openHandle | .account .. | .wakePeer .. | .wakeRead | .wakeWrite | .resetStats _ => False
  | .ret r => ∃ e, r.value = .error e
  | _ => True

/-- A wakeup does not change whether a call may still fail. -/
theorem Pc.mayFail_wake (q : WaitQueue) (pc : Pc) : (pc.wake q).MayFail ↔ pc.MayFail := by
  unfold Pc.wake
  split <;> rfl

/-- The mutex section of a transfer after which the call can still fail has changed nothing. -/
theorem Transfer.Ends.sameState {rw : Transfer} {uc : UserCopy} {out : Outcome}
    (hwf : dev.buffer.WellFormed) (h : rw.Ends uc dev out dev') (hfail : (rw.after out).MayFail) :
    dev.SameState dev' := by
  have hmoved : ∀ {bytes}, ¬(rw.after (.moved bytes)).MayFail := by
    intro bytes hbytes
    rw [after] at hbytes
    split_ifs at hbytes
    · exact hbytes
    · obtain ⟨e, he⟩ := hbytes
      cases he
  cases rw with
  | read nonblock count =>
    cases h with
    | eof => exact .refl dev
    | again => exact .refl dev
    | wait => exact (Dev.SameState.refl dev).inc (by decide)
    | fault => exact (Dev.SameState.refl dev).inc (by decide)
    -- once bytes have moved the call cannot fail any more
    | moved k faulted => exact absurd hfail hmoved
  | write nonblock data =>
    cases h with
    | down => exact .refl dev
    | again => exact .refl dev
    | wait => exact (Dev.SameState.refl dev).inc (by decide)
    -- the failed copy has written to free slots only
    | fault hup hspace b hinv => exact (Dev.SameState.of_writeInv hwf hinv).inc (by decide)
    | moved hup k faulted => exact absurd hfail hmoved

/-- A control section after which the call can still fail has changed nothing. -/
theorem Control.sameState (ctl : Control) (env : Env) (dev : Dev)
    (hfail : (ctl.step env dev).pc.MayFail) : dev.SameState (ctl.step env dev).dev := by
  cases ctl with
  | setCapacity requested =>
    simp only [Control.step, Dev.setCapacitySection] at hfail ⊢
    -- a resize that is refused leaves the device as it was
    generalize dev.buffer.resize requested.toNat env.alloc = result at hfail
    rcases result with e | buffer
    · exact .refl dev
    · exact absurd hfail id
  | getStats => exact .refl dev
  | getCapacity => exact .refl dev
  | poll => exact .refl dev
  | _ => exact absurd hfail id

/-- A step after which the call can still fail was taken where it could fail already, and has
changed nothing but counters of attempts. -/
theorem stepThread_mayFail (hwf : dev.buffer.WellFormed) (hsized : pc.Sized)
    (hs : stepThread env dev pc = some eff) (hfail : eff.pc.MayFail) :
    pc.MayFail ∧ dev.SameState eff.dev := by
  have hsame := Dev.SameState.refl dev
  -- a step to a successful return
  have hok : ∀ {n : ℕ} {out : Output}, ¬(Pc.ret { value := .ok n, output := out }).MayFail := by
    rintro n out ⟨e, he⟩
    cases he
  cases pc with
  | idle => cases hs
  | entry c =>
    cases hs
    refine ⟨trivial, ?_⟩
    cases c with
    | «open» => exact absurd hfail id
    | release => exact absurd hfail hok
    | transfer rw => exact hsame.inc rw.calls_mem
    | ioctl => exact hsame.inc (by decide)
    | poll => exact hsame
    | exit => exact hsame
  | lock rw =>
    refine ⟨trivial, ?_⟩
    rcases Transfer.lockStep_cases hwf hsized hs with rfl | ⟨out, dev', hends, rfl⟩
    · exact hsame
    · exact hends.sameState hwf hfail
  | wait rw seen phase =>
    refine ⟨trivial, ?_⟩
    rcases Transfer.waitStep_eq_some hs with rfl | ⟨next, rfl⟩ | rfl <;> exact hsame
  | dispatch cmd arg => cases hs; exact ⟨trivial, hsame⟩
  | control ctl => cases hs; exact ⟨trivial, ctl.sameState env dev hfail⟩
  | copyOut out writable => cases hs; exact ⟨trivial, hsame⟩
  | noteFailure e => cases hs; exact ⟨trivial, hsame.inc (by decide)⟩
  | resetStats rest =>
    rcases rest with _ | ⟨counter, rest⟩ <;> cases hs
    · exact absurd hfail hok
    · exact absurd hfail id
  | ret r => cases hs; exact absurd hfail id
  | openHandle => cases hs; exact absurd hfail hok
  | wakePeer => cases hs; exact absurd hfail hok
  | wakeWrite => cases hs; exact absurd hfail hok
  | _ => cases hs; exact absurd hfail id

/-- Failed operations are atomic: whatever the other threads do in between, every step that a
failing call takes itself, from its invocation to the return of the error, leaves the stored bytes,
the indices, the capacity, the mode, the generation, the totals and the counts of clears and
resizes as it found them. -/
theorem failed_call_atomic {capacity : ℕ} {alloc : Alloc} {dev : Dev}
    (hinit : Dev.init capacity alloc = .ok dev) {tr pre mid post : List (Taken ι)} {s : Sys ι}
    (hrun : Lts.Run Traced (Sys.initial ι dev) tr s) {x y : Taken ι}
    (htr : tr = pre ++ x :: mid ++ y :: post) (hx : x.event = .invoke c)
    (hmid : ∀ z ∈ mid, z.thread = x.thread → ∀ c', z.event ≠ .invoke c')
    {r : Reply} (hthread : y.thread = x.thread) (hy : y.event = .ret r)
    {e : Errno} (herror : r.value = .error e) :
    ∀ z ∈ own x.thread (x :: mid ++ [y]), z.before.SameState z.after := by
  obtain ⟨hsame, hown, hquiet⟩ := Traced.call_returned
    (P := fun xs pc => pc.MayFail → ∀ z ∈ xs, z.before.SameState z.after)
    (Sys.initial_sound ι hinit).1
    -- at the invocation, which changes nothing
    (fun _ hafter _ z hz => by
      obtain rfl := List.mem_singleton.mp hz
      rw [hafter]
      exact .refl _)
    (fun hwf hsized hprev hs hfail z hz => by
      obtain ⟨hmay, hstep⟩ := stepThread_mayFail hwf hsized hs hfail
      rcases List.mem_append.mp hz with hz | hz
      · exact hprev hmay z hz
      · obtain rfl := List.mem_singleton.mp hz
        exact hstep)
    (fun q hprev hfail => hprev ((Pc.mayFail_wake q _).mp hfail))
    hrun htr hx hmid hthread hy
  intro z hz
  rw [hown] at hz
  rcases List.mem_append.mp hz with hz | hz
  · exact hsame ⟨e, herror⟩ z hz
  · obtain rfl := List.mem_singleton.mp hz
    rw [hquiet]
    exact .refl _

/-- A nonblocking read finds the device empty; before it returns, another thread writes. -/
def refusal : List (Bool × Choice) :=
  (false, .call (.transfer (.read true 2))) :: List.replicate 2 (false, .run .quiet) ++
    (true, .call (.transfer (.write true [1, 2, 3]))) :: List.replicate 5 (true, .run .quiet) ++
    List.replicate 2 (false, .run .quiet)

/-- The recorded steps of the refusal, and the state it ends in. -/
def refusalRun : List (Taken Bool) × Sys Bool :=
  ((Sys.initial Bool .small).trace refusal).getD ([], .initial Bool .small)

/-- The run of the example. -/
theorem run_refusal : Lts.Run Traced (Sys.initial Bool .small) refusalRun.1 refusalRun.2 :=
  Sys.run_of_trace (show (Sys.initial Bool .small).trace refusal =
    some (refusalRun.1, refusalRun.2) from rfl)

/-- The invocation and the return of the read that is refused. -/
theorem refusal_split : ∃ x mid y, refusalRun.1 = x :: mid ++ [y] ∧ x.thread = false ∧
    x.event = .invoke (.transfer (.read true 2)) ∧ y.thread = x.thread ∧
    y.event = .ret { value := .error .EAGAIN } ∧
    ∀ z ∈ mid, z.thread = x.thread → ∀ c', z.event ≠ .invoke c' := by
  let x : Taken Bool := ⟨false, .invoke (.transfer (.read true 2)), none, .small, .small⟩
  let y : Taken Bool := ⟨false, .ret { value := .error .EAGAIN }, some .quiet,
    refusalRun.2.dev, refusalRun.2.dev⟩
  have hfirst := List.cons_head?_tail (show x ∈ refusalRun.1.head? from rfl)
  have hlast := List.dropLast_append_getLast? _ (show y ∈ refusalRun.1.tail.getLast? from rfl)
  rw [← hlast] at hfirst
  have hquiet : refusalRun.1.tail.dropLast.all (fun z => z.thread || !z.event.isInvoke) = true :=
    rfl
  refine ⟨x, _, y, hfirst.symm, rfl, rfl, rfl, rfl, fun z hz hthread c' hevent => ?_⟩
  have := List.all_eq_true.mp hquiet z hz
  rw [hthread, hevent] at this
  cases this

/-- The read that is refused leaves the bytes of the other thread, and everything else, alone. -/
theorem failed_call_atomic_refusal :
    (∃ y ∈ refusalRun.1, y.thread = false ∧ y.event = .ret { value := .error .EAGAIN }) ∧
      ∀ z ∈ own false refusalRun.1, z.before.SameState z.after := by
  obtain ⟨x, mid, y, hsplit, hx, hinvoke, hthread, hret, hmid⟩ := refusal_split
  have hatomic := failed_call_atomic (show Dev.init 256 .zeroed = .ok .small from rfl) run_refusal
    (show refusalRun.1 = [] ++ x :: mid ++ [y] from hsplit) hinvoke hmid hthread hret rfl
  rw [← hsplit, hx] at hatomic
  exact ⟨⟨y, by simp [hsplit], hthread.trans hx, hret⟩, hatomic⟩

/-! ## Counted failures -/

/-- What the steps `xs` together have added to `failed_operations`. -/
def failuresBy (xs : List (Taken ι)) : BitVec 64 :=
  (xs.map fun x => x.after.counters .failedOperations - x.before.counters .failedOperations).sum

omit [DecidableEq ι] in
/-- The failures of two parts of a run. -/
@[simp] theorem failuresBy_append (xs ys : List (Taken ι)) :
    failuresBy (xs ++ ys) = failuresBy xs + failuresBy ys := by
  simp [failuresBy]

omit [DecidableEq ι] in
/-- The failures of one step. -/
@[simp] theorem failuresBy_singleton (x : Taken ι) : failuresBy [x] =
    x.after.counters .failedOperations - x.before.counters .failedOperations := by
  simp [failuresBy]

/-- A user copy in the copy loop of the transfer leaves bytes uncopied. -/
def Transfer.Faults (uc : UserCopy) (dev : Dev) : Transfer → Prop
  | .read _ count => dev.ReadFaults count uc
  | .write _ data =>
    dev.WriteFaults data (min data.length (dev.buffer.capacity - dev.buffer.len)) uc

/-- The step is the mutex section of the transfer `c`, and a user copy failed in it after some
bytes had gone through. -/
def Taken.CutShort (c : Call) (x : Taken ι) : Prop :=
  ∃ rw env bytes, c = .transfer rw ∧ x.env = some env ∧
    x.event = .critical x.before (rw.moved bytes) ∧ bytes ≠ [] ∧ rw.Faults env.copy x.before

/-- What the mutex section of a transfer that ends with `out` adds to `failed_operations`. -/
def Transfer.Notes (rw : Transfer) (uc : UserCopy) (dev dev' : Dev) : Outcome → Prop
  | .fault => dev'.counters .failedOperations = dev.counters .failedOperations + 1
  | .moved bytes => bytes ≠ [] ∧
      (rw.Faults uc dev →
        dev'.counters .failedOperations = dev.counters .failedOperations + 1) ∧
      (¬rw.Faults uc dev → dev'.counters .failedOperations = dev.counters .failedOperations)
  | _ => dev'.counters .failedOperations = dev.counters .failedOperations

/-- Other counters leave the count of failures alone. -/
theorem Dev.failedOperations_inc (dev : Dev) {counter : Counter}
    (h : counter ≠ .failedOperations) :
    (dev.inc counter).counters .failedOperations = dev.counters .failedOperations :=
  Function.update_of_ne h.symm _ _

/-- A failure is counted once. -/
theorem Dev.failedOperations_noteFailure (dev : Dev) :
    dev.noteFailure.counters .failedOperations = dev.counters .failedOperations + 1 := by
  simp [Dev.noteFailure, Dev.inc, Dev.add]

/-- A copy loop notes exactly a copy that failed. -/
theorem Dev.failedOperations_noteIf {short faults : Prop} [Decidable short]
    (h : short ↔ faults) (dev : Dev) :
    (faults → (Dev.noteIf (decide short) dev).counters .failedOperations =
      dev.counters .failedOperations + 1) ∧
    (¬faults → (Dev.noteIf (decide short) dev).counters .failedOperations =
      dev.counters .failedOperations) := by
  constructor
  · intro hfaults
    rw [decide_eq_true (h.mpr hfaults)]
    exact dev.failedOperations_noteFailure
  · intro hno
    rw [decide_eq_false (hno ∘ h.mp)]
    rfl

/-- The section of a transfer notes a failure if one of its user copies fails, and otherwise
leaves it to its caller. -/
theorem Transfer.critical_notes {rw : Transfer} {uc : UserCopy} {out : Outcome}
    (hwf : dev.buffer.WellFormed) (hsize : 0 < rw.size)
    (hcrit : rw.critical uc dev = some (out, dev')) : rw.Notes uc dev dev' out := by
  obtain ⟨out', dev'', hcrit', hends⟩ := critical_spec hwf hsize uc
  obtain ⟨rfl, rfl⟩ : out = out' ∧ dev' = dev'' := by
    simpa [hcrit] using hcrit'
  cases rw with
  | read nonblock count =>
    change 0 < count at hsize
    cases hends with
    | eof => rfl
    | again => rfl
    | wait => exact dev.failedOperations_inc (by decide)
    | fault => exact dev.failedOperations_noteFailure
    | moved k faulted hpos hle =>
      -- the copy loop has run, and it has noted exactly a copy that failed
      have hstored : 0 < dev.buffer.len := by omega
      obtain ⟨r, hrun, n, hn, hshort, rfl⟩ := Dev.readCopy_spec hwf hsize hstored uc
      have hsection := (Dev.readSection_of_stored hstored nonblock).trans hrun
      rw [critical, hsection, Option.some.injEq, Prod.mk.injEq] at hcrit
      obtain ⟨-, hdev⟩ := hcrit
      have hlen : (dev.buffer.fifo.take k).length = k := by
        rw [List.length_take, hwf.length_fifo]; omega
      rw [← hdev]
      exact ⟨List.ne_nil_of_length_pos (by omega), Dev.failedOperations_noteIf hshort _⟩
  | write nonblock data =>
    change 0 < data.length at hsize
    cases hends with
    | down => rfl
    | again => rfl
    | wait => exact dev.failedOperations_inc (by decide)
    | fault hup hspace b => exact Dev.failedOperations_noteFailure { dev with buffer := b }
    | moved hup k faulted b hinv hpos hle =>
      have hspace : dev.buffer.len < dev.buffer.capacity := by omega
      obtain ⟨r, hrun, n, hn, hshort, c, -, rfl⟩ := Dev.writeCopy_spec hwf hsize hspace uc
      have hsection := (Dev.writeSection_of_space hwf hup hspace nonblock).trans hrun
      rw [critical, hsection, Option.some.injEq, Prod.mk.injEq] at hcrit
      obtain ⟨-, hdev⟩ := hcrit
      have hlen : (data.take k).length = k := by
        rw [List.length_take]; omega
      rw [← hdev]
      exact ⟨List.ne_nil_of_length_pos (by omega), Dev.failedOperations_noteIf hshort _⟩

/-- The steps have noted no failure, and no copy loop was cut short. -/
def Clean (c : Call) (xs : List (Taken ι)) : Prop :=
  failuresBy xs = 0 ∧ ∀ x ∈ xs, ¬x.CutShort c

/-- The steps have noted one failure, if the call fails or its copy loop was cut short, and
otherwise none. -/
def Settled (c : Call) (fails : Prop) (xs : List (Taken ι)) : Prop :=
  ((fails ∨ ∃ x ∈ xs, x.CutShort c) → failuresBy xs = 1) ∧
    (¬(fails ∨ ∃ x ∈ xs, x.CutShort c) → failuresBy xs = 0)

section

variable {xs : List (Taken ι)} {fails : Prop}

omit [DecidableEq ι]

/-- A step that is no mutex section cuts no copy loop short. -/
theorem Taken.not_cutShort (h : ∀ found moved, x.event ≠ .critical found moved) :
    ¬x.CutShort c := by
  rintro ⟨rw, env, bytes, -, -, hevent, -⟩
  exact h _ _ hevent

/-- A step that counts no failure and is not cut short keeps the run clean. -/
theorem Clean.concat (h : Clean c xs)
    (hquiet : x.after.counters .failedOperations = x.before.counters .failedOperations)
    (hcut : ¬x.CutShort c) : Clean c (xs ++ [x]) := by
  refine ⟨?_, fun z hz => ?_⟩
  · rw [failuresBy_append, h.1, failuresBy_singleton, hquiet, sub_self, add_zero]
  · rcases List.mem_append.mp hz with hz | hz
    · exact h.2 z hz
    · obtain rfl := List.mem_singleton.mp hz
      exact hcut

/-- A clean run is settled for a call that does not fail. -/
theorem Clean.settled (h : Clean c xs) (hfails : ¬fails) : Settled c fails xs := by
  have hnone : ¬(fails ∨ ∃ x ∈ xs, x.CutShort c) := by
    rintro (hf | ⟨z, hz, hcut⟩)
    · exact hfails hf
    · exact h.2 z hz hcut
  exact ⟨fun hsome => absurd hsome hnone, fun _ => h.1⟩

/-- The step that notes the failure. -/
theorem Clean.note (h : Clean c xs)
    (hnote : x.after.counters .failedOperations = x.before.counters .failedOperations + 1)
    (hwhy : fails ∨ x.CutShort c) : Settled c fails (xs ++ [x]) := by
  have hsome : fails ∨ ∃ z ∈ xs ++ [x], z.CutShort c :=
    hwhy.imp_right fun hcut => ⟨x, by simp, hcut⟩
  refine ⟨fun _ => ?_, fun hnone => absurd hsome hnone⟩
  rw [failuresBy_append, h.1, failuresBy_singleton, hnote, add_sub_cancel_left, zero_add]

/-- A step that counts no failure and is not cut short keeps the run settled. -/
theorem Settled.concat (h : Settled c fails xs)
    (hquiet : x.after.counters .failedOperations = x.before.counters .failedOperations)
    (hcut : ¬x.CutShort c) : Settled c fails (xs ++ [x]) := by
  have hsame : failuresBy (xs ++ [x]) = failuresBy xs := by
    rw [failuresBy_append, failuresBy_singleton, hquiet, sub_self, add_zero]
  have hiff : (∃ z ∈ xs ++ [x], z.CutShort c) ↔ ∃ z ∈ xs, z.CutShort c := by
    simp [List.mem_append, or_and_right, exists_or, hcut]
  rw [Settled, hsame, hiff]
  exact h

end

/-- The call `c`, whose own steps so far are `xs`, can stand at this place. -/
def Pc.Noted (c : Call) (xs : List (Taken ι)) : Pc → Prop
  | .idle => True
  | .entry c' => c' = c ∧ Clean c xs
  | .lock rw | .wait rw _ _ => c = .transfer rw ∧ Clean c xs
  | .account .. | .wakePeer .. => Settled c False xs
  | .dispatch cmd arg => c = .ioctl cmd arg ∧ Clean c xs
  | .control _ => (∀ rw, c ≠ .transfer rw) ∧ Clean c xs
  | .resetStats _ => ∃ arg, c = .ioctl iocResetStats arg
  | .ret r => (∀ arg, c ≠ .ioctl iocResetStats arg) → Settled c (∃ e, r.value = .error e) xs
  | _ => Clean c xs

omit [DecidableEq ι] in
/-- A wakeup does not change what has been noted. -/
theorem Pc.noted_wake (q : WaitQueue) (pc : Pc) (xs : List (Taken ι)) :
    (pc.wake q).Noted c xs ↔ pc.Noted c xs := by
  unfold Pc.wake
  split <;> rfl

variable {xs : List (Taken ι)} {fails : Prop}

omit [DecidableEq ι] in
/-- Nothing is noted when an `ioctl` starts. -/
theorem noted_dispatch {cmd : BitVec 32} {arg : UserArg} (h : Clean (.ioctl cmd arg) xs) :
    (dispatch cmd arg).Noted (.ioctl cmd arg) xs := by
  have hno : ∀ rw, Call.ioctl cmd arg ≠ .transfer rw := by simp
  rcases dispatch_cases cmd arg with ⟨e, heq⟩ | ⟨-, heq⟩ | ⟨ctl, -, heq⟩ | ⟨rfl, heq⟩
  · rw [heq]
    exact h
  · rw [heq]
    exact ⟨hno, h⟩
  · rw [heq]
    exact ⟨hno, h⟩
  · rw [heq]
    exact ⟨arg, rfl⟩

omit [DecidableEq ι] in
/-- The lock of a transfer: a signal, or the mutex section. -/
theorem Transfer.noted_lockStep {rw : Transfer} (hwf : dev.buffer.WellFormed)
    (hsize : 0 < rw.size) (hs : rw.lockStep env dev = some eff) (h : Clean (.transfer rw) xs)
    (t : ι) :
    eff.pc.Noted (.transfer rw) (xs ++ [⟨t, eff.event, some env, dev, eff.dev⟩]) := by
  rcases lockStep_eq_some hs with rfl | ⟨out, dev', hcrit, rfl⟩
  · exact h.concat rfl (Taken.not_cutShort (by simp))
  have hnotes := critical_notes hwf hsize hcrit
  -- a section that moved nothing was not cut short
  have hnone : rw.movedBy out = .none →
      ¬Taken.CutShort (.transfer rw)
        (⟨t, .critical dev (rw.movedBy out), some env, dev, dev'⟩ : Taken ι) := by
    rintro hmoved ⟨rw', env', bytes, -, -, hevent, -⟩
    rw [hmoved] at hevent
    cases rw' <;> cases hevent
  cases out with
  | wait seen => exact ⟨rfl, h.concat hnotes (hnone rfl)⟩
  | fail e => exact h.concat hnotes (hnone rfl)
  | fault => exact fun _ => h.note hnotes (.inl ⟨.EFAULT, rfl⟩)
  | eof =>
    have hnext : Clean (.transfer rw) (xs ++ [⟨t, .critical dev .none, some env, dev, dev'⟩]) :=
      h.concat hnotes (hnone rfl)
    exact fun _ => hnext.settled (by simp)
  | moved bytes =>
    obtain ⟨hne, hfaults, hno⟩ := hnotes
    have hpc : rw.after (.moved bytes) = .account rw bytes :=
      if_pos (List.length_pos_of_ne_nil hne)
    simp only [hpc]
    by_cases hfault : rw.Faults env.copy dev
    · exact h.note (hfaults hfault) (.inr ⟨rw, env, bytes, rfl, rfl, rfl, hne, hfault⟩)
    · refine (h.concat (hno hfault) ?_).settled id
      rintro ⟨rw', env', bytes', hrw, henv, -, -, hfault'⟩
      cases hrw
      cases henv
      exact hfault hfault'

omit [DecidableEq ι] in
/-- A control call notes its failure in the step in which it fails. -/
theorem Control.noted_step (ctl : Control) (env : Env) (dev : Dev)
    (hno : ∀ rw, c ≠ .transfer rw) (h : Clean c xs) (t : ι) :
    (ctl.step env dev).pc.Noted c
      (xs ++ [⟨t, (ctl.step env dev).event, some env, dev, (ctl.step env dev).dev⟩]) := by
  -- only a transfer can be cut short
  have hcut : ∀ {x : Taken ι}, ¬x.CutShort c := by
    rintro x ⟨rw, env, bytes, hc, -⟩
    exact hno rw hc
  cases ctl with
  | setCapacity requested =>
    simp only [Control.step, Dev.setCapacitySection]
    generalize dev.buffer.resize requested.toNat env.alloc = result
    rcases result with e | buffer
    · exact h.concat rfl hcut
    · exact h.concat (Dev.failedOperations_inc { dev with buffer }
        (show Counter.resizes ≠ .failedOperations by decide)) hcut
  | clear =>
    exact h.concat (Dev.failedOperations_inc { dev with buffer := dev.buffer.clear }
      (show Counter.clears ≠ .failedOperations by decide)) hcut
  | poll => exact fun _ => (h.concat rfl hcut).settled (by simp)
  | _ => exact h.concat rfl hcut

omit [DecidableEq ι] in
/-- Every step of the thread of a call keeps the place and the count of failures in agreement. -/
theorem stepThread_noted (hwf : dev.buffer.WellFormed) (hsized : pc.Sized)
    (hs : stepThread env dev pc = some eff) (h : pc.Noted c xs) (t : ι) :
    eff.pc.Noted c (xs ++ [⟨t, eff.event, some env, dev, eff.dev⟩]) := by
  -- a step that is no mutex section
  have hcut : ∀ {dev'}, ¬Taken.CutShort c (⟨t, .tau, some env, dev, dev'⟩ : Taken ι) :=
    Taken.not_cutShort (by simp)
  cases pc with
  | idle => cases hs
  | entry c' =>
    cases hs
    obtain ⟨rfl, hclean⟩ := h
    cases c' with
    | «open» => exact hclean.concat (Dev.failedOperations_inc _ (by decide)) hcut
    | release => exact fun _ => (hclean.concat rfl hcut).settled (by simp)
    | transfer rw =>
      have hcalls : rw.calls ≠ .failedOperations := by cases rw <;> simp [Transfer.calls]
      have hnext := hclean.concat (Dev.failedOperations_inc dev hcalls) hcut
      simp only [Call.enter]
      split_ifs with hzero
      · exact fun _ => hnext.settled (by simp)
      · exact ⟨rfl, hnext⟩
    | ioctl cmd arg =>
      exact ⟨rfl, hclean.concat (Dev.failedOperations_inc _ (by decide)) hcut⟩
    | poll => exact ⟨by simp, hclean.concat rfl hcut⟩
    | exit => exact ⟨by simp, hclean.concat rfl hcut⟩
  | openHandle => cases hs; exact fun _ => (Clean.concat h rfl hcut).settled (by simp)
  | lock rw =>
    obtain ⟨rfl, hclean⟩ := h
    exact Transfer.noted_lockStep hwf hsized hs hclean t
  | wait rw seen phase =>
    obtain ⟨rfl, hclean⟩ := h
    rcases Transfer.waitStep_eq_some hs with rfl | ⟨next, rfl⟩ | rfl
    · exact ⟨rfl, hclean.concat rfl hcut⟩
    · exact ⟨rfl, hclean.concat rfl hcut⟩
    · exact hclean.concat rfl (Taken.not_cutShort (by simp))
  | account rw bytes =>
    cases hs
    -- after the section only the totals of bytes are touched
    have htotal : rw.total ≠ .failedOperations := by cases rw <;> simp [Transfer.total]
    exact Settled.concat h (Function.update_of_ne htotal.symm _ _) hcut
  | wakePeer rw bytes =>
    cases hs
    have hsame : (∃ e, (Except.ok bytes.length : Except Errno ℕ) = .error e) = False := by simp
    intro _
    simp only [hsame]
    exact Settled.concat h rfl hcut
  | dispatch cmd arg =>
    cases hs
    obtain ⟨rfl, hclean⟩ := h
    exact noted_dispatch (hclean.concat rfl hcut)
  | control ctl => cases hs; exact ctl.noted_step env dev h.1 h.2 t
  | wakeRead => cases hs; exact Clean.concat h rfl hcut
  | wakeWrite => cases hs; exact fun _ => (Clean.concat h rfl hcut).settled (by simp)
  | copyOut out writable =>
    cases hs
    dsimp only
    split_ifs
    · exact fun _ => (Clean.concat h rfl hcut).settled (by simp)
    · exact Clean.concat h rfl hcut
  | resetStats rest =>
    obtain ⟨arg, rfl⟩ := h
    rcases rest with _ | ⟨counter, rest⟩ <;> cases hs
    -- the command that zeroes the counter is left out
    · exact fun hreset => absurd rfl (hreset arg)
    · exact ⟨arg, rfl⟩
  | noteFailure e =>
    cases hs
    -- the one place where a failure of the call itself is counted
    exact fun _ => Clean.note h dev.failedOperations_noteFailure (.inl ⟨e, rfl⟩)
  | ret r => cases hs; trivial

/-- `failed_operations` counts failures exactly: the steps that a call takes itself, `RESET_STATS`
apart, add one to it if the call returns an error, or if a user copy stopped it after some bytes
had gone through, and otherwise leave it alone. -/
theorem failures_counted {capacity : ℕ} {alloc : Alloc} {dev : Dev}
    (hinit : Dev.init capacity alloc = .ok dev) {tr pre mid post : List (Taken ι)} {s : Sys ι}
    (hrun : Lts.Run Traced (Sys.initial ι dev) tr s) {x y : Taken ι}
    (htr : tr = pre ++ x :: mid ++ y :: post) (hx : x.event = .invoke c)
    (hmid : ∀ z ∈ mid, z.thread = x.thread → ∀ c', z.event ≠ .invoke c')
    {r : Reply} (hthread : y.thread = x.thread) (hy : y.event = .ret r)
    (hreset : ∀ arg, c ≠ .ioctl iocResetStats arg) :
    Settled c (∃ e, r.value = .error e) (own x.thread (x :: mid ++ [y])) := by
  obtain ⟨hnoted, hown, hquiet⟩ := Traced.call_returned (P := fun xs pc => pc.Noted c xs)
    (Sys.initial_sound ι hinit).1
    -- at the invocation, which counts nothing
    (fun hinvoke hafter => by
      refine ⟨rfl, ?_, fun z hz => ?_⟩
      · rw [failuresBy_singleton, hafter, sub_self]
      · obtain rfl := List.mem_singleton.mp hz
        exact Taken.not_cutShort (by simp [hinvoke]))
    (fun hwf hsized hprev hs => stepThread_noted hwf hsized hs hprev x.thread)
    (fun q hprev => (Pc.noted_wake q _ _).mpr hprev)
    hrun htr hx hmid hthread hy
  rw [hown]
  exact (hnoted hreset).concat (by rw [hquiet]) (Taken.not_cutShort (by simp [hy]))

/-- The read that is refused counts one failure. -/
theorem failures_counted_refusal : failuresBy (own false refusalRun.1) = 1 := by
  obtain ⟨x, mid, y, hsplit, hx, hinvoke, hthread, hret, hmid⟩ := refusal_split
  have hsettled := failures_counted (show Dev.init 256 .zeroed = .ok .small from rfl) run_refusal
    (show refusalRun.1 = [] ++ x :: mid ++ [y] from hsplit) hinvoke hmid hthread hret (by simp)
  rw [← hsplit, hx] at hsettled
  exact hsettled.1 (.inl ⟨.EAGAIN, rfl⟩)

end RingbufChar
