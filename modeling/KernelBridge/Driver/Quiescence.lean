import KernelBridge.Driver.Sequential
import KernelBridge.Driver.Wakeups
import Mathlib.Algebra.BigOperators.Group.Finset.Basic
import Mathlib.Algebra.Order.BigOperators.Group.Finset

/-!
# Calls come to an end

What happens to the calls that are in the driver if no new ones are made and no signal arrives. A
thread that waits can be woken and sent back to sleep many times, but each time another thread has
taken a step towards its return: `Pc.budget` counts what a call can still do to others, and between
two such steps each thread can only do so much (`Pc.rank`).

So the calls settle (`calls_settle`), in a number of steps that the number of threads bounds. When
they have, the threads that are not outside the driver are all readers asleep on an empty buffer or
all writers asleep on a full one, and there are none if the device is shutting down
(`settled_idle_or_asleep`).
-/

namespace RingbufChar

open Buffer Lts

variable {rw : Transfer} {uc : UserCopy} {env : Env} {dev dev' : Dev} {out : Outcome}
  {seen : BitVec 64} {pc : Pc} {eff : Effect}

/-! ## Measures of a thread -/

/-- What a call can still do to the others: its mutex section, and the wake-ups after it. -/
def Pc.budget : Pc → ℕ
  | .entry _ | .dispatch .. | .control _ => 3
  | .lock _ | .wait .. | .wakeRead => 2
  | .account .. | .wakePeer .. | .wakeWrite => 1
  | _ => 0

/-- How far a waiting thread is from falling asleep, or from the lock if its condition is true. -/
def WaitPhase.rank (condition : Bool) : WaitPhase → ℕ
  | .enter => if condition then 7 else 4
  | .enqueue => if condition then 8 else 3
  | .check _ woken => if condition then 7 else if woken then 5 else 2
  | .park woken => if condition then 9 else if woken then 4 else 1
  | .parked woken => if woken then (if condition then 9 else 4) else 0

/-- How many steps a thread can take before it does something to the others, at most. -/
def Pc.rank (dev : Dev) : Pc → ℕ
  | .wait rw seen phase => phase.rank (rw.condition dev seen)
  | .lock _ => 6
  | .dispatch .. | .account .. | .noteFailure _ | .openHandle => 2
  | .entry _ | .copyOut .. => 3
  | .control _ | .wakePeer .. | .ret _ => 1
  | .resetStats rest => rest.length + 2
  | _ => 0

/-- The counters that `RESET_STATS` has still to zero are among all of them. -/
def Pc.Bounded : Pc → Prop
  | .resetStats rest => rest.length ≤ Counter.all.length
  | _ => True

/-- The rank of a wait is at most nine. -/
theorem WaitPhase.rank_le (condition : Bool) (phase : WaitPhase) : phase.rank condition ≤ 9 := by
  cases phase <;> simp only [rank] <;> split_ifs <;> omega

/-- The rank of a call is at most thirteen. -/
theorem Pc.Bounded.rank_le (h : pc.Bounded) (dev : Dev) : pc.rank dev ≤ 13 := by
  cases pc with
  | wait rw seen phase => exact (phase.rank_le _).trans (by omega)
  | resetStats rest =>
    have hrest : rest.length ≤ 11 := h
    simp only [rank]
    omega
  | _ => simp [rank]

/-- A wakeup does not change the budget of a call. -/
@[simp] theorem Pc.budget_wake (q : WaitQueue) (pc : Pc) : (pc.wake q).budget = pc.budget := by
  unfold Pc.wake
  split <;> rfl

/-- Whatever happens to the device, the rank of a thread rises by little. -/
theorem Pc.rank_le_add (pc : Pc) (dev dev' : Dev) : pc.rank dev' ≤ pc.rank dev + 9 := by
  cases pc with
  | wait rw seen phase => exact (phase.rank_le _).trans (Nat.le_add_left _ _)
  | _ => simp [rank]

/-- A wakeup raises the rank by nine at the most. -/
theorem Pc.rank_wake_le (q : WaitQueue) (pc : Pc) (dev dev' : Dev) :
    (pc.wake q).rank dev' ≤ pc.rank dev + 9 := by
  cases pc with
  | wait rw seen phase =>
    obtain ⟨phase', heq⟩ : ∃ phase', (Pc.wait rw seen phase).wake q = .wait rw seen phase' := by
      unfold wake
      split
      next heq => cases heq; exact ⟨_, rfl⟩
      next heq => cases heq; exact ⟨_, rfl⟩
      next heq => cases heq; exact ⟨_, rfl⟩
      next => exact ⟨_, rfl⟩
    rw [heq]
    exact (phase'.rank_le _).trans (Nat.le_add_left _ _)
  | _ => simp [rank, wake]

/-! ## Steps -/

/-- A thread goes to wait because its condition is false. -/
theorem Transfer.Ends.condition_of_wait (h : rw.Ends uc dev (.wait seen) dev') :
    rw.condition dev' seen = false := by
  cases rw with
  | read nonblock count =>
    cases h with
    | wait hup hempty hnb =>
      simp [Transfer.condition, Dev.readCondition, Dev.inc, Dev.add, hup, hempty]
  | write nonblock data =>
    cases h with
    | wait hup hfull hnb =>
      simp [Transfer.condition, Dev.writeCondition, Dev.inc, Dev.add, hup, hfull]

/-- A transfer that goes to wait leaves the conditions as they are. -/
theorem Transfer.Ends.condition_congr_of_wait (h : rw.Ends uc dev (.wait seen) dev')
    (rw' : Transfer) (seen' : BitVec 64) : rw'.condition dev' seen' = rw'.condition dev seen' := by
  cases rw with
  | read nonblock count =>
    cases h
    exact rw'.condition_congr seen' rfl rfl rfl rfl
  | write nonblock data =>
    cases h
    exact rw'.condition_congr seen' rfl rfl rfl rfl

/-- What follows a transfer is in bounds. -/
theorem Transfer.bounded_after (rw : Transfer) (out : Outcome) : (rw.after out).Bounded := by
  cases out with
  | moved bytes =>
    rw [Transfer.after]
    split <;> trivial
  | _ => trivial

/-- The start of an `ioctl` is in bounds. -/
theorem bounded_dispatch (cmd : BitVec 32) (arg : UserArg) : (dispatch cmd arg).Bounded := by
  rcases dispatch_cases cmd arg with ⟨e, h⟩ | ⟨-, h⟩ | ⟨ctl, -, h⟩ | ⟨-, h⟩ <;> rw [h]
  · trivial
  · trivial
  · trivial
  · exact le_rfl

/-- A step keeps a call in bounds. -/
theorem stepThread_bounded (hpc : pc.Bounded) (hs : stepThread env dev pc = some eff) :
    eff.pc.Bounded := by
  cases pc with
  | idle => cases hs
  | entry c =>
    cases hs
    cases c with
    | transfer rw =>
      simp only [Call.enter]
      split_ifs <;> trivial
    | _ => trivial
  | lock rw =>
    rcases Transfer.lockStep_eq_some hs with rfl | ⟨out, dev', -, rfl⟩
    · trivial
    · exact rw.bounded_after out
  | wait rw seen phase =>
    rcases Transfer.waitStep_eq_some hs with rfl | ⟨next, rfl⟩ | rfl <;> trivial
  | dispatch cmd arg => cases hs; exact bounded_dispatch cmd arg
  | control ctl =>
    cases hs
    cases ctl with
    | setCapacity requested =>
      simp only [Control.step]
      split <;> trivial
    | _ => trivial
  | copyOut out writable =>
    cases hs
    cases writable <;> trivial
  | resetStats rest =>
    cases rest with
    | nil => cases hs; trivial
    | cons c rest =>
      cases hs
      exact (Nat.le_succ _).trans (show rest.length + 1 ≤ Counter.all.length from hpc)
  | _ => cases hs; trivial

/-- A step of a waiting thread without a signal. -/
theorem waitStep_rank (hsignal : env.signal = false) {phase : WaitPhase}
    (hs : rw.waitStep seen env dev phase = some eff) :
    (eff = { dev, pc := .noteFailure .ERESTARTSYS, event := .interrupted }) ∨
      eff.dev = dev ∧ eff.wake = none ∧ eff.pc.budget = 2 ∧
        eff.pc.rank dev < phase.rank (rw.condition dev seen) := by
  cases phase with
  | enter =>
    cases hs
    refine .inr ⟨rfl, rfl, ?_⟩
    cases hcond : rw.condition dev seen <;> simp [Pc.budget, Pc.rank, WaitPhase.rank, hcond]
  | enqueue =>
    cases hs
    refine .inr ⟨rfl, rfl, rfl, ?_⟩
    cases hcond : rw.condition dev seen <;> simp [Pc.rank, WaitPhase.rank, hcond]
  | check pending woken =>
    simp only [Transfer.waitStep] at hs
    split_ifs at hs with hcond hpending
    · cases hs
      exact .inr ⟨rfl, rfl, rfl, by simp [Pc.rank, WaitPhase.rank, hcond]⟩
    · exact .inl (Option.some.inj hs).symm
    · cases hs
      refine .inr ⟨rfl, rfl, rfl, ?_⟩
      cases woken <;> simp [Pc.rank, WaitPhase.rank, hcond]
  | park woken =>
    cases hs
    refine .inr ⟨rfl, rfl, ?_⟩
    cases hcond : rw.condition dev seen <;> cases woken <;>
      simp [Pc.budget, Pc.rank, WaitPhase.rank, hcond]
  | parked woken =>
    simp only [Transfer.waitStep, hsignal, Bool.false_eq_true, or_false] at hs
    split_ifs at hs with hwoken
    cases hs
    refine .inr ⟨rfl, rfl, rfl, ?_⟩
    cases hcond : rw.condition dev seen <;> simp [Pc.rank, WaitPhase.rank, hcond, hwoken]

/-- What a step without a signal does to the measures: it uses up some of the budget of the call, or
it makes no difference to the others and brings its thread closer to doing so. -/
theorem stepThread_rank (hwf : dev.buffer.WellFormed) (hsized : pc.Sized)
    (hsignal : env.signal = false) (hs : stepThread env dev pc = some eff) :
    eff.pc.budget < pc.budget ∨
      eff.pc.budget = pc.budget ∧ eff.wake = none ∧
        (∀ (rw : Transfer) seen, rw.condition eff.dev seen = rw.condition dev seen) ∧
        eff.pc.rank eff.dev < pc.rank dev := by
  -- a step of a call within the driver that changes nothing but counters
  have hcounters : ∀ {dev' : Dev}, dev'.shuttingDown = dev.shuttingDown →
      dev'.stateGeneration = dev.stateGeneration → dev'.buffer = dev.buffer →
      ∀ (rw : Transfer) seen, rw.condition dev' seen = rw.condition dev seen :=
    fun hdown hgen hbuffer rw seen =>
      rw.condition_congr seen hdown hgen (by rw [hbuffer]) (by rw [hbuffer])
  cases pc with
  | idle => cases hs
  | entry c =>
    cases hs
    cases c with
    | transfer rw =>
      simp only [Call.enter]
      split_ifs <;> exact .inl (by simp [Pc.budget])
    | ioctl | poll | exit =>
      exact .inr ⟨rfl, rfl, hcounters rfl rfl rfl, by simp [Call.enter, Pc.rank]⟩
    | _ => exact .inl (by simp [Call.enter, Pc.budget])
  | lock rw =>
    rcases Transfer.lockStep_cases hwf hsized hs with rfl | ⟨out, dev', hends, rfl⟩
    · exact .inl (by simp [Pc.budget])
    · cases out with
      | wait seen =>
        refine .inr ⟨rfl, rfl, fun rw' seen' => hends.condition_congr_of_wait rw' seen', ?_⟩
        simp [Transfer.after, Pc.rank, WaitPhase.rank, hends.condition_of_wait]
      | moved bytes =>
        simp only [Transfer.after]
        split_ifs <;> exact .inl (by simp [Pc.budget])
      | _ => exact .inl (by simp [Transfer.after, Pc.budget])
  | wait rw seen phase =>
    rcases waitStep_rank hsignal hs with rfl | ⟨hdev, hwake, hbudget, hrank⟩
    · exact .inl (by simp [Pc.budget])
    · exact .inr ⟨hbudget, hwake, fun _ _ => by rw [hdev], by rw [hdev]; exact hrank⟩
  | dispatch cmd arg =>
    cases hs
    rcases dispatch_cases cmd arg with ⟨e, h⟩ | ⟨-, h⟩ | ⟨ctl, -, h⟩ | ⟨-, h⟩ <;> rw [h]
    · exact .inl (by simp [Pc.budget])
    · exact .inr ⟨rfl, rfl, fun _ _ => rfl, by simp [Pc.rank]⟩
    · exact .inr ⟨rfl, rfl, fun _ _ => rfl, by simp [Pc.rank]⟩
    · exact .inl (by simp [Pc.budget])
  | control ctl =>
    cases hs
    left
    cases ctl with
    | setCapacity requested =>
      simp only [Control.step]
      split <;> simp [Pc.budget]
    | _ => simp [Control.step, Pc.budget]
  | copyOut out writable =>
    cases hs
    cases writable <;> exact .inr ⟨rfl, rfl, fun _ _ => rfl, by simp [Pc.rank]⟩
  | resetStats rest =>
    cases rest <;> cases hs <;>
      exact .inr ⟨rfl, rfl, hcounters rfl rfl rfl, by simp [Pc.rank]⟩
  | wakePeer | wakeRead | wakeWrite =>
    cases hs
    exact .inl (by simp [Pc.budget])
  | _ =>
    cases hs
    exact .inr ⟨rfl, rfl, hcounters rfl rfl rfl, by simp [Pc.rank]⟩

/-! ## Runs -/

section Runs

variable {ι : Type*} [DecidableEq ι] {s s' s₀ : Sys ι} {e : ι × Event} {tr tr' : List (ι × Event)}

/-- A step of a thread within the driver, without a signal. -/
inductive Settle (s : Sys ι) : ι × Event → Sys ι → Prop
  | run (t : ι) (env : Env) (eff : Effect) (hsignal : env.signal = false)
      (h : stepThread env s.dev (s.pc t) = some eff) : Settle s (t, eff.event) (s.apply t eff)

/-- A step towards the end is a step. -/
theorem Settle.step (h : Settle s e s') : Step s e s' := by
  cases h with
  | run t env eff _ hs => exact .run t env eff hs

/-- What the calls in the driver can still do to one another. -/
def Sys.budget [Fintype ι] (s : Sys ι) : ℕ := ∑ t, (s.pc t).budget

/-- How many steps the threads can take before one does something to the others, at most. -/
def Sys.rank [Fintype ι] (s : Sys ι) : ℕ := ∑ t, (s.pc t).rank s.dev

/-- A wakeup keeps a call in bounds. -/
theorem Pc.Bounded.wake (h : pc.Bounded) (q : WaitQueue) : (pc.wake q).Bounded := by
  unfold Pc.wake
  split
  · trivial
  · trivial
  · trivial
  · exact h

/-- Along a run, a thread that zeroes counters has at most all of them still to zero. -/
theorem Step.bounded (h : Step s e s') (hbounded : ∀ t, (s.pc t).Bounded) (u : ι) :
    (s'.pc u).Bounded := by
  cases h with
  | invoke t c hidle =>
    rcases eq_or_ne u t with rfl | hne
    · simp [Pc.Bounded]
    · simpa [hne] using hbounded u
  | run t env eff hs =>
    have hself : (Function.update s.pc t eff.pc u).Bounded := by
      rcases eq_or_ne u t with rfl | hne
      · rw [Function.update_self]
        exact stepThread_bounded (hbounded u) hs
      · rw [Function.update_of_ne hne]
        exact hbounded u
    rw [Sys.pc_apply]
    split
    · exact hself
    · exact hself.wake _

/-- The budget of the other threads is not touched by a step. -/
theorem Sys.budget_apply_of_ne {t u : ι} (hne : u ≠ t) (eff : Effect) :
    ((s.apply t eff).pc u).budget = (s.pc u).budget := by
  rw [Sys.pc_apply, Function.update_of_ne hne]
  split
  · rfl
  · exact Pc.budget_wake _ _

/-- A step without a signal uses up some of the budget, or brings the threads closer to doing so. -/
theorem Settle.measure [Fintype ι] (h : Settle s e s') (hsound : s.Sound)
    (hbounded : ∀ t, (s.pc t).Bounded) :
    s'.budget < s.budget ∧ s'.rank ≤ s.rank + 13 * Fintype.card ι ∨
      s'.budget = s.budget ∧ s'.rank < s.rank := by
  cases h with
  | run t env eff hsignal hs =>
    have hself := Sys.pc_apply_self hs
    rcases stepThread_rank hsound.wellFormed (hsound.sized t) hsignal hs with hlt |
      ⟨heq, hwake, hcondition, hlt⟩
    · refine .inl ⟨Finset.sum_lt_sum (fun u _ => ?_) ⟨t, Finset.mem_univ t, ?_⟩, ?_⟩
      · rcases eq_or_ne u t with rfl | hne
        · rw [hself]
          exact hlt.le
        · rw [Sys.budget_apply_of_ne hne]
      · rw [hself]
        exact hlt
      · -- each thread moves up by at most thirteen
        have hrank : ∀ u ∈ Finset.univ,
            ((s.apply t eff).pc u).rank (s.apply t eff).dev ≤ (s.pc u).rank s.dev + 13 := by
          intro u _
          rcases eq_or_ne u t with rfl | hne
          · rw [hself]
            exact ((stepThread_bounded (hbounded u) hs).rank_le _).trans (Nat.le_add_left _ _)
          · rw [Sys.pc_apply, Function.update_of_ne hne]
            split
            · exact (Pc.rank_le_add _ _ _).trans (Nat.add_le_add_left (by decide) _)
            · exact (Pc.rank_wake_le _ _ _ _).trans (Nat.add_le_add_left (by decide) _)
        refine (Finset.sum_le_sum hrank).trans_eq ?_
        rw [Finset.sum_add_distrib, Finset.sum_const, Finset.card_univ, Nat.nsmul_eq_mul, Sys.rank,
          Nat.mul_comm]
    · have hother : ∀ u, u ≠ t → (s.apply t eff).pc u = s.pc u := fun u hne => by
        rw [Sys.pc_apply, hwake, Function.update_of_ne hne]
      refine .inr ⟨Finset.sum_congr rfl fun u _ => ?_, Finset.sum_lt_sum (fun u _ => ?_)
        ⟨t, Finset.mem_univ t, ?_⟩⟩
      · rcases eq_or_ne u t with rfl | hne
        · rw [hself, heq]
        · rw [hother u hne]
      · rcases eq_or_ne u t with rfl | hne
        · rw [hself]
          exact hlt.le
        · rw [hother u hne]
          refine le_of_eq ?_
          cases hpc : s.pc u with
          | wait rw seen phase => exact congrArg (WaitPhase.rank · phase) (hcondition rw seen)
          | _ => rfl
      · rw [hself]
        exact hlt

/-- A call has a budget of three at the most. -/
theorem Pc.budget_le (pc : Pc) : pc.budget ≤ 3 := by
  cases pc <;> simp [budget]

/-- A schedule of the threads within the driver describes a run. -/
theorem Sys.settle_of_schedule {ts : List ι}
    (h : s.schedule (ts.map fun t => (t, .run .quiet)) = some (tr', s')) : Run Settle s tr' s' := by
  induction ts generalizing s tr' with
  | nil =>
    cases h
    exact .nil
  | cons t ts ih =>
    rw [List.map_cons, Sys.schedule] at h
    split at h
    · obtain ⟨⟨tr, _⟩, hrest, heq⟩ := Option.map_eq_some_iff.mp h
      cases heq
      exact .cons (.run t .quiet _ rfl ‹_›) (ih hrest)
    · cases h

/-- The thread in `CLEAR` finishes, and wakes the sleeper, which looks and goes back to sleep. -/
def wakeup : List Bool := List.replicate 4 true ++ List.replicate 8 false

/-- The trace of the wake-up, and the state it ends in. -/
def wakeupRun : List (Bool × Event) × Sys Bool :=
  (sleeperState.schedule (wakeup.map fun t => (t, .run .quiet))).getD ([], sleeperState)

/-- The run of the example. -/
theorem run_wakeup : Run Settle sleeperState wakeupRun.1 wakeupRun.2 :=
  Sys.settle_of_schedule (show sleeperState.schedule (wakeup.map fun t => (t, .run .quiet)) =
    some (wakeupRun.1, wakeupRun.2) from rfl)

/-- The state in which the example starts is reachable. -/
theorem run_sleeper : ∃ tr, Run Step (Sys.initial Bool .small) tr sleeperState :=
  ⟨_, Sys.run_of_schedule (show (Sys.initial Bool .small).schedule sleeper =
    some (_, sleeperState) from rfl)⟩

/-- The calls in the driver settle: whatever state the driver has come to, without signals and new
calls its threads take only so many more steps. -/
theorem calls_settle [Fintype ι] {capacity : ℕ} {alloc : Alloc} {dev : Dev}
    (hinit : Dev.init capacity alloc = .ok dev) (hrun : Run Step (Sys.initial ι dev) tr s)
    (hsettle : Run Settle s tr' s') :
    tr'.length ≤ (13 * Fintype.card ι + 1) * (3 * Fintype.card ι) + 13 * Fintype.card ι := by
  have hsound := sound_of_run (Sys.initial_sound ι hinit).1 hrun
  have hbounded : ∀ t, (s.pc t).Bounded :=
    hrun.inductive (I := fun s => ∀ t, (s.pc t).Bounded) (fun _ => trivial) fun _ _ _ ih hstep =>
      hstep.bounded ih
  have hlength := hsettle.length_le_of_lex Sys.budget Sys.rank (13 * Fintype.card ι)
    (I := fun s => s.Sound ∧ ∀ t, (s.pc t).Bounded) ⟨hsound, hbounded⟩ fun s e s' hI hstep =>
      ⟨⟨(hstep.step.balance hI.1).1, hstep.step.bounded hI.2⟩, hstep.measure hI.1 hI.2⟩
  -- what each thread can have left at the start
  have hbudget : s.budget ≤ 3 * Fintype.card ι := by
    refine (Finset.sum_le_card_nsmul _ _ 3 fun t _ => (s.pc t).budget_le).trans_eq ?_
    rw [Finset.card_univ, Nat.nsmul_eq_mul, Nat.mul_comm]
  have hrank : s.rank ≤ 13 * Fintype.card ι := by
    refine (Finset.sum_le_card_nsmul _ _ 13 fun t _ => (hbounded t).rank_le s.dev).trans_eq ?_
    rw [Finset.card_univ, Nat.nsmul_eq_mul, Nat.mul_comm]
  exact hlength.trans (Nat.add_le_add (Nat.mul_le_mul_left _ hbudget) hrank)

/-- The twelve steps of the example, and their bound. -/
theorem calls_settle_sleeper : wakeupRun.1.length = 12 ∧ wakeupRun.1.length ≤ 188 := by
  obtain ⟨tr, hrun⟩ := run_sleeper
  exact ⟨rfl, calls_settle (show Dev.init 256 .zeroed = .ok .small from rfl) hrun run_wakeup⟩

/-! ## Where the calls settle -/

/-- Asleep in `wait_event_interruptible`, with no wake-up delivered. -/
def Pc.Asleep (rw : Transfer) (pc : Pc) : Prop := ∃ seen, pc = .wait rw seen (.parked false)

/-- A thread in the driver that is not asleep has a step without a signal. -/
theorem exists_stepThread (hwf : dev.buffer.WellFormed) (hsized : pc.Sized) (hidle : pc ≠ .idle)
    (hawake : ∀ rw, ¬pc.Asleep rw) : ∃ eff, stepThread .quiet dev pc = some eff := by
  cases pc with
  | idle => exact absurd rfl hidle
  | lock rw =>
    obtain ⟨out, dev', hcrit, -⟩ := Transfer.critical_spec hwf hsized Env.quiet.copy
    exact ⟨_, by rw [stepThread, Transfer.lockStep, if_neg (by simp [Env.quiet]), hcrit]; rfl⟩
  | wait rw seen phase =>
    cases phase with
    | check pending woken =>
      rw [stepThread, Transfer.waitStep]
      split_ifs <;> exact ⟨_, rfl⟩
    | parked woken =>
      cases woken with
      | true => exact ⟨_, rfl⟩
      | false => exact absurd ⟨seen, rfl⟩ (hawake rw)
    | _ => exact ⟨_, rfl⟩
  | resetStats rest => cases rest <;> exact ⟨_, rfl⟩
  | _ => exact ⟨_, rfl⟩

/-- A reader waits because the buffer is empty. -/
theorem len_of_read_condition {nonblock : Bool} {count : ℕ}
    (h : (Transfer.read nonblock count).condition dev seen = false) :
    dev.shuttingDown = false ∧ dev.buffer.len = 0 := by
  simp only [Transfer.condition, Dev.readCondition, Bool.or_eq_false_iff,
    decide_eq_false_iff_not, not_lt] at h
  exact ⟨h.1.1, Nat.le_zero.mp h.1.2⟩

/-- A writer waits because the buffer is full. -/
theorem len_of_write_condition (hwf : dev.buffer.WellFormed) {nonblock : Bool} {data : List UInt8}
    (h : (Transfer.write nonblock data).condition dev seen = false) :
    dev.shuttingDown = false ∧ dev.buffer.len = dev.buffer.capacity := by
  simp only [Transfer.condition, Dev.writeCondition, Bool.or_eq_false_iff,
    decide_eq_false_iff_not, not_lt] at h
  exact ⟨h.1.1, le_antisymm hwf.len_le h.1.2⟩

/-- If no thread can go on, all are idle or asleep. -/
theorem idle_or_asleep (hsound : s.Sound) (hstuck : ∀ e s', ¬Settle s e s') (t : ι) :
    s.pc t = .idle ∨ ∃ rw, (s.pc t).Asleep rw := by
  by_contra hno
  push Not at hno
  obtain ⟨eff, hs⟩ := exists_stepThread hsound.wellFormed (hsound.sized t) hno.1 hno.2
  exact hstuck _ _ (.run t .quiet eff rfl hs)

/-- Where the calls settle. In a reachable state in which no thread can go on without a signal, the
threads that are not outside the driver are all readers asleep on an empty buffer, or all writers
asleep on a full one. None is left if the device is shutting down. -/
theorem settled_idle_or_asleep {capacity : ℕ} {alloc : Alloc} {dev : Dev}
    (hinit : Dev.init capacity alloc = .ok dev) (hrun : Run Step (Sys.initial ι dev) tr s)
    (hstuck : ∀ e s', ¬Settle s e s') :
    ((∀ t, s.pc t = .idle ∨ ∃ nonblock count, (s.pc t).Asleep (.read nonblock count) ∧
        s.dev.buffer.len = 0) ∨
      ∀ t, s.pc t = .idle ∨ ∃ nonblock data, (s.pc t).Asleep (.write nonblock data) ∧
        s.dev.buffer.len = s.dev.buffer.capacity) ∧
    (s.dev.shuttingDown = true → ∀ t, s.pc t = .idle) := by
  have hsound₀ := (Sys.initial_sound ι hinit).1
  have hsound := sound_of_run hsound₀ hrun
  have hwatched := watched_of_run hsound₀ (fun u rw seen h => by simp [Sys.initial, Pc.Parked] at h)
    hrun
  -- no thread is about to wake another, so whoever is asleep has a false condition
  have hfalse : ∀ t rw seen, s.pc t = .wait rw seen (.parked false) →
      rw.condition s.dev seen = false := by
    intro t rw seen hpc
    refine (hwatched t rw seen (.inr hpc)).resolve_left ?_
    rintro ⟨u, hu⟩
    rcases idle_or_asleep hsound hstuck u with hidle | ⟨rw', seen', hasleep⟩
    · rw [hidle] at hu
      exact hu
    · rw [hasleep] at hu
      exact hu
  have hreader : ∀ t nonblock count, (s.pc t).Asleep (.read nonblock count) →
      s.dev.shuttingDown = false ∧ s.dev.buffer.len = 0 := by
    rintro t nonblock count ⟨seen, hpc⟩
    exact len_of_read_condition (hfalse t _ _ hpc)
  have hwriter : ∀ t nonblock data, (s.pc t).Asleep (.write nonblock data) →
      s.dev.shuttingDown = false ∧ s.dev.buffer.len = s.dev.buffer.capacity := by
    rintro t nonblock data ⟨seen, hpc⟩
    exact len_of_write_condition hsound.wellFormed (hfalse t _ _ hpc)
  refine ⟨?_, fun hdown t => ?_⟩
  · by_cases hread : ∃ t nonblock count, (s.pc t).Asleep (.read nonblock count)
    · -- an empty buffer is not full, so nobody waits to write
      obtain ⟨t, nonblock, count, hasleep⟩ := hread
      have hempty := (hreader t nonblock count hasleep).2
      refine .inl fun u => (idle_or_asleep hsound hstuck u).imp_right ?_
      rintro ⟨rw, hu⟩
      cases rw with
      | read nonblock' count' => exact ⟨nonblock', count', hu, hempty⟩
      | write nonblock' data' =>
        have hfull := (hwriter u nonblock' data' hu).2
        have hcapacity : 256 ≤ s.dev.buffer.capacity := hsound.wellFormed.min_le
        omega
    · refine .inr fun u => (idle_or_asleep hsound hstuck u).imp_right ?_
      rintro ⟨rw, hu⟩
      cases rw with
      | read nonblock' count' => exact absurd ⟨u, nonblock', count', hu⟩ hread
      | write nonblock' data' => exact ⟨nonblock', data', hu, (hwriter u nonblock' data' hu).2⟩
  · refine (idle_or_asleep hsound hstuck t).resolve_right ?_
    rintro ⟨rw, hasleep⟩
    cases rw with
    | read nonblock count => exact absurd ((hreader t _ _ hasleep).1.symm.trans hdown) (by simp)
    | write nonblock data => exact absurd ((hwriter t _ _ hasleep).1.symm.trans hdown) (by simp)

/-- Where the threads of the example end. -/
theorem settled_idle_or_asleep_sleeper :
    ((∀ t, wakeupRun.2.pc t = .idle ∨ ∃ nonblock count,
        (wakeupRun.2.pc t).Asleep (.read nonblock count) ∧ wakeupRun.2.dev.buffer.len = 0) ∨
      ∀ t, wakeupRun.2.pc t = .idle ∨ ∃ nonblock data,
        (wakeupRun.2.pc t).Asleep (.write nonblock data) ∧
          wakeupRun.2.dev.buffer.len = wakeupRun.2.dev.buffer.capacity) ∧
    (wakeupRun.2.dev.shuttingDown = true → ∀ t, wakeupRun.2.pc t = .idle) := by
  obtain ⟨tr, hrun⟩ := run_sleeper
  have hwakeup : Run Step sleeperState wakeupRun.1 wakeupRun.2 :=
    run_wakeup.mono fun _ _ _ hstep => hstep.step
  refine settled_idle_or_asleep (show Dev.init 256 .zeroed = .ok .small from rfl)
    (hrun.append hwakeup) ?_
  -- one thread is back outside, and the other asleep
  have hidle : wakeupRun.2.pc true = .idle := rfl
  have hasleep : wakeupRun.2.pc false = .wait (.read false 2) 1 (.parked false) := rfl
  rintro _ _ ⟨t, env, eff, hsignal, hs⟩
  cases t with
  | true =>
    rw [hidle] at hs
    cases hs
  | false =>
    rw [hasleep, stepThread, Transfer.waitStep, hsignal, if_neg (by simp)] at hs
    cases hs

end Runs

end RingbufChar
