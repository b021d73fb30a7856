import KernelBridge.Driver.Calls

/-!
# No lost wake-up

A thread that makes a wait condition true does so in its mutex section, and is then about to wake
the queue of that condition (`stepThread_condition`); it stays about to wake it until it does
(`stepThread_pending`). So a thread asleep that no other thread is about to wake finds its
condition false: this is the invariant `Sys.Watched`, and `no_lost_wakeup` spells out what it says
about the device.
-/

namespace RingbufChar

open Buffer

/-- Between a mutex section and the wake-up of the queue `q` that is still to follow it. -/
def Pc.PendingWake (q : WaitQueue) : Pc → Prop
  | .account rw _ => rw.wakes = q
  | .wakePeer rw _ => rw.wakes = q
  | .wakeRead => True
  | .wakeWrite => q = .write
  | _ => False

/-- In `wait_event_interruptible`, having saved the generation `seen` and found the condition
false after enqueueing, with no wake-up delivered since: asleep, or about to be. -/
def Pc.Parked (rw : Transfer) (seen : BitVec 64) (pc : Pc) : Prop :=
  pc = .wait rw seen (.park false) ∨ pc = .wait rw seen (.parked false)

/-- Whoever is parked is about to be woken, or has a false wait condition. -/
def Sys.Watched {ι : Type*} (s : Sys ι) : Prop :=
  ∀ t rw seen, (s.pc t).Parked rw seen →
    (∃ u, (s.pc u).PendingWake rw.waitsOn) ∨ rw.condition s.dev seen = false

variable {rw rw' : Transfer} {uc : UserCopy} {env : Env} {dev dev' : Dev} {out : Outcome}
  {seen : BitVec 64} {pc : Pc} {eff : Effect}

/-- A wait condition reads only these fields. -/
theorem Transfer.condition_congr (rw : Transfer) (seen : BitVec 64)
    (hdown : dev'.shuttingDown = dev.shuttingDown)
    (hgen : dev'.stateGeneration = dev.stateGeneration) (hlen : dev'.buffer.len = dev.buffer.len)
    (hcap : dev'.buffer.capacity = dev.buffer.capacity) :
    rw.condition dev' seen = rw.condition dev seen := by
  cases rw <;> simp [condition, Dev.readCondition, Dev.writeCondition, hdown, hgen, hlen, hcap]

/-- The mutex section of a transfer that makes a wait condition true leads its thread to wake the
queue of that condition. -/
theorem Transfer.Ends.condition (h : rw.Ends uc dev out dev') (hwf : dev.buffer.WellFormed)
    (hfalse : rw'.condition dev seen = false) (htrue : rw'.condition dev' seen = true) :
    (rw.after out).PendingWake rw'.waitsOn := by
  -- a section that leaves every field of the condition alone makes no difference
  have hsame : rw'.condition dev' seen = rw'.condition dev seen →
      (rw.after out).PendingWake rw'.waitsOn := fun heq => by simp_all
  cases rw with
  | read nonblock count =>
    cases h with
    | moved k faulted hpos hle hall hbad =>
      have hlen : (dev.buffer.fifo.take k).length = k := by
        rw [List.length_take, hwf.length_fifo]; omega
      rw [after, if_pos (by omega)]
      cases rw' with
      | read nonblock' count' =>
        -- a reader's condition was true already, since there was something to read
        simp only [Transfer.condition, Dev.readCondition, Bool.or_eq_false_iff,
          decide_eq_false_iff_not] at hfalse
        omega
      | write nonblock' data' => rfl
    | _ => exact hsame (condition_congr rw' seen rfl rfl rfl rfl)
  | write nonblock data =>
    cases h with
    | moved hup k faulted c hinv hpos hle hall hbad =>
      have hlen : (data.take k).length = k := by rw [List.length_take]; omega
      rw [after, if_pos (by omega)]
      cases rw' with
      | read nonblock' count' => rfl
      | write nonblock' data' =>
        -- a writer's condition was true already, since there was space
        simp only [Transfer.condition, Dev.writeCondition, Bool.or_eq_false_iff,
          decide_eq_false_iff_not] at hfalse
        omega
    | fault hup hspace c hinv hbad =>
      exact hsame (condition_congr rw' seen rfl rfl hinv.len_eq hinv.capacity_eq)
    | _ => exact hsame (condition_congr rw' seen rfl rfl rfl rfl)

/-- A step that makes a wait condition true leaves its thread about to wake the queue of that
condition. -/
theorem stepThread_condition (hwf : dev.buffer.WellFormed) (hsized : pc.Sized)
    (hs : stepThread env dev pc = some eff) (hfalse : rw'.condition dev seen = false)
    (htrue : rw'.condition eff.dev seen = true) : eff.pc.PendingWake rw'.waitsOn := by
  -- a step that leaves every field of the condition alone makes no difference
  have hsame : rw'.condition eff.dev seen = rw'.condition dev seen →
      eff.pc.PendingWake rw'.waitsOn := fun heq => by simp_all
  cases pc with
  | idle => cases hs
  | entry c => cases hs; cases c <;> exact hsame (rw'.condition_congr seen rfl rfl rfl rfl)
  | lock rw =>
    rcases Transfer.lockStep_cases hwf hsized hs with rfl | ⟨out, dev', hends, rfl⟩
    · exact hsame rfl
    · exact hends.condition hwf hfalse htrue
  | wait rw seen' phase =>
    rcases Transfer.waitStep_eq_some hs with rfl | ⟨next, rfl⟩ | rfl <;> exact hsame rfl
  | control ctl =>
    cases hs
    cases ctl with
    | setCapacity requested =>
      simp only [Control.step, Dev.setCapacitySection] at htrue hsame ⊢
      cases hr : dev.buffer.resize requested.toNat env.alloc with
      | ok buffer => trivial
      | error e => rw [hr] at hsame; exact hsame rfl
    | clear => trivial
    | setMode mode => trivial
    | exit => trivial
    | _ => exact hsame rfl
  | resetStats rest =>
    cases rest <;> cases hs <;> exact hsame (rw'.condition_congr seen rfl rfl rfl rfl)
  | _ => cases hs; exact hsame (rw'.condition_congr seen rfl rfl rfl rfl)

/-- A thread about to wake a queue stays so until it does. -/
theorem stepThread_pending {q : WaitQueue} (hs : stepThread env dev pc = some eff)
    (h : pc.PendingWake q) : eff.pc.PendingWake q ∨ eff.wake = some q := by
  cases pc with
  | account rw bytes => cases hs; exact .inl h
  | wakePeer rw bytes => cases hs; exact .inr (congrArg some h)
  | wakeRead =>
    cases hs
    cases q with
    | read => exact .inr rfl
    | write => exact .inl rfl
  | wakeWrite =>
    cases hs
    obtain rfl : q = .write := h
    exact .inr rfl
  | _ => exact h.elim

/-- Only `wait_event_interruptible` parks a thread. -/
theorem not_parked_dispatch (cmd : BitVec 32) (arg : UserArg) :
    ¬(dispatch cmd arg).Parked rw seen := by
  rcases dispatch_cases cmd arg with ⟨e, heq⟩ | ⟨-, heq⟩ | ⟨ctl, -, heq⟩ | ⟨-, heq⟩ <;> rw [heq] <;>
    rintro (h | h) <;> cases h

/-- A thread that parks has just found its condition false, or was parked before. -/
theorem stepThread_parked (hs : stepThread env dev pc = some eff) (h : eff.pc.Parked rw seen) :
    eff.wake = none ∧ (rw.condition dev seen = false ∨ pc.Parked rw seen) := by
  cases pc with
  | idle => cases hs
  | entry c =>
    cases hs
    cases c with
    | transfer rw' =>
      simp only [Call.enter] at h
      split_ifs at h <;> rcases h with h | h <;> cases h
    | _ => rcases h with h | h <;> cases h
  | lock rw' =>
    rcases Transfer.lockStep_eq_some hs with rfl | ⟨out, dev', -, rfl⟩
    · rcases h with h | h <;> cases h
    · cases out with
      | moved bytes =>
        simp only [Transfer.after] at h
        split_ifs at h <;> rcases h with h | h <;> cases h
      | _ => rcases h with h | h <;> cases h
  | wait rw' seen' phase =>
    cases phase with
    | check pending woken =>
      simp only [stepThread, Transfer.waitStep] at hs
      split_ifs at hs with hcond hpending <;> cases hs <;> rcases h with h | h <;> cases h
      -- the one way to park: the condition has just been found false
      exact ⟨rfl, .inl (by simpa using hcond)⟩
    | park woken =>
      cases hs
      cases woken <;> rcases h with h | h <;> cases h
      -- from `park` to `parked`, which is asleep, if no wake-up came in between
      exact ⟨rfl, .inr (.inl rfl)⟩
    | enter =>
      cases hs
      simp only at h
      split_ifs at h <;> rcases h with h | h <;> cases h
    | enqueue => cases hs; rcases h with h | h <;> cases h
    | parked woken =>
      simp only [stepThread, Transfer.waitStep] at hs
      split_ifs at hs
      cases hs
      rcases h with h | h <;> cases h
  | dispatch cmd arg => cases hs; exact absurd h (not_parked_dispatch cmd arg)
  | control ctl =>
    cases hs
    cases ctl with
    | setCapacity requested =>
      simp only [Control.step] at h
      split at h <;> rcases h with h | h <;> cases h
    | _ => rcases h with h | h <;> cases h
  | copyOut o writable =>
    cases hs
    simp only at h
    split_ifs at h <;> rcases h with h | h <;> cases h
  | resetStats rest => cases rest <;> cases hs <;> rcases h with h | h <;> cases h
  | _ => cases hs; rcases h with h | h <;> cases h

/-- A wake-up leaves nobody parked on its queue, and parks nobody. -/
theorem Pc.Parked.of_wake {q : WaitQueue} (h : (pc.wake q).Parked rw seen) :
    pc.Parked rw seen ∧ rw.waitsOn ≠ q := by
  cases pc with
  | wait rw' seen' phase =>
    cases phase with
    | check pending woken => cases pending <;> simp [Pc.wake, Parked] at h
    | park woken =>
      simp only [Pc.wake, Parked, Pc.wait.injEq, WaitPhase.park.injEq, reduceCtorEq, and_false,
        or_false, Bool.or_eq_false_iff, decide_eq_false_iff_not] at h
      obtain ⟨rfl, rfl, rfl, hne⟩ := h
      exact ⟨.inl rfl, hne⟩
    | parked woken =>
      simp only [Pc.wake, Parked, Pc.wait.injEq, WaitPhase.parked.injEq, reduceCtorEq, and_false,
        false_or, Bool.or_eq_false_iff, decide_eq_false_iff_not] at h
      obtain ⟨rfl, rfl, rfl, hne⟩ := h
      exact ⟨.inr rfl, hne⟩
    | _ => simp [Pc.wake, Parked] at h
  | _ => simp [Pc.wake, Parked] at h

/-- A thread about to wake a queue is not asleep, so wake-ups leave it alone. -/
theorem Pc.PendingWake.wake {q : WaitQueue} (h : pc.PendingWake q) (q' : WaitQueue) :
    (pc.wake q').PendingWake q := by
  cases pc with
  | wait => exact h.elim
  | _ => exact h

/-! ## Along runs -/

variable {ι : Type*} [DecidableEq ι] {s s' : Sys ι} {e : ι × Event}

/-- Another thread that is about to wake `q` still is after a step of `t`. -/
theorem Sys.pendingWake_apply {q : WaitQueue} {t u : ι} (hne : u ≠ t)
    (h : (s.pc u).PendingWake q) (eff : Effect) : ((s.apply t eff).pc u).PendingWake q := by
  rw [Sys.pc_apply, Function.update_of_ne hne]
  split
  · exact h
  · exact h.wake _

/-- After a step of `t`, whoever is parked was so before, on another queue than the one woken, or
is `t` itself. -/
theorem Sys.parked_apply {t u : ι} {eff : Effect} (h : ((s.apply t eff).pc u).Parked rw seen) :
    (u = t ∧ eff.pc.Parked rw seen) ∨
      (u ≠ t ∧ (s.pc u).Parked rw seen ∧ eff.wake ≠ some rw.waitsOn) := by
  rw [Sys.pc_apply] at h
  rcases eq_or_ne u t with rfl | hne
  · rw [Function.update_self] at h
    split at h
    · exact .inl ⟨rfl, h⟩
    · exact .inl ⟨rfl, h.of_wake.1⟩
  · rw [Function.update_of_ne hne] at h
    split at h
    next hwake => exact .inr ⟨hne, h, by simp [hwake]⟩
    next q hwake =>
      obtain ⟨hparked, hq⟩ := h.of_wake
      exact .inr ⟨hne, hparked, by simpa [hwake] using hq.symm⟩

/-- Every step of a sound system keeps its sleepers watched. -/
theorem Step.watched (h : Step s e s') (hsound : s.Sound) (hw : s.Watched) : s'.Watched := by
  cases h with
  | invoke t c hidle =>
    intro u rw seen hparked
    rcases eq_or_ne u t with rfl | hne
    · simp [Pc.Parked] at hparked
    · simp only [Function.update_of_ne hne] at hparked
      -- an invocation changes neither the device nor any other thread
      refine (hw u rw seen hparked).imp_left fun ⟨v, hv⟩ => ⟨v, ?_⟩
      -- the thread that calls was idle, so it was not the one about to wake
      have hvt : v ≠ t := by
        rintro rfl
        rw [hidle] at hv
        exact hv
      simpa [hvt] using hv
  | run t env eff hs =>
    intro u rw seen hparked
    -- the step of `t` keeps the sleepers of a queue watched, unless it wakes the queue
    have hkeep : ((∃ v, (s.pc v).PendingWake rw.waitsOn) ∨ rw.condition s.dev seen = false) →
        eff.wake ≠ some rw.waitsOn →
        (∃ v, ((s.apply t eff).pc v).PendingWake rw.waitsOn) ∨
          rw.condition (s.apply t eff).dev seen = false := by
      have hself : ∀ q, eff.pc.PendingWake q → ((s.apply t eff).pc t).PendingWake q := by
        intro q hq
        rw [Sys.pc_apply, Function.update_self]
        split
        · exact hq
        · exact hq.wake _
      rintro (⟨v, hv⟩ | hfalse) hwake
      · rcases eq_or_ne v t with rfl | hne
        · exact .inl ⟨v, hself _ ((stepThread_pending hs hv).resolve_right hwake)⟩
        · exact .inl ⟨v, Sys.pendingWake_apply hne hv eff⟩
      -- the condition may have turned true, but then the step leaves `t` about to wake the queue
      · cases htrue : rw.condition eff.dev seen with
        | false => exact .inr htrue
        | true =>
          exact .inl ⟨t, hself _ (stepThread_condition hsound.wellFormed (hsound.sized t) hs
            hfalse htrue)⟩
    rcases Sys.parked_apply hparked with ⟨rfl, hself⟩ | ⟨-, hother, hwake⟩
    -- `t` itself has parked: it has just seen its condition false
    · obtain ⟨hwake, hfalse | hbefore⟩ := stepThread_parked hs hself
      · exact hkeep (.inr hfalse) (by simp [hwake])
      · exact hkeep (hw u rw seen hbefore) (by simp [hwake])
    · exact hkeep (hw u rw seen hother) hwake

/-- Along every run, whoever is parked is about to be woken or has a false wait condition. -/
theorem watched_of_run {s₀ : Sys ι} (h₀ : s₀.Sound) (hw₀ : s₀.Watched) {tr : List (ι × Event)}
    (h : Lts.Run Step s₀ tr s) : s.Watched :=
  h.invariant (I := fun _ s => s.Watched) hw₀ fun _ _ _ _ hrun ih hstep =>
    hstep.watched (sound_of_run h₀ hrun) ih

/-- No lost wake-up: a thread that is parked on its queue, and that no other thread is about to
wake, has nothing to wake up for. A reader finds the buffer empty, a writer finds it full, the
device is not shutting down, and the generation is the one the thread has saved. -/
theorem no_lost_wakeup {capacity : ℕ} {alloc : Alloc} {dev : Dev}
    (hinit : Dev.init capacity alloc = .ok dev) {tr : List (ι × Event)}
    (hrun : Lts.Run Step (Sys.initial ι dev) tr s) {t : ι} (hparked : (s.pc t).Parked rw seen)
    (hnone : ∀ u, u ≠ t → ¬(s.pc u).PendingWake rw.waitsOn) :
    (match rw with
      | .read .. => s.dev.buffer.len = 0
      | .write .. => s.dev.buffer.len = s.dev.buffer.capacity) ∧
    s.dev.shuttingDown = false ∧ s.dev.stateGeneration = seen := by
  have hsound := (Sys.initial_sound ι hinit).1
  have hwatched := watched_of_run hsound
    (fun u rw seen h => by simp [Sys.initial, Pc.Parked] at h) hrun
  have hfalse : rw.condition s.dev seen = false := by
    -- the thread itself is asleep, and so not the one about to wake
    refine (hwatched t rw seen hparked).resolve_left ?_
    rintro ⟨u, hu⟩
    rcases eq_or_ne u t with rfl | hne
    · rcases hparked with h | h <;> rw [h] at hu <;> exact hu
    · exact hnone u hne hu
  have hle := (sound_of_run hsound hrun).wellFormed.len_le
  cases rw with
  | read nonblock count =>
    simp only [Transfer.condition, Dev.readCondition, Bool.or_eq_false_iff,
      decide_eq_false_iff_not, ne_eq, not_not, not_lt] at hfalse
    exact ⟨Nat.le_zero.mp hfalse.1.2, hfalse.1.1, hfalse.2⟩
  | write nonblock data =>
    simp only [Transfer.condition, Dev.writeCondition, Bool.or_eq_false_iff,
      decide_eq_false_iff_not, ne_eq, not_not, not_lt] at hfalse
    exact ⟨le_antisymm hle hfalse.1.2, hfalse.1.1, hfalse.2⟩

/-- A blocking read goes to sleep on the empty device, while another thread is inside `CLEAR`,
before its mutex section. -/
def sleeper : List (Bool × Choice) :=
  (false, .call (.transfer (.read false 2))) :: List.replicate 6 (false, .run .quiet) ++
    (true, .call (.ioctl iocClear ⟨none, none, false⟩)) :: List.replicate 2 (true, .run .quiet)

/-- The state in which the sleeper is asleep. -/
def sleeperState : Sys Bool :=
  (((Sys.initial Bool .small).schedule sleeper).getD ([], .initial Bool .small)).2

/-- The sleeper has saved generation zero; the buffer is empty and the generation still zero. -/
theorem no_lost_wakeup_sleeper :
    sleeperState.pc false = .wait (.read false 2) 0 (.parked false) ∧
      sleeperState.pc true = .control .clear ∧ sleeperState.dev.buffer.len = 0 ∧
      sleeperState.dev.shuttingDown = false ∧ sleeperState.dev.stateGeneration = 0 := by
  have hrun := Sys.run_of_schedule (show (Sys.initial Bool .small).schedule sleeper =
    some (_, sleeperState) from rfl)
  have hfalse : sleeperState.pc false = .wait (.read false 2) 0 (.parked false) := rfl
  have htrue : sleeperState.pc true = .control .clear := rfl
  refine ⟨hfalse, htrue, no_lost_wakeup (show Dev.init 256 .zeroed = .ok .small from rfl) hrun
    (.inr hfalse) fun u hu => ?_⟩
  obtain rfl : u = true := by simpa using hu
  rw [htrue]
  exact id

end RingbufChar
