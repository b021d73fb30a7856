import KernelBridge.Driver.Calls
import KernelBridge.Lib.Unwinding

/-!
# Loading and unloading the module

`ringbuf_char_init` and `ringbuf_char_exit` of `kernel/ringbuf_char.c`. The first acquires six
things from the kernel in turn, and has a ladder of labels that give back what it has if one of them
cannot be had; the second gives back all six.

`ModuleStep` is what can happen to the module: attempts to load it, which fail or not, the steps of
the threads in the driver, and unloading it when no thread is inside. Whatever happens, nothing is
acquired twice, given back twice or leaked, and a module that is loaded is in a state that `Driver.Threads`
reaches from a freshly initialised device (`module_never_leaks`).
-/

namespace RingbufChar

open Lts Unwinding

/-! ## Loading -/

/-- What `ringbuf_char_init` acquires, in order. -/
inductive Resource
  /-- The memory of `struct ringbuf_char_dev`. -/
  | dev
  | buffer
  | region
  | cdev
  | deviceClass
  | device
  deriving DecidableEq, Repr

/-- What the functions of the kernel that `ringbuf_char_init` calls do: whether there is memory, and
the error numbers of those that fail. -/
structure Kernel where
  kzalloc : Bool
  alloc : Alloc
  allocChrdevRegion : Option ℕ
  cdevAdd : Option ℕ
  classCreate : Option ℕ
  deviceCreate : Option ℕ

/-- The calls so far, and what `ringbuf_char_init` returns. -/
abbrev Load := List (Action Resource) × Except ℕ Dev

/-- The label `err_free_dev`. -/
def errFreeDev (log : List (Action Resource)) (ret : ℕ) : Load :=
  (log ++ [.release .dev], .error ret)

/-- The label `err_buffer_cleanup`. -/
def errBufferCleanup (log : List (Action Resource)) (ret : ℕ) : Load :=
  errFreeDev (log ++ [.release .buffer]) ret

/-- The label `err_unregister_region`. -/
def errUnregisterRegion (log : List (Action Resource)) (ret : ℕ) : Load :=
  errBufferCleanup (log ++ [.release .region]) ret

/-- The label `err_cdev_del`. -/
def errCdevDel (log : List (Action Resource)) (ret : ℕ) : Load :=
  errUnregisterRegion (log ++ [.release .cdev]) ret

/-- The label `err_class_destroy`. -/
def errClassDestroy (log : List (Action Resource)) (ret : ℕ) : Load :=
  errCdevDel (log ++ [.release .deviceClass]) ret

/-- `ringbuf_char_init`, with the module parameter `buffer_capacity`. -/
def moduleInit (k : Kernel) (bufferCapacity : ℕ) : Load :=
  if !capacityValid bufferCapacity then ([], .error Errno.EINVAL.code)
  else if !k.kzalloc then ([], .error Errno.ENOMEM.code)
  else
    let log := [.acquire .dev]
    match Buffer.init bufferCapacity k.alloc with
    | .error e => errFreeDev log e.code
    | .ok buffer =>
      let log := log ++ [.acquire .buffer]
      match k.allocChrdevRegion with
      | some ret => errBufferCleanup log ret
      | none =>
        let log := log ++ [.acquire .region]
        match k.cdevAdd with
        | some ret => errUnregisterRegion log ret
        | none =>
          let log := log ++ [.acquire .cdev]
          match k.classCreate with
          | some ret => errCdevDel log ret
          | none =>
            let log := log ++ [.acquire .deviceClass]
            match k.deviceCreate with
            | some ret => errClassDestroy log ret
            | none =>
              -- `kzalloc` has zeroed the rest
              (log ++ [.acquire .device],
                .ok { buffer, stateGeneration := 0, counters := fun _ => 0, openHandles := 0,
                      mode := 0, shuttingDown := false })

/-- `ringbuf_char_exit` after its two wake-ups. -/
def moduleExit : List (Action Resource) :=
  [.release .device, .release .deviceClass, .release .cdev, .release .region, .release .buffer,
    .release .dev]

/-- What is held while the module is loaded, the last acquired first. -/
def loadedResources : List Resource := [.device, .deviceClass, .cdev, .region, .buffer, .dev]

/-- What `ringbuf_char_init` acquires, with what fails. -/
def Kernel.steps (k : Kernel) (bufferCapacity : ℕ) : List (Resource × Option ℕ) :=
  [(.dev, if k.kzalloc then none else some Errno.ENOMEM.code),
    (.buffer, match Buffer.init bufferCapacity k.alloc with
      | .error e => some e.code
      | .ok _ => none),
    (.region, k.allocChrdevRegion), (.cdev, k.cdevAdd), (.deviceClass, k.classCreate),
    (.device, k.deviceCreate)]

variable {k : Kernel} {bufferCapacity : ℕ}

/-- The ladder of labels unwinds what was acquired. -/
theorem moduleInit_eq (hvalid : capacityValid bufferCapacity = true) :
    (moduleInit k bufferCapacity).1 = (build [] (k.steps bufferCapacity)).1 ∧
      (moduleInit k bufferCapacity).2.map (fun _ => loadedResources) =
        (build [] (k.steps bufferCapacity)).2 := by
  obtain ⟨kzalloc, alloc, region, cdev, cls, device⟩ := k
  simp only [moduleInit, Kernel.steps, hvalid, Bool.not_true, Bool.false_eq_true, if_false]
  -- the first that fails decides
  cases kzalloc with
  | false => exact ⟨rfl, rfl⟩
  | true =>
    cases Buffer.init bufferCapacity alloc with
    | error e => exact ⟨rfl, rfl⟩
    | ok buffer =>
      cases region with
      | some ret => exact ⟨rfl, rfl⟩
      | none =>
        cases cdev with
        | some ret => exact ⟨rfl, rfl⟩
        | none =>
          cases cls with
          | some ret => exact ⟨rfl, rfl⟩
          | none => cases device <;> exact ⟨rfl, rfl⟩

/-- A module that is loaded has the device of `Dev.init`. -/
theorem init_of_moduleInit {dev : Dev} (h : (moduleInit k bufferCapacity).2 = .ok dev) :
    Dev.init bufferCapacity k.alloc = .ok dev := by
  obtain ⟨kzalloc, alloc, region, cdev, cls, device⟩ := k
  rw [moduleInit] at h
  split_ifs at h with hvalid hmemory
  rw [Dev.init, if_neg hvalid]
  cases hbuffer : Buffer.init bufferCapacity alloc with
  | error e => rw [hbuffer] at h; cases h
  | ok buffer =>
    rw [hbuffer] at h
    cases region <;> cases cdev <;> cases cls <;> cases device <;> cases h
    rfl

/-- The module is loaded if the capacity is in range and nothing fails. -/
theorem exists_moduleInit_iff : (∃ dev, (moduleInit k bufferCapacity).2 = .ok dev) ↔
    capacityValid bufferCapacity = true ∧ ∀ step ∈ k.steps bufferCapacity, step.2 = none := by
  cases hvalid : capacityValid bufferCapacity with
  | false => simp [moduleInit, hvalid]
  | true =>
    have hbuild : (build [] (k.steps bufferCapacity)).2 = .ok loadedResources ↔ _ :=
      build_eq_ok_iff
    have hall : loadedResources = ((k.steps bufferCapacity).map Prod.fst).reverse ++ [] := rfl
    rw [← (moduleInit_eq hvalid).2, and_iff_left hall] at hbuild
    rw [and_iff_right rfl, ← hbuild]
    cases (moduleInit k bufferCapacity).2 <;> simp [Except.map]

/-- Otherwise the error is that of the first thing that fails. -/
theorem moduleInit_eq_error_iff {e : ℕ} : (moduleInit k bufferCapacity).2 = .error e ↔
    capacityValid bufferCapacity = false ∧ e = Errno.EINVAL.code ∨
    capacityValid bufferCapacity = true ∧ ∃ before r after,
      k.steps bufferCapacity = before ++ (r, some e) :: after ∧ ∀ step ∈ before, step.2 = none := by
  cases hvalid : capacityValid bufferCapacity with
  | false => simp [moduleInit, hvalid, eq_comm]
  | true =>
    have hbuild : (build [] (k.steps bufferCapacity)).2 = .error e ↔ _ := build_eq_error_iff
    rw [← (moduleInit_eq hvalid).2] at hbuild
    rw [← hbuild]
    cases (moduleInit k bufferCapacity).2 <;> simp [Except.map]

/-- What is held when `ringbuf_char_init` returns. -/
theorem track_moduleInit (k : Kernel) (bufferCapacity : ℕ) :
    track [] (moduleInit k bufferCapacity).1 =
      some (((moduleInit k bufferCapacity).2.map fun _ => loadedResources).toOption.getD []) := by
  cases hvalid : capacityValid bufferCapacity with
  | false => simp [moduleInit, hvalid, track, Except.map, Except.toOption]
  | true =>
    obtain ⟨hlog, hresult⟩ := moduleInit_eq (k := k) hvalid
    rw [hlog, hresult]
    exact track_build (by simp [Kernel.steps])

/-! ## The life of the module -/

section Life

variable {ι : Type*} [DecidableEq ι]

/-- What happens to the module. -/
inductive ModuleEvent (ι : Type*)
  | insmod (result : Except ℕ Unit) (log : List (Action Resource))
  | inside (e : ι × Event)
  | rmmod (log : List (Action Resource))

/-- The calls to the kernel that acquire or give back something. -/
def ModuleEvent.log : ModuleEvent ι → List (Action Resource)
  | .insmod _ log | .rmmod log => log
  | .inside _ => []

/-- A step of the module, whose state is `ringbuf_dev` with the threads in the driver. The kernel
unloads a module only when none of its files is open, so when no thread is inside. -/
inductive ModuleStep : Option (Sys ι) → ModuleEvent ι → Option (Sys ι) → Prop
  | load (k : Kernel) (bufferCapacity : ℕ) {dev : Dev}
      (h : (moduleInit k bufferCapacity).2 = .ok dev) :
      ModuleStep none (.insmod (.ok ()) (moduleInit k bufferCapacity).1) (some (.initial ι dev))
  | fail (k : Kernel) (bufferCapacity : ℕ) {ret : ℕ}
      (h : (moduleInit k bufferCapacity).2 = .error ret) :
      ModuleStep none (.insmod (.error ret) (moduleInit k bufferCapacity).1) none
  | inside {s s' : Sys ι} {e : ι × Event} (h : Step s e s') :
      ModuleStep (some s) (.inside e) (some s')
  | unload {s : Sys ι} (hidle : ∀ t, s.pc t = .idle) :
      ModuleStep (some s) (.rmmod moduleExit) none

/-- What is held in a state of the module. -/
def heldBy (m : Option (Sys ι)) : List Resource := if m.isSome then loadedResources else []

/-- A step leaves held what its state says. -/
theorem ModuleStep.track {m m' : Option (Sys ι)} {e : ModuleEvent ι} (h : ModuleStep m e m') :
    track (heldBy m) e.log = some (heldBy m') := by
  cases h with
  | load k bufferCapacity h =>
    have htrack := track_moduleInit k bufferCapacity
    rw [h] at htrack
    exact htrack
  | fail k bufferCapacity h =>
    have htrack := track_moduleInit k bufferCapacity
    rw [h] at htrack
    exact htrack
  | inside => rfl
  | unload => rfl

/-- The module never leaks. Whatever attempts are made to load it, whichever of the functions of the
kernel fail, and whatever its threads do between loading and unloading, every resource is acquired
and given back in the order of a stack, all six are held while the module is loaded, and none while
it is not. A module that is loaded is in a state that is reachable from a freshly initialised
device. -/
theorem module_never_leaks {tr : List (ModuleEvent ι)} {m : Option (Sys ι)}
    (h : Run ModuleStep none tr m) :
    Unwinding.track [] (tr.flatMap ModuleEvent.log) = some (heldBy m) ∧
      ∀ s, m = some s → ∃ capacity alloc dev tr', Dev.init capacity alloc = .ok dev ∧
        Run Step (.initial ι dev) tr' s := by
  refine h.invariant (I := fun tr m => track [] (tr.flatMap ModuleEvent.log) = some (heldBy m) ∧
    ∀ s, m = some s → ∃ capacity alloc dev tr', Dev.init capacity alloc = .ok dev ∧
      Run Step (.initial ι dev) tr' s) ⟨rfl, nofun⟩ fun tr m e m' _ ⟨htrack, hreach⟩ hstep => ?_
  refine ⟨?_, ?_⟩
  · rw [List.flatMap_append, track_append, htrack, List.flatMap_singleton]
    exact hstep.track
  · rintro s rfl
    cases hstep with
    | load k bufferCapacity h => exact ⟨_, _, _, _, init_of_moduleInit h, .nil⟩
    | inside hstep =>
      obtain ⟨capacity, alloc, dev, tr', hinit, hrun⟩ := hreach _ rfl
      exact ⟨capacity, alloc, dev, _, hinit, hrun.snoc hstep⟩

/-- An attempt that fails for want of a class, one that succeeds, and a reload. -/
theorem module_never_leaks_reload : ∃ tr, ∃ m : Option (Sys Bool), Run ModuleStep none tr m ∧
    m = some (.initial Bool .small) ∧ tr.length = 4 ∧
      Unwinding.track [] (tr.flatMap ModuleEvent.log) = some (heldBy m) := by
  have hfail : (moduleInit ⟨true, .zeroed, none, none, some 12, none⟩ 256).2 = .error 12 := rfl
  have hload : (moduleInit ⟨true, .zeroed, none, none, none, none⟩ 256).2 = .ok .small := rfl
  have hrun : Run ModuleStep none _ (some (.initial Bool .small)) :=
    .cons (.fail _ _ hfail) <| .cons (.load _ _ hload) <| .cons (.unload fun _ => rfl) <|
      .cons (.load _ _ hload) .nil
  exact ⟨_, _, hrun, rfl, rfl, (module_never_leaks hrun).1⟩

end Life

end RingbufChar
