import KernelBridge.Driver.Copying
import KernelBridge.Lab.Attaching

/-!
# Restoring the device

What the device adapter leaves behind, when the system calls on its descriptor reach the driver
(`Drives`). The driver refuses no capacity that it has had once the buffer is empty, whatever it was
resized to in between. So after `CLEAR` only a lack of memory keeps `__exit__` from restoring the
capacity that `__enter__` has found (`restore_spec`).

Main result: `lifecycle`.
-/

namespace Lab.Lifecycle

open Py Raising

variable {σ : Type} {os : OS σ} {device : LinuxDevice} {fd : ℕ} {s s' : Session σ}
  {live : σ → Prop} {dev : σ → RingbufChar.Dev}

/-! ## The driver behind the descriptor -/

/-- The `ioctl` ends as the driver has replied. -/
def Answers (reply : RingbufChar.Reply) (answer : Except Raised (BitVec 64)) : Prop :=
  match reply.value with
  | .ok _ => ∃ number, answer = .ok number ∧
      ∀ capacity, reply.output = .capacity capacity → number = BitVec.ofNat 64 capacity
  | .error e => ∃ exc, answer = .error exc ∧
      exc.osError = true ∧ exc.errno = some (LinuxDevice.osErrno e)

/-- The descriptor `fd` is one of the device `dev`, from the time it is opened until it is closed
(`live`), and nobody else changes its buffer: an `ioctl` is a call into the driver, and neither
opening nor closing nor `fstat` touches the buffer. The requests are those of the driver. -/
structure Drives (os : OS σ) (abi : Json) (fd : ℕ) (live : σ → Prop)
    (dev : σ → RingbufChar.Dev) : Prop where
  clear_eq : item abi "clear" = .ok (.int RingbufChar.iocClear.toNat)
  setCapacity_eq : item abi "set_capacity" = .ok (.int RingbufChar.iocSetCapacity.toNat)
  getCapacity_eq : item abi "get_capacity" = .ok (.int RingbufChar.iocGetCapacity.toNat)
  opened : ∀ state, (os .open state).1 = .ok fd →
    live (os .open state).2 ∧ (dev (os .open state).2).buffer = (dev state).buffer
  live_of_on : ∀ call state, call.On fd → live state → live (os call state).2
  buffer_fstat : ∀ state, live state → (dev (os (.fstat fd) state).2).buffer = (dev state).buffer
  call_ioctl : ∀ (state : σ) (cmd : BitVec 32) (arg : Option (BitVec 64)), live state →
    ∃ env, ∀ reply dev', RingbufChar.call env (dev state) (.ioctl cmd (userArg arg)) =
        some (reply, dev') →
      dev (os (.ioctl fd (.int cmd.toNat) arg) state).2 = dev' ∧
      Answers reply (os (.ioctl fd (.int cmd.toNat) arg) state).1
  buffer_close : ∀ state, live state → (dev (os (.close fd) state).2).buffer = (dev state).buffer

/-- The adapter has the descriptor, and it is open. -/
structure Ready (fd : ℕ) (live : σ → Prop) (s : Session σ) : Prop where
  fd_eq : s.fd = some fd
  live_os : live s.os

namespace Drives

variable (h : Drives os device.abi fd live dev)

include h

/-- The descriptor stays open while it is used. -/
theorem ready_of_uses (huses : Uses os fd s s') (hready : Ready fd live s) : Ready fd live s' := by
  obtain ⟨hfd, calls, hperforms, -⟩ := huses
  exact ⟨hfd.trans hready.fd_eq, hperforms.invariant h.live_of_on hready.live_os⟩

variable (hready : Ready fd live s)

include hready

/-- An `ioctl` is a call into the driver, and ends as the driver has replied. -/
theorem ioctl_spec {key : String} {value : Option ℤ} {cmd : BitVec 32} {arg : Option (BitVec 64)}
    (hkey : item device.abi key = .ok (.int cmd.toNat)) (hpack : value.mapM pack = .ok arg) :
    ∃ env, ∀ reply dev', RingbufChar.call env (dev s.os) (.ioctl cmd (userArg arg)) =
        some (reply, dev') →
      ∃ s', dev s'.os = dev' ∧ Ready fd live s' ∧ s'.originalCapacity = s.originalCapacity ∧
        match reply.value with
        | .ok _ => ∃ number, ioctl os device key value s = .ok number s' ∧
            ∀ capacity, reply.output = .capacity capacity → number = BitVec.ofNat 64 capacity
        | .error e => ∃ exc, ioctl os device key value s = .error exc s' ∧
            exc.osError = true ∧ exc.errno = some (LinuxDevice.osErrno e) := by
  have hsyscall : ioctl os device key value s = _ := ioctl_eq_syscall hready.fd_eq hkey hpack
  obtain ⟨env, hdriver⟩ := h.call_ioctl s.os cmd arg hready.live_os
  refine ⟨env, fun reply dev' hcall => ?_⟩
  obtain ⟨hdev, hanswer⟩ := hdriver reply dev' hcall
  refine ⟨s.after os (.ioctl fd (.int cmd.toNat) arg), hdev,
    ⟨hready.fd_eq, h.live_of_on _ _ rfl hready.live_os⟩, rfl, ?_⟩
  rw [Answers] at hanswer
  cases hvalue : reply.value with
  | ok _ =>
    rw [hvalue] at hanswer
    obtain ⟨number, hok, hnumber⟩ := hanswer
    exact ⟨number, by rw [hsyscall, syscall, hok], hnumber⟩
  | error e =>
    rw [hvalue] at hanswer
    obtain ⟨exc, hraised, herrno⟩ := hanswer
    exact ⟨exc, by rw [hsyscall, syscall, hraised], herrno⟩

/-- `CLEAR` empties the buffer, and does not raise. -/
theorem clear_spec : ∃ number s', ioctl os device "clear" none s = .ok number s' ∧
    Ready fd live s' ∧ s'.originalCapacity = s.originalCapacity ∧
    (dev s'.os).buffer = (dev s.os).buffer.clear := by
  obtain ⟨env, hdriver⟩ :=
    h.ioctl_spec hready h.clear_eq (show (none : Option ℤ).mapM pack = .ok none from rfl)
  obtain ⟨dev', hcall, hbuffer, -⟩ := RingbufChar.call_clear env (dev s.os) (userArg none)
  obtain ⟨s', rfl, hready', hcapacity, number, hok, -⟩ := hdriver _ _ hcall
  exact ⟨number, s', hok, hready', hcapacity, hbuffer⟩

/-- `GET_CAPACITY` yields the capacity. -/
theorem getCapacity_spec : ∃ s', getCapacity os device s =
      .ok (BitVec.ofNat 64 (dev s.os).buffer.capacity) s' ∧ Ready fd live s' := by
  have hzero : (0 : ℕ) < 2 ^ 64 := by omega
  obtain ⟨env, hdriver⟩ := h.ioctl_spec hready h.getCapacity_eq (mapM_pack hzero)
  obtain ⟨dev', hcall, -⟩ :=
    RingbufChar.call_getCapacity env (dev s.os) (userArg (some (BitVec.ofNat 64 0))) rfl
  obtain ⟨s', -, hready', -, number, hok, hnumber⟩ := hdriver _ _ hcall
  obtain rfl := hnumber _ rfl
  exact ⟨s', hok, hready'⟩

/-- `SET_CAPACITY` to a valid capacity resizes an empty buffer, unless there is no memory for it. -/
theorem setCapacity_spec {capacity : ℕ} (hvalid : RingbufChar.capacityValid capacity = true)
    (hempty : (dev s.os).buffer.len = 0) :
    (∃ number s', ioctl os device "set_capacity" (some capacity) s = .ok number s' ∧
      Ready fd live s' ∧ (dev s'.os).buffer.len = 0 ∧ (dev s'.os).buffer.capacity = capacity) ∨
    ∃ exc s', ioctl os device "set_capacity" (some capacity) s = .error exc s' ∧
      exc.osError = true ∧ exc.errno = some (LinuxDevice.osErrno .ENOMEM) := by
  have hsmall := lt_of_capacityValid hvalid
  obtain ⟨env, hdriver⟩ := h.ioctl_spec hready h.setCapacity_eq (mapM_pack hsmall)
  obtain ⟨dev', hcall, hbuffer, -⟩ := RingbufChar.call_setCapacity env (dev s.os) hsmall
    (show (userArg (some (BitVec.ofNat 64 capacity))).u64 = _ from rfl) hvalid
  obtain ⟨s', rfl, hready', -, hends⟩ := hdriver _ _ hcall
  cases hresize : (dev s.os).buffer.resize capacity env.alloc with
  | ok buffer =>
    rw [hresize] at hends hbuffer
    obtain ⟨number, hok, -⟩ := hends
    obtain ⟨hcapacity, hlen⟩ := RingbufChar.Buffer.resize_capacity_len hresize
    refine .inl ⟨number, s', hok, hready', ?_, ?_⟩
    · exact (congrArg RingbufChar.Buffer.len hbuffer).trans (hlen.trans hempty)
    · exact (congrArg RingbufChar.Buffer.capacity hbuffer).trans hcapacity
  | error e =>
    rw [hresize] at hends
    obtain ⟨exc, hraised, herrno⟩ := hends
    -- the capacity is valid and not below what is stored, so there is no memory
    rcases RingbufChar.Buffer.resize_error_iff.mp hresize with ⟨hbad, -⟩ | ⟨-, hless, -⟩ |
      ⟨-, -, -, rfl⟩
    · rw [hvalid] at hbad
      cases hbad
    · omega
    · exact .inr ⟨exc, s', hraised, herrno⟩

/-- A setup that goes through notes the capacity that it has found. -/
theorem setup_spec (hsetup : setup os device s = .ok ⟨⟩ s') : Ready fd live s' ∧
    s'.originalCapacity = some (BitVec.ofNat 64 (dev s.os).buffer.capacity) := by
  rw [setup, bind_of_ok (descriptor_of_some hready.fd_eq)] at hsetup
  obtain ⟨mode, s₁, hfstat, hsetup⟩ := bind_eq_ok hsetup
  obtain rfl := syscall_eq_ok hfstat
  have hready₁ : Ready fd live (s.after os (.fstat fd)) :=
    ⟨hready.fd_eq, h.live_of_on _ _ rfl hready.live_os⟩
  split at hsetup
  · cases hsetup
  · obtain ⟨s₂, hget, hready₂⟩ := h.getCapacity_spec hready₁
    rw [bind_of_ok hget, show (dev (s.after os (.fstat fd)).os).buffer = _ from
      h.buffer_fstat s.os hready.live_os] at hsetup
    -- the rest of the setup keeps what was noted
    have hrest : Keeps (Holding os fd) (do
        let _ ← ioctl os device "clear" none
        let _ ← ioctl os device "set_capacity" (some device.capacity)
        return : Io σ Unit) :=
      (keeps_ioctl respected_holding _ _).bind fun _ =>
        (keeps_ioctl respected_holding _ _).bind fun _ => keeps_pure _
    have hnoted := hrest { s₂ with
      originalCapacity := some (BitVec.ofNat 64 (dev s.os).buffer.capacity) } hready₂.fd_eq
    have hsame := (bind_of_ok rfl).symm.trans hsetup
    rw [hsame] at hnoted
    obtain ⟨huses, hcapacity⟩ := hnoted
    exact ⟨h.ready_of_uses huses ⟨hready₂.fd_eq, hready₂.live_os⟩, hcapacity⟩

/-- Restoring empties the device and sets the capacity that was noted. Only a lack of memory makes
the driver refuse it. -/
theorem restore_spec {capacity : ℕ} (hvalid : RingbufChar.capacityValid capacity = true)
    (hnoted : s.originalCapacity = some (BitVec.ofNat 64 capacity)) :
    (∃ s', restore os device s = .ok ⟨⟩ s' ∧ Ready fd live s' ∧
      (dev s'.os).buffer.len = 0 ∧ (dev s'.os).buffer.capacity = capacity) ∨
    ∃ exc s', restore os device s = .error exc s' ∧
      exc.osError = true ∧ exc.errno = some (LinuxDevice.osErrno .ENOMEM) := by
  obtain ⟨number, s₁, hclear, hready₁, hkept, hbuffer⟩ := h.clear_spec hready
  have hempty : (dev s₁.os).buffer.len = 0 := by rw [hbuffer]; rfl
  have hnat : (BitVec.ofNat 64 capacity).toNat = capacity := by
    rw [BitVec.toNat_ofNat, Nat.mod_eq_of_lt (lt_of_capacityValid hvalid)]
  have hrestore : restore os device s = (do
      let _ ← ioctl os device "set_capacity" (some capacity)
      return : Io σ Unit) s₁ := by
    rw [restore, bind_of_ok hclear, bind_of_ok (show (get : Io σ _) s₁ = .ok s₁ s₁ from rfl), hkept,
      hnoted]
    dsimp only
    rw [hnat]
  rw [hrestore]
  rcases h.setCapacity_spec hready₁ hvalid hempty with
    ⟨number', s₂, hset, hready₂, hlen, hcapacity⟩ | ⟨exc, s₂, hset, herrno⟩
  · exact .inl ⟨s₂, (bind_of_ok hset).trans rfl, hready₂, hlen, hcapacity⟩
  · exact .inr ⟨exc, s₂, bind_of_error hset, herrno⟩

omit hready in
/-- A `with` statement that goes through leaves the device empty, with the capacity it had. -/
theorem withDevice_restores {w : Workload} (hopen : (os .open s.os).1 = .ok fd)
    (hwf : (dev s.os).buffer.WellFormed) (hwith : withDevice os device w s = .ok ⟨⟩ s') :
    (dev s'.os).buffer.len = 0 ∧ (dev s'.os).buffer.capacity = (dev s.os).buffer.capacity := by
  obtain ⟨hlive, hbuffer⟩ := h.opened s.os hopen
  obtain ⟨_, s₁, henter, -⟩ := bind_eq_ok hwith
  obtain ⟨fd', hopen', hsetup, -⟩ := enter_eq_ok henter
  obtain rfl : fd = fd' := Except.ok.inj (hopen.symm.trans hopen')
  have hready : Ready fd live (s.opened os fd) := ⟨rfl, hlive⟩
  obtain ⟨hready₁, hnoted⟩ := h.setup_spec hready hsetup
  rw [show (dev (s.opened os fd).os).buffer = (dev s.os).buffer from hbuffer] at hnoted
  have hworkload : Uses os fd s₁ (stateOf (w.run os device s₁)) ∧ _ :=
    keeps_run respected_holding w s₁ hready₁.fd_eq
  cases hrun : w.run os device s₁ with
  | error original s₂ =>
    rw [hrun] at hworkload
    have hfd₂ := (h.ready_of_uses hworkload.1 hready₁).fd_eq
    obtain ⟨exc, herror, -⟩ := withDevice_of_run_error henter hrun hfd₂
    rw [herror] at hwith
    cases hwith
  | ok _ s₂ =>
    rw [hrun] at hworkload
    obtain ⟨huses, hkept⟩ : Uses os fd s₁ s₂ ∧ s₂.originalCapacity = _ := hworkload
    have hready₂ := h.ready_of_uses huses hready₁
    have hexit := (withDevice_of_run_ok henter hrun).symm.trans hwith
    obtain ⟨s₃, hrestore⟩ := restore_of_exit_ok hready₂.fd_eq hexit
    rcases h.restore_spec hready₂ (capacityValid_of_wellFormed hwf) (hkept.trans hnoted) with
      ⟨s₄, hok, hready₄, hrestored⟩ | ⟨exc, s₄, herror, -⟩
    · -- closing does not touch the buffer
      have hclosed : (dev s'.os).buffer = (dev s₄.os).buffer := by
        have hstate : stateOf (exit os device none s₂) = _ := stateOf_exit none hready₂.fd_eq
        rw [hexit, hok, stateOf, stateOf, stateOf_close hready₄.fd_eq] at hstate
        rw [hstate]
        exact h.buffer_close s₄.os hready₄.live_os
      rw [hclosed]
      exact hrestored
    · rw [hrestore] at herror
      cases herror

end Drives

/-- The driver behind system calls is such a system. -/
theorem drives_driver (env : RingbufChar.Env) (fd : ℕ) :
    Drives (driver env fd) abi fd (fun _ => True) id where
  clear_eq := rfl
  setCapacity_eq := rfl
  getCapacity_eq := rfl
  opened _ _ := ⟨trivial, rfl⟩
  live_of_on _ _ _ _ := trivial
  buffer_fstat _ _ := rfl
  call_ioctl dev cmd arg _ := by
    refine ⟨env, fun reply dev' hcall => ?_⟩
    obtain ⟨value, output⟩ := reply
    rw [driver_ioctl, reach, show RingbufChar.call env dev _ = _ from hcall]
    cases value with
    | ok n =>
      refine ⟨rfl, _, rfl, fun capacity hcapacity => ?_⟩
      obtain rfl : output = .capacity capacity := hcapacity
      rfl
    | error e => exact ⟨rfl, _, rfl, rfl, rfl⟩
  buffer_close _ _ := rfl

/-! ## The life cycle -/

/-- One `__enter__` and any number of `__exit__`s, whatever the system does. A descriptor that was
opened is closed once, and not used after. What the setup or the workload raises is what surfaces.
If nothing is raised, a device that nobody else uses ends empty, with the capacity it had. -/
theorem lifecycle (os : OS σ) (device : LinuxDevice) (w : Workload) (actions : List Action)
    (state : σ) :
    let result := withDevice os device w (.start state)
    let final := afterwards os device actions (stateOf result)
    (∀ exc, (os .open state).1 = .error exc →
      result = .error exc final ∧ final.trace = [.open]) ∧
    ∀ fd, (os .open state).1 = .ok fd →
      (∃ calls, final.trace = .open :: calls ++ [.close fd] ∧ ∀ call ∈ calls, call.On fd) ∧
      (∀ original s, setup os device (Session.opened os fd (.start state)) = .error original s →
        ∃ exc, result = .error exc final ∧ original.SurfacesAs exc) ∧
      (∀ s original s', enter os device (.start state) = .ok ⟨⟩ s →
        w.run os device s = .error original s' →
        ∃ exc, result = .error exc final ∧ original.SurfacesAs exc) ∧
      ∀ live dev, Drives os device.abi fd live dev → (dev state).buffer.WellFormed →
        ∀ s, result = .ok ⟨⟩ s → (dev final.os).buffer.len = 0 ∧
          (dev final.os).buffer.capacity = (dev state).buffer.capacity := by
  intro result final
  refine ⟨fun exc hopen => ?_, fun fd hopen => ?_⟩
  · have hresult : result = .error exc (Session.after os .open (.start state)) :=
      withDevice_of_enter_error (bind_of_error (openPath_of_error hopen))
    have hfinal : final = Session.after os .open (.start state) :=
      (congrArg (afterwards os device actions ∘ stateOf) hresult).trans (afterwards_of_none _ rfl)
    rw [hfinal]
    exact ⟨hresult, rfl⟩
  · have hcloses : Closes os fd _ (stateOf result) := closes_withDevice w hopen
    have hfinal : final = stateOf result := afterwards_of_none actions hcloses.fd_eq
    have hraised {original : Raised} (h : ∃ exc s, result = .error exc s ∧ original.SurfacesAs exc) :
        ∃ exc, result = .error exc final ∧ original.SurfacesAs exc := by
      obtain ⟨exc, s, hresult, hsurfaces⟩ := h
      exact ⟨exc, by rw [hfinal, hresult, stateOf], hsurfaces⟩
    refine ⟨?_, fun original s hsetup => hraised ?_, fun s original s' henter hrun => hraised ?_,
      fun live dev hdrives hwf s hresult => ?_⟩
    · obtain ⟨-, calls, _, hperforms, -, htrace⟩ := hcloses
      rw [hfinal, htrace]
      exact ⟨calls, rfl, hperforms.on⟩
    · obtain ⟨exc, henter, hsurfaces⟩ := enter_of_setup_error (openPath_of_ok hopen) hsetup
      exact ⟨exc, _, withDevice_of_enter_error henter, hsurfaces⟩
    · obtain ⟨fd', hopen', -, hfd⟩ := enter_eq_ok henter
      have hworkload : Uses os fd' s (stateOf (w.run os device s)) :=
        (keeps_run respected_holding w s hfd).1
      rw [hrun] at hworkload
      obtain ⟨exc, hwith, hsurfaces⟩ :=
        withDevice_of_run_error henter hrun (hworkload.fd_eq.trans hfd)
      exact ⟨exc, _, hwith, hsurfaces⟩
    · have hrestored := hdrives.withDevice_restores (s := .start state) hopen hwf hresult
      rw [hfinal, hresult]
      exact hrestored

/-- The workload resizes the device to more than it had. -/
def resizing : Workload :=
  .apply (.dict [("op", .str "resize"), ("capacity", .int 300)]) fun _ => .done

/-- A device of the smallest capacity, with ten bytes stored, is resized twice and restored. -/
theorem lifecycle_resizing :
    let result := withDevice (driver .quiet 3) ⟨512, abi⟩ resizing (.start .wrapped)
    let final := afterwards (driver .quiet 3) ⟨512, abi⟩ [.exit none] (stateOf result)
    (∃ calls, final.trace = .open :: calls ++ [.close 3] ∧ ∀ call ∈ calls, call.On 3) ∧
      final.os.buffer.len = 0 ∧ final.os.buffer.capacity = 256 := by
  obtain ⟨-, hopened⟩ := lifecycle (driver .quiet 3) ⟨512, abi⟩ resizing [.exit none] .wrapped
  obtain ⟨hclosed, -, -, hrestored⟩ := hopened 3 rfl
  have hok : ∃ s, withDevice (driver .quiet 3) ⟨512, abi⟩ resizing (.start .wrapped) = .ok ⟨⟩ s :=
    ⟨_, rfl⟩
  obtain ⟨s, hs⟩ := hok
  exact ⟨hclosed, hrestored _ id (drives_driver .quiet 3) RingbufChar.Dev.wellFormed_wrapped s hs⟩

end Lab.Lifecycle
