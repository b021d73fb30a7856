import KernelBridge.Driver.Buffer

/-!
# The device and its critical sections

`struct ringbuf_char_dev` of `kernel/ringbuf_char.c`, and what each entry point does while it
holds `dev->lock`: the body of the read and write loops, from `mutex_lock_interruptible` to
`mutex_unlock`, and the mutex sections of the ioctls, of `poll` and of module exit. How threads
interleave these sections is in `Driver.Threads`.

`atomic64_t` counters wrap, so they are 64-bit vectors. The statistics counters that
`ringbuf_char_reset_stats` zeroes are one family indexed by `Counter`. The device number, the
`cdev`, the class and the log messages are left out: no function below reads them.
-/

namespace RingbufChar

/-- The statistics counters of the device that `RESET_STATS` zeroes. -/
inductive Counter
  | totalBytesRead
  | totalBytesWritten
  | readCalls
  | writeCalls
  | openCalls
  | ioctlCalls
  | failedOperations
  | blockedReads
  | blockedWrites
  | clears
  | resizes
  deriving DecidableEq, Repr

/-- The counters in the order in which `ringbuf_char_reset_stats` zeroes them. -/
def Counter.all : List Counter :=
  [.totalBytesRead, .totalBytesWritten, .readCalls, .writeCalls, .openCalls, .ioctlCalls,
    .failedOperations, .blockedReads, .blockedWrites, .clears, .resizes]

/-- `struct ringbuf_char_dev`. -/
structure Dev where
  buffer : Buffer
  stateGeneration : BitVec 64
  counters : Counter → BitVec 64
  openHandles : BitVec 64
  mode : BitVec 32
  shuttingDown : Bool

/-- `RINGBUF_CHAR_MODE_F_NONBLOCK`, which is also `RINGBUF_CHAR_MODE_VALID_MASK`. -/
def modeNonblock : BitVec 32 := 1

/-- The outcomes of the user-copy calls of one copy loop. The `i`-th call, for `n` bytes, leaves
`missing i n` of them uncopied; it copies the others first. `copy_from_user` leaves the bytes
`scribble i m` in the `m` uncopied bytes of its destination. -/
structure UserCopy where
  missing : ℕ → ℕ → ℕ
  missing_le : ∀ i n, missing i n ≤ n
  scribble : ℕ → ℕ → List UInt8
  length_scribble : ∀ i m, (scribble i m).length = m

/-- The zeros that stand for bytes that could not be copied are as many. -/
theorem UserCopy.length_zeros (_ m : ℕ) : (List.replicate m (0 : UInt8)).length = m :=
  List.length_replicate

/-- Accessible user memory: nothing is ever left uncopied. -/
def UserCopy.accessible : UserCopy where
  missing _ _ := 0
  missing_le _ _ := Nat.zero_le _
  scribble _ m := List.replicate m 0
  length_scribble := UserCopy.length_zeros

/-- How the mutex section of a read or a write ends. -/
inductive Outcome
  /-- The mutex is dropped and the caller waits, having saved this generation. -/
  | wait (seen : BitVec 64)
  /-- The mutex is dropped, then the failure is noted and the error returned. -/
  | fail (e : Errno)
  /-- Nothing was copied; the failure has been noted and `-EFAULT` is returned. -/
  | fault
  /-- Zero is returned. -/
  | eof
  /-- These bytes went through, and their number is returned. -/
  | moved (bytes : List UInt8)
  deriving DecidableEq, Repr

/-- `struct ringbuf_char_stats`. -/
structure Stats where
  abiVersion : BitVec 32
  structSize : BitVec 32
  currentCapacity : ℕ
  storedBytes : ℕ
  availableBytes : ℕ
  counters : Counter → BitVec 64
  currentOpenHandles : BitVec 64
  mode : BitVec 32

namespace Dev

/-- `atomic64_add` on a statistics counter. -/
def add (dev : Dev) (c : Counter) (n : BitVec 64) : Dev :=
  { dev with counters := Function.update dev.counters c (dev.counters c + n) }

/-- `atomic64_inc` on a statistics counter. -/
def inc (dev : Dev) (c : Counter) : Dev := dev.add c 1

/-- `atomic64_inc(&dev->state_generation)`. -/
def bump (dev : Dev) : Dev := { dev with stateGeneration := dev.stateGeneration + 1 }

/-- `ringbuf_char_note_failure`. -/
def noteFailure (dev : Dev) : Dev := dev.inc .failedOperations

/-- `ringbuf_char_nonblocking`, of a descriptor with or without `O_NONBLOCK`. -/
def nonblocking (nonblock : Bool) (dev : Dev) : Bool :=
  nonblock || decide (dev.mode &&& modeNonblock ≠ 0)

/-- `ringbuf_char_read_condition`. -/
def readCondition (dev : Dev) (seen : BitVec 64) : Bool :=
  dev.shuttingDown || decide (dev.buffer.len > 0) || decide (dev.stateGeneration ≠ seen)

/-- `ringbuf_char_write_condition`. -/
def writeCondition (dev : Dev) (seen : BitVec 64) : Bool :=
  dev.shuttingDown || decide (dev.buffer.capacity > dev.buffer.len) ||
    decide (dev.stateGeneration ≠ seen)

/-- `ringbuf_char_fill_stats_locked`. -/
def fillStats (dev : Dev) : Stats where
  abiVersion := 1
  structSize := 136
  currentCapacity := dev.buffer.capacity
  storedBytes := dev.buffer.stored
  availableBytes := dev.buffer.available
  counters := dev.counters
  currentOpenHandles := dev.openHandles
  mode := dev.mode

/-- The device as module initialisation leaves it, around a freshly initialised buffer. -/
def init (capacity : ℕ) (alloc : Alloc) : Except Errno Dev :=
  if !capacityValid capacity then .error .EINVAL
  else
    (Buffer.init capacity alloc).map fun buffer =>
      { buffer, stateGeneration := 0, counters := fun _ => 0, openHandles := 0, mode := 0,
        shuttingDown := false }

/-! ## The mutex section of `ringbuf_char_read` -/

/-- One test of the copy loop of `ringbuf_char_read`, and its body. The loop state is the number
of the user-copy call, the bytes delivered so far, and the device. -/
def readCopyStep (count : ℕ) (uc : UserCopy) :
    ℕ × List UInt8 × Dev → (ℕ × List UInt8 × Dev) ⊕ (Outcome × Dev)
  | (i, copied, dev) =>
    if copied.length < count ∧ dev.buffer.stored > 0 then
      let (span, src) := dev.buffer.readSpan
      let chunk := min (count - copied.length) span
      let missing := uc.missing i chunk
      -- only the bytes that reached the user leave the buffer
      let transferred := chunk - missing
      let copied := copied ++ dev.buffer.load src transferred
      let dev := { dev with buffer := dev.buffer.consume transferred }
      if missing ≠ 0 then
        let dev := dev.noteFailure
        -- after partial progress the count is returned, and the fault is only counted
        if copied.length = 0 then .inr (.fault, dev) else .inr (.moved copied, dev)
      else .inl (i + 1, copied, dev)
    else .inr (.moved copied, dev)

/-- What `ringbuf_char_read` does under the mutex, for a nonzero `count`; `none` if its copy loop
needs more than `count + 1` tests. -/
def readSection (nonblock : Bool) (count : ℕ) (uc : UserCopy) (dev : Dev) :
    Option (Outcome × Dev) :=
  if dev.buffer.stored > 0 ∨ dev.shuttingDown then
    -- what is stored can still be read from a device that is going away
    if dev.shuttingDown ∧ dev.buffer.stored = 0 then some (.eof, dev)
    else Loop.run (readCopyStep count uc) (count + 1) (0, [], dev)
  else if dev.nonblocking nonblock then some (.fail .EAGAIN, dev)
  else some (.wait dev.stateGeneration, dev.inc .blockedReads)

/-! ## The mutex section of `ringbuf_char_write` -/

/-- One test of the copy loop of `ringbuf_char_write`, and its body. The loop state is the number
of the user-copy call, the number of bytes committed so far, and the device. -/
def writeCopyStep (data : List UInt8) (writable : ℕ) (uc : UserCopy) :
    ℕ × ℕ × Dev → (ℕ × ℕ × Dev) ⊕ (Outcome × Dev)
  | (i, copied, dev) =>
    if copied < writable then
      let (span, dst) := dev.buffer.writeSpan
      let chunk := min (writable - copied) span
      -- the guard of the source against an empty span
      if chunk = 0 then .inr (.moved (data.take copied), dev)
      else
        let missing := uc.missing i chunk
        let transferred := chunk - missing
        -- a failed copy has written to the whole chunk, of which only its good part is committed
        let block := (data.drop copied).take transferred ++ uc.scribble i missing
        let dev := { dev with buffer := (dev.buffer.store dst block).commit transferred }
        let copied := copied + transferred
        if missing ≠ 0 then
          let dev := dev.noteFailure
          if copied = 0 then .inr (.fault, dev) else .inr (.moved (data.take copied), dev)
        else .inl (i + 1, copied, dev)
    else .inr (.moved (data.take copied), dev)

/-- What `ringbuf_char_write` does under the mutex, for nonempty `data`; `none` if its copy loop
needs more than `data.length + 1` tests. -/
def writeSection (nonblock : Bool) (data : List UInt8) (uc : UserCopy) (dev : Dev) :
    Option (Outcome × Dev) :=
  let writable := dev.buffer.available
  if writable > 0 ∨ dev.shuttingDown then
    -- unlike a read, a write to a device that is going away fails
    if dev.shuttingDown then some (.fail .ENODEV, dev)
    else
      Loop.run (writeCopyStep data (min data.length writable) uc) (data.length + 1) (0, 0, dev)
  else if dev.nonblocking nonblock then some (.fail .EAGAIN, dev)
  else some (.wait dev.stateGeneration, dev.inc .blockedWrites)

/-! ## The other mutex sections -/

/-- `RINGBUF_CHAR_IOC_CLEAR` under the mutex. -/
def clearSection (dev : Dev) : Dev :=
  ({ dev with buffer := dev.buffer.clear }.inc .clears).bump

/-- `RINGBUF_CHAR_IOC_SET_CAPACITY` under the mutex: the return value of the resize, and the
device. -/
def setCapacitySection (requested : ℕ) (alloc : Alloc) (dev : Dev) : Except Errno Unit × Dev :=
  match dev.buffer.resize requested alloc with
  | .ok buffer => (.ok (), ({ dev with buffer }.inc .resizes).bump)
  | .error e => (.error e, dev)

/-- `RINGBUF_CHAR_IOC_SET_MODE` under the mutex. -/
def setModeSection (mode : BitVec 32) (dev : Dev) : Dev := { dev with mode }.bump

/-- Module exit under the mutex. -/
def exitSection (dev : Dev) : Dev := { dev with shuttingDown := true }.bump

end Dev

end RingbufChar
