import KernelBridge.Userspace.Threads

/-!
# The concurrency test as a process

The whole of `userspace/concurrent_test.c` behind its command line: `main` allocates, creates the
readers and the writers, joins the threads it has created and turns the shared state into the exit
code. Unlike in `Sys`, whose threads are at their loops from the start, a thread here is created,
allocates and opens the device first, and each of these can fail; and the device is any
`Device`, which need not keep the bytes it is given.

`mainStep` is a step of the main thread. A step that can fail is told whether it does by its
argument `ok`.
-/

namespace ConcurrentTest

/-! ## The device -/

/-- A device as the system calls show it: what `write` and `read` can return, and the state behind
the call. Nothing is asked of the answers. -/
structure Device (σ : Type) where
  initial : σ
  write : σ → List UInt8 → Except SysError ℕ → σ → Prop
  read : σ → ℕ → Except SysError (List UInt8) → σ → Prop

/-- The lossless queue. Its calls move a part of what they are asked to, or fail with `EAGAIN` or
`EINTR`, whatever is in the queue. -/
def Device.fifo : Device (List UInt8) where
  initial := []
  write fifo data ret fifo' := DeviceWrite data fifo ret fifo'
  read fifo count ret fifo' := DeviceRead count fifo ret fifo'

/-- The bytes of `data` that a `write` has taken, as its return value tells. -/
def taken (data : List UInt8) : Except SysError ℕ → List UInt8
  | .ok n => data.take n
  | .error _ => []

/-! ## Threads -/

/-- Where a thread stands that the main thread creates. -/
inductive Thread (α : Type)
  /-- Not created. -/
  | absent
  /-- In front of its allocation and its `open`. -/
  | starting
  /-- One of them has failed: about to count the failure. -/
  | refused
  /-- About to set the stop flag and to return. -/
  | cancelling
  /-- Behind its `open`. -/
  | opened (pc : α)
  deriving DecidableEq

/-- The steps of a thread in front of its loop: `entry` is its place at the loop, `exit` the one
where it has returned. -/
def Thread.start {α : Type} (entry exit : α) (ok : Bool) (s : SharedState) :
    Thread α → Option (Thread α × SharedState)
  | .starting => some (if ok then .opened entry else .refused, s)
  | .refused => some (.cancelling, s.fail)
  | .cancelling => some (.opened exit, { s with stop := true })
  | .absent | .opened _ => none

/-! ## The main thread -/

/-- Where the main thread stands. -/
inductive MainPc
  /-- In front of `init_state` and the allocation of the thread arrays. -/
  | setup
  | createReader (index : ℕ)
  | createWriter (index : ℕ)
  /-- A thread could not be created: about to set the stop flag. -/
  | abort
  | joinWriter (index : ℕ)
  | joinReader (index : ℕ)
  /-- All threads have been joined, and none is missing. -/
  | verdict
  | exited (exitCode : ℕ)
  deriving DecidableEq, Repr

/-- The process: the shared state with the locks, the threads, the local variables of `main` and the
state of the device. -/
structure Process (opts : TestOptions) (σ : Type) where
  shared : SharedState
  writeLock : Option (Fin opts.writers)
  readLock : Option (Fin opts.readers)
  writer : Fin opts.writers → Thread (WriterPc opts)
  reader : Fin opts.readers → Thread ReaderPc
  main : MainPc
  readersStarted : ℕ
  writersStarted : ℕ
  startupFailed : Bool
  device : σ

/-- The process in front of `init_state`. -/
def Process.init (opts : TestOptions) {σ : Type} (device : Device σ) : Process opts σ where
  shared := .init opts
  writeLock := none
  readLock := none
  writer := fun _ => .absent
  reader := fun _ => .absent
  main := .setup
  readersStarted := 0
  writersStarted := 0
  startupFailed := false
  device := device.initial

/-- `missing`: the frames that no reader has seen. -/
def SharedState.missing (s : SharedState) : ℕ := s.seen.count false

/-- What `main` makes of the shared state when all threads have been joined: a rest in the stream is
counted as a failure, and the exit code is 0 only if everything is there and nothing has failed. -/
def verdict (opts : TestOptions) (s : SharedState) : SharedState × ℕ :=
  let expectedFrames := opts.writers * opts.messages
  let s' := if s.stream.length ≠ 0 then s.fail else s
  (s', if s'.stats.writesCompleted = expectedFrames ∧ s'.stats.framesValidated = expectedFrames ∧
      s.missing = 0 ∧ s'.stats.validationFailures = 0 then 0 else 1)

open Function in
/-- One step of `main`; `none` while it waits for a thread, and when it has returned. -/
def mainStep {opts : TestOptions} {σ : Type} (ok : Bool) (p : Process opts σ) :
    Option (Process opts σ) :=
  match p.main with
  | .setup => some { p with main := if ok then .createReader 0 else .exited 1 }
  | .createReader index =>
    if h : index < opts.readers then
      if ok then
        some { p with
          reader := update p.reader ⟨index, h⟩ .starting
          readersStarted := p.readersStarted + 1
          main := .createReader (index + 1) }
      else some { p with main := .abort }
    else some { p with main := .createWriter 0 }
  | .createWriter index =>
    if h : index < opts.writers then
      if ok then
        some { p with
          writer := update p.writer ⟨index, h⟩ .starting
          writersStarted := p.writersStarted + 1
          main := .createWriter (index + 1) }
      else some { p with main := .abort }
    else some { p with main := .joinWriter 0 }
  | .abort => some { p with shared.stop := true, startupFailed := true, main := .joinWriter 0 }
  | .joinWriter index =>
    if index < p.writersStarted then
      -- `pthread_join` returns when the thread has returned
      if ∀ w : Fin opts.writers, w = index → p.writer w = .opened .done then
        some { p with main := .joinWriter (index + 1) }
      else none
    else some { p with main := .joinReader 0 }
  | .joinReader index =>
    if index < p.readersStarted then
      if ∀ r : Fin opts.readers, r = index → p.reader r = .opened .done then
        some { p with main := .joinReader (index + 1) }
      else none
    else some { p with main := if p.startupFailed then .exited 1 else .verdict }
  | .verdict =>
    some { p with
      shared := (verdict opts p.shared).1
      main := .exited (verdict opts p.shared).2 }
  | .exited _ => none

/-! ## The system -/

/-- What the process runs on: the device, and what can fail besides its calls. -/
structure Platform (σ : Type) where
  device : Device σ
  /-- Whether `realloc` to a size succeeds. -/
  realloc : ℕ → Bool
  /-- Whether the other allocations, `open` and `pthread_create` can fail. -/
  mayRefuse : Bool

/-- A lossless queue, whose calls can fail with `EAGAIN` and `EINTR`. Besides them only `realloc`
can fail. -/
abbrev Platform.lossless (realloc : ℕ → Bool) : Platform (List UInt8) where
  device := .fifo
  realloc := realloc
  mayRefuse := false

open Function in
/-- One step of one thread of the process. -/
inductive Process.Step (opts : TestOptions) {σ : Type} (platform : Platform σ) :
    Process opts σ → Event → Process opts σ → Prop
  | main {p p' : Process opts σ} {ok : Bool} (may : ok = false → platform.mayRefuse = true)
      (h : mainStep ok p = some p') : Step opts platform p .tau p'
  | startWriter {p : Process opts σ} (w : Fin opts.writers) {ok : Bool}
      (may : ok = false → platform.mayRefuse = true) {thread : Thread (WriterPc opts)}
      {s : SharedState}
      (h : (p.writer w).start (.test 0) .done ok p.shared = some (thread, s)) :
      Step opts platform p .tau { p with shared := s, writer := update p.writer w thread }
  | startReader {p : Process opts σ} (r : Fin opts.readers) {ok : Bool}
      (may : ok = false → platform.mayRefuse = true) {thread : Thread ReaderPc} {s : SharedState}
      (h : (p.reader r).start (.test 0) .done ok p.shared = some (thread, s)) :
      Step opts platform p .tau { p with shared := s, reader := update p.reader r thread }
  | writer {p : Process opts σ} (w : Fin opts.writers) {pc pc' : WriterPc opts} {s : SharedState}
      (h : p.writer w = .opened pc) (step : writerStep opts p.shared pc = some (pc', s)) :
      Step opts platform p .tau { p with shared := s, writer := update p.writer w (.opened pc') }
  | writeLock {p : Process opts σ} (w : Fin opts.writers) {sequence : Fin opts.messages}
      (h : p.writer w = .opened (.lock sequence)) (free : p.writeLock = none) :
      Step opts platform p .tau
        { p with
          writeLock := some w
          writer := update p.writer w (.opened (.retry sequence 0)) }
  | write {p : Process opts σ} (w : Fin opts.writers) {sequence : Fin opts.messages} {offset : ℕ}
      {ret : Except SysError ℕ} {d : σ} (h : p.writer w = .opened (.write sequence offset))
      (call : platform.device.write p.device ((Message.frame (w, sequence)).drop offset) ret d) :
      Step opts platform p (.write (taken ((Message.frame (w, sequence)).drop offset) ret))
        { p with
          device := d
          writer := update p.writer w (.opened (afterWrite sequence offset ret)) }
  | writeUnlock {p : Process opts σ} (w : Fin opts.writers) {sequence : Fin opts.messages}
      {ret : Except WriteError Unit} (h : p.writer w = .opened (.unlock sequence ret)) :
      Step opts platform p .tau
        { p with
          writeLock := none
          writer := update p.writer w (.opened (afterWriteFrame sequence ret)) }
  | reader {p : Process opts σ} (r : Fin opts.readers) {pc pc' : ReaderPc} {s : SharedState}
      (h : p.reader r = .opened pc) (step : readerStep opts p.shared pc = some (pc', s)) :
      Step opts platform p .tau { p with shared := s, reader := update p.reader r (.opened pc') }
  | readLock {p : Process opts σ} (r : Fin opts.readers) {idle : ℕ}
      (h : p.reader r = .opened (.lock idle)) (free : p.readLock = none) :
      Step opts platform p .tau
        { p with readLock := some r, reader := update p.reader r (.opened (.read idle)) }
  | read {p : Process opts σ} (r : Fin opts.readers) {idle : ℕ}
      {ret : Except SysError (List UInt8)} {d : σ} (h : p.reader r = .opened (.read idle))
      (call : platform.device.read p.device readChunkSize ret d) :
      Step opts platform p .tau
        { p with device := d, reader := update p.reader r (.opened (afterRead idle ret)) }
  | append {p : Process opts σ} (r : Fin opts.readers) {idle : ℕ} {buffer : List UInt8}
      {s : SharedState} (h : p.reader r = .opened (.append idle buffer))
      (capacity : ensureStreamCapacity platform.realloc p.shared buffer.length = some (some s)) :
      Step opts platform p (.append buffer)
        { p with
          shared := { s with stream := s.stream ++ buffer }
          reader := update p.reader r (.opened (.validate idle buffer.length)) }
  | overflow {p : Process opts σ} (r : Fin opts.readers) {idle : ℕ} {buffer : List UInt8}
      (h : p.reader r = .opened (.append idle buffer))
      (capacity : ensureStreamCapacity platform.realloc p.shared buffer.length = some none) :
      Step opts platform p .tau
        { p with
          shared := p.shared.fail
          reader := update p.reader r (.opened (.overflow idle buffer.length)) }
  | readUnlock {p : Process opts σ} (r : Fin opts.readers) {idle : ℕ} {ret : Except SysError ℕ}
      (h : p.reader r = .opened (.unlock idle ret)) :
      Step opts platform p .tau
        { p with readLock := none, reader := update p.reader r (.opened (afterReadLock idle ret)) }

/-- The runs of the process. -/
abbrev Process.Run (opts : TestOptions) {σ : Type} (platform : Platform σ) :
    List Event → Process opts σ → Prop :=
  Lts.Run (Process.Step opts platform) (Process.init opts platform.device)

end ConcurrentTest
