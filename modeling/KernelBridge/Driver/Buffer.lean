import KernelBridge.Lib.Circular
import KernelBridge.Lib.Loop

/-!
# The circular buffer

The byte buffer of `kernel/ringbuf_char_buffer.c`, function by function. A pointer into the
allocation is an offset from its start, and the block returned by `kvmalloc` is a list of bytes
of unspecified contents; `NULL` is the empty block, which no successful allocation returns. The
guards against a `NULL` buffer, destination or source argument are left out: every caller passes
the address of an object.

`size_t` arithmetic is arithmetic of natural numbers. Nothing here wraps on a well-formed buffer:
`WellFormed` bounds every subtrahend, and the invariant itself is in `Driver.BufferInvariant`.
-/

namespace RingbufChar

/-- The error numbers the driver returns. -/
inductive Errno
  | ENOMEM
  | EFAULT
  | ENODEV
  | EINVAL
  | ENOTTY
  | EAGAIN
  | EMSGSIZE
  | ERESTARTSYS
  deriving DecidableEq, Repr

/-- The value of an error number on Linux. -/
def Errno.code : Errno → ℕ
  | .EAGAIN => 11
  | .ENOMEM => 12
  | .EFAULT => 14
  | .ENODEV => 19
  | .EINVAL => 22
  | .ENOTTY => 25
  | .EMSGSIZE => 90
  | .ERESTARTSYS => 512

/-- `RINGBUF_CHAR_MIN_CAPACITY`. -/
def minCapacity : ℕ := 256

/-- `RINGBUF_CHAR_MAX_CAPACITY`. -/
def maxCapacity : ℕ := 65536

/-- `ringbuf_char_capacity_valid`, and `ringbuf_char_capacity_valid_u64` of the driver. -/
def capacityValid (capacity : ℕ) : Bool :=
  decide (minCapacity ≤ capacity) && decide (capacity ≤ maxCapacity)

/-- The outcome of `kvmalloc(size, GFP_KERNEL)`: `NULL`, or a block of `size` bytes whose
contents are unspecified. -/
abbrev Alloc := (size : ℕ) → Option { block : List UInt8 // block.length = size }

/-- An allocator that succeeds and happens to return zeroed memory. -/
def Alloc.zeroed : Alloc := fun size => some ⟨List.replicate size 0, List.length_replicate⟩

/-- `struct ringbuf_char_buffer`. -/
structure Buffer where
  /-- The allocated block; `[]` is the `NULL` pointer. -/
  data : List UInt8
  capacity : ℕ
  len : ℕ
  readPos : ℕ
  writePos : ℕ
  deriving DecidableEq, Repr

namespace Buffer

/-- `ringbuf_char_buffer_init`. -/
def init (capacity : ℕ) (alloc : Alloc) : Except Errno Buffer :=
  if !capacityValid capacity then .error .EINVAL
  else
    match alloc capacity with
    | none => .error .ENOMEM
    | some block => .ok { data := block, capacity, len := 0, readPos := 0, writePos := 0 }

/-- `ringbuf_char_buffer_stored`. -/
def stored (b : Buffer) : ℕ := b.len

/-- `ringbuf_char_buffer_available`. -/
def available (b : Buffer) : ℕ := if b.len > b.capacity then 0 else b.capacity - b.len

/-- `ringbuf_char_buffer_read_span`: the length of the span, and the pointer stored in `*ptr`. -/
def readSpan (b : Buffer) : ℕ × Option ℕ :=
  if b.data = [] ∨ b.len = 0 then (0, none)
  else (min b.len (b.capacity - b.readPos), some b.readPos)

/-- `ringbuf_char_buffer_consume`. -/
def consume (b : Buffer) (count : ℕ) : Buffer :=
  if b.data = [] ∨ count = 0 then b
  else
    let count := min count b.len
    let b := { b with readPos := (b.readPos + count) % b.capacity, len := b.len - count }
    -- an empty buffer starts over, so that the next spans are as long as they can be
    if b.len = 0 then { b with readPos := 0, writePos := 0 } else b

/-- `ringbuf_char_buffer_write_span`: the length of the span, and the pointer stored in `*ptr`. -/
def writeSpan (b : Buffer) : ℕ × Option ℕ :=
  if b.data = [] then (0, none)
  else if b.available = 0 then (0, none)
  else (min b.available (b.capacity - b.writePos), some b.writePos)

/-- `ringbuf_char_buffer_commit`. -/
def commit (b : Buffer) (count : ℕ) : Buffer :=
  if b.data = [] ∨ count = 0 then b
  else
    -- a caller that commits too much commits what fits
    let count := min count b.available
    { b with writePos := (b.writePos + count) % b.capacity, len := b.len + count }

/-- The `n` bytes at the pointer `ptr` into the block. -/
def load (b : Buffer) (ptr : Option ℕ) (n : ℕ) : List UInt8 :=
  match ptr with
  | none => []
  | some off => (b.data.drop off).take n

/-- Stores the bytes `bs` at the pointer `ptr` into the block. -/
def store (b : Buffer) (ptr : Option ℕ) (bs : List UInt8) : Buffer :=
  match ptr with
  | none => b
  | some off => { b with data := Circular.overwrite b.data off bs }

/-- One test of the loop of `ringbuf_char_buffer_read`, and its body: `copied` holds the bytes
already in `dst`. -/
def readStep (count : ℕ) :
    List UInt8 × Buffer → (List UInt8 × Buffer) ⊕ (List UInt8 × Buffer)
  | (copied, b) =>
    if copied.length < count ∧ b.len > 0 then
      let (span, src) := b.readSpan
      let chunk := min (count - copied.length) span
      .inl (copied ++ b.load src chunk, b.consume chunk)
    else .inr (copied, b)

/-- `ringbuf_char_buffer_read`: the bytes copied to `dst` and the buffer left behind; `none` if
the loop needs more than `count + 1` tests. -/
def read (b : Buffer) (count : ℕ) : Option (List UInt8 × Buffer) :=
  if count = 0 then some ([], b) else Loop.run (readStep count) (count + 1) ([], b)

/-- One test of the loop of `ringbuf_char_buffer_write`, and its body: `copied` counts the bytes
of `src` already stored. -/
def writeStep (src : List UInt8) : ℕ × Buffer → (ℕ × Buffer) ⊕ (ℕ × Buffer)
  | (copied, b) =>
    if copied < src.length ∧ b.available > 0 then
      let (span, dst) := b.writeSpan
      let chunk := min (src.length - copied) span
      .inl (copied + chunk, (b.store dst ((src.drop copied).take chunk)).commit chunk)
    else .inr (copied, b)

/-- `ringbuf_char_buffer_write` of all of `src`: the count copied and the buffer left behind;
`none` if the loop needs more than `src.length + 1` tests. -/
def write (b : Buffer) (src : List UInt8) : Option (ℕ × Buffer) :=
  if src.length = 0 then some (0, b) else Loop.run (writeStep src) (src.length + 1) (0, b)

/-- `ringbuf_char_buffer_clear`. -/
def clear (b : Buffer) : Buffer := { b with len := 0, readPos := 0, writePos := 0 }

/-- The loop of `ringbuf_char_buffer_resize` that copies the stored bytes to the new block. -/
def relinearise (b : Buffer) (newData : List UInt8) : List UInt8 :=
  (List.range b.len).foldl
    (fun newData index =>
      newData.set index (b.data.getD ((b.readPos + index) % b.capacity) 0))
    newData

/-- `ringbuf_char_buffer_resize`. -/
def resize (b : Buffer) (newCapacity : ℕ) (alloc : Alloc) : Except Errno Buffer :=
  if !capacityValid newCapacity then .error .EINVAL
  -- shrinking never discards stored bytes
  else if newCapacity < b.len then .error .EMSGSIZE
  else
    match alloc newCapacity with
    | none => .error .ENOMEM
    | some newData =>
      .ok { b with
        data := b.relinearise newData
        capacity := newCapacity
        readPos := 0
        -- a buffer that is full writes next where it reads next
        writePos := if b.len = newCapacity then 0 else b.len }

end Buffer

end RingbufChar
