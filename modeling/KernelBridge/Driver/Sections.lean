import KernelBridge.Driver.BufferRuns
import KernelBridge.Driver.Device

/-!
# What the critical sections do

One specification for each mutex section, from a well-formed buffer. `ReadOutcome` and
`WriteOutcome` list the ways in which the section of a read or a write can end, with everything
the section has seen and changed; `readSection_spec` and `writeSection_spec` say that the sections
always end, and in one of these ways. Nothing later looks inside the copy loops.
-/

namespace RingbufChar

open Buffer

/-- No user copy leaves bytes uncopied. -/
def UserCopy.Faultless (uc : UserCopy) : Prop := ∀ i n, uc.missing i n = 0

/-- Accessible memory never faults. -/
theorem UserCopy.accessible_faultless : UserCopy.accessible.Faultless := fun _ _ => rfl

namespace Dev

@[simp] theorem buffer_add (dev : Dev) (c : Counter) (n : BitVec 64) :
    (dev.add c n).buffer = dev.buffer := rfl

@[simp] theorem stateGeneration_add (dev : Dev) (c : Counter) (n : BitVec 64) :
    (dev.add c n).stateGeneration = dev.stateGeneration := rfl

@[simp] theorem mode_add (dev : Dev) (c : Counter) (n : BitVec 64) :
    (dev.add c n).mode = dev.mode := rfl

@[simp] theorem shuttingDown_add (dev : Dev) (c : Counter) (n : BitVec 64) :
    (dev.add c n).shuttingDown = dev.shuttingDown := rfl

@[simp] theorem openHandles_add (dev : Dev) (c : Counter) (n : BitVec 64) :
    (dev.add c n).openHandles = dev.openHandles := rfl

@[simp] theorem buffer_inc (dev : Dev) (c : Counter) : (dev.inc c).buffer = dev.buffer := rfl

@[simp] theorem stateGeneration_inc (dev : Dev) (c : Counter) :
    (dev.inc c).stateGeneration = dev.stateGeneration := rfl

@[simp] theorem shuttingDown_inc (dev : Dev) (c : Counter) :
    (dev.inc c).shuttingDown = dev.shuttingDown := rfl

@[simp] theorem mode_inc (dev : Dev) (c : Counter) : (dev.inc c).mode = dev.mode := rfl

@[simp] theorem buffer_noteFailure (dev : Dev) : dev.noteFailure.buffer = dev.buffer := rfl

@[simp] theorem stateGeneration_noteFailure (dev : Dev) :
    dev.noteFailure.stateGeneration = dev.stateGeneration := rfl

@[simp] theorem shuttingDown_noteFailure (dev : Dev) :
    dev.noteFailure.shuttingDown = dev.shuttingDown := rfl

@[simp] theorem mode_noteFailure (dev : Dev) : dev.noteFailure.mode = dev.mode := rfl

@[simp] theorem buffer_bump (dev : Dev) : dev.bump.buffer = dev.buffer := rfl

@[simp] theorem shuttingDown_bump (dev : Dev) : dev.bump.shuttingDown = dev.shuttingDown := rfl

/-- `dev`, with the failure of a user copy noted if there was one. -/
def noteIf (faulted : Bool) (dev : Dev) : Dev := if faulted then dev.noteFailure else dev

@[simp] theorem buffer_noteIf (faulted : Bool) (dev : Dev) :
    (dev.noteIf faulted).buffer = dev.buffer := by
  cases faulted <;> rfl

@[simp] theorem stateGeneration_noteIf (faulted : Bool) (dev : Dev) :
    (dev.noteIf faulted).stateGeneration = dev.stateGeneration := by
  cases faulted <;> rfl

@[simp] theorem shuttingDown_noteIf (faulted : Bool) (dev : Dev) :
    (dev.noteIf faulted).shuttingDown = dev.shuttingDown := by
  cases faulted <;> rfl

/-! ## Reading -/

/-- The ways in which the mutex section of a read of `count > 0` bytes ends. -/
inductive ReadOutcome (nonblock : Bool) (count : ℕ) (uc : UserCopy) (dev : Dev) :
    Outcome → Dev → Prop
  | eof (hdown : dev.shuttingDown = true) (hempty : dev.buffer.len = 0) :
      ReadOutcome nonblock count uc dev .eof dev
  | again (hup : dev.shuttingDown = false) (hempty : dev.buffer.len = 0)
      (hnb : dev.nonblocking nonblock = true) :
      ReadOutcome nonblock count uc dev (.fail .EAGAIN) dev
  | wait (hup : dev.shuttingDown = false) (hempty : dev.buffer.len = 0)
      (hnb : dev.nonblocking nonblock = false) :
      ReadOutcome nonblock count uc dev (.wait dev.stateGeneration) (dev.inc .blockedReads)
  | fault (hstored : 0 < dev.buffer.len) (hbad : ¬uc.Faultless) :
      ReadOutcome nonblock count uc dev .fault dev.noteFailure
  | moved (k : ℕ) (faulted : Bool) (hpos : 0 < k) (hle : k ≤ min count dev.buffer.len)
      (hall : faulted = false → k = min count dev.buffer.len)
      (hbad : faulted = true → ¬uc.Faultless) :
      ReadOutcome nonblock count uc dev (.moved (dev.buffer.fifo.take k))
        (noteIf faulted { dev with buffer := dev.buffer.consume k })

variable {nonblock : Bool} {count : ℕ} {uc : UserCopy} {dev : Dev}

/-- The copy loop of a read that started on `dev`, with `copied` delivered so far. -/
structure ReadCopyInv (dev : Dev) (count : ℕ) (copied : List UInt8) (d : Dev) : Prop where
  copied_eq : copied = dev.buffer.fifo.take copied.length
  le : copied.length ≤ min count dev.buffer.len
  dev_eq : d = { dev with buffer := dev.buffer.consume copied.length }

/-- One iteration of the copy loop of a read asks for a nonempty chunk, and delivers and consumes
what the user copy lets through. -/
theorem readCopyStep_eq (uc : UserCopy) (h : dev.buffer.WellFormed) {copied : List UInt8} {d : Dev}
    (hinv : ReadCopyInv dev count copied d) (hmore : copied.length < count ∧ d.buffer.stored > 0)
    (i : ℕ) :
    ∃ chunk copied' d', chunk = min (count - copied.length) d.buffer.readSpan.1 ∧ 0 < chunk ∧
      copied.length + chunk ≤ min count dev.buffer.len ∧ ReadCopyInv dev count copied' d' ∧
      copied'.length = copied.length + (chunk - uc.missing i chunk) ∧
      readCopyStep count uc (i, copied, d) =
        if uc.missing i chunk ≠ 0 then
          if copied'.length = 0 then .inr (.fault, d'.noteFailure)
          else .inr (.moved copied', d'.noteFailure)
        else .inl (i + 1, copied', d') := by
  obtain ⟨hcopied, hle, rfl⟩ := hinv
  generalize hn : copied.length = n at hcopied hle hmore
  have hwf := wellFormed_consume h n
  have hlen : (dev.buffer.consume n).len = dev.buffer.len - n := by
    rw [len_consume h, Nat.min_eq_left (by omega)]
  obtain ⟨span, hspan, hpos, hspan_le, -, -, hload⟩ := readSpan_spec hwf hmore.2
  have hfifo := h.length_fifo
  -- the chunk is contiguous in the block, and never empty
  set chunk := min (count - n) span with hchunk
  have hmiss := uc.missing_le i chunk
  set k := chunk - uc.missing i chunk with hk
  have hnk : (dev.buffer.fifo.take (n + k)).length = n + k := by
    rw [List.length_take]; omega
  -- what is loaded continues the bytes already delivered
  have hcopied' : copied ++ (dev.buffer.consume n).load (some (dev.buffer.consume n).readPos) k =
      dev.buffer.fifo.take (n + k) := by
    rw [hload k (by omega), fifo_consume h, List.take_add, ← hcopied]
  refine ⟨chunk, dev.buffer.fifo.take (n + k), _, by rw [hspan], by omega, by omega,
    ⟨by rw [hnk], by rw [hnk]; omega, rfl⟩, hnk, ?_⟩
  rw [readCopyStep, hn, if_pos hmore]
  simp only [hspan, ← hchunk, ← hk, hcopied', hnk, consume_consume h (by omega : n + k ≤ _)]

/-- An iteration that continues has passed the test of the loop. -/
theorem more_of_readCopyStep {i : ℕ} {copied : List UInt8} {d : Dev} {s : ℕ × List UInt8 × Dev}
    (hs : readCopyStep count uc (i, copied, d) = .inl s) :
    copied.length < count ∧ d.buffer.stored > 0 := by
  by_contra hmore
  rw [readCopyStep, if_neg hmore] at hs
  cases hs

/-- An iteration that continues has delivered something. -/
theorem ReadCopyInv.of_continue (h : dev.buffer.WellFormed) {i i' : ℕ} {copied copied' : List UInt8}
    {d d' : Dev} (hinv : ReadCopyInv dev count copied d)
    (hs : readCopyStep count uc (i, copied, d) = .inl (i', copied', d')) :
    ReadCopyInv dev count copied' d' ∧ count - copied'.length < count - copied.length := by
  have hmore := more_of_readCopyStep hs
  obtain ⟨chunk, copied₁, d₁, -, hpos, -, hinv₁, hlen, hstep⟩ :=
    readCopyStep_eq uc h hinv hmore i
  rw [hstep] at hs
  split_ifs at hs with hmiss
  cases hs
  rw [ne_eq, not_not] at hmiss
  exact ⟨hinv₁, by omega⟩

/-- The loop leaves on a fault, or when it has moved all it could. -/
theorem ReadCopyInv.of_exit (h : dev.buffer.WellFormed) (hcount : 0 < count)
    (hstored : 0 < dev.buffer.len) (nonblock : Bool) {i : ℕ} {copied : List UInt8} {d d' : Dev}
    {out : Outcome} (hinv : ReadCopyInv dev count copied d)
    (hs : readCopyStep count uc (i, copied, d) = .inr (out, d')) :
    ReadOutcome nonblock count uc dev out d' := by
  -- both exits with bytes delivered are a `moved`
  have hmoved : ∀ (faulted : Bool) {copied : List UInt8} {d : Dev}, ReadCopyInv dev count copied d →
      0 < copied.length → (faulted = false → copied.length = min count dev.buffer.len) →
      (faulted = true → ¬uc.Faultless) →
      ReadOutcome nonblock count uc dev (.moved copied) (noteIf faulted d) := by
    rintro faulted copied d ⟨hcopied, hle, rfl⟩ hpos hall hbad
    generalize copied.length = k at *
    subst hcopied
    exact .moved k faulted hpos hle hall hbad
  by_cases hmore : copied.length < count ∧ d.buffer.stored > 0
  · obtain ⟨chunk, copied₁, d₁, -, -, -, hinv₁, -, hstep⟩ := readCopyStep_eq uc h hinv hmore i
    rw [hstep] at hs
    split_ifs at hs with hmiss hnone
    · cases hs
      rw [hinv₁.dev_eq, hnone, consume_zero]
      exact .fault hstored fun hok => hmiss (hok i chunk)
    · cases hs
      exact hmoved true hinv₁ (Nat.pos_of_ne_zero hnone) (by simp) fun _ hok => hmiss (hok i chunk)
  · rw [readCopyStep, if_neg hmore] at hs
    cases hs
    have hlen := len_consume h copied.length
    have hle := hinv.le
    -- the test has failed: the count is reached or nothing is stored any more
    have hstop : copied.length = min count dev.buffer.len := by
      rw [hinv.dev_eq] at hmore
      simp only [Buffer.stored, not_and_or, not_lt, Nat.le_zero, hlen] at hmore
      omega
    exact hmoved false hinv (by omega) (fun _ => hstop) (by simp)

/-- The mutex section of a read always ends, in one of the ways listed. -/
theorem readSection_spec (h : dev.buffer.WellFormed) (hcount : 0 < count) (nonblock : Bool)
    (uc : UserCopy) : ∃ out dev', readSection nonblock count uc dev = some (out, dev') ∧
      ReadOutcome nonblock count uc dev out dev' := by
  unfold readSection
  by_cases hready : dev.buffer.stored > 0 ∨ dev.shuttingDown
  swap
  · rw [if_neg hready]
    simp only [not_or, not_lt, Nat.le_zero, Bool.not_eq_true, Buffer.stored] at hready
    cases hnb : dev.nonblocking nonblock
    · exact ⟨_, _, rfl, .wait hready.2 hready.1 hnb⟩
    · exact ⟨_, _, rfl, .again hready.2 hready.1 hnb⟩
  rw [if_pos hready]
  by_cases heof : dev.shuttingDown ∧ dev.buffer.stored = 0
  · rw [if_pos heof]
    exact ⟨_, _, rfl, .eof heof.1 heof.2⟩
  rw [if_neg heof]
  -- ready and not at the end, so there are bytes to deliver
  have hstored : 0 < dev.buffer.len := by
    by_contra hzero
    have hzero' : dev.buffer.stored = 0 := Nat.eq_zero_of_not_pos hzero
    exact heof ⟨hready.resolve_left (by omega), hzero'⟩
  obtain ⟨⟨out, dev'⟩, hrun, hout⟩ :=
    Loop.run_of_variant (f := readCopyStep count uc)
      (I := fun s => ReadCopyInv dev count s.2.1 s.2.2)
      (Q := fun r => ReadOutcome nonblock count uc dev r.1 r.2) (fun s => count - s.2.1.length)
      (fun _ _ hinv hs => hinv.of_continue h hs)
      (fun _ _ hinv hs => hinv.of_exit h hcount hstored nonblock hs)
      (s := (0, [], dev)) ⟨by simp, by simp, by simp⟩ (by simp : count - 0 < count + 1)
  exact ⟨out, dev', hrun, hout⟩

/-! ## Writing -/

/-- The ways in which the mutex section of a write of nonempty `data` ends. -/
inductive WriteOutcome (nonblock : Bool) (data : List UInt8) (uc : UserCopy) (dev : Dev) :
    Outcome → Dev → Prop
  | down (hdown : dev.shuttingDown = true) : WriteOutcome nonblock data uc dev (.fail .ENODEV) dev
  | again (hup : dev.shuttingDown = false) (hfull : dev.buffer.len = dev.buffer.capacity)
      (hnb : dev.nonblocking nonblock = true) :
      WriteOutcome nonblock data uc dev (.fail .EAGAIN) dev
  | wait (hup : dev.shuttingDown = false) (hfull : dev.buffer.len = dev.buffer.capacity)
      (hnb : dev.nonblocking nonblock = false) :
      WriteOutcome nonblock data uc dev (.wait dev.stateGeneration) (dev.inc .blockedWrites)
  | fault (hup : dev.shuttingDown = false) (hspace : dev.buffer.len < dev.buffer.capacity)
      (c : Buffer) (hinv : WriteInv dev.buffer data 0 c) (hbad : ¬uc.Faultless) :
      WriteOutcome nonblock data uc dev .fault { dev with buffer := c }.noteFailure
  | moved (hup : dev.shuttingDown = false) (k : ℕ) (faulted : Bool) (c : Buffer)
      (hinv : WriteInv dev.buffer data k c) (hpos : 0 < k)
      (hle : k ≤ min data.length (dev.buffer.capacity - dev.buffer.len))
      (hall : faulted = false → k = min data.length (dev.buffer.capacity - dev.buffer.len))
      (hbad : faulted = true → ¬uc.Faultless) :
      WriteOutcome nonblock data uc dev (.moved (data.take k))
        (noteIf faulted { dev with buffer := c })

variable {data : List UInt8}

/-- The copy loop of a write of `data` that started on `dev`, with `copied` bytes committed. -/
structure WriteCopyInv (dev : Dev) (data : List UInt8) (copied : ℕ) (d : Dev) : Prop where
  transfer : WriteInv dev.buffer data copied d.buffer
  le : copied ≤ min data.length (dev.buffer.capacity - dev.buffer.len)
  dev_eq : d = { dev with buffer := d.buffer }

/-- One iteration of the copy loop of a write asks for a nonempty chunk, so its guard against an
empty one is never taken, and commits what the user copy lets through. -/
theorem writeCopyStep_eq (uc : UserCopy) {copied : ℕ} {d : Dev} (hinv : WriteCopyInv dev data copied d)
    (hmore : copied < min data.length (dev.buffer.capacity - dev.buffer.len)) (i : ℕ) :
    ∃ chunk d', chunk = min (min data.length (dev.buffer.capacity - dev.buffer.len) - copied)
        d.buffer.writeSpan.1 ∧ 0 < chunk ∧
      copied + chunk ≤ min data.length (dev.buffer.capacity - dev.buffer.len) ∧
      WriteCopyInv dev data (copied + (chunk - uc.missing i chunk)) d' ∧
      writeCopyStep data (min data.length (dev.buffer.capacity - dev.buffer.len)) uc
          (i, copied, d) =
        if uc.missing i chunk ≠ 0 then
          if copied + (chunk - uc.missing i chunk) = 0 then .inr (.fault, d'.noteFailure)
          else .inr (.moved (data.take (copied + (chunk - uc.missing i chunk))), d'.noteFailure)
        else .inl (i + 1, copied + (chunk - uc.missing i chunk), d') := by
  obtain ⟨htr, hle, hdev⟩ := hinv
  generalize hw : min data.length (dev.buffer.capacity - dev.buffer.len) = writable at hmore hle ⊢
  have hlen := htr.len_eq
  have hcap := htr.capacity_eq
  obtain ⟨span, hspan, hpos, hspan_le, hend, -⟩ := writeSpan_spec htr.wellFormed (by omega)
  have hchunk : min (writable - copied) span ≠ 0 := by omega
  generalize hc : min (writable - copied) span = chunk at hchunk
  have hmiss := uc.missing_le i chunk
  have hscribble := uc.length_scribble i (uc.missing i chunk)
  have hcopied : ((data.drop copied).take (chunk - uc.missing i chunk)).length =
      chunk - uc.missing i chunk := by
    rw [List.length_take, List.length_drop]; omega
  set k := chunk - uc.missing i chunk with hk
  -- the stored block begins with the bytes that were copied
  set block := (data.drop copied).take k ++ uc.scribble i (uc.missing i chunk) with hblock
  have hblock_len : block.length = chunk := by
    rw [hblock, List.length_append, hcopied, hscribble]; omega
  have hblock_take : block.take k = (data.drop copied).take k := List.take_left' hcopied
  refine ⟨chunk, { d with buffer := (d.buffer.store (some d.buffer.writePos) block).commit k },
    by rw [hspan, hc], by omega, by omega,
    ⟨htr.advance (by omega) (by omega) (by omega) hblock_take (by omega), by omega, ?_⟩, ?_⟩
  · rw [hdev]
  · rw [writeCopyStep, if_pos hmore]
    simp only [hspan, hc, if_neg hchunk, ← hk, ← hblock]

/-- An iteration that continues has passed the test of the loop. -/
theorem more_of_writeCopyStep {writable i copied : ℕ} {d : Dev} {s : ℕ × ℕ × Dev}
    (hs : writeCopyStep data writable uc (i, copied, d) = .inl s) : copied < writable := by
  by_contra hmore
  rw [writeCopyStep, if_neg hmore] at hs
  cases hs

/-- An iteration that continues has committed something. -/
theorem WriteCopyInv.of_continue {i i' copied copied' : ℕ} {d d' : Dev}
    (hinv : WriteCopyInv dev data copied d)
    (hs : writeCopyStep data (min data.length (dev.buffer.capacity - dev.buffer.len)) uc
      (i, copied, d) = .inl (i', copied', d')) :
    WriteCopyInv dev data copied' d' ∧ data.length - copied' < data.length - copied := by
  have hmore := more_of_writeCopyStep hs
  obtain ⟨chunk, d₁, -, hpos, -, hinv₁, hstep⟩ := writeCopyStep_eq uc hinv hmore i
  rw [hstep] at hs
  split_ifs at hs with hmiss
  cases hs
  rw [ne_eq, not_not] at hmiss
  have hle := hinv₁.le
  exact ⟨hinv₁, by omega⟩

/-- The loop leaves on a fault, or when it has moved all it could. -/
theorem WriteCopyInv.of_exit (hup : dev.shuttingDown = false)
    (hspace : dev.buffer.len < dev.buffer.capacity) (hdata : 0 < data.length) (nonblock : Bool)
    {i copied : ℕ} {d d' : Dev} {out : Outcome} (hinv : WriteCopyInv dev data copied d)
    (hs : writeCopyStep data (min data.length (dev.buffer.capacity - dev.buffer.len)) uc
      (i, copied, d) = .inr (out, d')) :
    WriteOutcome nonblock data uc dev out d' := by
  by_cases hmore : copied < min data.length (dev.buffer.capacity - dev.buffer.len)
  · obtain ⟨chunk, d₁, -, -, -, ⟨htr, hle, hdev⟩, hstep⟩ := writeCopyStep_eq uc hinv hmore i
    rw [hstep] at hs
    split_ifs at hs with hmiss hnone
    · cases hs
      -- nothing was committed, though the free slots may have been written to
      rw [hnone] at htr
      rw [hdev]
      exact .fault hup hspace _ htr fun hok => hmiss (hok i chunk)
    · cases hs
      rw [hdev]
      exact .moved hup _ true _ htr (Nat.pos_of_ne_zero hnone) hle (by simp)
        fun _ hok => hmiss (hok i chunk)
  · rw [writeCopyStep, if_neg hmore] at hs
    cases hs
    have hle := hinv.le
    rw [hinv.dev_eq]
    exact .moved hup copied false _ hinv.transfer (by omega) hle (fun _ => by omega) (by simp)

/-- The mutex section of a write always ends, in one of the ways listed. -/
theorem writeSection_spec (h : dev.buffer.WellFormed) (hdata : 0 < data.length) (nonblock : Bool)
    (uc : UserCopy) : ∃ out dev', writeSection nonblock data uc dev = some (out, dev') ∧
      WriteOutcome nonblock data uc dev out dev' := by
  unfold writeSection
  simp only [h.available_eq]
  cases hdown : dev.shuttingDown
  swap
  · exact ⟨_, _, by simp, .down hdown⟩
  -- up: either full, where the caller waits or is turned away, or with space to copy to
  rcases eq_or_lt_of_le h.len_le with hfull | hspace
  · cases hnb : dev.nonblocking nonblock
    · exact ⟨_, _, by simp [hfull], .wait hdown hfull hnb⟩
    · exact ⟨_, _, by simp [hfull], .again hdown hfull hnb⟩
  rw [if_pos (.inl (by omega)), if_neg (by simp)]
  obtain ⟨⟨out, dev'⟩, hrun, hout⟩ :=
    Loop.run_of_variant
      (f := writeCopyStep data (min data.length (dev.buffer.capacity - dev.buffer.len)) uc)
      (I := fun s => WriteCopyInv dev data s.2.1 s.2.2)
      (Q := fun r => WriteOutcome nonblock data uc dev r.1 r.2) (fun s => data.length - s.2.1)
      (fun _ _ hinv hs => hinv.of_continue hs)
      (fun _ _ hinv hs => hinv.of_exit hdown hspace hdata nonblock hs)
      (s := (0, 0, dev)) ⟨.start h data, by simp, rfl⟩
      (by simp : data.length - 0 < data.length + 1)
  exact ⟨out, dev', hrun, hout⟩

end Dev

end RingbufChar
