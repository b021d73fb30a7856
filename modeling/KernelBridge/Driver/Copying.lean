import KernelBridge.Driver.Sequential

/-!
# The copy loops under user-memory faults

A user copy that leaves bytes uncopied ends the copy loop of a transfer. `Dev.ReadFaults` and
`Dev.WriteFaults` say that this happens, in terms of the states that the loop passes through, and
`Dev.readCopy_spec` and `Dev.writeCopy_spec` say what the loop has done then: a number `k` of bytes
went through, the buffer and the caller saw exactly the first `k` of them, and `k` falls short of
what could have been moved exactly when a copy failed.

Main results:

* `user_faults_exact`: what a call with a faulting user buffer returns and leaves behind;
* `copy_loops_eq`: without faults, the loops of the driver do what the functions
  `ringbuf_char_buffer_read` and `ringbuf_char_buffer_write` do, down to the last field.
-/

namespace RingbufChar

open Buffer

namespace Dev

variable {dev : Dev} {count : ℕ} {data : List UInt8} {uc : UserCopy}

/-- A `copy_to_user` of the copy loop leaves bytes uncopied. -/
def ReadFaults (count : ℕ) (uc : UserCopy) (dev : Dev) : Prop :=
  ∃ i copied d, Loop.Visits (readCopyStep count uc) (0, [], dev) (i, copied, d) ∧
    (copied.length < count ∧ d.buffer.stored > 0) ∧
    uc.missing i (min (count - copied.length) d.buffer.readSpan.1) ≠ 0

/-- A `copy_from_user` of the copy loop, which moves at most `writable` bytes, leaves bytes
uncopied. -/
def WriteFaults (data : List UInt8) (writable : ℕ) (uc : UserCopy) (dev : Dev) : Prop :=
  ∃ i copied d, Loop.Visits (writeCopyStep data writable uc) (0, 0, dev) (i, copied, d) ∧
    copied < writable ∧
    uc.missing i (min (writable - copied) d.buffer.writeSpan.1) ≠ 0

/-- What the copy loop of a read may leave with. -/
def ReadCopied (count : ℕ) (uc : UserCopy) (dev : Dev) (r : Outcome × Dev) : Prop :=
  ∃ k ≤ min count dev.buffer.len, (k < min count dev.buffer.len ↔ ReadFaults count uc dev) ∧
    r = (if k = 0 then .fault else .moved (dev.buffer.fifo.take k),
      noteIf (decide (k < min count dev.buffer.len)) { dev with buffer := dev.buffer.consume k })

/-- The exits of the copy loop of a read: a copy that fails, or nothing left to move. -/
theorem readCopy_exit (h : dev.buffer.WellFormed) (hcount : 0 < count)
    (hstored : 0 < dev.buffer.len) {i : ℕ} {copied : List UInt8} {d : Dev} {r : Outcome × Dev}
    (hvisit : Loop.Visits (readCopyStep count uc) (0, [], dev) (i, copied, d))
    (hinv : ReadCopyInv dev count copied d)
    (hs : readCopyStep count uc (i, copied, d) = .inr r) : ReadCopied count uc dev r := by
  by_cases hmore : copied.length < count ∧ d.buffer.stored > 0
  · -- the loop leaves because the copy failed
    obtain ⟨chunk, copied', d', hchunk, hpos, hfit, ⟨hcopied, hle, rfl⟩, hlen, hstep⟩ :=
      readCopyStep_eq uc h hinv hmore i
    rw [hstep] at hs
    by_cases hmiss : uc.missing i chunk = 0
    · rw [if_neg (not_not.mpr hmiss)] at hs
      cases hs
    have hfaults : ReadFaults count uc dev := ⟨i, copied, d, hvisit, hmore, hchunk ▸ hmiss⟩
    have hmissing := uc.missing_le i chunk
    have hshort : copied'.length < min count dev.buffer.len := by omega
    refine ⟨copied'.length, hle, iff_of_true hshort hfaults, ?_⟩
    rw [if_pos hmiss] at hs
    rw [decide_eq_true hshort]
    split_ifs at hs with hnone
    · rw [if_pos hnone]
      exact (Sum.inr.inj hs).symm
    · rw [if_neg hnone, ← hcopied]
      exact (Sum.inr.inj hs).symm
  · -- the loop has moved all it could, and it leaves from this state only
    have hleave := hs
    rw [readCopyStep, if_neg hmore, Sum.inr.injEq] at hs
    obtain ⟨hcopied, hle, rfl⟩ := hinv
    have hlen := len_consume h copied.length
    simp only [Buffer.stored, hlen] at hmore
    have hall : copied.length = min count dev.buffer.len := by omega
    have hno : ¬ReadFaults count uc dev := by
      rintro ⟨j, copied', d', hvisit', hmore', hmiss⟩
      have hfault : ∃ r', readCopyStep count uc (j, copied', d') = .inr r' := by
        rw [readCopyStep, if_pos hmore']
        simp only [if_pos hmiss]
        split_ifs
        · exact ⟨_, rfl⟩
        · exact ⟨_, rfl⟩
      obtain ⟨r', hr'⟩ := hfault
      obtain ⟨-, rfl, rfl⟩ : i = j ∧ copied = copied' ∧ _ = d' := by
        simpa using hvisit.exit_unique hleave hvisit' hr'
      simp only [Buffer.stored, hlen] at hmore'
      omega
    refine ⟨copied.length, hle, iff_of_false (by omega) hno, ?_⟩
    rw [← hs, if_neg (by omega), decide_eq_false (by omega), ← hcopied]
    rfl

/-- The copy loop of a read always leaves. The bytes delivered are the oldest ones stored, exactly
these are consumed, and there are fewer of them than could be moved exactly if a copy failed. -/
theorem readCopy_spec (h : dev.buffer.WellFormed) (hcount : 0 < count)
    (hstored : 0 < dev.buffer.len) (uc : UserCopy) :
    ∃ r, Loop.run (readCopyStep count uc) (count + 1) (0, [], dev) = some r ∧
      ReadCopied count uc dev r :=
  Loop.run_of_variant
    (I := fun s => Loop.Visits (readCopyStep count uc) (0, [], dev) s ∧
      ReadCopyInv dev count s.2.1 s.2.2)
    (fun s => count - s.2.1.length)
    (fun _ _ hinv hs =>
      have hnext := hinv.2.of_continue h hs
      ⟨⟨hinv.1.tail hs, hnext.1⟩, hnext.2⟩)
    (fun _ _ hinv hs => readCopy_exit h hcount hstored hinv.1 hinv.2 hs)
    (s := (0, [], dev)) ⟨.refl, ⟨by simp, by simp, by simp⟩⟩ (by simp : count - 0 < count + 1)

/-- What the copy loop of a write may leave with. -/
def WriteCopied (data : List UInt8) (uc : UserCopy) (dev : Dev) (r : Outcome × Dev) : Prop :=
  let writable := min data.length (dev.buffer.capacity - dev.buffer.len)
  ∃ k ≤ writable, (k < writable ↔ WriteFaults data writable uc dev) ∧
    ∃ c, WriteInv dev.buffer data k c ∧
      r = (if k = 0 then .fault else .moved (data.take k),
        noteIf (decide (k < writable)) { dev with buffer := c })

/-- The exits of the copy loop of a write: a copy that fails, or no room left. -/
theorem writeCopy_exit (hdata : 0 < data.length) (hspace : dev.buffer.len < dev.buffer.capacity)
    {i copied : ℕ} {d : Dev} {r : Outcome × Dev}
    (hvisit : Loop.Visits
      (writeCopyStep data (min data.length (dev.buffer.capacity - dev.buffer.len)) uc) (0, 0, dev)
      (i, copied, d))
    (hinv : WriteCopyInv dev data copied d)
    (hs : writeCopyStep data (min data.length (dev.buffer.capacity - dev.buffer.len)) uc
      (i, copied, d) = .inr r) : WriteCopied data uc dev r := by
  by_cases hmore : copied < min data.length (dev.buffer.capacity - dev.buffer.len)
  · -- the loop leaves because the copy failed: its guard against an empty chunk is never taken
    obtain ⟨chunk, d', hchunk, hpos, hfit, ⟨htransfer, hle, hdev⟩, hstep⟩ :=
      writeCopyStep_eq uc hinv hmore i
    rw [hstep] at hs
    by_cases hmiss : uc.missing i chunk = 0
    · rw [if_neg (not_not.mpr hmiss)] at hs
      cases hs
    have hmissing := uc.missing_le i chunk
    refine ⟨copied + (chunk - uc.missing i chunk), hle, iff_of_true (by omega)
      ⟨i, copied, d, hvisit, hmore, hchunk ▸ hmiss⟩, d'.buffer, htransfer, ?_⟩
    rw [if_pos hmiss] at hs
    rw [decide_eq_true (by omega), ← hdev]
    split_ifs at hs with hnone
    · rw [if_pos hnone]
      exact (Sum.inr.inj hs).symm
    · rw [if_neg hnone]
      exact (Sum.inr.inj hs).symm
  · -- the loop has moved all it could, and it leaves from this state only
    have hleave := hs
    rw [writeCopyStep, if_neg hmore, Sum.inr.injEq] at hs
    obtain ⟨htransfer, hle, hdev⟩ := hinv
    have hno : ¬WriteFaults data (min data.length (dev.buffer.capacity - dev.buffer.len)) uc
        dev := by
      rintro ⟨j, copied', d', hvisit', hmore', hmiss⟩
      obtain ⟨r', hr'⟩ : ∃ r', writeCopyStep data
          (min data.length (dev.buffer.capacity - dev.buffer.len)) uc (j, copied', d') =
            .inr r' := by
        rw [writeCopyStep, if_pos hmore']
        simp only [if_pos hmiss]
        split_ifs
        · exact ⟨_, rfl⟩
        · exact ⟨_, rfl⟩
        · exact ⟨_, rfl⟩
      obtain ⟨-, rfl, -⟩ : i = j ∧ copied = copied' ∧ d = d' := by
        simpa using hvisit.exit_unique hleave hvisit' hr'
      exact hmore hmore'
    refine ⟨copied, hle, iff_of_false hmore hno, d.buffer, htransfer, ?_⟩
    rw [← hs, if_neg (by omega), decide_eq_false hmore, ← hdev]
    rfl

/-- The copy loop of a write always leaves. The bytes committed are the first ones of the caller,
and there are fewer of them than fit exactly if a copy failed. -/
theorem writeCopy_spec (h : dev.buffer.WellFormed) (hdata : 0 < data.length)
    (hspace : dev.buffer.len < dev.buffer.capacity) (uc : UserCopy) :
    ∃ r, Loop.run (writeCopyStep data (min data.length (dev.buffer.capacity - dev.buffer.len)) uc)
        (data.length + 1) (0, 0, dev) = some r ∧ WriteCopied data uc dev r :=
  Loop.run_of_variant
    (I := fun s => Loop.Visits
      (writeCopyStep data (min data.length (dev.buffer.capacity - dev.buffer.len)) uc) (0, 0, dev)
      s ∧ WriteCopyInv dev data s.2.1 s.2.2)
    (fun s => data.length - s.2.1)
    (fun _ _ hinv hs =>
      have hnext := hinv.2.of_continue hs
      ⟨⟨hinv.1.tail hs, hnext.1⟩, hnext.2⟩)
    (fun _ _ hinv hs => writeCopy_exit hdata hspace hinv.1 hinv.2 hs)
    (s := (0, 0, dev)) ⟨.refl, ⟨.start h data, by simp, rfl⟩⟩
    (by simp : data.length - 0 < data.length + 1)

/-- The mutex section of a read with data stored is its copy loop. -/
theorem readSection_of_stored (hstored : 0 < dev.buffer.len) (nonblock : Bool) :
    readSection nonblock count uc dev =
      Loop.run (readCopyStep count uc) (count + 1) (0, [], dev) := by
  unfold readSection
  rw [if_pos (.inl hstored), if_neg (by simp [Buffer.stored, hstored.ne'])]

/-- The mutex section of a write with space left, before the device is going away, is its copy
loop. -/
theorem writeSection_of_space (h : dev.buffer.WellFormed) (hup : dev.shuttingDown = false)
    (hspace : dev.buffer.len < dev.buffer.capacity) (nonblock : Bool) :
    writeSection nonblock data uc dev =
      Loop.run (writeCopyStep data (min data.length (dev.buffer.capacity - dev.buffer.len)) uc)
        (data.length + 1) (0, 0, dev) := by
  unfold writeSection
  simp only [h.available_eq]
  rw [if_pos (.inl (by omega)), if_neg (by simp [hup])]

/-! ## Without faults -/

/-- Without faults, one iteration of the copy loop of a read is one of
`ringbuf_char_buffer_read`. -/
theorem readCopyStep_of_faultless (hok : uc.Faultless) (count i : ℕ) (copied : List UInt8)
    (b : Buffer) :
    Sum.LiftRel (fun s t => s.2 = (t.1, { dev with buffer := t.2 }))
      (fun r r' => r = (.moved r'.1, { dev with buffer := r'.2 }))
      (readCopyStep count uc (i, copied, { dev with buffer := b }))
      (Buffer.readStep count (copied, b)) := by
  rw [readCopyStep, Buffer.readStep]
  by_cases hmore : copied.length < count ∧ b.len > 0
  · rw [if_pos hmore, if_pos (by exact hmore)]
    simp only [hok i, Nat.sub_zero, ne_eq, not_true_eq_false, if_false]
    exact .inl rfl
  · rw [if_neg hmore, if_neg (by exact hmore)]
    exact .inr rfl

/-- Without faults, one iteration of the copy loop of a write is one of
`ringbuf_char_buffer_write`. The driver samples the free space once and the function tests it
again; they agree because what has been copied since has filled that much of it. -/
theorem writeCopyStep_of_faultless (hok : uc.Faultless) (i : ℕ) {copied : ℕ} {d : Dev}
    (hinv : WriteCopyInv dev data copied d) :
    Sum.LiftRel (fun s t => s.2.1 = t.1 ∧ s.2.2.buffer = t.2 ∧ WriteCopyInv dev data s.2.1 s.2.2)
      (fun r r' => r = (.moved (data.take r'.1), { dev with buffer := r'.2 }))
      (writeCopyStep data (min data.length (dev.buffer.capacity - dev.buffer.len)) uc
        (i, copied, d))
      (Buffer.writeStep data (copied, d.buffer)) := by
  have hwf := hinv.transfer.wellFormed
  have hlen := hinv.transfer.len_eq
  have hcap := hinv.transfer.capacity_eq
  have havailable := hwf.available_eq
  by_cases hmore : copied < min data.length (dev.buffer.capacity - dev.buffer.len)
  · obtain ⟨span, hspan, hpos, hfit, -⟩ := writeSpan_spec hwf (by omega)
    -- the span is within the free space, so the limit sampled before does not shorten the chunk
    have hchunk : min (min data.length (dev.buffer.capacity - dev.buffer.len) - copied) span =
        min (data.length - copied) span := by omega
    have hnonempty : min (data.length - copied) span ≠ 0 := by omega
    generalize hdef : min (data.length - copied) span = chunk at hchunk hnonempty
    have hnone : uc.scribble i 0 = [] := List.eq_nil_of_length_eq_zero (uc.length_scribble i 0)
    let next :=
      (d.buffer.store (some d.buffer.writePos) ((data.drop copied).take chunk)).commit chunk
    have hstep : writeCopyStep data (min data.length (dev.buffer.capacity - dev.buffer.len)) uc
        (i, copied, d) = .inl (i + 1, copied + chunk, { d with buffer := next }) := by
      rw [writeCopyStep, if_pos hmore]
      simp only [hspan, hchunk, hok i, hnone, Nat.sub_zero, List.append_nil]
      rw [if_neg hnonempty, if_neg (by simp)]
    have hnext := (hinv.of_continue hstep).1
    have hhelper : Buffer.writeStep data (copied, d.buffer) = .inl (copied + chunk, next) := by
      rw [Buffer.writeStep, if_pos (by omega)]
      simp only [hspan, hdef]
      rfl
    rw [hstep, hhelper]
    exact .inl ⟨rfl, rfl, hnext⟩
  · rw [writeCopyStep, if_neg hmore, Buffer.writeStep, if_neg (by omega)]
    refine .inr ?_
    rw [← hinv.dev_eq]

end Dev

variable {dev : Dev}

/-- After its copy loop, a transfer returns the number of bytes that went through, or `-EFAULT` if
there are none. -/
theorem solo_copied {env : Env} (hsignal : env.signal = false) {rw : Transfer} {bytes : List UInt8}
    {dev' : Dev}
    (hcrit : rw.critical env.copy dev =
      some (if bytes.length = 0 then .fault else .moved bytes, dev')) :
    ∃ dev'', (Loop.run (soloStep env) 15 (dev, .lock rw)).join =
        some (if bytes.length = 0 then { value := .error .EFAULT }
          else { value := .ok bytes.length, output := rw.output bytes }, dev'') ∧
      dev''.buffer = dev'.buffer := by
  have hlock : stepThread env dev (.lock rw) = rw.lockStep env dev := rfl
  rw [Transfer.lockStep, if_neg (by simp [hsignal]), hcrit, Option.map_some] at hlock
  rw [Loop.run_of_continue (soloStep_of_some (by simp) hlock)]
  split_ifs with hnone
  · exact ⟨dev', rfl, rfl⟩
  · exact ⟨_, solo_moved env dev' rw (Nat.pos_of_ne_zero hnone), rfl⟩

/-- Partial user-memory faults are accounted exactly. A read that reaches its copy loop with data
stored hands over the oldest `k` bytes, removes exactly these, and returns `k`, or `-EFAULT` with
the queue as it was if `k` is zero. A write that reaches its copy loop with space appends exactly
the first `k` bytes of the caller, and none of what a failed copy left in the free slots. Unless a
copy fails, `k` is all that could be moved. -/
theorem user_faults_exact (hwf : dev.buffer.WellFormed) {env : Env} (hsignal : env.signal = false)
    (nonblock : Bool) :
    (∀ count, 0 < count → 0 < dev.buffer.len → ∃ k dev',
      (Loop.run (soloStep env) 15 (dev, .lock (.read nonblock count))).join =
        some (if k = 0 then { value := .error .EFAULT }
          else { value := .ok k, output := .bytes (dev.buffer.fifo.take k) }, dev') ∧
      k ≤ min count dev.buffer.len ∧
      (k < min count dev.buffer.len ↔ dev.ReadFaults count env.copy) ∧
      dev'.buffer.WellFormed ∧ dev'.buffer.capacity = dev.buffer.capacity ∧
      dev'.buffer.fifo = dev.buffer.fifo.drop k) ∧
    ∀ data : List UInt8, 0 < data.length → dev.shuttingDown = false →
      dev.buffer.len < dev.buffer.capacity → ∃ k dev',
      (Loop.run (soloStep env) 15 (dev, .lock (.write nonblock data))).join =
        some (if k = 0 then { value := .error .EFAULT } else { value := .ok k }, dev') ∧
      k ≤ min data.length (dev.buffer.capacity - dev.buffer.len) ∧
      (k < min data.length (dev.buffer.capacity - dev.buffer.len) ↔
        dev.WriteFaults data (min data.length (dev.buffer.capacity - dev.buffer.len)) env.copy) ∧
      dev'.buffer.WellFormed ∧ dev'.buffer.capacity = dev.buffer.capacity ∧
      dev'.buffer.fifo = dev.buffer.fifo ++ data.take k := by
  constructor
  · intro count hcount hstored
    obtain ⟨r, hrun, k, hle, hshort, rfl⟩ := Dev.readCopy_spec hwf hcount hstored env.copy
    have hlen : (dev.buffer.fifo.take k).length = k := by
      rw [List.length_take, hwf.length_fifo]; omega
    have hcrit : (Transfer.read nonblock count).critical env.copy dev =
        some (if (dev.buffer.fifo.take k).length = 0 then .fault
          else .moved (dev.buffer.fifo.take k),
          Dev.noteIf (decide (k < min count dev.buffer.len))
            { dev with buffer := dev.buffer.consume k }) := by
      rw [hlen]
      exact (Dev.readSection_of_stored hstored nonblock).trans hrun
    -- whatever the call counts afterwards, the buffer stays as its section has left it
    obtain ⟨dev', hsolo, hbuffer⟩ := solo_copied hsignal hcrit
    rw [Dev.buffer_noteIf] at hbuffer
    rw [hlen] at hsolo
    refine ⟨k, dev', hsolo, hle, hshort, ?_, ?_, ?_⟩
    · rw [hbuffer]
      exact wellFormed_consume hwf k
    · rw [hbuffer]
      exact capacity_consume _ k
    · rw [hbuffer]
      exact fifo_consume hwf k
  · intro data hdata hup hspace
    obtain ⟨r, hrun, k, hle, hshort, c, htransfer, rfl⟩ :=
      Dev.writeCopy_spec hwf hdata hspace env.copy
    have hlen : (data.take k).length = k := by
      rw [List.length_take]; omega
    have hcrit : (Transfer.write nonblock data).critical env.copy dev =
        some (if (data.take k).length = 0 then .fault else .moved (data.take k),
          Dev.noteIf (decide (k < min data.length (dev.buffer.capacity - dev.buffer.len)))
            { dev with buffer := c }) := by
      rw [hlen]
      exact (Dev.writeSection_of_space hwf hup hspace nonblock).trans hrun
    obtain ⟨dev', hsolo, hbuffer⟩ := solo_copied hsignal hcrit
    rw [Dev.buffer_noteIf] at hbuffer
    rw [hlen] at hsolo
    refine ⟨k, dev', hsolo, hle, hshort, ?_, ?_, ?_⟩
    · rw [hbuffer]
      exact htransfer.wellFormed
    · rw [hbuffer]
      exact htransfer.capacity_eq
    · rw [hbuffer]
      exact htransfer.fifo_eq

/-- A device of the smallest capacity whose ten stored bytes wrap around the end of the block. -/
def Dev.wrapped : Dev where
  buffer := ⟨List.replicate 256 7, 256, 10, 250, 4⟩
  stateGeneration := 0
  counters _ := 0
  openHandles := 0
  mode := 0
  shuttingDown := false

/-- The example is a buffer that wraps around. -/
theorem Dev.wellFormed_wrapped : Dev.wrapped.buffer.WellFormed where
  min_le := by decide
  le_max := by decide
  allocated := List.length_replicate
  len_le := by decide
  readPos_lt := by decide
  writePos_eq := by decide
  reset := by decide

/-- User memory of which the second copy of a loop finds only one byte accessible. -/
def Env.torn : Env where
  signal := false
  copy :=
    { missing i n := if i = 1 then n - 1 else 0
      missing_le i n := by split_ifs <;> omega
      scribble _ m := List.replicate m 0
      length_scribble := UserCopy.length_zeros }
  alloc := .zeroed

/-- A read of twenty bytes copies the six before the end of the block and one of the four after
it: it returns seven, and three bytes stay. -/
theorem user_faults_exact_wrapped : ∃ dev',
    (Loop.run (soloStep .torn) 15 (.wrapped, .lock (.read true 20))).join =
      some ({ value := .ok 7, output := .bytes (Dev.wrapped.buffer.fifo.take 7) }, dev') ∧
    Dev.wrapped.ReadFaults 20 Env.torn.copy ∧
    dev'.buffer.fifo = Dev.wrapped.buffer.fifo.drop 7 := by
  obtain ⟨k, dev', hsolo, -, hshort, -, -, hfifo⟩ :=
    (user_faults_exact Dev.wellFormed_wrapped (show Env.torn.signal = false from rfl) true).1 20
      (by decide) (by decide)
  have hseven : ((Loop.run (soloStep .torn) 15 (.wrapped, .lock (.read true 20))).join.map
      fun r => r.1.value) = some (.ok 7) := rfl
  rw [hsolo] at hseven
  obtain rfl : k = 7 := by
    split_ifs at hseven
    · cases hseven
    · simpa only [Option.map_some, Option.some.injEq, Except.ok.injEq] using hseven
  exact ⟨dev', hsolo, hshort.mp (by decide), hfifo⟩

/-- The copy loops of the driver and the functions of the buffer compute the same thing. From every
well-formed buffer, with fault-free user copies, the loop of `ringbuf_char_read` delivers the bytes
and leaves the buffer that `ringbuf_char_buffer_read` does, and the loop of `ringbuf_char_write`
copies as many bytes and leaves the buffer that `ringbuf_char_buffer_write` does. -/
theorem copy_loops_eq (hwf : dev.buffer.WellFormed) {uc : UserCopy} (hok : uc.Faultless) :
    (∀ count, 0 < count → ∃ bytes b', dev.buffer.read count = some (bytes, b') ∧
      Loop.run (Dev.readCopyStep count uc) (count + 1) (0, [], dev) =
        some (.moved bytes, { dev with buffer := b' })) ∧
    ∀ data : List UInt8, 0 < data.length → ∃ n b', dev.buffer.write data = some (n, b') ∧
      (data.take n).length = n ∧
      Loop.run (Dev.writeCopyStep data (min data.length dev.buffer.available) uc)
          (data.length + 1) (0, 0, dev) =
        some (.moved (data.take n), { dev with buffer := b' }) := by
  constructor
  · intro count hcount
    obtain ⟨b', hread, -⟩ := read_spec hwf count
    -- one iteration simulates one, so the loops leave together
    have hsim := Loop.run_simulation
      (R := fun (s : ℕ × List UInt8 × Dev) (t : List UInt8 × Buffer) =>
        s.2 = (t.1, { dev with buffer := t.2 }))
      (by
        rintro ⟨i, _⟩ ⟨copied, b⟩ h
        cases h
        exact Dev.readCopyStep_of_faultless hok count i copied b)
      (count + 1) (s := (0, [], dev)) (t := ([], dev.buffer)) rfl
    have hrun := hread
    rw [Buffer.read, if_neg hcount.ne'] at hrun
    rw [hrun] at hsim
    generalize Loop.run (Dev.readCopyStep count uc) (count + 1) (0, [], dev) = result at hsim ⊢
    cases hsim with
    | some h => exact ⟨_, b', hread, congrArg some h⟩
  · intro data hdata
    obtain ⟨b', hwrite, -⟩ := write_spec hwf data
    have hsim := Loop.run_simulation
      (R := fun (s : ℕ × ℕ × Dev) (t : ℕ × Buffer) =>
        s.2.1 = t.1 ∧ s.2.2.buffer = t.2 ∧ Dev.WriteCopyInv dev data s.2.1 s.2.2)
      (by
        rintro ⟨i, copied, d⟩ ⟨_, _⟩ ⟨rfl, rfl, hinv⟩
        exact Dev.writeCopyStep_of_faultless hok i hinv)
      (data.length + 1) (s := (0, 0, dev)) (t := (0, dev.buffer))
      ⟨rfl, rfl, .start hwf data, by simp, rfl⟩
    have hrun := hwrite
    rw [Buffer.write, if_neg hdata.ne'] at hrun
    rw [hrun, ← hwf.available_eq] at hsim
    generalize Loop.run (Dev.writeCopyStep data (min data.length dev.buffer.available) uc)
      (data.length + 1) (0, 0, dev) = result at hsim ⊢
    cases hsim with
    | some h =>
      refine ⟨_, b', hwrite, ?_, ?_⟩
      · rw [List.length_take]; omega
      · rw [← hwf.available_eq]
        exact congrArg some h

/-- The loops and the functions on stored bytes that wrap around the end of the block. -/
theorem copy_loops_eq_wrapped :
    (∃ bytes b', Dev.wrapped.buffer.read 8 = some (bytes, b') ∧
      Loop.run (Dev.readCopyStep 8 .accessible) 9 (0, [], .wrapped) =
        some (.moved bytes, { Dev.wrapped with buffer := b' })) ∧
    ∃ n b', Dev.wrapped.buffer.write [1, 2, 3] = some (n, b') ∧
      ([1, 2, 3].take n : List UInt8).length = n ∧
      Loop.run (Dev.writeCopyStep [1, 2, 3] (min 3 246) .accessible) 4 (0, 0, .wrapped) =
        some (.moved ([1, 2, 3].take n), { Dev.wrapped with buffer := b' }) :=
  have heq := copy_loops_eq Dev.wellFormed_wrapped UserCopy.accessible_faultless
  ⟨heq.1 8 (by decide), heq.2 [1, 2, 3] (by decide)⟩

end RingbufChar
