import KernelBridge.Driver.BufferInvariant
import KernelBridge.Lib.BoundedQueue

/-!
# The circular buffer as a bounded queue

`Represents b q` relates a buffer to the abstract queue it implements, and the functions of the
buffer refine the operations of the queue. The copy loops keep `ReadInv` and `WriteInv`, which say
how much of the transfer is done; they are stated for any transfer through the spans, and serve
the loops of the driver as well.

`Op` lists the calls a client of the buffer can make, with arbitrary arguments and allocation
outcomes, and `apply` performs one. After every sequence of calls the invariant holds, and the
spans handed out are what they promise (`invariant_of_calls`).
-/

namespace RingbufChar.Buffer

open Circular

/-- The buffer `b` implements the queue `q`. -/
structure Represents (b : Buffer) (q : BoundedQueue UInt8) : Prop where
  wellFormed : b.WellFormed
  capacity_eq : b.capacity = q.capacity
  fifo_eq : b.fifo = q.items

variable {b c : Buffer} {q : BoundedQueue UInt8}

namespace Represents

/-- The count of the buffer is the length of the queue. -/
theorem len_eq (h : b.Represents q) : b.len = q.items.length := by
  rw [← h.fifo_eq, h.wellFormed.length_fifo]

/-- What is available is what is free in the queue. -/
theorem available_eq (h : b.Represents q) : b.available = q.free := by
  rw [h.wellFormed.available_eq, h.capacity_eq, h.len_eq, BoundedQueue.free]

/-- Consuming takes from the queue. -/
theorem consume (h : b.Represents q) (count : ℕ) : (b.consume count).Represents (q.take count).2 :=
  ⟨wellFormed_consume h.wellFormed count, by rw [capacity_consume, h.capacity_eq]; rfl,
    by rw [fifo_consume h.wellFormed, h.fifo_eq]; rfl⟩

/-- Clearing clears the queue. -/
theorem clear (h : b.Represents q) : b.clear.Represents q.clear :=
  ⟨wellFormed_clear h.wellFormed, h.capacity_eq, fifo_clear b⟩

/-- A successful resize of the buffer is a successful resize of the queue. -/
theorem resize (h : b.Represents q) {newCapacity : ℕ} {alloc : Alloc} {b' : Buffer}
    (hr : b.resize newCapacity alloc = .ok b') :
    ∃ q', q.resize newCapacity = some q' ∧ b'.Represents q' := by
  obtain ⟨hwf, hfifo, hcap, hlen⟩ := resize_ok h.wellFormed hr
  have hfit : q.items.length ≤ newCapacity := by
    rw [← h.len_eq, ← hlen, ← hcap]; exact hwf.len_le
  exact ⟨⟨newCapacity, q.items, hfit⟩, dif_pos hfit, hwf, hcap, hfifo.trans h.fifo_eq⟩

end Represents

/-! ## Transfers in progress -/

/-- A transfer out of the buffer `b`, of at most `count` bytes: `copied` has been delivered and
`c` is the buffer now. -/
structure ReadInv (b : Buffer) (count : ℕ) (copied : List UInt8) (c : Buffer) : Prop where
  wellFormed : c.WellFormed
  capacity_eq : c.capacity = b.capacity
  split : copied ++ c.fifo = b.fifo
  le : copied.length ≤ count

/-- A read starts with nothing delivered. -/
theorem ReadInv.start (h : b.WellFormed) (count : ℕ) : ReadInv b count [] b :=
  ⟨h, rfl, rfl, Nat.zero_le _⟩

/-- Delivering and consuming the oldest `k` bytes continues the transfer. -/
theorem ReadInv.advance {count : ℕ} {copied : List UInt8} (h : ReadInv b count copied c) {k : ℕ}
    (hk : k ≤ count - copied.length) :
    ReadInv b count (copied ++ c.fifo.take k) (c.consume k) where
  wellFormed := wellFormed_consume h.wellFormed k
  capacity_eq := by rw [capacity_consume, h.capacity_eq]
  split := by rw [fifo_consume h.wellFormed, List.append_assoc, List.take_append_drop, h.split]
  le := by
    have := h.le
    simp only [List.length_append, List.length_take]
    omega

/-- A transfer that stops for want of bytes or of demand has moved all it could. -/
theorem ReadInv.done {count : ℕ} {copied : List UInt8} (h : ReadInv b count copied c)
    (hdone : ¬(copied.length < count ∧ c.len > 0)) :
    copied = b.fifo.take count ∧ c.fifo = b.fifo.drop count := by
  have hle := h.le
  rw [← h.split]
  rcases Nat.lt_or_ge copied.length count with hlt | hge
  · have hnil : c.fifo = [] := h.wellFormed.fifo_eq_nil_iff.mpr (by omega)
    rw [hnil, List.append_nil, List.take_of_length_le hle, List.drop_eq_nil_of_le hle]
    exact ⟨rfl, rfl⟩
  · simp [show count = copied.length by omega]

/-- A transfer into the buffer `b` of the bytes `src`: the first `copied` of them are stored and
`c` is the buffer now. -/
structure WriteInv (b : Buffer) (src : List UInt8) (copied : ℕ) (c : Buffer) : Prop where
  wellFormed : c.WellFormed
  capacity_eq : c.capacity = b.capacity
  readPos_eq : c.readPos = b.readPos
  fifo_eq : c.fifo = b.fifo ++ src.take copied
  len_eq : c.len = b.len + copied
  le : copied ≤ src.length

/-- A write starts with nothing stored. -/
theorem WriteInv.start (h : b.WellFormed) (src : List UInt8) : WriteInv b src 0 b :=
  ⟨h, rfl, rfl, by simp, rfl, Nat.zero_le _⟩

/-- Storing a block at the write span whose first `k` bytes continue the source, and committing
these, continues the transfer. -/
theorem WriteInv.advance {src : List UInt8} {copied : ℕ} (h : WriteInv b src copied c)
    {bs : List UInt8} {k : ℕ} (hend : c.writePos + bs.length ≤ c.capacity)
    (hfree : c.len + bs.length ≤ c.capacity) (hk : k ≤ bs.length)
    (hsrc : bs.take k = (src.drop copied).take k) (hk_src : k ≤ src.length - copied) :
    WriteInv b src (copied + k) ((c.store (some c.writePos) bs).commit k) := by
  have hstore := wellFormed_store h.wellFormed hend
  have hle := h.le
  refine ⟨wellFormed_commit hstore k, ?_, ?_, ?_, ?_, by omega⟩
  · rw [capacity_commit, ← h.capacity_eq]
    rfl
  · rw [readPos_commit, ← h.readPos_eq]
    rfl
  · rw [fifo_commit_store h.wellFormed hend hfree hk, h.fifo_eq, hsrc, List.append_assoc,
      ← List.take_add]
  · rw [len_commit hstore]
    change c.len + min k (c.capacity - c.len) = b.len + (copied + k)
    have := h.len_eq
    omega

/-! ## The copy loops of the buffer -/

/-- `ringbuf_char_buffer_read` copies the oldest `count` bytes, or all of them, and consumes
exactly these. -/
theorem read_spec (h : b.WellFormed) (count : ℕ) :
    ∃ b', b.read count = some (b.fifo.take count, b') ∧ b'.WellFormed ∧
      b'.fifo = b.fifo.drop count ∧ b'.capacity = b.capacity := by
  rcases Nat.eq_zero_or_pos count with rfl | hcount
  · exact ⟨b, by simp [read], h, by simp, rfl⟩
  -- the loop goes on: the span is not empty, so fewer bytes are left to copy
  have hcont : ∀ s s', ReadInv b count s.1 s.2 → readStep count s = .inl s' →
      ReadInv b count s'.1 s'.2 ∧ count - s'.1.length < count - s.1.length := by
    rintro ⟨copied, c⟩ s' hinv hs
    rw [readStep] at hs
    split_ifs at hs with hmore
    obtain ⟨span, hspan, hpos, hspan_le, -, -, hload⟩ := readSpan_spec hinv.wellFormed hmore.2
    have hlen : c.fifo.length = c.len := hinv.wellFormed.length_fifo
    simp only [hspan, Sum.inl.injEq, hload _ (Nat.min_le_right _ _)] at hs
    subst hs
    refine ⟨hinv.advance (Nat.min_le_left _ _), ?_⟩
    simp only [List.length_append, List.length_take]
    omega
  have hexit : ∀ s r, ReadInv b count s.1 s.2 → readStep count s = .inr r →
      r.1 = b.fifo.take count ∧ r.2.WellFormed ∧ r.2.fifo = b.fifo.drop count ∧
        r.2.capacity = b.capacity := by
    rintro ⟨copied, c⟩ r hinv hs
    rw [readStep] at hs
    split_ifs at hs with hmore
    simp only [Sum.inr.injEq] at hs
    subst hs
    obtain ⟨hcopied, hleft⟩ := hinv.done hmore
    exact ⟨hcopied, hinv.wellFormed, hleft, hinv.capacity_eq⟩
  obtain ⟨⟨bytes, b'⟩, hrun, hbytes, hwf, hfifo, hcap⟩ :=
    Loop.run_of_variant (I := fun s => ReadInv b count s.1 s.2) (fun s => count - s.1.length)
      hcont hexit (s := ([], b)) (ReadInv.start h count) (by simp : count - 0 < count + 1)
  simp only at hbytes hwf hfifo hcap
  exact ⟨b', by rw [read, if_neg (by omega), hrun, hbytes], hwf, hfifo, hcap⟩

/-- `ringbuf_char_buffer_write` stores the fitting prefix of `src` behind the stored bytes. -/
theorem write_spec (h : b.WellFormed) (src : List UInt8) :
    ∃ b', b.write src = some (min src.length (b.capacity - b.len), b') ∧ b'.WellFormed ∧
      b'.fifo = b.fifo ++ src.take (b.capacity - b.len) ∧ b'.capacity = b.capacity := by
  rcases Nat.eq_zero_or_pos src.length with hsrc | hsrc
  · refine ⟨b, by simp [write, hsrc], h, ?_, rfl⟩
    simp [List.eq_nil_of_length_eq_zero hsrc]
  -- the loop goes on: the span is not empty, so fewer bytes are left to store
  have hcont : ∀ s s', WriteInv b src s.1 s.2 → writeStep src s = .inl s' →
      WriteInv b src s'.1 s'.2 ∧ src.length - s'.1 < src.length - s.1 := by
    rintro ⟨copied, c⟩ s' hinv hs
    rw [writeStep] at hs
    split_ifs at hs with hmore
    rw [hinv.wellFormed.available_eq] at hmore
    obtain ⟨span, hspan, hpos, hspan_le, hend, -⟩ := writeSpan_spec hinv.wellFormed (by omega)
    simp only [hspan, Sum.inl.injEq] at hs
    generalize hchunk : min (src.length - copied) span = chunk at hs
    have hblock : ((src.drop copied).take chunk).length = chunk := by
      rw [List.length_take, List.length_drop]; omega
    subst hs
    refine ⟨hinv.advance (by omega) (by omega) (by omega) ?_ (by omega), by simp only; omega⟩
    rw [List.take_take, Nat.min_self]
  have hexit : ∀ s r, WriteInv b src s.1 s.2 → writeStep src s = .inr r →
      r.1 = min src.length (b.capacity - b.len) ∧ r.2.WellFormed ∧
        r.2.fifo = b.fifo ++ src.take (b.capacity - b.len) ∧ r.2.capacity = b.capacity := by
    rintro ⟨copied, c⟩ r hinv hs
    rw [writeStep] at hs
    split_ifs at hs with hmore
    simp only [Sum.inr.injEq] at hs
    subst hs
    rw [hinv.wellFormed.available_eq] at hmore
    have hlen := hinv.len_eq
    have hcap := hinv.capacity_eq
    have hle := hinv.le
    have hfit := hinv.wellFormed.len_le
    refine ⟨by simp only; omega, hinv.wellFormed, ?_, hcap⟩
    rw [hinv.fifo_eq]
    congr 1
    rcases le_total src.length (b.capacity - b.len) with hsmall | hlarge
    · rw [List.take_of_length_le hsmall, List.take_of_length_le (by simp only; omega)]
    · congr 1; simp only; omega
  obtain ⟨⟨n, b'⟩, hrun, hn, hwf, hfifo, hcap⟩ :=
    Loop.run_of_variant (I := fun s => WriteInv b src s.1 s.2) (fun s => src.length - s.1)
      hcont hexit (s := (0, b)) (WriteInv.start h src) (by simp : src.length - 0 < src.length + 1)
  simp only at hn hwf hfifo hcap
  exact ⟨b', by rw [write, if_neg (by omega), hrun, hn], hwf, hfifo, hcap⟩

/-- `buffer_read` takes from the queue. -/
theorem Represents.read (h : b.Represents q) (count : ℕ) :
    ∃ b', b.read count = some ((q.take count).1, b') ∧ b'.Represents (q.take count).2 := by
  obtain ⟨b', hread, hwf, hfifo, hcap⟩ := read_spec h.wellFormed count
  rw [h.fifo_eq] at hread hfifo
  exact ⟨b', hread, hwf, hcap.trans h.capacity_eq, hfifo⟩

/-- `buffer_write` puts into the queue. -/
theorem Represents.write (h : b.Represents q) (src : List UInt8) :
    ∃ b', b.write src = some (min src.length q.free, b') ∧ b'.Represents (q.put src) := by
  obtain ⟨b', hwrite, hwf, hfifo, hcap⟩ := write_spec h.wellFormed src
  rw [← h.wellFormed.available_eq, h.available_eq] at hwrite hfifo
  exact ⟨b', hwrite, hwf, hcap.trans h.capacity_eq, by rw [hfifo, h.fifo_eq]; rfl⟩

/-! ## Sequences of calls -/

/-- A call of a client of the buffer. -/
inductive Op
  | readSpan
  | consume (count : ℕ)
  /-- The client stores what fits of `fill` through the pointer it is handed. -/
  | writeSpan (fill : List UInt8)
  | commit (count : ℕ)
  | read (count : ℕ)
  | write (src : List UInt8)
  | clear
  | resize (newCapacity : ℕ) (alloc : Alloc)

/-- The buffer after a call; `none` if a copy loop does not stop. -/
def apply (b : Buffer) : Op → Option Buffer
  | .readSpan => some b
  | .consume count => some (b.consume count)
  | .writeSpan fill => some (b.store b.writeSpan.2 (fill.take b.writeSpan.1))
  | .commit count => some (b.commit count)
  | .read count => (b.read count).map Prod.snd
  | .write src => (b.write src).map Prod.snd
  | .clear => some b.clear
  | .resize newCapacity alloc =>
    match b.resize newCapacity alloc with
    | .ok b' => some b'
    | .error _ => some b

/-- Every call returns, and keeps the invariant. -/
theorem wellFormed_apply (h : b.WellFormed) (op : Op) :
    ∃ b', b.apply op = some b' ∧ b'.WellFormed := by
  cases op with
  | readSpan => exact ⟨b, rfl, h⟩
  | consume count => exact ⟨_, rfl, wellFormed_consume h count⟩
  | writeSpan fill =>
    refine ⟨_, rfl, ?_⟩
    rcases eq_or_lt_of_le h.len_le with hfull | hspace
    · rw [writeSpan_of_len_eq_capacity h hfull]
      exact h
    · -- the client stores within the span, so only free slots change
      obtain ⟨span, hspan, -, -, hend, -⟩ := writeSpan_spec h hspace
      rw [hspan]
      exact wellFormed_store h (by simp only [List.length_take]; omega)
  | commit count => exact ⟨_, rfl, wellFormed_commit h count⟩
  | read count =>
    obtain ⟨b', hread, hwf, -⟩ := read_spec h count
    exact ⟨b', by simp [apply, hread], hwf⟩
  | write src =>
    obtain ⟨b', hwrite, hwf, -⟩ := write_spec h src
    exact ⟨b', by simp [apply, hwrite], hwf⟩
  | clear => exact ⟨_, rfl, wellFormed_clear h⟩
  | resize newCapacity alloc =>
    cases hr : b.resize newCapacity alloc with
    | ok b' => exact ⟨b', by simp [apply, hr], (resize_ok h hr).1⟩
    | error e => exact ⟨b, by simp [apply, hr], h⟩

/-- After every sequence of calls the buffer is well formed. -/
theorem wellFormed_calls (h : b.WellFormed) (ops : List Op) :
    ∃ b', ops.foldlM apply b = some b' ∧ b'.WellFormed := by
  induction ops generalizing b with
  | nil => exact ⟨b, rfl, h⟩
  | cons op ops ih =>
    obtain ⟨b', hop, hwf⟩ := wellFormed_apply h op
    obtain ⟨b'', hops, hwf'⟩ := ih hwf
    exact ⟨b'', by simp [List.foldlM_cons, hop, hops], hwf'⟩

/-- The physical slot `slot` holds a stored byte. -/
def Occupied (b : Buffer) (slot : ℕ) : Prop :=
  ∃ i < b.len, slot = (b.readPos + i) % b.capacity

/-- The spans a buffer hands out: ranges of allocated slots, those of the read span all holding
stored bytes and those of the write span none. -/
structure SpansSound (b : Buffer) : Prop where
  read_pos_iff : 0 < b.readSpan.1 ↔ 0 < b.len
  read_slots : 0 < b.readSpan.1 → ∃ off, b.readSpan.2 = some off ∧
    ∀ j < b.readSpan.1, off + j < b.data.length ∧ b.Occupied (off + j)
  write_pos_iff : 0 < b.writeSpan.1 ↔ b.len < b.capacity
  write_slots : 0 < b.writeSpan.1 → ∃ off, b.writeSpan.2 = some off ∧
    ∀ j < b.writeSpan.1, off + j < b.data.length ∧ ¬b.Occupied (off + j)

/-- A slot of the write span is free: walking from `readPos`, the stored bytes end before it. -/
theorem not_occupied_of_free (h : b.WellFormed) {j : ℕ} (hj : b.len + j < b.capacity) :
    ¬b.Occupied (b.writePos + j) := by
  rintro ⟨i, hi, heq⟩
  have hread := h.readPos_lt
  -- both indices wrap at most once, which leaves linear arithmetic
  have hslot : (b.readPos + i) % b.capacity = b.readPos + i ∨
      (b.readPos + i) % b.capacity + b.capacity = b.readPos + i := by
    rcases lt_or_ge (b.readPos + i) b.capacity with hlt | hge
    · exact .inl (Nat.mod_eq_of_lt hlt)
    · exact .inr (by rw [Nat.mod_eq_sub_mod hge, Nat.mod_eq_of_lt (by omega)]; omega)
  rcases h.writePos_cases with hw | hw <;> omega

/-- The spans of a buffer are what they promise. -/
theorem spansSound (h : b.WellFormed) : b.SpansSound := by
  have hall := h.allocated
  rcases Nat.eq_zero_or_pos b.len with hempty | hstored
  · have hspan := readSpan_of_len_eq_zero hempty
    obtain ⟨span, hwrite, hpos, hle, hend, -⟩ :=
      writeSpan_spec h (by rw [hempty]; exact h.capacity_pos)
    refine ⟨by simp [hspan, hempty], by simp [hspan], by simp [hwrite, hpos, hempty,
      h.capacity_pos], fun _ => ⟨b.writePos, by rw [hwrite], fun j hj => ?_⟩⟩
    rw [hwrite] at hj
    exact ⟨by omega, not_occupied_of_free h (by omega)⟩
  · obtain ⟨span, hread, hpos, hle, hend, -, -⟩ := readSpan_spec h hstored
    have hslots : ∀ j < b.readSpan.1, b.readPos + j < b.data.length ∧
        b.Occupied (b.readPos + j) := by
      rw [hread]
      intro j hj
      exact ⟨by omega, j, by omega, (Nat.mod_eq_of_lt (by omega)).symm⟩
    rcases eq_or_lt_of_le h.len_le with hfull | hspace
    · have hspan := writeSpan_of_len_eq_capacity h hfull
      exact ⟨by simp [hread, hpos, hstored], fun _ => ⟨b.readPos, by rw [hread], hslots⟩,
        by simp [hspan, hfull], by simp [hspan]⟩
    · obtain ⟨wspan, hwrite, hwpos, hwle, hwend, -⟩ := writeSpan_spec h hspace
      refine ⟨by simp [hread, hpos, hstored], fun _ => ⟨b.readPos, by rw [hread], hslots⟩,
        by simp [hwrite, hwpos, hspace], fun _ => ⟨b.writePos, by rw [hwrite], fun j hj => ?_⟩⟩
      rw [hwrite] at hj
      exact ⟨by omega, not_occupied_of_free h (by omega)⟩

/-- The representation invariant over whole runs. After a successful `init` and any sequence of
calls, every one of which returns, the indices satisfy the invariant, the spans are sound, and
the differences and moduli the functions compute are defined. -/
theorem invariant_of_calls {capacity : ℕ} {alloc : Alloc} {b₀ : Buffer}
    (h : init capacity alloc = .ok b₀) (ops : List Op) :
    ∃ b, ops.foldlM apply b₀ = some b ∧
      256 ≤ b.capacity ∧ b.capacity ≤ 65536 ∧ b.len ≤ b.capacity ∧ b.readPos < b.capacity ∧
      b.writePos < b.capacity ∧ b.writePos = (b.readPos + b.len) % b.capacity ∧
      (b.len = 0 → b.readPos = 0 ∧ b.writePos = 0) ∧
      b.SpansSound ∧
      (b.len ≤ b.capacity ∧ b.readPos ≤ b.capacity ∧ b.writePos ≤ b.capacity ∧ b.capacity ≠ 0) := by
  obtain ⟨b, hops, hwf⟩ := wellFormed_calls (wellFormed_init h).1 ops
  exact ⟨b, hops, hwf.min_le, hwf.le_max, hwf.len_le, hwf.readPos_lt, hwf.writePos_lt,
    hwf.writePos_eq, hwf.reset, spansSound hwf, hwf.len_le, hwf.readPos_lt.le, hwf.writePos_lt.le,
    hwf.capacity_pos.ne'⟩

/-- The invariant after filling, draining and resizing a buffer of the smallest capacity. -/
theorem invariant_of_calls_fill :
    ∃ b, [Op.write (List.replicate 300 7), .read 200, .write [1, 2], .resize 512 .zeroed].foldlM
        apply ⟨List.replicate 256 0, 256, 0, 0, 0⟩ = some b ∧
      256 ≤ b.capacity ∧ b.capacity ≤ 65536 ∧ b.len ≤ b.capacity ∧ b.readPos < b.capacity ∧
      b.writePos < b.capacity ∧ b.writePos = (b.readPos + b.len) % b.capacity ∧
      (b.len = 0 → b.readPos = 0 ∧ b.writePos = 0) ∧
      b.SpansSound ∧
      (b.len ≤ b.capacity ∧ b.readPos ≤ b.capacity ∧ b.writePos ≤ b.capacity ∧ b.capacity ≠ 0) :=
  invariant_of_calls
    (show init 256 .zeroed = .ok ⟨List.replicate 256 0, 256, 0, 0, 0⟩ from rfl) _

end RingbufChar.Buffer
