import KernelBridge.Driver.Buffer
import Mathlib.Data.List.GetD

/-!
# The representation invariant of the circular buffer

`WellFormed b` says that the indices of `b` describe a circular queue in its allocation, and
`b.fifo` is the queue: the stored bytes, oldest first. Every function of the buffer keeps the
invariant, and acts on the queue as its name says:

* `fifo_consume`: consuming drops a prefix;
* `fifo_commit_store`: storing at the write span and committing appends;
* `fifo_clear`, `resize_ok`: clearing empties the queue, resizing leaves it alone.

The spans are characterised by `readSpan_spec` and `writeSpan_spec`, which is all that a copy loop
needs to know of them.
-/

namespace RingbufChar.Buffer

open Circular

/-- The representation invariant. -/
structure WellFormed (b : Buffer) : Prop where
  min_le : minCapacity ≤ b.capacity
  le_max : b.capacity ≤ maxCapacity
  allocated : b.data.length = b.capacity
  len_le : b.len ≤ b.capacity
  readPos_lt : b.readPos < b.capacity
  writePos_eq : b.writePos = (b.readPos + b.len) % b.capacity
  reset : b.len = 0 → b.readPos = 0 ∧ b.writePos = 0

/-- The stored bytes, oldest first. -/
def fifo (b : Buffer) : List UInt8 := window b.data b.readPos b.len

variable {b : Buffer}

namespace WellFormed

/-- A buffer has room for a byte. -/
theorem capacity_pos (h : b.WellFormed) : 0 < b.capacity :=
  lt_of_lt_of_le (by decide) h.min_le

/-- The position to write at is inside the buffer. -/
theorem writePos_lt (h : b.WellFormed) : b.writePos < b.capacity := by
  rw [h.writePos_eq]
  exact Nat.mod_lt _ h.capacity_pos

/-- The buffer has data to read from. -/
theorem data_ne_nil (h : b.WellFormed) : b.data ≠ [] := by
  rw [← List.length_pos_iff, h.allocated]
  exact h.capacity_pos

/-- The queue has the bytes that are counted. -/
theorem length_fifo (h : b.WellFormed) : b.fifo.length = b.len :=
  length_window (by rw [h.allocated]; exact h.len_le)

/-- What is available is what is not counted. -/
theorem available_eq (h : b.WellFormed) : b.available = b.capacity - b.len :=
  if_neg (not_lt.mpr h.len_le)

/-- The write index without the modulus: it is ahead of the stored bytes, or has wrapped. -/
theorem writePos_cases (h : b.WellFormed) :
    b.writePos = b.readPos + b.len ∨ b.writePos + b.capacity = b.readPos + b.len := by
  rw [h.writePos_eq]
  have := h.readPos_lt
  have := h.len_le
  rcases lt_or_ge (b.readPos + b.len) b.capacity with hlt | hge
  · exact .inl (Nat.mod_eq_of_lt hlt)
  · right
    rw [Nat.mod_eq_sub_mod hge, Nat.mod_eq_of_lt (by omega)]
    omega

/-- The queue is empty when nothing is counted. -/
theorem fifo_eq_nil_iff (h : b.WellFormed) : b.fifo = [] ↔ b.len = 0 := by
  rw [← List.length_eq_zero_iff, h.length_fifo]

end WellFormed

/-! ## Spans -/

/-- The read span of a nonempty buffer: a nonempty segment of the allocation that starts at
`readPos` and holds the oldest stored bytes. -/
theorem readSpan_spec (h : b.WellFormed) (hlen : 0 < b.len) :
    ∃ span, b.readSpan = (span, some b.readPos) ∧ 0 < span ∧ span ≤ b.len ∧
      b.readPos + span ≤ b.capacity ∧ (span < b.len → b.readPos + span = b.capacity) ∧
      ∀ k ≤ span, b.load (some b.readPos) k = b.fifo.take k := by
  have hpos := h.readPos_lt
  refine ⟨min b.len (b.capacity - b.readPos), ?_, by omega, by omega, by omega, by omega, ?_⟩
  · rw [readSpan, if_neg (by simp [h.data_ne_nil]; omega)]
  · intro k hk
    rw [fifo, take_window (by omega), window_eq_segment (by rw [h.allocated]; omega)]
    rfl

/-- The read span of an empty buffer is empty. -/
theorem readSpan_of_len_eq_zero (hlen : b.len = 0) : b.readSpan = (0, none) :=
  if_pos (.inr hlen)

/-- The write span of a buffer that is not full: a nonempty segment of the allocation that starts
at `writePos` and is free. -/
theorem writeSpan_spec (h : b.WellFormed) (hlen : b.len < b.capacity) :
    ∃ span, b.writeSpan = (span, some b.writePos) ∧ 0 < span ∧ span ≤ b.capacity - b.len ∧
      b.writePos + span ≤ b.capacity ∧
      (span < b.capacity - b.len → b.writePos + span = b.capacity) := by
  have hav := h.available_eq
  have hpos := h.writePos_lt
  refine ⟨min b.available (b.capacity - b.writePos), ?_, by omega, by omega, by omega, by omega⟩
  rw [writeSpan, if_neg h.data_ne_nil, if_neg (by omega)]

/-- The write span of a full buffer is empty. -/
theorem writeSpan_of_len_eq_capacity (h : b.WellFormed) (hlen : b.len = b.capacity) :
    b.writeSpan = (0, none) := by
  rw [writeSpan, if_neg h.data_ne_nil, if_pos (by rw [h.available_eq]; omega)]

/-! ## Consuming -/

/-- Consuming nothing changes nothing. -/
@[simp]
theorem consume_zero (b : Buffer) : b.consume 0 = b := if_pos (.inr rfl)

/-- Consuming does not change the capacity. -/
@[simp]
theorem capacity_consume (b : Buffer) (count : ℕ) : (b.consume count).capacity = b.capacity := by
  unfold consume
  split_ifs
  · rfl
  · dsimp only; split_ifs <;> rfl

/-- Consuming lowers the count, to zero at the least. -/
theorem len_consume (h : b.WellFormed) (count : ℕ) :
    (b.consume count).len = b.len - min count b.len := by
  unfold consume
  split_ifs with h₁
  · rcases h₁ with h₁ | rfl
    · exact absurd h₁ h.data_ne_nil
    · simp
  · dsimp only; split_ifs <;> rfl

/-- Consuming keeps the invariant. -/
theorem wellFormed_consume (h : b.WellFormed) (count : ℕ) : (b.consume count).WellFormed := by
  have hcap := h.capacity_pos
  have hlen := h.len_le
  unfold consume
  split_ifs with h₁
  · exact h
  · dsimp only
    split_ifs with h₂
    · exact ⟨h.min_le, h.le_max, h.allocated, by simp only; omega, hcap, by simp [h₂],
        fun _ => ⟨rfl, rfl⟩⟩
    · refine ⟨h.min_le, h.le_max, h.allocated, by simp only; omega, Nat.mod_lt _ hcap, ?_,
        fun h₃ => absurd h₃ h₂⟩
      -- the read index advances by what the length loses, so the write index stays
      have hk : b.readPos + min count b.len + (b.len - min count b.len) = b.readPos + b.len := by
        omega
      simp only [Nat.mod_add_mod, hk]
      exact h.writePos_eq

/-- Consuming drops the oldest bytes. -/
theorem fifo_consume (h : b.WellFormed) (count : ℕ) :
    (b.consume count).fifo = b.fifo.drop count := by
  have hlen := h.len_le
  have hall := h.allocated
  have hmin : b.fifo.drop count = b.fifo.drop (min count b.len) := by
    rcases le_total count b.len with hle | hle
    · rw [Nat.min_eq_left hle]
    · rw [Nat.min_eq_right hle, List.drop_eq_nil_of_le (by rw [h.length_fifo]; exact hle),
        List.drop_eq_nil_of_le (by rw [h.length_fifo])]
  have hdrop : b.fifo.drop count =
      window b.data (b.readPos + min count b.len) (b.len - min count b.len) := by
    rw [hmin, fifo, drop_window (Nat.min_le_right _ _) (by omega)]
  rw [hdrop]
  unfold consume
  split_ifs with h₁
  · rcases h₁ with h₁ | rfl
    · exact absurd h₁ h.data_ne_nil
    · simp [fifo]
  · dsimp only
    split_ifs with h₂
    · simp [fifo, h₂]
    · rw [fifo, ← hall, window_mod]

/-- Consuming some but not all of the stored bytes advances `readPos`. -/
theorem consume_of_lt (hdata : b.data ≠ []) {k : ℕ} (hpos : 0 < k) (hlt : k < b.len) :
    b.consume k = { b with readPos := (b.readPos + k) % b.capacity, len := b.len - k } := by
  unfold consume
  rw [if_neg (by simp [hdata]; omega)]
  simp only [Nat.min_eq_left hlt.le]
  rw [if_neg (by omega)]

/-- Consuming all the stored bytes resets the indices. -/
theorem consume_of_le (hdata : b.data ≠ []) {k : ℕ} (hpos : 0 < k) (hle : b.len ≤ k) :
    b.consume k = b.clear := by
  unfold consume
  rw [if_neg (by simp [hdata]; omega)]
  simp only [Nat.min_eq_right hle, Nat.sub_self, if_true]
  rfl

/-- Two consumptions within the stored bytes are one. -/
theorem consume_consume (h : b.WellFormed) {m n : ℕ} (hmn : m + n ≤ b.len) :
    (b.consume m).consume n = b.consume (m + n) := by
  rcases Nat.eq_zero_or_pos m with rfl | hm
  · simp
  rcases Nat.eq_zero_or_pos n with rfl | hn
  · simp
  -- the first one leaves bytes stored, so it does not reset the indices
  rw [consume_of_lt h.data_ne_nil hm (by omega)]
  rcases Nat.lt_or_ge (m + n) b.len with hlt | hge
  · rw [consume_of_lt h.data_ne_nil (by omega) hlt,
      consume_of_lt (by exact h.data_ne_nil) hn (by simp only; omega)]
    simp only [Nat.mod_add_mod, Nat.add_assoc, Nat.sub_sub]
  · rw [consume_of_le h.data_ne_nil (by omega) hge,
      consume_of_le (by exact h.data_ne_nil) hn (by simp only; omega)]
    rfl

/-! ## Storing and committing -/

/-- Committing nothing changes nothing. -/
@[simp]
theorem commit_zero (b : Buffer) : b.commit 0 = b := if_pos (.inr rfl)

/-- Committing does not change the capacity. -/
@[simp]
theorem capacity_commit (b : Buffer) (count : ℕ) : (b.commit count).capacity = b.capacity := by
  unfold commit
  split_ifs <;> rfl

/-- Committing does not move the position to read from. -/
@[simp]
theorem readPos_commit (b : Buffer) (count : ℕ) : (b.commit count).readPos = b.readPos := by
  unfold commit
  split_ifs <;> rfl

/-- Committing does not change the data. -/
@[simp]
theorem data_commit (b : Buffer) (count : ℕ) : (b.commit count).data = b.data := by
  unfold commit
  split_ifs <;> rfl

/-- Committing raises the count, to the capacity at the most. -/
theorem len_commit (h : b.WellFormed) (count : ℕ) :
    (b.commit count).len = b.len + min count (b.capacity - b.len) := by
  unfold commit
  split_ifs with h₁
  · rcases h₁ with h₁ | rfl
    · exact absurd h₁ h.data_ne_nil
    · simp
  · simp only [h.available_eq]

/-- Committing keeps the invariant. -/
theorem wellFormed_commit (h : b.WellFormed) (count : ℕ) : (b.commit count).WellFormed := by
  have hlen := h.len_le
  unfold commit
  split_ifs with h₁
  · exact h
  · rw [not_or] at h₁
    have hav := h.available_eq
    refine ⟨h.min_le, h.le_max, h.allocated, by simp only; omega, h.readPos_lt, ?_, ?_⟩
    · simp only [h.writePos_eq, Nat.mod_add_mod, Nat.add_assoc]
    · -- an empty buffer has space, so a nonzero commit leaves it nonempty
      intro h₂
      have := h.capacity_pos
      simp only at h₂
      omega

/-- Storing a block inside the write span leaves the invariant alone: only free slots change. -/
theorem wellFormed_store (h : b.WellFormed) {off : ℕ} {bs : List UInt8}
    (hbs : off + bs.length ≤ b.capacity) : (b.store (some off) bs).WellFormed :=
  { h with
    allocated := by
      change (overwrite b.data off bs).length = b.capacity
      rw [length_overwrite (by rw [h.allocated]; exact hbs), h.allocated] }

/-- A block stored at the write span extends the queue once its bytes are committed, and only the
committed ones: the rest of the block stays in free slots. -/
theorem fifo_commit_store (h : b.WellFormed) {bs : List UInt8} {count : ℕ}
    (hend : b.writePos + bs.length ≤ b.capacity) (hfree : b.len + bs.length ≤ b.capacity)
    (hcount : count ≤ bs.length) :
    ((b.store (some b.writePos) bs).commit count).fifo = b.fifo ++ bs.take count := by
  have hstore := wellFormed_store h hend
  -- were the whole block committed, the queue would grow by all of it
  have hext : window (overwrite b.data b.writePos bs) b.readPos (b.len + bs.length) =
      b.fifo ++ bs := by
    rw [h.writePos_eq, ← h.allocated] at hend ⊢
    exact window_overwrite (by rw [h.allocated]; exact h.readPos_lt) hend
      (by rw [h.allocated]; exact hfree)
  have hlen : ((b.store (some b.writePos) bs).commit count).len = b.len + count := by
    rw [len_commit hstore]
    change b.len + min count (b.capacity - b.len) = b.len + count
    omega
  calc ((b.store (some b.writePos) bs).commit count).fifo
      = window (overwrite b.data b.writePos bs) b.readPos (b.len + count) := by
        rw [fifo, hlen, readPos_commit, data_commit]; rfl
    _ = (window (overwrite b.data b.writePos bs) b.readPos (b.len + bs.length)).take
          (b.len + count) := (take_window (by omega)).symm
    _ = b.fifo ++ bs.take count := by
        rw [hext, List.take_append, h.length_fifo, Nat.add_sub_cancel_left,
          List.take_of_length_le (by rw [h.length_fifo]; omega)]

/-! ## Initialising, clearing and resizing -/

/-- A new buffer has its capacity and is empty. -/
theorem wellFormed_init {capacity : ℕ} {alloc : Alloc} (h : init capacity alloc = .ok b) :
    b.WellFormed ∧ b.capacity = capacity ∧ b.fifo = [] := by
  unfold init at h
  split at h
  · cases h
  next hvalid =>
    simp only [capacityValid, Bool.not_eq_true, Bool.not_eq_false', Bool.and_eq_true,
      decide_eq_true_eq] at hvalid
    split at h
    · cases h
    next block _ =>
      cases h
      have hpos : 0 < capacity := lt_of_lt_of_le (by decide) hvalid.1
      exact ⟨⟨hvalid.1, hvalid.2, block.2, Nat.zero_le _, hpos, by simp, fun _ => ⟨rfl, rfl⟩⟩,
        rfl, by simp [fifo]⟩

/-- Clearing keeps the invariant. -/
theorem wellFormed_clear (h : b.WellFormed) : b.clear.WellFormed :=
  ⟨h.min_le, h.le_max, h.allocated, Nat.zero_le _, h.capacity_pos, by simp [clear],
    fun _ => ⟨rfl, rfl⟩⟩

/-- A cleared buffer is empty. -/
@[simp]
theorem fifo_clear (b : Buffer) : b.clear.fifo = [] := by
  simp [clear, fifo]

/-- The loop of `resize` after `n` iterations: the first `n` bytes of the new block are the
oldest `n` stored bytes, the rest is untouched. -/
theorem relinearise_prefix (h : b.WellFormed) {newData : List UInt8} {n : ℕ} (hn : n ≤ b.len)
    (hlen : b.len ≤ newData.length) :
    (List.range n).foldl
        (fun newData index =>
          newData.set index (b.data.getD ((b.readPos + index) % b.capacity) 0)) newData =
      b.fifo.take n ++ newData.drop n := by
  have hall := h.allocated
  induction n with
  | zero => simp
  | succ n ih =>
    have hfifo : n < b.fifo.length := by rw [h.length_fifo]; omega
    have htake : (b.fifo.take n).length = n := by
      rw [List.length_take, h.length_fifo]; omega
    have hslot : (n + b.readPos) % b.data.length < b.data.length :=
      Nat.mod_lt _ (by rw [hall]; exact h.capacity_pos)
    -- the byte copied by iteration `n` is entry `n` of the queue
    have hbyte : b.data.getD ((b.readPos + n) % b.capacity) 0 = b.fifo[n] := by
      rw [← hall, Nat.add_comm, List.getD_eq_getElem _ _ hslot]
      exact (getElem_window hfifo hslot).symm
    -- it replaces the first of the untouched bytes
    rw [List.range_succ, List.foldl_append, ih (by omega), List.foldl_cons, List.foldl_nil, hbyte,
      List.set_append_right _ _ (by omega), htake, Nat.sub_self,
      List.drop_eq_getElem_cons (by omega : n < newData.length), List.set_cons_zero,
      ← List.take_concat_get' b.fifo n hfifo, List.append_assoc, List.singleton_append]

/-- The copy loop of `resize` writes the queue to the front of the new block. -/
theorem relinearise_eq (h : b.WellFormed) {newData : List UInt8} (hlen : b.len ≤ newData.length) :
    b.relinearise newData = b.fifo ++ newData.drop b.len := by
  rw [relinearise, relinearise_prefix h le_rfl hlen, List.take_of_length_le (by rw [h.length_fifo])]

/-- A successful `resize` sets the capacity and keeps the length, whatever the block holds. -/
theorem resize_capacity_len {newCapacity : ℕ} {alloc : Alloc} {b' : Buffer}
    (hr : b.resize newCapacity alloc = .ok b') : b'.capacity = newCapacity ∧ b'.len = b.len := by
  unfold resize at hr
  split at hr
  · cases hr
  split at hr
  · cases hr
  split at hr
  · cases hr
  · cases hr
    exact ⟨rfl, rfl⟩

/-- A successful `resize`: the capacity is the requested one, which is in bounds and holds the
stored bytes, and the queue is unchanged. -/
theorem resize_ok (h : b.WellFormed) {newCapacity : ℕ} {alloc : Alloc} {b' : Buffer}
    (hr : b.resize newCapacity alloc = .ok b') :
    b'.WellFormed ∧ b'.fifo = b.fifo ∧ b'.capacity = newCapacity ∧ b'.len = b.len := by
  unfold resize at hr
  split at hr
  · cases hr
  next hvalid =>
    split at hr
    · cases hr
    next hfit =>
      split at hr
      · cases hr
      next newData _ =>
        cases hr
        rw [Bool.not_eq_true, Bool.not_eq_false', capacityValid, Bool.and_eq_true,
          decide_eq_true_eq, decide_eq_true_eq] at hvalid
        have hpos : 0 < newCapacity := lt_of_lt_of_le (by decide) hvalid.1
        have hnew := newData.2
        have hdata := relinearise_eq h (show b.len ≤ newData.1.length by omega)
        have hlen : (b.relinearise newData.1).length = newCapacity := by
          rw [hdata, List.length_append, h.length_fifo, List.length_drop]; omega
        refine ⟨⟨hvalid.1, hvalid.2, hlen, by simp only; omega, hpos, ?_, ?_⟩, ?_, rfl, rfl⟩
        · -- a buffer filled to the brim wraps its write index to the start
          simp only [Nat.zero_add]
          split_ifs with heq
          · rw [heq, Nat.mod_self]
          · rw [Nat.mod_eq_of_lt (by omega)]
        · intro h₀
          simp only at h₀
          simp [h₀]
        · rw [fifo, window_eq_segment (by simp only [hlen]; omega)]
          simp only [List.drop_zero, hdata]
          rw [List.take_append_of_le_length (by rw [h.length_fifo]),
            List.take_of_length_le (by rw [h.length_fifo])]

/-- The result of `resize`, for any request and any allocator. -/
theorem resize_error_iff {newCapacity : ℕ} {alloc : Alloc} {e : Errno} :
    b.resize newCapacity alloc = .error e ↔
      (capacityValid newCapacity = false ∧ e = .EINVAL) ∨
      (capacityValid newCapacity = true ∧ newCapacity < b.len ∧ e = .EMSGSIZE) ∨
      (capacityValid newCapacity = true ∧ b.len ≤ newCapacity ∧ alloc newCapacity = none ∧
        e = .ENOMEM) := by
  unfold resize
  cases hv : capacityValid newCapacity
  · simp [eq_comm]
  · rcases lt_or_ge newCapacity b.len with hlt | hge
    · simp [hlt, not_le.mpr hlt, eq_comm]
    · cases ha : alloc newCapacity <;> simp [not_lt.mpr hge, hge, eq_comm]

end RingbufChar.Buffer
