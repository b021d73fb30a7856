import KernelBridge.Lib.Loop
import Mathlib.Algebra.Order.Group.Int

/-!
# The exchange of the benchmark

`exchange` of `lab/benchmark.py`: one loop sends a payload and another receives as many bytes. A
transport is any pair of functions on a state of its own, which say how many bytes a call moves or
which exception it raises. The counters that the source returns say nothing of a call that ended in
an exception, so the calls are counted by the transport (`Transport.counting`).

Main result: `exchange_exact`. Every exchange ends within one send and one receive for each byte,
what it returns has the length of the payload, and over a queue it is the payload itself.
-/

namespace Lab.Benchmark

/-- The `send` and `receive` of a transport, with exceptions of type `ε`. -/
structure Transport (σ ε : Type*) where
  send : List UInt8 → σ → Except ε ℤ × σ
  receive : ℕ → σ → Except ε (List UInt8) × σ

/-- What `exchange` raises: an exception of the transport, or a `RuntimeError` with its text. -/
inductive ExchangeError (ε : Type*)
  | transport (e : ε)
  | runtimeError (message : String)
  deriving DecidableEq, Repr

/-- The four counters that `exchange` returns. -/
structure Counters where
  writeCalls : ℕ
  readCalls : ℕ
  shortWrites : ℕ
  shortReads : ℕ
  deriving DecidableEq, Repr

/-- The variables of the sending loop. -/
structure Sending (σ : Type*) where
  transport : σ
  offset : ℕ
  writeCalls : ℕ
  shortWrites : ℕ

/-- The variables of the receiving loop. -/
structure Receiving (σ : Type*) where
  transport : σ
  remaining : ℕ
  chunks : List (List UInt8)
  readCalls : ℕ
  shortReads : ℕ

variable {σ ε : Type*}

/-- One iteration of the sending loop. It leaves with an exception and the transport, or with its
variables. -/
def sendStep (T : Transport σ ε) (payload : List UInt8) (s : Sending σ) :
    Sending σ ⊕ (ExchangeError ε × σ) ⊕ Sending σ :=
  if s.offset < payload.length then
    match T.send (payload.drop s.offset) s.transport with
    | (.error e, t) => .inr (.inl (.transport e, t))
    | (.ok count, t) =>
      if 0 < count ∧ count ≤ payload.length - s.offset then
        .inl {
          transport := t
          offset := s.offset + count.toNat
          writeCalls := s.writeCalls + 1
          shortWrites := s.shortWrites + if count < payload.length - s.offset then 1 else 0 }
      else .inr (.inl (.runtimeError "write made no progress or returned an invalid count", t))
  else .inr (.inr s)

/-- One iteration of the receiving loop. -/
def receiveStep (T : Transport σ ε) (s : Receiving σ) :
    Receiving σ ⊕ (ExchangeError ε × σ) ⊕ Receiving σ :=
  if s.remaining ≠ 0 then
    match T.receive s.remaining s.transport with
    | (.error e, t) => .inr (.inl (.transport e, t))
    | (.ok data, t) =>
      if data = [] ∨ s.remaining < data.length then
        .inr (.inl (.runtimeError "unexpected EOF or invalid read length", t))
      else
        .inl {
          transport := t
          remaining := s.remaining - data.length
          chunks := s.chunks ++ [data]
          readCalls := s.readCalls + 1
          shortReads := s.shortReads + if data.length < s.remaining then 1 else 0 }
  else .inr (.inr s)

/-- What is left of an exchange: the exception or the data with the counters, and the transport. -/
abbrev Exchanged (σ ε : Type*) : Type _ := Except (ExchangeError ε) (List UInt8 × Counters) × σ

/-- Nothing is sent yet. -/
def Sending.start (t : σ) : Sending σ where
  transport := t
  offset := 0
  writeCalls := 0
  shortWrites := 0

/-- Nothing is received yet. -/
def Receiving.start (payload : List UInt8) (t : σ) : Receiving σ where
  transport := t
  remaining := payload.length
  chunks := []
  readCalls := 0
  shortReads := 0

/-- The value that `exchange` returns behind the receiving loop. -/
def returned (sending : Sending σ) : (ExchangeError ε × σ) ⊕ Receiving σ → Exchanged σ ε
  | .inl (e, t) => (.error e, t)
  | .inr s =>
    (.ok (s.chunks.flatten, {
      writeCalls := sending.writeCalls
      readCalls := s.readCalls
      shortWrites := sending.shortWrites
      shortReads := s.shortReads }), s.transport)

/-- `exchange` behind the sending loop. -/
def receiveAll (T : Transport σ ε) (payload : List UInt8) :
    (ExchangeError ε × σ) ⊕ Sending σ → Option (Exchanged σ ε)
  | .inl (e, t) => some (.error e, t)
  | .inr sending =>
    (Loop.run (receiveStep T) (payload.length + 1) (.start payload sending.transport)).map
      (returned sending)

/-- `exchange`; `none` if a loop needs more iterations than the payload has bytes. -/
def exchange (T : Transport σ ε) (payload : List UInt8) (t : σ) : Option (Exchanged σ ε) :=
  (Loop.run (sendStep T payload) (payload.length + 1) (.start t)).bind (receiveAll T payload)

/-! ## Counting the calls -/

/-- The calls that a transport has received. -/
structure Calls where
  sends : ℕ
  receives : ℕ
  deriving DecidableEq, Repr

/-- The transport with its calls counted, those included that raise an exception. -/
def Transport.counting (T : Transport σ ε) : Transport (σ × Calls) ε where
  send data t :=
    let (result, t') := T.send data t.1
    (result, t', { t.2 with sends := t.2.sends + 1 })
  receive count t :=
    let (result, t') := T.receive count t.1
    (result, t', { t.2 with receives := t.2.receives + 1 })

/-! ## Single iterations -/

/-- What one iteration of the sending loop can do. -/
inductive SendStep (T : Transport σ ε) (payload : List UInt8) (s : Sending σ) :
    Sending σ ⊕ (ExchangeError ε × σ) ⊕ Sending σ → Prop
  | done (h : payload.length ≤ s.offset) : SendStep T payload s (.inr (.inr s))
  | fail (e : ExchangeError ε) (h : s.offset < payload.length)
      (hbad : ∀ (n : ℕ) (t : σ), 0 < n → s.offset + n ≤ payload.length →
        T.send (payload.drop s.offset) s.transport ≠ (.ok n, t)) :
      SendStep T payload s (.inr (.inl (e, (T.send (payload.drop s.offset) s.transport).2)))
  | sent (n : ℕ) (t : σ) (hpos : 0 < n) (hle : s.offset + n ≤ payload.length)
      (hsend : T.send (payload.drop s.offset) s.transport = (.ok n, t)) :
      SendStep T payload s (.inl {
        transport := t
        offset := s.offset + n
        writeCalls := s.writeCalls + 1
        shortWrites := s.shortWrites + if s.offset + n < payload.length then 1 else 0 })

/-- A step of the sender does what `SendStep` says. -/
theorem sendStep_spec (T : Transport σ ε) (payload : List UInt8) (s : Sending σ) :
    SendStep T payload s (sendStep T payload s) := by
  unfold sendStep
  split_ifs with hlt
  · rcases hsend : T.send (payload.drop s.offset) s.transport with ⟨e | count, t⟩
    · have ht : t = (T.send (payload.drop s.offset) s.transport).2 := by rw [hsend]
      exact ht ▸ .fail _ hlt fun n t' _ _ h => by simp [hsend] at h
    · dsimp only
      by_cases hcount : 0 < count ∧ count ≤ payload.length - s.offset
      · rw [if_pos hcount]
        obtain ⟨n, rfl⟩ := Int.eq_ofNat_of_zero_le hcount.1.le
        have hshort : ((n : ℤ) < payload.length - s.offset) ↔ s.offset + n < payload.length := by
          omega
        simp only [Int.toNat_natCast, hshort]
        exact .sent n t (by omega) (by omega) hsend
      · rw [if_neg hcount]
        have ht : t = (T.send (payload.drop s.offset) s.transport).2 := by rw [hsend]
        refine ht ▸ .fail _ hlt fun n t' hpos hle h => hcount ?_
        obtain rfl : count = n := by simpa [hsend] using (Prod.mk.inj h).1
        omega
  · exact .done (not_lt.mp hlt)

/-- What one iteration of the receiving loop can do. -/
inductive ReceiveStep (T : Transport σ ε) (s : Receiving σ) :
    Receiving σ ⊕ (ExchangeError ε × σ) ⊕ Receiving σ → Prop
  | done (h : s.remaining = 0) : ReceiveStep T s (.inr (.inr s))
  | fail (e : ExchangeError ε) (h : s.remaining ≠ 0)
      (hbad : ∀ (data : List UInt8) (t : σ), data ≠ [] → data.length ≤ s.remaining →
        T.receive s.remaining s.transport ≠ (.ok data, t)) :
      ReceiveStep T s (.inr (.inl (e, (T.receive s.remaining s.transport).2)))
  | received (data : List UInt8) (t : σ) (hne : data ≠ []) (hle : data.length ≤ s.remaining)
      (hreceive : T.receive s.remaining s.transport = (.ok data, t)) :
      ReceiveStep T s (.inl {
        transport := t
        remaining := s.remaining - data.length
        chunks := s.chunks ++ [data]
        readCalls := s.readCalls + 1
        shortReads := s.shortReads + if data.length < s.remaining then 1 else 0 })

/-- A step of the receiver does what `ReceiveStep` says. -/
theorem receiveStep_spec (T : Transport σ ε) (s : Receiving σ) :
    ReceiveStep T s (receiveStep T s) := by
  unfold receiveStep
  split_ifs with hne
  · rcases hreceive : T.receive s.remaining s.transport with ⟨e | data, t⟩
    · have ht : t = (T.receive s.remaining s.transport).2 := by rw [hreceive]
      exact ht ▸ .fail _ hne fun data t' _ _ h => by simp [hreceive] at h
    · dsimp only
      by_cases hdata : data = [] ∨ s.remaining < data.length
      · rw [if_pos hdata]
        have ht : t = (T.receive s.remaining s.transport).2 := by rw [hreceive]
        refine ht ▸ .fail _ hne fun data' t' hne' hle h => ?_
        obtain rfl : data = data' := by simpa [hreceive] using (Prod.mk.inj h).1
        exact hdata.elim hne' (Nat.not_lt.mpr hle)
      · rw [if_neg hdata]
        obtain ⟨hdata, hle⟩ := not_or.mp hdata
        exact .received data t hdata (not_lt.mp hle) hreceive
  · exact .done (not_not.mp hne)

/-- The sending loop leaves, by the rule for an invariant that every call keeps. -/
theorem run_sendStep {T : Transport σ ε} {payload : List UInt8} {I : Sending σ → Prop}
    {Q : (ExchangeError ε × σ) ⊕ Sending σ → Prop}
    (hcont : ∀ s s', I s → SendStep T payload s (.inl s') → I s')
    (hexit : ∀ s r, I s → SendStep T payload s (.inr r) → Q r) {s : Sending σ} (h : I s) :
    ∃ r, Loop.run (sendStep T payload) (payload.length + 1) s = some r ∧ Q r := by
  refine Loop.run_of_variant (fun s => payload.length - s.offset) (fun s s' hI hstep => ?_)
    (fun s r hI hstep => hexit s r hI (hstep ▸ sendStep_spec T payload s)) h (by omega)
  have hspec := hstep ▸ sendStep_spec T payload s
  refine ⟨hcont s s' hI hspec, ?_⟩
  cases hspec with
  | sent n t hpos hle => dsimp only; omega

/-- The receiving loop leaves, by the rule for an invariant that every call keeps. -/
theorem run_receiveStep {T : Transport σ ε} {I : Receiving σ → Prop}
    {Q : (ExchangeError ε × σ) ⊕ Receiving σ → Prop}
    (hcont : ∀ s s', I s → ReceiveStep T s (.inl s') → I s')
    (hexit : ∀ s r, I s → ReceiveStep T s (.inr r) → Q r) {s : Receiving σ} (h : I s) :
    ∃ r, Loop.run (receiveStep T) (s.remaining + 1) s = some r ∧ Q r := by
  refine Loop.run_of_variant (fun s => s.remaining) (fun s s' hI hstep => ?_)
    (fun s r hI hstep => hexit s r hI (hstep ▸ receiveStep_spec T s)) h (Nat.lt_succ_self _)
  have hspec := hstep ▸ receiveStep_spec T s
  refine ⟨hcont s s' hI hspec, ?_⟩
  cases hspec with
  | received data t hne hle =>
    have := List.length_pos_iff.mpr hne
    dsimp only
    omega

/-! ## Any transport -/

/-- What is known in the sending loop over a counting transport. -/
structure SendingInv (payload : List UInt8) (s : Sending (σ × Calls)) : Prop where
  calls : s.transport.2 = { sends := s.writeCalls, receives := 0 }
  offset_le : s.offset ≤ payload.length
  writeCalls_le : s.writeCalls ≤ s.offset
  /-- The call that sends the last byte is the only one that is not short. -/
  shortWrites : s.writeCalls = s.shortWrites + if s.offset < payload.length then 0 else 1

/-- What is known in the receiving loop, behind `sends` calls of the sending loop. -/
structure ReceivingInv (payload : List UInt8) (sends : ℕ) (s : Receiving (σ × Calls)) : Prop where
  calls : s.transport.2 = { sends, receives := s.readCalls }
  length : s.chunks.flatten.length + s.remaining = payload.length
  readCalls_le : s.readCalls ≤ s.chunks.flatten.length
  shortReads : s.readCalls = s.shortReads + if s.remaining ≠ 0 then 0 else 1

/-- The sending loop makes no more calls than there are bytes, and all but the last are short. -/
theorem sends_le (T : Transport σ ε) {payload : List UInt8} (hne : payload ≠ []) (t : σ) :
    ∃ r, Loop.run (sendStep T.counting payload) (payload.length + 1)
        (.start (t, { sends := 0, receives := 0 })) = some r ∧
      r.elim (fun x => x.2.2.sends ≤ payload.length ∧ x.2.2.receives = 0)
        fun s => s.transport.2 = { sends := s.writeCalls, receives := 0 } ∧
          s.writeCalls ≤ payload.length ∧ s.writeCalls = s.shortWrites + 1 := by
  have hpos := List.length_pos_iff.mpr hne
  refine run_sendStep (I := SendingInv payload) ?_ ?_ ⟨rfl, Nat.zero_le _, le_rfl, by
    simp [Sending.start, hpos]⟩
  · rintro s _ h hstep
    cases hstep with
    | sent n t hpos hle hsend =>
      have hcalls : t.2 = { s.transport.2 with sends := s.transport.2.sends + 1 } :=
        congrArg (fun x => x.2.2) hsend.symm
      refine ⟨by rw [hcalls, h.calls], hle, ?_, ?_⟩
      · have := h.writeCalls_le
        dsimp only
        omega
      · have := h.shortWrites
        dsimp only
        split_ifs at * <;> omega
  · rintro s _ h hstep
    have hle := h.offset_le
    have hcount := h.writeCalls_le
    cases hstep with
    | done hdone =>
      have hshort := h.shortWrites
      rw [if_neg (by omega)] at hshort
      exact ⟨h.calls, by omega, hshort⟩
    | fail e hlt =>
      change s.transport.2.sends + 1 ≤ payload.length ∧ s.transport.2.receives = 0
      rw [h.calls]
      exact ⟨by dsimp only; omega, rfl⟩

/-- The receiving loop makes no more calls than there are bytes, all but the last are short, and
what it has received has the length of the payload. -/
theorem receives_le (T : Transport σ ε) {payload : List UInt8} (hne : payload ≠ []) (sends : ℕ)
    {t : σ × Calls} (ht : t.2 = { sends, receives := 0 }) :
    ∃ r, Loop.run (receiveStep T.counting) (payload.length + 1)
        (.start payload t) = some r ∧
      r.elim (fun x => x.2.2.sends = sends ∧ x.2.2.receives ≤ payload.length)
        fun s => s.transport.2 = { sends, receives := s.readCalls } ∧
          s.readCalls ≤ payload.length ∧ s.chunks.flatten.length = payload.length ∧
          s.readCalls = s.shortReads + 1 := by
  have hpos := List.length_pos_iff.mpr hne
  refine run_receiveStep (I := ReceivingInv payload sends) ?_ ?_
    ⟨ht, by simp [Receiving.start], le_rfl, by simp [Receiving.start, hpos.ne']⟩
  · rintro s _ h hstep
    have hlength := h.length
    have hcount := h.readCalls_le
    cases hstep with
    | received data t hne hle hreceive =>
      have hdata := List.length_pos_iff.mpr hne
      have hcalls : t.2 = { s.transport.2 with receives := s.transport.2.receives + 1 } :=
        congrArg (fun x => x.2.2) hreceive.symm
      have hflatten : (s.chunks ++ [data]).flatten.length =
          s.chunks.flatten.length + data.length := by simp
      refine ⟨by rw [hcalls, h.calls], by dsimp only; omega, by dsimp only; omega, ?_⟩
      have hshort := h.shortReads
      rw [if_pos (by omega)] at hshort
      dsimp only
      split_ifs <;> omega
  · rintro s _ h hstep
    have hlength := h.length
    have hcount := h.readCalls_le
    cases hstep with
    | done hdone =>
      have hshort := h.shortReads
      rw [if_neg (not_not.mpr hdone)] at hshort
      exact ⟨h.calls, by omega, by omega, hshort⟩
    | fail e hremaining =>
      change s.transport.2.sends = sends ∧ s.transport.2.receives + 1 ≤ payload.length
      rw [h.calls]
      exact ⟨rfl, by dsimp only; omega⟩

/-- What an exchange over a counting transport has cost, and what it returns. -/
structure Bounded (payload : List UInt8) (x : Exchanged (σ × Calls) ε) : Prop where
  sends : x.2.2.sends ≤ payload.length
  receives : x.2.2.receives ≤ payload.length
  returned : ∀ data counters, x.1 = .ok (data, counters) → data.length = payload.length ∧
    x.2.2 = { sends := counters.writeCalls, receives := counters.readCalls } ∧
    counters.writeCalls = counters.shortWrites + 1 ∧ counters.readCalls = counters.shortReads + 1

/-- The exchange ends within its bounds on the calls, whatever the transport does. -/
theorem exchange_bounded (T : Transport σ ε) {payload : List UInt8} (hne : payload ≠ []) (t : σ) :
    ∃ x, exchange T.counting payload (t, { sends := 0, receives := 0 }) = some x ∧
      Bounded payload x := by
  obtain ⟨⟨e, t'⟩ | sending, hsend, h⟩ := sends_le T hne t
  · rw [exchange, hsend]
    exact ⟨_, rfl, h.1, by rw [h.2]; exact Nat.zero_le _, fun _ _ h => by cases h⟩
  obtain ⟨hcalls, hle, hshort⟩ := h
  obtain ⟨⟨e, t'⟩ | s, hreceive, h⟩ := receives_le T hne sending.writeCalls hcalls
  · rw [exchange, hsend, Option.bind_some, receiveAll, hreceive]
    exact ⟨_, rfl, h.1 ▸ hle, h.2, fun _ _ h => by cases h⟩
  · rw [exchange, hsend, Option.bind_some, receiveAll, hreceive]
    obtain ⟨hcalls, hreads, hlength, hshortReads⟩ := h
    refine ⟨_, rfl, ?_, ?_, ?_⟩
    · exact (congrArg Calls.sends hcalls).trans_le hle
    · exact (congrArg Calls.receives hcalls).trans_le hreads
    · rintro data counters ⟨⟩
      exact ⟨hlength, hcalls, hshort, hshortReads⟩

/-! ## The counted exchange is the exchange -/

/-- What an exception leaves, without the calls. -/
def forgetCalls {α : Type*} (x : α × σ × Calls) : α × σ := (x.1, x.2.1)

/-- The sender without the counts. -/
def Sending.forget (s : Sending (σ × Calls)) : Sending σ :=
  { s with transport := s.transport.1 }

/-- The receiver without the counts. -/
def Receiving.forget (s : Receiving (σ × Calls)) : Receiving σ :=
  { s with transport := s.transport.1 }

/-- Counting does not change what the sender does. -/
theorem sendStep_counting (T : Transport σ ε) (payload : List UInt8) (s : Sending (σ × Calls)) :
    sendStep T payload s.forget = (sendStep T.counting payload s).map Sending.forget
      (Sum.map forgetCalls Sending.forget) := by
  unfold sendStep
  change (if s.offset < payload.length then _ else _) = _
  by_cases hlt : s.offset < payload.length
  · rw [if_pos hlt, if_pos hlt]
    rcases hsend : T.send (payload.drop s.offset) s.transport.1 with ⟨e | count, t⟩
    · simp only [Sending.forget, Transport.counting, hsend, Sum.map_inr, Sum.map_inl,
        forgetCalls]
    · by_cases hcount : 0 < count ∧ count ≤ payload.length - s.offset
      · simp [Sending.forget, Transport.counting, hsend, hcount]
        rfl
      · simp [Sending.forget, Transport.counting, hsend, hcount, forgetCalls]
  · rw [if_neg hlt, if_neg hlt]
    rfl

/-- Counting does not change what the receiver does. -/
theorem receiveStep_counting (T : Transport σ ε) (s : Receiving (σ × Calls)) :
    receiveStep T s.forget = (receiveStep T.counting s).map Receiving.forget
      (Sum.map forgetCalls Receiving.forget) := by
  unfold receiveStep
  change (if s.remaining ≠ 0 then _ else _) = _
  by_cases hne : s.remaining ≠ 0
  · rw [if_pos hne, if_pos hne]
    rcases hreceive : T.receive s.remaining s.transport.1 with ⟨e | data, t⟩
    · simp only [Receiving.forget, Transport.counting, hreceive, Sum.map_inr, Sum.map_inl,
        forgetCalls]
    · by_cases hdata : data = [] ∨ s.remaining < data.length
      · simp [Receiving.forget, Transport.counting, hreceive, hdata, forgetCalls]
      · simp [Receiving.forget, Transport.counting, hreceive, hdata]
        rfl
  · rw [if_neg hne, if_neg hne]
    rfl

/-- Counting the calls changes nothing else. -/
theorem exchange_counting (T : Transport σ ε) (payload : List UInt8) (t : σ) (calls : Calls) :
    exchange T payload t = (exchange T.counting payload (t, calls)).map forgetCalls := by
  have hsend := Loop.run_map Sending.forget (Sum.map forgetCalls Sending.forget)
    (sendStep_counting T payload) (payload.length + 1) (.start (t, calls))
  have hreceive (sending : Sending (σ × Calls)) :=
    Loop.run_map Receiving.forget (Sum.map forgetCalls Receiving.forget)
      (receiveStep_counting T) (payload.length + 1) (.start payload sending.transport)
  have hall (r : (ExchangeError ε × σ × Calls) ⊕ Sending (σ × Calls)) :
      receiveAll T payload (r.map forgetCalls Sending.forget) =
        (receiveAll T.counting payload r).map forgetCalls := by
    rcases r with x | sending
    · rfl
    · simp only [Sum.map_inr, receiveAll]
      rw [show (Receiving.start payload sending.forget.transport) =
        (Receiving.start payload sending.transport).forget from rfl, hreceive, Option.map_map,
        Option.map_map]
      congr 1
      funext r
      rcases r with x | s <;> rfl
  rw [exchange, exchange, show Sending.start t = (Sending.start (t, calls)).forget from rfl, hsend]
  rcases Loop.run (sendStep T.counting payload) (payload.length + 1) (.start (t, calls)) with _ | r
  · rfl
  · exact hall r

/-! ## Queues -/

/-- The transport is a queue, the contents of which are given by `contents`: a call takes a nonempty
prefix of the data, or gives a nonempty prefix of the contents. -/
structure IsFifo (T : Transport σ ε) (contents : σ → List UInt8) : Prop where
  send : ∀ data t, data ≠ [] → ∃ chunk t', chunk ≠ [] ∧ chunk <+: data ∧
    T.send data t = (.ok chunk.length, t') ∧ contents t' = contents t ++ chunk
  receive : ∀ count t, 0 < count → contents t ≠ [] → ∃ chunk t', chunk ≠ [] ∧
    T.receive count t = (.ok chunk, t') ∧ contents t = chunk ++ contents t'

/-- Over a queue, the sending loop puts the payload into it. -/
theorem send_fifo {T : Transport σ ε} {contents : σ → List UInt8} (hfifo : IsFifo T contents)
    (payload : List UInt8) {t : σ} (ht : contents t = []) :
    ∃ r, Loop.run (sendStep T payload) (payload.length + 1) (.start t) = some r ∧
      ∃ s, r = .inr s ∧ contents s.transport = payload := by
  refine run_sendStep (I := fun s => contents s.transport = payload.take s.offset) ?_ ?_
    (by simpa [Sending.start] using ht)
  · rintro s _ h hstep
    cases hstep with
    | sent n t hpos hle hsend =>
      obtain ⟨chunk, t', -, hchunk, hsend', hcontents⟩ :=
        hfifo.send (payload.drop s.offset) s.transport (by simp; omega)
      -- the count that the queue returns is the number of bytes that it has taken
      obtain ⟨hn, rfl⟩ := Prod.mk.inj (hsend.symm.trans hsend')
      obtain rfl : n = chunk.length := Int.ofNat.inj (Except.ok.inj hn)
      dsimp only
      rw [hcontents, h, List.take_add, ← List.prefix_iff_eq_take.mp hchunk]
  · rintro s _ h hstep
    cases hstep with
    | done hdone => exact ⟨s, rfl, by rw [h, List.take_of_length_le hdone]⟩
    | fail e hlt hbad =>
      obtain ⟨chunk, t', hne, hchunk, hsend, -⟩ :=
        hfifo.send (payload.drop s.offset) s.transport (by simp; omega)
      have hle := hchunk.length_le
      rw [List.length_drop] at hle
      exact absurd hsend (hbad _ t' (List.length_pos_iff.mpr hne) (by omega))

/-- Over a queue, the receiving loop takes out what the queue holds. -/
theorem receive_fifo {T : Transport σ ε} {contents : σ → List UInt8} (hfifo : IsFifo T contents)
    {payload : List UInt8} {t : σ} (ht : contents t = payload) :
    ∃ r, Loop.run (receiveStep T) (payload.length + 1) (.start payload t) = some r ∧
      ∃ s, r = .inr s ∧ s.chunks.flatten = payload ∧ contents s.transport = [] := by
  -- the queue always holds as much as is still to come
  refine run_receiveStep (I := fun s => s.chunks.flatten ++ contents s.transport = payload ∧
    (contents s.transport).length = s.remaining) ?_ ?_ ⟨ht, congrArg List.length ht⟩
  · rintro s _ ⟨hdata, hlength⟩ hstep
    cases hstep with
    | received data t hne hle hreceive =>
      have hpos := List.length_pos_iff.mpr hne
      obtain ⟨chunk, t', -, hreceive', hcontents⟩ := hfifo.receive s.remaining s.transport (by omega)
        (List.ne_nil_of_length_pos (by omega))
      obtain ⟨heq, rfl⟩ := Prod.mk.inj (hreceive.symm.trans hreceive')
      obtain rfl := Except.ok.inj heq
      rw [hcontents] at hdata hlength
      rw [List.length_append] at hlength
      exact ⟨by simpa using hdata, by dsimp only; omega⟩
  · rintro s _ ⟨hdata, hlength⟩ hstep
    cases hstep with
    | done hdone =>
      have hempty := List.eq_nil_of_length_eq_zero (hlength.trans hdone)
      exact ⟨s, rfl, by rw [← hdata, hempty, List.append_nil], hempty⟩
    | fail e hremaining hbad =>
      obtain ⟨chunk, t', hne, hreceive, hcontents⟩ := hfifo.receive s.remaining s.transport (by omega)
        (List.ne_nil_of_length_pos (by omega))
      rw [hcontents, List.length_append] at hlength
      exact absurd hreceive (hbad chunk t' hne (by omega))

/-- Every exchange ends within one send and one receive for each byte of the payload; what it
returns has the length of the payload, and its counters say that all calls but the last one of each
kind were short. Over an empty queue it returns the payload and leaves the queue empty. -/
theorem exchange_exact (T : Transport σ ε) (payload : List UInt8) (hne : payload ≠ []) (t : σ) :
    (∃ x calls, exchange T.counting payload (t, { sends := 0, receives := 0 }) =
          some (x.1, x.2, calls) ∧
        exchange T payload t = some x ∧
        calls.sends ≤ payload.length ∧ calls.receives ≤ payload.length ∧
        ∀ data counters, x.1 = .ok (data, counters) → data.length = payload.length ∧
          calls = { sends := counters.writeCalls, receives := counters.readCalls } ∧
          counters.writeCalls = counters.shortWrites + 1 ∧
          counters.readCalls = counters.shortReads + 1) ∧
      ∀ contents : σ → List UInt8, IsFifo T contents → contents t = [] →
        ∃ counters t', exchange T payload t = some (.ok (payload, counters), t') ∧
          contents t' = [] := by
  constructor
  · obtain ⟨x, hx, hbounded⟩ := exchange_bounded T hne t
    have hcount := exchange_counting T payload t { sends := 0, receives := 0 }
    rw [hx] at hcount
    exact ⟨forgetCalls x, x.2.2, hx, hcount, hbounded.sends, hbounded.receives, hbounded.returned⟩
  · intro contents hfifo ht
    obtain ⟨_, hsend, sending, rfl, hfull⟩ := send_fifo hfifo payload ht
    obtain ⟨_, hreceive, s, rfl, hdata, hempty⟩ := receive_fifo hfifo hfull
    have hexchange : exchange T payload t = some (returned sending (.inr s)) := by
      rw [exchange, hsend, Option.bind_some, receiveAll, hreceive, Option.map_some]
    rw [returned, hdata] at hexchange
    exact ⟨_, s.transport, hexchange, hempty⟩

/-- A queue that takes two bytes of a call, and gives three, at the most. -/
def shortTransport : Transport (List UInt8) String where
  send data t := (.ok (data.take 2).length, t ++ data.take 2)
  receive count t := (.ok (t.take (min count 3)), t.drop (min count 3))

/-- The transport that moves little at a time is a queue. -/
theorem isFifo_shortTransport : IsFifo shortTransport id where
  send data t hne := ⟨data.take 2, _, by simpa using hne, List.take_prefix 2 data, rfl, rfl⟩
  receive count t hcount hne := by
    refine ⟨t.take (min count 3), _, ?_, rfl, (List.take_append_drop _ t).symm⟩
    rw [ne_eq, List.take_eq_nil_iff, not_or]
    exact ⟨by omega, hne⟩

/-- The exchange of eight bytes over a transport that moves little at a time. -/
theorem exchange_exact_short :
    (∃ (x : Exchanged (List UInt8) String) (calls : Calls),
      exchange shortTransport.counting [1, 2, 3, 4, 5, 6, 7, 8] ([], { sends := 0, receives := 0 }) =
          some (x.1, x.2, calls) ∧ calls.sends ≤ 8 ∧ calls.receives ≤ 8) ∧
      ∃ counters, exchange shortTransport [1, 2, 3, 4, 5, 6, 7, 8] [] =
        some (.ok ([1, 2, 3, 4, 5, 6, 7, 8], counters), []) := by
  obtain ⟨⟨x, calls, hx, -, hsends, hreceives, -⟩, hfifo⟩ :=
    exchange_exact shortTransport [1, 2, 3, 4, 5, 6, 7, 8] (by decide) []
  obtain ⟨counters, t', hexchange, rfl⟩ := hfifo id isFifo_shortTransport rfl
  exact ⟨⟨x, calls, hx, hsends, hreceives⟩, counters, hexchange⟩

example : exchange shortTransport [1, 2, 3, 4, 5, 6, 7, 8] [] =
    some (.ok ([1, 2, 3, 4, 5, 6, 7, 8],
      { writeCalls := 4, readCalls := 3, shortWrites := 3, shortReads := 2 }), []) := by
  rfl

end Lab.Benchmark
